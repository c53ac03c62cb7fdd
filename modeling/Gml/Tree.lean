import Gml.Number.Double
import Gml.Position

/-!
# Script trees

A script is read into a tree. The tree has one type of node for expressions and statements alike:
what stands where an expression is wanted is a rule of the language, not of the tree, and the stages
that need it check it.

Every node has the place in the source that a message about it should point to.
-/

namespace Gml

/-- An operator between two operands that are both always computed. -/
inductive BinaryOp where
  | add | subtract | multiply | divide | intDivide | modulo
  | bitAnd | bitOr | bitXor | shiftLeft | shiftRight
  | equal | notEqual | less | lessEqual | greater | greaterEqual
  deriving DecidableEq, Repr, Inhabited

/-- An operator on truth values. -/
inductive LogicalOp where
  | and | or | xor
  deriving DecidableEq, Repr, Inhabited

/-- An operator with one operand. -/
inductive UnaryOp where
  | not | negate | bitNot
  deriving DecidableEq, Repr, Inhabited

/-- How an index reaches into its container, told by the sign after the opening bracket. -/
inductive Accessor where
  /-- No sign. -/
  | array
  /-- The sign `?`. -/
  | map
  /-- The sign `@`. -/
  | arrayRef
  /-- The sign `#`. -/
  | grid
  /-- The sign `|`. -/
  | list
  deriving DecidableEq, Repr, Inhabited

/-- An assignment, plain or with an operation on the old value. -/
inductive AssignOp where
  | assign | add | subtract | multiply | divide | modulo | bitOr | bitAnd | bitXor
  deriving DecidableEq, Repr, Inhabited

/-- The operation that a compound assignment does before it stores. -/
def AssignOp.binary? : AssignOp → Option BinaryOp
  | assign => none
  | add => some .add
  | subtract => some .subtract
  | multiply => some .multiply
  | divide => some .divide
  | modulo => some .modulo
  | bitOr => some .bitOr
  | bitAnd => some .bitAnd
  | bitXor => some .bitXor

/-- A step by one, up or down. -/
inductive Step where
  | increment | decrement
  deriving DecidableEq, Repr, Inhabited

/-- What a name refers to. -/
inductive Resolution where
  /-- Not looked up yet. -/
  | unresolved
  /-- A local variable of the script. -/
  | localVar
  /-- A global variable. -/
  | globalVar
  /-- One argument of the script. -/
  | argument (index : UInt8)
  /-- All arguments of the script. -/
  | argumentArray
  /-- A function of the target. -/
  | builtinFunction
  /-- A variable of the target. -/
  | builtinVariable
  /-- A script, object or asset of the project. -/
  | userSymbol (reference : Int32)
  /-- A name with a fixed number. -/
  | intrinsic (value : Int32)
  /-- A variable of the instance, looked up when the script runs. -/
  | dynamic
  deriving DecidableEq, Repr, Inhabited

/-- A name that may be given a value: a declared variable or a member of an enumeration. -/
structure Binding (α : Type) where
  /-- The name. -/
  name : String
  /-- The value, if one is given. -/
  value : Option α
  /-- Where the name stands. -/
  position : Position
  deriving Inhabited

/-- An arm of a switch. -/
structure Case (α : Type) where
  /-- The value to compare with; the default arm has none. -/
  label : Option α
  /-- What to do. -/
  body : List α
  /-- Where the arm starts. -/
  position : Position
  deriving Inhabited

/-- A node of a script tree. -/
inductive Node where
  /-- A whole number. -/
  | int (position : Position) (value : Int64)
  /-- A number with a fraction, or one too large for a whole number. -/
  | real (position : Position) (value : Double)
  /-- A text; a verbatim one was written without escapes. -/
  | string (position : Position) (value : String) (verbatim : Bool)
  /-- A name. -/
  | ident (position : Position) (name : String) (resolution : Resolution)
  /-- An operation on two operands. -/
  | binary (position : Position) (operator : BinaryOp) (lhs rhs : Node)
  /-- An operation on two truth values. -/
  | logical (position : Position) (operator : LogicalOp) (lhs rhs : Node)
  /-- An operation on one operand. -/
  | unary (position : Position) (operator : UnaryOp) (operand : Node)
  /-- One of two values. -/
  | conditional (position : Position) (condition thenValue elseValue : Node)
  /-- A call. -/
  | call (position : Position) (callee : Node) (arguments : List Node)
  /-- A place in a container. -/
  | index (position : Position) (container : Node) (accessor : Accessor) (indices : List Node)
  /-- A field of an instance. -/
  | member (position : Position) (instanceOf : Node) (field : String)
  /-- A step by one, which gives the new value if written in front and the old one otherwise. -/
  | update (position : Position) (target : Node) (step : Step) (inFront : Bool)
  /-- A struct of named values. -/
  | struct (position : Position) (fields : List (String × Node))
  /-- An array of values. -/
  | array (position : Position) (elements : List Node)
  /-- A store. -/
  | assign (position : Position) (target : Node) (operator : AssignOp) (value : Node)
  /-- Statements in sequence. -/
  | block (position : Position) (body : List Node)
  /-- A choice. -/
  | ifElse (position : Position) (condition thenBody : Node) (elseBody : Option Node)
  /-- A loop that tests first. -/
  | whileDo (position : Position) (condition body : Node)
  /-- A loop that tests last. -/
  | doUntil (position : Position) (body condition : Node)
  /-- A loop with a fixed count. -/
  | repeatTimes (position : Position) (count body : Node)
  /-- A loop with clauses before it and after each round. -/
  | forLoop (position : Position) (init : List Node) (condition : Option Node) (step : List Node)
      (body : Node)
  /-- A choice among labelled arms, which fall through. -/
  | switch (position : Position) (subject : Node) (cases : List (Case Node))
  /-- A body run as each of several instances. -/
  | withEach (position : Position) (targets : List Node) (body : Node)
  /-- Local variables. -/
  | declare (position : Position) (bindings : List (Binding Node))
  /-- Global variables. -/
  | declareGlobal (position : Position) (names : List String)
  /-- An enumeration. -/
  | declareEnum (position : Position) (name : String) (members : List (Binding Node))
  /-- The end of the script, with a value if there is one. -/
  | returning (position : Position) (value : Option Node)
  /-- The end of the script. -/
  | exit (position : Position)
  /-- The end of the innermost loop, switch or instance body. -/
  | breaking (position : Position)
  /-- The next round of the innermost loop or instance body. -/
  | continuing (position : Position)
  /-- An expression whose value nobody reads. -/
  | discard (position : Position) (expression : Node)
  deriving Inhabited

namespace Node

/-- The place that a message about the node points to. -/
def position : Node → Position
  | int p .. | real p .. | string p .. | ident p .. | binary p .. | logical p .. | unary p ..
  | conditional p .. | call p .. | index p .. | member p .. | update p .. | struct p ..
  | array p .. | assign p .. | block p .. | ifElse p .. | whileDo p .. | doUntil p ..
  | repeatTimes p .. | forLoop p .. | switch p .. | withEach p .. | declare p ..
  | declareGlobal p .. | declareEnum p .. | returning p .. | exit p | breaking p | continuing p
  | discard p .. => p

/-- Whether the node can stand on the left of an assignment or beside a step by one. -/
def isAssignable : Node → Bool
  | ident .. | member .. | index .. => true
  | _ => false

end Node

/-- A whole script. -/
structure Script where
  /-- The statements at top level. -/
  body : List Node
  deriving Inhabited

end Gml
