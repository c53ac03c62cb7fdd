import Gml.Number.Literal
import Gml.Tree.Parser.Basic

/-!
# Reading expressions

Expressions are read by precedence, from the conditional at the loosest to the literals and brackets
at the tightest. The operators between two operands come in eleven levels, each of which groups to
the left; `Operator.levels` lists them, the loosest first.

What stands inside brackets, after a sign or in a branch is one level of nesting further in. The
actions for it are handed down in an `Inner`, so that everything here is defined for one level only.
-/

namespace Gml

/-- An operator between two operands. -/
inductive Operator where
  | binary (operator : BinaryOp)
  | logical (operator : LogicalOp)
  deriving DecidableEq, Repr

namespace Operator

/-- The operation on two operands. -/
def node (position : Position) (lhs rhs : Node) : Operator → Node
  | binary operator => .binary position operator lhs rhs
  | logical operator => .logical position operator lhs rhs

/-- The operators of each level, the loosest first. In an expression a single `=` compares. -/
def levels : List (List (Kind × Operator)) :=
  [[(.logicalOr, logical .or)],
   [(.logicalXor, logical .xor)],
   [(.logicalAnd, logical .and)],
   [(.bitOr, binary .bitOr)],
   [(.bitXor, binary .bitXor)],
   [(.bitAnd, binary .bitAnd)],
   [(.equal, binary .equal), (.assign, binary .equal), (.notEqual, binary .notEqual)],
   [(.less, binary .less), (.lessEqual, binary .lessEqual), (.greater, binary .greater),
    (.greaterEqual, binary .greaterEqual)],
   [(.shiftLeft, binary .shiftLeft), (.shiftRight, binary .shiftRight)],
   [(.plus, binary .add), (.minus, binary .subtract)],
   [(.star, binary .multiply), (.slash, binary .divide), (.percent, binary .modulo),
    (.intDiv, binary .intDivide)]]

end Operator

/-- The accessor of an opening bracket. -/
def Accessor.ofKind : Kind → Accessor
  | .mapIndex => .map
  | .arrayRefIndex => .arrayRef
  | .gridIndex => .grid
  | .listIndex => .list
  | _ => .array

/-- Whether an accessor takes so many indices. -/
def Accessor.takes : Accessor → Nat → Bool
  | .grid, count => count = 2
  | .map, count | .list, count => count = 1
  | .array, count | .arrayRef, count => count ≤ 2

/-- The step of a sign. -/
def Step.ofKind : Kind → Step
  | .decrement => .decrement
  | _ => .increment

/-- The number of a literal at a place. -/
def Literal.node (position : Position) : Literal → Node
  | int value => .int position value
  | real value => .real position value

/-- The actions one level of nesting further in. -/
structure Inner where
  /-- Reads a statement. -/
  statement : Parse Node
  /-- Reads an expression. -/
  expression : Parse Node
  /-- Reads the operand of a sign. -/
  operand : Parse Node

namespace Parse

/-! ### Literals and brackets -/

/-- A field of a struct literal. -/
def structField (inner : Inner) : Parse (String × Node) := do
  let key ←
    match ← kind with
    | .identifier | .string => pure (← next).value
    | _ => unexpected .atStructKey
  let _ ← eat .colon
  return (key, ← inner.expression)

/-- A literal, a name or something in brackets. -/
def primary (inner : Inner) : Parse Node := do
  let start ← position
  match ← kind with
  | .number =>
    let token ← next
    match Literal.ofText token.value with
    | .ok literal => return literal.node start
    | .error fault => throw ⟨fault, token.position⟩
  | .string => return .string start (← next).value false
  | .rawString => return .string start (← next).value true
  | .identifier => return .ident start (← next).value .unresolved
  | .leftParen =>
    let _ ← next
    let inside ← inner.expression
    let _ ← eat .rightParen
    return inside
  | .leftBrace =>
    let _ ← next
    let fields ← listUntil .rightBrace (structField inner)
    let _ ← eat .rightBrace
    return .struct start fields
  | .leftBracket =>
    let _ ← next
    let elements ← listUntil .rightBracket inner.expression
    let _ ← eat .rightBracket
    return .array start elements
  | _ => unexpected .atExpression

/-! ### What follows an operand -/

/-- The arguments of a call, up to its closing parenthesis. -/
def arguments (inner : Inner) : Parse (List Node) :=
  loop (β := List Node) (fun items => do
    if ← check .rightParen then return .inr items.reverse
    unless items.isEmpty do
      let _ ← eat .comma
    return .inl ((← inner.expression) :: items)) []

/-- A call of what has been read. -/
def callOf (inner : Inner) (callee : Node) : Parse Node := do
  let start := (← next).position
  let arguments ← arguments inner
  let _ ← eat .rightParen
  return .call start callee arguments

/-- An index into what has been read. -/
def indexOf (inner : Inner) (container : Node) : Parse Node := do
  let bracket ← next
  let accessor := Accessor.ofKind bracket.kind
  let indices ← separated inner.expression
  unless accessor.takes indices.length do
    throw ⟨.indexCount indices.length accessor, bracket.position⟩
  let _ ← eat .rightBracket
  return .index bracket.position container accessor indices

/-- A field of what has been read. -/
def memberOf (instanceOf : Node) : Parse Node := do
  let start := (← next).position
  let field ← eatName
  return .member start instanceOf field.value

/-- A step by one of what has been read. -/
def steppedAfter (target : Node) : Parse Node := do
  unless target.isAssignable do
    fail .badUpdate
  let token ← next
  return .update target.position target (.ofKind token.kind) false

/-- An operand with all calls, indices and fields after it, and at most one step. -/
def postfixed (inner : Inner) : Parse Node := do
  let first ← primary inner
  loop (β := Node) (fun operand => do
    match ← kind with
    | .leftParen => return .inl (← callOf inner operand)
    | .leftBracket | .mapIndex | .arrayRefIndex | .gridIndex | .listIndex =>
      return .inl (← indexOf inner operand)
    | .dot => return .inl (← memberOf operand)
    | .increment | .decrement => return .inr (← steppedAfter operand)
    | _ => return .inr operand) first

/-! ### Signs and operators -/

/-- A step by one before its target. -/
def steppedBefore (inner : Inner) : Parse Node := do
  let token ← next
  let target ← postfixed inner
  unless target.isAssignable do
    throw ⟨.badUpdate, target.position⟩
  return .update token.position target (.ofKind token.kind) true

/-- A sign before its operand. -/
def signed (inner : Inner) (operator : UnaryOp) : Parse Node := do
  let start := (← next).position
  return .unary start operator (← inner.operand)

/-- An operand with all signs before it. A plus sign changes nothing. -/
def unary (inner : Inner) : Parse Node := do
  match ← kind with
  | .bang => signed inner .not
  | .minus => signed inner .negate
  | .bitNot => signed inner .bitNot
  | .plus =>
    let _ ← next
    inner.operand
  | .increment | .decrement => steppedBefore inner
  | _ => postfixed inner

/-- Operands with operators of one level between them, grouped to the left. -/
def chain (operators : List (Kind × Operator)) (operand : Parse Node) : Parse Node := do
  let first ← operand
  loop (β := Node) (fun lhs => do
    match operators.lookup (← kind) with
    | none => return .inr lhs
    | some operator =>
      let start := (← next).position
      let rhs ← operand
      return .inl (operator.node start lhs rhs)) first

/-- Operands with operators of several levels between them. -/
def ladder (operand : Parse Node) : List (List (Kind × Operator)) → Parse Node
  | [] => operand
  | operators :: tighter => chain operators (ladder operand tighter)

/-- An expression of one level of nesting. -/
def conditional (inner : Inner) : Parse Node := do
  let condition ← ladder (unary inner) Operator.levels
  if ← check .question then
    let start := (← next).position
    let thenValue ← inner.expression
    let _ ← eat .colon
    let elseValue ← inner.expression
    return .conditional start condition thenValue elseValue
  else
    return condition

end Parse

end Gml
