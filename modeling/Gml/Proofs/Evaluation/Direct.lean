import Gml.Code.Generate.Expression
import Gml.Machine.Exec

/-!
# Evaluating expressions

What an expression means, said by recursion over the expression: which parts of it are evaluated and
in which order, what its value is and what it changes. There is no code here and no stack. A machine
only serves as the place of variables, arguments, arrays, structs and calls.

`Node.evaluate` gives the value of an expression. `Node.locate` gives the `Spot` where an assignable
one lives: the parts of its address are evaluated once, and then the spot can be read and written.
-/

namespace Gml

open Exec

namespace Exec

/-- A variable of an instance. -/
def variableOf (id : Int) (name : String) : Exec Value := do
  return ((← variablesOf id).get? name).getD .undefined

/-- An argument of the script. -/
def argumentAt (index : Nat) : Exec Value := do
  return (← get).arguments[index]?.getD .undefined

/-- The array of some items. -/
def arrayOf (items : List Value) : Exec Value :=
  modifyGet fun machine =>
    let (value, heap) := machine.heap.newArray items.toArray
    (value, { machine with heap })

/-- The struct of some fields. -/
def structOf (fields : List (String × Value)) : Exec Value :=
  modifyGet fun machine =>
    let (value, heap) := machine.heap.newStruct (Table.ofList fields)
    (value, { machine with heap })

end Exec

/-! ### Operators -/

/-- Applies an operator to two values. -/
def BinaryOp.apply : BinaryOp → Value → Value → Exec Value
  | add, x, y => operate .add x y
  | subtract, x, y => operate .sub x y
  | multiply, x, y => operate .mul x y
  | divide, x, y => operate .div x y
  | intDivide, x, y => operate .intDiv x y
  | modulo, x, y => operate .mod x y
  | bitAnd, x, y => operate .bitAnd x y
  | bitOr, x, y => operate .bitOr x y
  | bitXor, x, y => operate .bitXor x y
  | shiftLeft, x, y => operate .shl x y
  | shiftRight, x, y => operate .shr x y
  | equal, x, y => return .ofBool (← compares .equal x y)
  | notEqual, x, y => return .ofBool (← compares .notEqual x y)
  | less, x, y => return .ofBool (← compares .less x y)
  | lessEqual, x, y => return .ofBool (← compares .lessEqual x y)
  | greater, x, y => return .ofBool (← compares .greater x y)
  | greaterEqual, x, y => return .ofBool (← compares .greaterEqual x y)

/-- Applies an operator to a value. -/
def UnaryOp.apply : UnaryOp → Value → Exec Value
  | not, x => return .ofBool !x.isTrue
  | negate, x => return .real (-(← number x))
  | bitNot, x => return .real (ofBits (~~~ bits (← number x)))

/-- Steps a value by one. -/
def Step.apply : Step → Value → Exec Value
  | increment, x => operate .add x (.real 1)
  | decrement, x => operate .sub x (.real 1)

/-! ### Spots -/

/-- Where an assignable expression lives, once the parts of its address have their values. -/
inductive Spot where
  /-- A variable by its name. -/
  | named (name : String) (resolution : Resolution)
  /-- A variable of an instance. -/
  | field (instanceOf : Value) (name : String)
  /-- An argument by its index. -/
  | argument (index : Value)
  /-- An element of a container. -/
  | element (accessor : Accessor) (container : Value) (indices : List Value)

/-- The place of a local variable, given the names of all of them. -/
def slotOf (names : Array String) (name : String) : Nat :=
  names.toList.idxOf name

namespace Spot

variable (names : Array String)

/-- The value at a spot. -/
def load : Spot → Exec Value
  | named name resolution => do
    match resolution with
    | .localVar => return (← get).locals[slotOf names name]?.getD .undefined
    | .globalVar => return ((← get).globals.get? name).getD .undefined
    | .builtinVariable | .argumentArray => return ((← get).builtins.get? name).getD (.real 0)
    | .argument index => argumentAt index.toNat
    | _ => variableOf (← get).current name
  | field instanceOf name => do
    variableOf (instanceId (← number instanceOf)) name
  | argument index => do
    argumentAt (Exec.index (← number index))
  | element accessor container indices => Exec.element accessor indices container

/-- Puts a value at a spot. -/
def store (value : Value) : Spot → Exec Unit
  | named name resolution => do
    match resolution with
    | .localVar => modify fun machine =>
        { machine with locals := machine.locals.setIfInBounds (slotOf names name) value }
    | .globalVar => modify fun machine =>
        { machine with globals := machine.globals.insert name value }
    | .builtinVariable | .argumentArray => modify fun machine =>
        { machine with builtins := machine.builtins.insert name value }
    | .argument index => storeArgument index.toNat value
    | _ => storeVariable (← get).current name value
  | field instanceOf name => do
    storeVariable (instanceId (← number instanceOf)) name value
  | argument index => do
    storeArgument (Exec.index (← number index)) value
  | element accessor container indices => setElement accessor value indices container

/-- The spot of an index, given how to evaluate the container and the indices. The array of all
arguments is not evaluated: its elements are the arguments. -/
def ofIndex (container : Node) (accessor : Accessor) (indices : List Node)
    (containerValue : Exec Value) (indexValues : Exec (List Value)) : Exec Spot := do
  if Generate.isArgument container accessor indices then
    return .argument ((← indexValues).head?.getD .undefined)
  else
    let container ← containerValue
    return .element accessor container (← indexValues)

end Spot

/-! ### Expressions -/

namespace Node

variable (names : Array String)

mutual

/-- The value of an expression, given the names of the local variables. -/
def evaluate : Node → Exec Value
  | int _ value => return .real (Float.ofInt value.toInt)
  | real _ value => return .real value.toFloat
  | string _ value _ => return .string value
  | ident _ name resolution => do
    match resolution with
    | .intrinsic value | .userSymbol value => return .real (Float.ofInt value.toInt)
    | .builtinFunction => return .string name
    | _ => Spot.load names (.named name resolution)
  | binary _ operator lhs rhs => do
    let x ← lhs.evaluate
    let y ← rhs.evaluate
    operator.apply x y
  | logical _ operator lhs rhs => do
    let x ← lhs.evaluate
    match operator with
    | .and => if x.isTrue then return .ofBool (← rhs.evaluate).isTrue else return .ofBool false
    | .or => if x.isTrue then return .ofBool true else return .ofBool (← rhs.evaluate).isTrue
    | .xor => return .ofBool (x.isTrue != (← rhs.evaluate).isTrue)
  | unary _ operator operand => do
    operator.apply (← operand.evaluate)
  | conditional _ condition thenValue elseValue => do
    if (← condition.evaluate).isTrue then thenValue.evaluate else elseValue.evaluate
  | call _ callee arguments => do
    let values ← evaluateLastFirst arguments
    match callee with
    | ident _ name .builtinFunction =>
      log name
      return values.head?.getD (.real 0)
    | ident _ _ (.userSymbol reference) =>
      log s!"script {reference}"
      return .undefined
    | _ =>
      let _ ← callee.evaluate
      return .undefined
  | index _ container accessor indices => do
    let spot ← Spot.ofIndex container accessor indices container.evaluate (evaluateAll indices)
    spot.load names
  | member _ instanceOf field => do
    let instanceOf ← instanceOf.evaluate
    Spot.load names (.field instanceOf field)
  | update _ target step inFront => do
    let spot ← target.locate
    let old ← spot.load names
    let new ← step.apply old
    spot.store names new
    return if inFront then new else old
  | struct _ fields => do
    structOf (← evaluateFields fields)
  | array _ elements => do
    arrayOf (← evaluateAll elements)
  | _ => return .undefined
termination_by structural node => node

/-- The spot of an assignable expression. -/
def locate : Node → Exec Spot
  | ident _ name resolution => return .named name resolution
  | member _ instanceOf field => return .field (← instanceOf.evaluate) field
  | index _ container accessor indices =>
    Spot.ofIndex container accessor indices container.evaluate (evaluateAll indices)
  | _ => return .named "" .unresolved
termination_by structural node => node

/-- The values of several expressions, evaluated from the first to the last. -/
def evaluateAll : List Node → Exec (List Value)
  | [] => return []
  | node :: rest => do
    let value ← node.evaluate
    return value :: (← evaluateAll rest)
termination_by structural nodes => nodes

/-- The values of several expressions, evaluated from the last to the first. -/
def evaluateLastFirst : List Node → Exec (List Value)
  | [] => return []
  | node :: rest => do
    let values ← evaluateLastFirst rest
    return (← node.evaluate) :: values
termination_by structural nodes => nodes

/-- The keys and values of a struct, evaluated from the first to the last. -/
def evaluateFields : List (String × Node) → Exec (List (String × Value))
  | [] => return []
  | (key, value) :: rest => do
    let value ← value.evaluate
    return (key, value) :: (← evaluateFields rest)
termination_by structural fields => fields

end

end Node

end Gml
