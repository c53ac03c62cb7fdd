import Gml.Code.Generate.Basic

/-!
# Writing code for expressions

The code of an expression leaves its value on the stack. Arguments of a call are pushed from the
last to the first, so that the first is on top.
-/

namespace Gml

namespace Node

open Generate

mutual

/-- Writes code that pushes the value of an expression. -/
def expression : Node → Generate Unit
  | int _ value => do
    if Int32.minValue.toInt ≤ value.toInt ∧ value.toInt ≤ Int32.maxValue.toInt then
      write (.pushInt value.toInt32)
    else
      write (.pushReal (← constant (.ofFloat (Float.ofInt value.toInt))))
  | real _ value => do
    write (.pushReal (← constant value))
  | string _ value _ => do
    write (.pushString (← Generate.string value))
  | ident p name resolution => do
    match resolution with
    | .intrinsic value | .userSymbol value => write (.pushInt value)
    | .builtinFunction => write (.pushFunction (← Generate.string name))
    | _ =>
      let place ← namedPlace name resolution p
      write place.load
  | binary _ operator lhs rhs => do
    lhs.expression
    rhs.expression
    write operator.instruction
  | logical p operator lhs rhs => do
    match operator with
    | .and => shortCircuit (.branchFalse .pending) 0 p lhs.expression rhs.expression
    | .or => shortCircuit (.branchTrue .pending) 1 p lhs.expression rhs.expression
    | .xor =>
      lhs.expression
      write .not
      rhs.expression
      write .not
      write (.cmp .notEqual)
  | unary _ operator operand => do
    operand.expression
    write operator.instruction
  | conditional p condition thenValue elseValue => do
    condition.expression
    let skipThen ← emit (.branchFalse .pending)
    thenValue.expression
    let skipElse ← emit (.branch .pending)
    patchHere skipThen p
    elseValue.expression
    patchHere skipElse p
  | call p callee arguments => do
    let argc ← byteCount "arguments" arguments.length p
    expressionsLastFirst arguments
    match callee with
    | ident _ name .builtinFunction => write (.call (← Generate.string name) argc)
    | ident _ _ (.userSymbol reference) => write (.callScript reference argc)
    | _ =>
      callee.expression
      write (.callValue argc)
  | index p container accessor indices => do
    let place ← elementPlace p container accessor indices container.expression
      (expressions indices)
    write place.load
  | member _ instanceOf field => do
    instanceOf.expression
    write (.pushField (← Generate.string field))
  | update _ target step inFront => do
    stepped (← target.address) step inFront
  | struct p fields => do
    fieldExpressions fields
    write (.newStruct (← wordCount "struct fields" fields.length p))
  | array p elements => do
    expressions elements
    write (.newArray (← wordCount "array elements" elements.length p))
  | node => fail (.statementAsExpression node) node.position
termination_by structural node => node

/-- Writes code that pushes the address of an assignable expression. -/
def address : Node → Generate Place
  | ident p name resolution => namedPlace name resolution p
  | member _ instanceOf field => do
    instanceOf.expression
    return .field (← Generate.string field)
  | index p container accessor indices =>
    elementPlace p container accessor indices container.expression (expressions indices)
  | node => fail .notPlace node.position
termination_by structural node => node

/-- Pushes the values of several expressions, the first one first. -/
def expressions : List Node → Generate Unit
  | [] => return
  | node :: rest => do
    node.expression
    expressions rest
termination_by structural nodes => nodes

/-- Pushes the values of several expressions, the last one first. -/
def expressionsLastFirst : List Node → Generate Unit
  | [] => return
  | node :: rest => do
    expressionsLastFirst rest
    node.expression
termination_by structural nodes => nodes

/-- Pushes the keys and values of a struct. -/
def fieldExpressions : List (String × Node) → Generate Unit
  | [] => return
  | (key, value) :: rest => do
    write (.pushString (← Generate.string key))
    value.expression
    fieldExpressions rest
termination_by structural fields => fields

end

end Node

end Gml
