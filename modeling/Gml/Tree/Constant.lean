import Gml.Intrinsic
import Gml.Table
import Gml.Tree

/-!
# Constant values

The value of an expression that is known without running anything: integers, members of
enumerations, and the operators on them. All arithmetic is on 64-bit integers, and a result that
does not fit is no constant. Division is exact or no constant at all.
-/

namespace Gml

/-- The values of the members of enumerations. -/
abbrev Enums := Table String (Table String Int64)

/-- What constants may refer to. -/
structure Constants where
  /-- Enumerations, whose members are named after them. -/
  enums : Enums := {}
  /-- Values that are named alone. -/
  values : Table String Int64 := {}
  deriving Inhabited

namespace Constant

/-- An integer, if it has 64 bits. -/
def fit? (n : Int) : Option Int64 :=
  if Int64.minValue.toInt ≤ n ∧ n ≤ Int64.maxValue.toInt then some (Int64.ofInt n) else none

/-- A truth value as a number. -/
def ofBool (b : Bool) : Int64 :=
  if b then 1 else 0

/-- Whether a number counts as true. -/
def isTrue (n : Int64) : Bool :=
  n ≠ 0

/-- The quotient on the side of zero. -/
def quotient? (a b : Int64) : Option Int64 :=
  if b = 0 then none else fit? (a.toInt.tdiv b.toInt)

/-- The remainder with the sign of the first number. Where the quotient does not fit there is no
remainder either. -/
def remainder? (a b : Int64) : Option Int64 :=
  if (quotient? a b).isNone then none else fit? (a.toInt.tmod b.toInt)

/-- The quotient without a remainder. -/
def exactQuotient? (a b : Int64) : Option Int64 :=
  if remainder? a b = some 0 then quotient? a b else none

/-- A number that bits can be shifted by. -/
def isShift (n : Int64) : Bool :=
  0 ≤ n.toInt && n.toInt < 64

/-- An operation on two constants. -/
def binary? (a b : Int64) : BinaryOp → Option Int64
  | .add => fit? (a.toInt + b.toInt)
  | .subtract => fit? (a.toInt - b.toInt)
  | .multiply => fit? (a.toInt * b.toInt)
  | .divide => exactQuotient? a b
  | .intDivide => quotient? a b
  | .modulo => remainder? a b
  | .bitAnd => some (a &&& b)
  | .bitOr => some (a ||| b)
  | .bitXor => some (a ^^^ b)
  | .shiftLeft => if isShift b then some (a <<< b) else none
  | .shiftRight => if isShift b then some (a >>> b) else none
  | .equal => some (ofBool (a = b))
  | .notEqual => some (ofBool (a ≠ b))
  | .less => some (ofBool (a.toInt < b.toInt))
  | .lessEqual => some (ofBool (a.toInt ≤ b.toInt))
  | .greater => some (ofBool (b.toInt < a.toInt))
  | .greaterEqual => some (ofBool (b.toInt ≤ a.toInt))

/-- An operation on two truth values. -/
def logical (a b : Int64) : LogicalOp → Int64
  | .and => ofBool (isTrue a && isTrue b)
  | .or => ofBool (isTrue a || isTrue b)
  | .xor => ofBool (isTrue a != isTrue b)

/-- An operation on one constant. -/
def unary? (a : Int64) : UnaryOp → Option Int64
  | .negate => fit? (-a.toInt)
  | .bitNot => some (~~~a)
  | .not => some (ofBool !(isTrue a))

/-- A number without a fraction, if it lies strictly within the range of 64-bit integers. -/
def ofDouble? (x : Double) : Option Int64 :=
  let n := x.toIntWithin Int64.minValue.toInt Int64.maxValue.toInt
  if x.isWhole && Int64.minValue.toInt < n && n < Int64.maxValue.toInt then some (Int64.ofInt n)
  else none

/-- The value of a name. Of the names with a fixed number only the truth values are constants. -/
def ofName? (constants : Constants) (name : String) : Option Int64 :=
  match constants.values.get? name with
  | some value => some value
  | none =>
    if name = "true" || name = "false" then
      (intrinsic? name).map fun n => n.toInt64
    else none

end Constant

open Constant

/-- The constant value of an expression, if it has one. Only the branch that a condition chooses has
to be constant. -/
def Node.constant? (constants : Constants) : Node → Option Int64
  | int _ value => some value
  | real _ value => ofDouble? value
  | ident _ name _ => ofName? constants name
  | member _ (ident _ name _) field => do
    (← constants.enums.get? name).get? field
  | unary _ operator operand => do
    unary? (← operand.constant? constants) operator
  | binary _ operator lhs rhs => do
    let a ← lhs.constant? constants
    let b ← rhs.constant? constants
    binary? a b operator
  | logical _ operator lhs rhs => do
    let a ← lhs.constant? constants
    let b ← rhs.constant? constants
    return Constant.logical a b operator
  | conditional _ condition thenValue elseValue => do
    if isTrue (← condition.constant? constants) then
      thenValue.constant? constants
    else
      elseValue.constant? constants
  | _ => none
termination_by structural node => node

end Gml
