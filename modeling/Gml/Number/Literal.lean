import Gml.Diagnostic
import Gml.Token.Lexer

/-!
# Number literals

A hexadecimal literal is a 64-bit pattern, read as a signed number. A decimal literal without a
point is a whole number if it fits in 64 bits with a sign; every other decimal literal is the
nearest double.
-/

namespace Gml

/-- The number that a literal stands for. -/
inductive Literal where
  | int (value : Int64)
  | real (value : Double)
  deriving DecidableEq, Repr

namespace Literal

/-- The digits of a hexadecimal literal. -/
def hexDigits? : List Char → Option (List Char)
  | '$' :: digits => some digits
  | '0' :: 'x' :: digits => some digits
  | '0' :: 'X' :: digits => some digits
  | _ => none

/-- The number of hexadecimal digits, if it has at most 64 bits. -/
def ofHexDigits? (digits : List Char) : Option Literal :=
  let n := Text.numberOf 16 digits
  if digits.isEmpty || !digits.all Text.isHexDigit || UInt64.size ≤ n then none
  else some (.int (Int64.ofNat n))

/-- The number of a decimal literal: digits with at most one point among them. -/
def ofDecimal? (chars : List Char) : Option Literal :=
  let whole := chars.takeWhile Char.isDigit
  match chars.drop whole.length with
  | [] =>
    let n := Text.numberOf 10 whole
    if whole.isEmpty then none
    else if (n : Int) ≤ Int64.maxValue.toInt then some (.int (Int64.ofNat n))
    else some (.real (.ofFloat (Float.ofScientific n false 0)))
  | '.' :: places =>
    if (whole ++ places).isEmpty || !places.all Char.isDigit then none
    else
      let n := Text.numberOf 10 (whole ++ places)
      some (.real (.ofFloat (Float.ofScientific n true places.length)))
  | _ => none

/-- The number that a literal stands for. -/
def ofText (text : String) : Except Fault Literal :=
  match hexDigits? text.toList with
  | some digits =>
    match ofHexDigits? digits with
    | some literal => .ok literal
    | none => .error (.hexRange text)
  | none =>
    match ofDecimal? text.toList with
    | some literal => .ok literal
    | none => .error (.malformedNumber text)

end Literal

end Gml
