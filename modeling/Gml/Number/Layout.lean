import Gml.Number.Shortest

/-!
# How numbers are laid out

All texts of numbers use the same digits, those of the shortest decimal, and differ only in a few
decisions, which a `Layout` holds: where positional writing ends, whether a whole number shows a
fraction, whether a positive exponent shows its sign, and which of two equally near decimals is
taken.
-/

namespace Gml

/-- The decisions of a number format. -/
structure Layout where
  /-- Whether a number whose first digit has this power of ten is written without an exponent. -/
  positional : Int → Bool
  /-- Whether a whole number written without an exponent ends in `.0`. -/
  showsFraction : Bool
  /-- Whether a positive exponent has a plus sign. -/
  showsPlus : Bool
  /-- Which of two equally near decimals is taken. -/
  tie : Tie

namespace Layout

/-- The layout of values in messages and listings of trees and instructions. -/
def value : Layout :=
  { positional := fun e => -4 ≤ e && e < 16
    showsFraction := true
    showsPlus := false
    tie := .larger }

/-- The layout of numbers as text: never an exponent, and nothing after a whole number. -/
def plain : Layout :=
  { positional := fun _ => true
    showsFraction := false
    showsPlus := false
    tie := .larger }

/-- The layout of numbers in written tables. -/
def table : Layout :=
  { positional := fun e => -5 ≤ e && e < 16
    showsFraction := true
    showsPlus := true
    tie := .even }

/-- A string of zeros. -/
def zeros (n : Nat) : String :=
  String.ofList (List.replicate n '0')

/-- A decimal without an exponent. -/
def positionalText (layout : Layout) (d : Decimal) : String :=
  let digits := toString d.digits
  if 0 ≤ d.exponent then
    digits ++ zeros d.exponent.toNat ++ if layout.showsFraction then ".0" else ""
  else
    let places := (-d.exponent).toNat
    let padded := zeros (places + 1 - digits.length) ++ digits
    let whole := padded.length - places
    String.ofList (padded.toList.take whole) ++ "." ++ String.ofList (padded.toList.drop whole)

/-- A decimal with one digit before the point and an exponent. -/
def scientificText (layout : Layout) (d : Decimal) (leading : Int) : String :=
  let digits := (toString d.digits).toList
  let fraction := digits.drop 1
  String.ofList (digits.take 1)
    ++ (if fraction.isEmpty then "" else "." ++ String.ofList fraction)
    ++ "e" ++ (if layout.showsPlus && 0 ≤ leading then "+" else "") ++ toString leading

/-- A positive decimal. -/
def decimalText (layout : Layout) (d : Decimal) : String :=
  let leading : Int := d.exponent + ((toString d.digits).length - 1 : Nat)
  if layout.positional leading then layout.positionalText d else layout.scientificText d leading

/-- A number. -/
def text (layout : Layout) (x : Double) : String :=
  match x.form with
  | .nan => "NaN"
  | .infinite negative => if negative then "-inf" else "inf"
  | .finite negative mantissa exponent =>
    (if negative then "-" else "") ++
      if mantissa = 0 then (if layout.showsFraction then "0.0" else "0")
      else layout.decimalText (.shortest layout.tie mantissa exponent)

end Layout

end Gml
