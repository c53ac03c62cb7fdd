import Gml.Number.Double

/-!
# The shortest decimal of a double

A decimal stands for a double when it lies in the interval of numbers that round to it. Among the
decimals that do, those with the fewest digits are preferred, and among these the one nearest to the
double. Which of two equally near ones is taken is up to the format.

The search goes over the powers of ten downwards. On the grid of multiples of a power of ten only
the two neighbours of the double need a look: if any multiple lies in the interval, so does one of
them.
-/

namespace Gml

/-- The number `digits * 10 ^ exponent`. -/
structure Decimal where
  /-- All digits, read as one number. -/
  digits : Nat
  /-- The power of ten of the last digit. -/
  exponent : Int
  deriving DecidableEq, Repr

/-- Which of two equally near decimals is taken. -/
inductive Tie where
  /-- The larger one. -/
  | larger
  /-- The one whose last digit is even. -/
  | even
  deriving DecidableEq, Repr, Inhabited

/-- Whether the larger of two equally near decimals is taken, given the digits of the other. -/
def Tie.goesUp : Tie → Nat → Bool
  | larger, _ => true
  | even, digits => digits % 2 = 1

namespace Decimal

/-- The interval of numbers that round to a double, with the double in it, all in units of
`1 / unit`. -/
structure Interval where
  /-- The lower end. -/
  low : Nat
  /-- The double itself. -/
  value : Nat
  /-- The upper end. -/
  high : Nat
  /-- How many units make one. -/
  unit : Nat
  /-- Whether the ends belong to the interval. -/
  closed : Bool

namespace Interval

/-- The interval around `mantissa * 2 ^ exponent`. Below a power of two the doubles lie twice as
close as above it, unless the exponent is already the least one. -/
def around (mantissa : Nat) (exponent : Int) : Interval :=
  let scale := Nat.pow 2 exponent.toNat
  let below := if mantissa = Nat.pow 2 52 && -1074 < exponent then 1 else 2
  { low := (4 * mantissa - below) * scale
    value := 4 * mantissa * scale
    high := (4 * mantissa + 2) * scale
    unit := 4 * Nat.pow 2 (-exponent).toNat
    closed := mantissa % 2 = 0 }

/-- Whether a number of units lies in the interval. -/
def contains (i : Interval) (n : Nat) : Bool :=
  if i.closed then i.low ≤ n && n ≤ i.high else i.low < n && n < i.high

/-- The multiple of a power of ten that stands for the double, if one does. The interval is brought
to a unit in which both it and the power of ten are whole. -/
def onGrid? (i : Interval) (tie : Tie) (exponent : Int) : Option Nat :=
  let factor := Nat.pow 10 (-exponent).toNat
  let step := Nat.pow 10 exponent.toNat * i.unit
  let i := { i with low := i.low * factor, value := i.value * factor, high := i.high * factor }
  let lower := i.value / step
  let near := lower * step
  let far := near + step
  match i.contains near, i.contains far with
  | true, true =>
    match compare (i.value - near) (far - i.value) with
    | .lt => some lower
    | .eq => some (if tie.goesUp lower then lower + 1 else lower)
    | .gt => some (lower + 1)
  | true, false => some lower
  | false, true => some (lower + 1)
  | false, false => none

end Interval

/-- The first grid with a decimal on it, from the given power of ten downwards. -/
def search (i : Interval) (tie : Tie) : (grids : Nat) → (exponent : Int) → Decimal
  | 0, exponent =>
    ⟨i.value * Nat.pow 10 (-exponent).toNat / (Nat.pow 10 exponent.toNat * i.unit), exponent⟩
  | grids + 1, exponent =>
    match i.onGrid? tie exponent with
    | some digits => ⟨digits, exponent⟩
    | none => search i tie grids (exponent - 1)

/-- The shortest decimal that stands for the positive double `mantissa * 2 ^ exponent`. The search
starts at a power of ten above the double and needs no more than seventeen digits. -/
def shortest (tie : Tie) (mantissa : Nat) (exponent : Int) : Decimal :=
  let magnitude : Int := mantissa.log2 + exponent + 1
  search (.around mantissa exponent) tie 24 (magnitude * 30103 / 100000 + 2)

end Decimal

end Gml
