/-!
# Double precision numbers by their bits

A `Double` is a 64-bit pattern, so two of them are equal exactly when their bits are; a pool of
constants needs that equality, under which the two zeros differ and a not-a-number equals itself.
`Double.form` reads the pattern as the number that it stands for. Everything that has to be exact,
such as digits, whole parts and remainders, is computed on that form with natural numbers.
-/

namespace Gml

/-- A double precision number, told from others by its bits. -/
structure Double where
  /-- The pattern: one bit of sign, eleven of exponent and fifty-two of fraction. -/
  bits : UInt64
  deriving DecidableEq, Repr, Inhabited

namespace Double

/-- What a pattern stands for. -/
inductive Form where
  /-- Not a number. -/
  | nan
  /-- An infinity. -/
  | infinite (negative : Bool)
  /-- The number `mantissa * 2 ^ exponent`, or its negative. -/
  | finite (negative : Bool) (mantissa : Nat) (exponent : Int)
  deriving DecidableEq, Repr

/-- The pattern of a machine number. -/
def ofFloat (x : Float) : Double :=
  ⟨x.toBits⟩

/-- The machine number with the pattern. -/
def toFloat (x : Double) : Float :=
  Float.ofBits x.bits

/-- Whether the sign bit is set. -/
def isNegative (x : Double) : Bool :=
  Nat.pow 2 63 ≤ x.bits.toNat

/-- What the pattern stands for. -/
def form (x : Double) : Form :=
  let exponent : Nat := x.bits.toNat / Nat.pow 2 52 % Nat.pow 2 11
  let fraction : Nat := x.bits.toNat % Nat.pow 2 52
  if exponent = 2047 then
    if fraction = 0 then .infinite x.isNegative else .nan
  else if exponent = 0 then
    .finite x.isNegative fraction (-1074)
  else
    .finite x.isNegative (Nat.pow 2 52 + fraction) (exponent - 1075 : Int)

/-- The pattern of `mantissa * 2 ^ exponent`, or of its negative, for a number that a double can
hold and a mantissa of at most fifty-three bits. -/
def ofParts (negative : Bool) (mantissa : Nat) (exponent : Int) : Double :=
  let sign : Nat := if negative then Nat.pow 2 63 else 0
  let length := mantissa.log2
  let leading := exponent + length
  if mantissa = 0 then
    ⟨UInt64.ofNat sign⟩
  else if leading < -1022 then
    ⟨UInt64.ofNat (sign + mantissa * Nat.pow 2 (exponent + 1074).toNat)⟩
  else
    let fraction := mantissa * Nat.pow 2 (52 - length) - Nat.pow 2 52
    ⟨UInt64.ofNat (sign + (leading + 1023).toNat * Nat.pow 2 52 + fraction)⟩

/-- Whether the number has no fractional part. The infinities and not-a-number have no parts at
all. -/
def isWhole (x : Double) : Bool :=
  match x.form with
  | .finite _ mantissa exponent => 0 ≤ exponent || mantissa % Nat.pow 2 (-exponent).toNat = 0
  | _ => false

end Double

/-! ### Whole parts -/

/-- The whole part of `mantissa * 2 ^ exponent`. -/
def wholePart (mantissa : Nat) (exponent : Int) : Nat :=
  if 0 ≤ exponent then mantissa * Nat.pow 2 exponent.toNat
  else mantissa / Nat.pow 2 (-exponent).toNat

/-- The integer nearest to a number on the side of zero, kept within bounds. Not-a-number gives
zero. -/
def Double.toIntWithin (low high : Int) (x : Double) : Int :=
  match x.form with
  | .nan => 0
  | .infinite negative => if negative then low else high
  | .finite negative mantissa exponent =>
    let whole : Int := wholePart mantissa exponent
    max low (min high (if negative then -whole else whole))

/-- The number without its fractional part; the sign stays, also that of a zero. -/
def Number.truncate (x : Float) : Float :=
  match (Double.ofFloat x).form with
  | .finite negative mantissa exponent =>
    if 0 ≤ exponent then x
    else
      let whole := Float.ofNat (wholePart mantissa exponent)
      if negative then -whole else whole
  | _ => x

/-- What is left of one number after taking away as many whole multiples of another as fit. The
result is exact and has the sign of the first number. -/
def Number.remainder (x y : Float) : Float :=
  match (Double.ofFloat x).form, (Double.ofFloat y).form with
  | .nan, _ | _, .nan | .infinite _, _ => 0.0 / 0.0
  | .finite .., .infinite _ => x
  | .finite negative m p, .finite _ n q =>
    if n = 0 then 0.0 / 0.0
    else
      let shared := min p q
      let scaled (mantissa : Nat) (exponent : Int) := mantissa * Nat.pow 2 (exponent - shared).toNat
      (Double.ofParts negative (scaled m p % scaled n q) shared).toFloat

end Gml
