import Gml.Proofs.Number.Bits
import Mathlib.Tactic.Ring

/-!
# Rounding of machine numbers

The operations of the machine compute with unpacked numbers, and round what they get to the nearest
number with fifty-three bits. Here the result of rounding is said with fractions of natural numbers:
`nearest` is the rule for one fraction, `Stands` ties the bits that rounding looks at to a fraction,
and `roundWithAccuracy_eq` gives the mantissa and the exponent that come out. A number that is
rounded is packed without loss (`unpack_pack`), and its pattern is read as it was written
(`Double.form_ofFloat`).
-/

namespace Gml

open Float.Model Float.Model.UnpackedFloat

/-! ### Packing -/

/-- A bit is its sign. -/
@[simp] theorem ofBitVec_toBitVec (s : Sign) : Sign.ofBitVec s.toBitVec = s := by
  cases s <;> rfl

/-- The sign is the last bit. -/
theorem getLsbD_unpackSign (b : BitVec Format.binary64.numBits) :
    (unpackSign b).getLsbD 0 = b.getLsbD 63 := by
  unfold unpackSign
  rw [BitVec.getLsbD_cast, BitVec.getLsbD_extractLsb]
  rfl

/-- A sign can be unpacked. -/
@[simp] theorem unpackSign_packComponents (s : Sign) (e : BitVec Format.binary64.exponentBits)
    (m : BitVec Format.binary64.mantissaBitsWithoutImplicit) :
    unpackSign (packComponents Format.binary64 s e m) = s.toBitVec := by
  apply BitVec.eq_of_getLsbD_eq
  intro i hi
  obtain rfl : i = 0 := by omega
  rw [getLsbD_unpackSign, packComponents, BitVec.getLsbD_append, BitVec.getLsbD_append]
  rfl

/-- A zero is unpacked as it was packed. -/
@[simp] theorem unpack_pack_zero (s : Sign) : (Float.Model.pack (.zero s)).unpack = .zero s := by
  cases s <;> rfl

/-- A number with a mantissa of fifty-three bits is unpacked as it was packed. -/
theorem finite_eq {s s' : Sign} {m m' : Nat} {e e' : Int} {hm : 0 < m} {hm' : 0 < m'} (hs : s = s')
    (h : m = m') (he : e = e') : UnpackedFloat.finite s m e hm = .finite s' m' e' hm' := by
  subst hs h he
  rfl

/-- A finite number can be unpacked. -/
theorem unpack_pack {s : Sign} {m : Nat} {e : Int} {hm : 0 < m} (hlow : 2 ^ 52 ≤ m)
    (hhigh : m < 2 ^ 53) (helow : -1074 ≤ e) (hehigh : e ≤ 971) :
    (Float.Model.pack (.finite s m e hm)).unpack = .finite s m e hm := by
  obtain ⟨b, rfl⟩ : ∃ b : Nat, e = b - 1075 := ⟨(e + 1075).toNat, by omega⟩
  have hlog : m.log2 = 52 := (Nat.log2_eq_iff (by omega)).2 ⟨hlow, hhigh⟩
  have hb : (BitVec.ofNat 11 b).toNat = b := Nat.mod_eq_of_lt (by omega)
  have hinfinite : BitVec.ofNat 11 b ≠ -1#_ := by
    intro h
    have := congrArg BitVec.toNat h
    rw [hb] at this
    exact absurd this (by change ¬ b = 2047; omega)
  have hzero : BitVec.ofNat 11 b ≠ 0#_ := by
    intro h
    have := congrArg BitVec.toNat h
    rw [hb] at this
    exact absurd this (by change ¬ b = 0; omega)
  have hmantissa : (1#1 ++ BitVec.ofNat 52 m).toNat = m := by
    rw [show (1#1 ++ BitVec.ofNat 52 m).toNat = _ from
      toNat_append_mantissa (m := BitVec.ofNat 52 m), BitVec.toNat_ofNat]
    change 4503599627370496 + m % 4503599627370496 = m
    omega
  have hpack : UnpackedFloat.pack Format.binary64 (.finite s m (b - 1075) hm) =
      packComponents Format.binary64 s (BitVec.ofNat 11 b) (BitVec.ofNat 52 m) := by
    unfold UnpackedFloat.pack
    dsimp only
    have hbiased : ((b : Int) - 1075 + Format.binary64.exponentBias +
        Format.binary64.mantissaBitsWithoutImplicit).toNat = b := by
      change ((b : Int) - 1075 + 1023 + 52).toNat = b
      omega
    rw [hbiased, if_neg (by change ¬ 2048 ≤ b + 1; omega), if_pos (by rw [hlog]; rfl)]
  unfold Float.Model.unpack Float.Model.pack
  dsimp only
  rw [hpack]
  unfold UnpackedFloat.unpack
  dsimp only
  rw [if_neg (by rwa [unpackExponent_packComponents]),
    if_neg (by rwa [unpackExponent_packComponents])]
  apply finite_eq
  · rw [unpackSign_packComponents, ofBitVec_toBitVec]
  · rw [unpackMantissa_packComponents, hmantissa]
  · rw [unpackExponent_packComponents, hb]
    rfl

/-! ### Rounding -/

/-- The natural number nearest to a fraction, and the even one of two that are as near. -/
def nearest (p q : Nat) : Nat :=
  if 2 * (p % q) < q then p / q
  else if 2 * (p % q) = q then p / q + p / q % 2
  else p / q + 1

/-- Where there is nothing to round, nothing is rounded. -/
theorem nearest_of_dvd {p q : Nat} (hq : 0 < q) (h : p % q = 0) : nearest p q = p / q := by
  simp [nearest, h, hq]

/-- A fraction is rounded down, or up from one half on. -/
theorem nearest_cases (p q : Nat) :
    nearest p q = p / q ∨ nearest p q = p / q + 1 ∧ q ≤ 2 * (p % q) := by
  unfold nearest
  have := Nat.mod_lt (p / q) (show 0 < 2 by decide)
  split
  · exact .inl rfl
  · split <;> omega

/-- The whole part of a fraction, and how its rest compares to nothing and to one half. -/
structure Stands (m : ExtendedMantissa) (p q : Nat) : Prop where
  /-- The whole part. -/
  mantissa : m.mantissa = p / q
  /-- The rest is at least one half. -/
  roundBit : m.roundBit = decide (q ≤ 2 * (p % q))
  /-- The rest is neither nothing nor one half. -/
  stickyBit : m.stickyBit = decide (p % q ≠ 0 ∧ 2 * (p % q) ≠ q)

variable {m : ExtendedMantissa} {p q : Nat}

/-- A whole number stands for itself. -/
theorem stands_exact (n : Nat) : Stands (.ofMantissaAndAccuracy n .exact) n 1 :=
  ⟨(Nat.div_one n).symm, by simp [ExtendedMantissa.ofMantissaAndAccuracy, Nat.mod_one],
    by simp [ExtendedMantissa.ofMantissaAndAccuracy, Nat.mod_one]⟩

/-- A fraction is stood for. -/
theorem stands_fraction (p : Nat) (hq : 0 < q) :
    Stands (.ofMantissaAndAccuracy (p / q) (accuracyOfFraction (p % q) q)) p q := by
  have hlt := Nat.mod_lt p hq
  unfold accuracyOfFraction
  by_cases hr : p % q = 0
  · rw [if_pos hr]
    exact ⟨rfl, (decide_eq_false (by omega)).symm, (decide_eq_false (by omega)).symm⟩
  · rw [if_neg hr]
    cases hc : compare (2 * (p % q)) q with
    | lt =>
      have := Nat.compare_eq_lt.1 hc
      exact ⟨rfl, (decide_eq_false (by omega)).symm, (decide_eq_true (by omega)).symm⟩
    | eq =>
      have := Nat.compare_eq_eq.1 hc
      exact ⟨rfl, (decide_eq_true (by omega)).symm, (decide_eq_false (by omega)).symm⟩
    | gt =>
      have := Nat.compare_eq_gt.1 hc
      exact ⟨rfl, (decide_eq_true (by omega)).symm, (decide_eq_true (by omega)).symm⟩

/-- Half of a number stands for half of the fraction. -/
theorem Stands.shiftRightOne (h : Stands m p q) (hq : 0 < q) :
    Stands m.shiftRightOne p (q * 2) := by
  have hlt := Nat.mod_lt p hq
  have hbit := Nat.mod_lt (p / q) (show 0 < 2 by decide)
  refine ⟨?_, ?_, ?_⟩
  · change m.mantissa / 2 = _
    rw [h.mantissa, Nat.div_div_eq_div_mul]
  · change (m.mantissa % 2 != 0) = _
    rw [h.mantissa, Nat.mod_mul]
    rcases (show p / q % 2 = 0 ∨ p / q % 2 = 1 by omega) with hb | hb
    · rw [hb]
      exact (decide_eq_false (by omega)).symm
    · rw [hb]
      exact (decide_eq_true (by omega)).symm
  · change (m.roundBit || m.stickyBit) = _
    rw [h.roundBit, h.stickyBit, Nat.mod_mul, ← Bool.decide_or]
    apply decide_eq_decide.2
    rcases (show p / q % 2 = 0 ∨ p / q % 2 = 1 by omega) with hb | hb <;> rw [hb] <;> omega

/-- So it is when a number is halved more often. -/
theorem Stands.shiftRight (h : Stands m p q) (hq : 0 < q) (n : Nat) :
    Stands (m >>> n) p (q * 2 ^ n) := by
  change Stands (n.repeat ExtendedMantissa.shiftRightOne m) p (q * 2 ^ n)
  induction n with
  | zero => rwa [Nat.pow_zero, Nat.mul_one]
  | succ n ih =>
    rw [Nat.pow_succ, ← Nat.mul_assoc]
    exact ih.shiftRightOne (Nat.mul_pos hq (Nat.two_pow_pos n))

/-- What stands for a fraction is rounded as it is. -/
theorem Stands.roundedMantissa (h : Stands m p q) (hq : 0 < q) : m.roundedMantissa = nearest p q := by
  have hlt := Nat.mod_lt p hq
  obtain ⟨mantissa, roundBit, stickyBit⟩ := m
  obtain ⟨rfl, rfl, rfl⟩ := h
  unfold nearest
  by_cases hround : q ≤ 2 * (p % q)
  · rw [decide_eq_true hround, if_neg (by omega)]
    by_cases htie : 2 * (p % q) = q
    · rw [decide_eq_false (by omega), if_pos htie]
      rfl
    · rw [decide_eq_true (by omega), if_neg htie]
      rfl
  · rw [decide_eq_false hround, if_pos (by omega)]
    by_cases hrest : p % q = 0
    · rw [decide_eq_false (by omega)]
      rfl
    · rw [decide_eq_true (by omega)]
      rfl

/-! ### Rounded numbers -/

/-- A mantissa with too many bits is shifted to fifty-three of them. -/
theorem shiftToTargetExponent_eq {n : Nat} {e : Int} (a : Accuracy) (hn : 2 ^ 52 ≤ n)
    (he : -1074 ≤ e) :
    shiftToTargetExponent Format.binary64 n e a =
      (ExtendedMantissa.ofMantissaAndAccuracy n a >>> (n.log2 - 52), e + (n.log2 - 52 : Nat)) := by
  have hlog : 52 ≤ n.log2 := (Nat.le_log2 (by omega)).2 hn
  have htarget : Format.binary64.targetExponent (totalExponent n e) = e + (n.log2 - 52 : Nat) := by
    change max ((n.log2 : Int) + 1 + e - 53) (-1074) = _
    omega
  unfold shiftToTargetExponent shiftToExponent
  dsimp only
  rw [htarget]
  congr 2 <;> omega

/-- What is left of a number after shifting it to fifty-three bits. -/
theorem shifted_bounds {n : Nat} (hn : 2 ^ 52 ≤ n) :
    2 ^ 52 ≤ n / 2 ^ (n.log2 - 52) ∧ n / 2 ^ (n.log2 - 52) < 2 ^ 53 := by
  have hlog : 52 ≤ n.log2 := (Nat.le_log2 (by omega)).2 hn
  have hpos := Nat.two_pow_pos (n.log2 - 52)
  constructor
  · rw [Nat.le_div_iff_mul_le hpos, ← Nat.pow_add, show 52 + (n.log2 - 52) = n.log2 by omega]
    exact Nat.log2_self_le (by omega)
  · rw [Nat.div_lt_iff_lt_mul hpos, ← Nat.pow_add, show 53 + (n.log2 - 52) = n.log2 + 1 by omega]
    exact Nat.lt_log2_self

/-- What a number is rounded to. Rounding may give one bit too many, of a power of two. -/
theorem roundWithAccuracy_eq {s : Sign} {n : Nat} {e : Int} {a : Accuracy}
    (h : Stands (.ofMantissaAndAccuracy n a) p q) (hq : 0 < q) (hn : 2 ^ 52 ≤ n) (he : -1074 ≤ e) :
    ∃ m e' hm, roundWithAccuracy Format.binary64 s n e a = .finite s m e' hm ∧
      2 ^ 52 ≤ m ∧ m < 2 ^ 53 ∧
      (m = nearest p (q * 2 ^ (n.log2 - 52)) ∧ e' = e + (n.log2 - 52 : Nat) ∨
        nearest p (q * 2 ^ (n.log2 - 52)) = 2 ^ 53 ∧ m = 2 ^ 52 ∧
          e' = e + (n.log2 - 52 : Nat) + 1) := by
  have hmantissa : n = p / q := by
    rw [← h.mantissa]
    cases a with
    | exact => rfl
    | inexact o => cases o <;> rfl
  -- The whole part has fifty-three bits, so that rounding it up gives at most one more.
  have hbounds := shifted_bounds hn
  generalize hj : n.log2 - 52 = j at hbounds
  have hc : 0 < q * 2 ^ j := Nat.mul_pos hq (Nat.two_pow_pos j)
  have hwhole : p / (q * 2 ^ j) = n / 2 ^ j := by rw [hmantissa, Nat.div_div_eq_div_mul]
  have hnearest : 2 ^ 52 ≤ nearest p (q * 2 ^ j) ∧ nearest p (q * 2 ^ j) ≤ 2 ^ 53 := by
    rcases nearest_cases p (q * 2 ^ j) with hr | ⟨hr, -⟩ <;> rw [hr, hwhole] <;> omega
  unfold roundWithAccuracy
  rw [shiftToTargetExponent_eq a hn he, hj]
  dsimp only
  rw [(h.shiftRight hq j).roundedMantissa hc]
  generalize nearest p (q * 2 ^ j) = r at hnearest
  rw [shiftToTargetExponent_eq .exact hnearest.1 (by omega)]
  dsimp only
  have hshifted := ((stands_exact r).shiftRight Nat.one_pos (r.log2 - 52)).mantissa
  rw [Nat.one_mul] at hshifted
  by_cases hr : r = 2 ^ 53
  · subst hr
    rw [Nat.log2_two_pow] at hshifted ⊢
    rw [dif_neg (by rw [hshifted]; decide)]
    refine ⟨_, _, _, rfl, ?_⟩
    rw [hshifted]
    exact ⟨by decide, by decide, .inr ⟨rfl, by decide, rfl⟩⟩
  · have hbits : r.log2 = 52 := (Nat.log2_eq_iff (by omega)).2 ⟨hnearest.1, by omega⟩
    rw [hbits, Nat.sub_self, Nat.pow_zero, Nat.div_one] at hshifted
    rw [hbits, Nat.sub_self]
    rw [dif_neg (by rw [hshifted]; omega)]
    refine ⟨_, _, _, rfl, ?_⟩
    rw [hshifted]
    exact ⟨hnearest.1, by omega, .inl ⟨rfl, by omega⟩⟩

/-! ### Patterns -/

/-- The bits of the exponent. -/
theorem toNat_unpackExponent (b : BitVec Format.binary64.numBits) :
    (unpackExponent b).toNat = b.toNat / Nat.pow 2 52 % Nat.pow 2 11 := by
  unfold unpackExponent
  rw [BitVec.toNat_cast, BitVec.extractLsb_toNat, Nat.shiftRight_eq_div_pow]
  rfl

/-- The bits of the mantissa. -/
theorem toNat_unpackMantissa (b : BitVec Format.binary64.numBits) :
    (unpackMantissa b).toNat = b.toNat % Nat.pow 2 52 := by
  unfold unpackMantissa
  rw [BitVec.toNat_cast, BitVec.extractLsb_toNat, Nat.shiftRight_zero]
  rfl

/-- The bit of the sign. -/
theorem toNat_unpackSign (b : BitVec Format.binary64.numBits) :
    (unpackSign b).toNat = b.toNat / Nat.pow 2 63 % 2 := by
  unfold unpackSign
  rw [BitVec.toNat_cast, BitVec.extractLsb_toNat, Nat.shiftRight_eq_div_pow]
  rfl

/-- A number is negative if its last bit is set. -/
theorem ofBitVec_unpackSign (b : BitVec Format.binary64.numBits) :
    (Sign.ofBitVec (unpackSign b) == .negative) = decide (Nat.pow 2 63 ≤ b.toNat) := by
  have hsign := toNat_unpackSign b
  have hlt : b.toNat < 18446744073709551616 := b.isLt
  generalize b.toNat = n at hsign hlt
  change _ = n / 9223372036854775808 % 2 at hsign
  change _ = decide (9223372036854775808 ≤ n)
  rcases BitVec.eq_zero_or_eq_one (unpackSign b) with h | h
  · rw [h] at hsign ⊢
    change 0 = _ at hsign
    exact (decide_eq_false (by omega)).symm
  · rw [h] at hsign ⊢
    change 1 = _ at hsign
    exact (decide_eq_true (by omega)).symm

/-- The form of an unpacked number. -/
def Double.Form.ofUnpacked : UnpackedFloat → Double.Form
  | .notANumber => .nan
  | .infinity s => .infinite (s == .negative)
  | .zero s => .finite (s == .negative) 0 (-1074)
  | .finite s m e _ => .finite (s == .negative) m e

/-- The form of a pattern is that of the number that it is unpacked to. -/
theorem Double.form_eq (x : Double) :
    x.form = .ofUnpacked (UnpackedFloat.unpack Format.binary64 x.bits.toBitVec) := by
  obtain ⟨⟨b⟩⟩ := x
  change BitVec Format.binary64.numBits at b
  have hexponent := toNat_unpackExponent b
  have hmantissa := toNat_unpackMantissa b
  have hnegative := ofBitVec_unpackSign b
  unfold Double.form Double.isNegative
  dsimp only
  rw [show (UInt64.ofBitVec b).toNat = b.toNat from rfl, ← hexponent, ← hmantissa, ← hnegative]
  unfold UnpackedFloat.unpack
  dsimp only
  by_cases he : unpackExponent b = -1#_
  · rw [if_pos (by rw [he]; rfl), if_pos he]
    by_cases hm : unpackMantissa b = 0#_
    · rw [if_pos (by rw [hm]; rfl), if_pos hm]
      rfl
    · rw [if_neg (c := _ = 0) fun h => hm (BitVec.eq_of_toNat_eq h), if_neg hm]
      rfl
  · rw [if_neg (toNat_ne_of_ne he), if_neg he]
    by_cases hz : unpackExponent b = 0#_
    · rw [if_pos (by rw [hz]; rfl), if_pos hz]
      by_cases hm : unpackMantissa b = 0#_
      · rw [dif_pos hm, hm]
        rfl
      · rw [dif_neg hm, hz]
        rfl
    · rw [if_neg (c := _ = 0) fun h => hz (BitVec.eq_of_toNat_eq h), if_neg hz]
      change _ = Form.finite _ (1#1 ++ unpackMantissa b).toNat _
      rw [toNat_append_mantissa]
      rfl

/-- The form of a double is that of its number. -/
theorem Double.form_ofFloat (x : Float) : (Double.ofFloat x).form = .ofUnpacked x.toModel.unpack :=
  Double.form_eq (Double.ofFloat x)

end Gml
