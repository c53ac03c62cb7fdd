import Gml.Number.Double

/-!
# Numbers and their bits

A machine number is the number with its own pattern: a constant that was stored by its bits is read
back unchanged (`Double.toFloat_ofFloat`).
-/

namespace Gml

open Float.Model Float.Model.UnpackedFloat

/-- A sign has one bit. -/
theorem toBitVec_signOf (b : BitVec 1) : (Sign.ofBitVec b).toBitVec = b := by
  unfold Sign.ofBitVec
  rcases BitVec.eq_zero_or_eq_one b with h | h <;> rw [h] <;> rfl

/-- A pattern is made of its sign, its exponent and its mantissa. -/
theorem packComponents_parts (b : BitVec Format.binary64.numBits) :
    packComponents Format.binary64 (Sign.ofBitVec (unpackSign b)) (unpackExponent b)
      (unpackMantissa b) = b := by
  unfold packComponents unpackSign unpackExponent unpackMantissa
  rw [toBitVec_signOf]
  apply BitVec.eq_of_getLsbD_eq
  intro i hi
  change i < 64 at hi
  rw [BitVec.getLsbD_append, BitVec.getLsbD_append]
  split
  next hm => simp [show i < 52 from hm]
  next hm =>
    change ¬ i < 52 at hm
    split
    next he =>
      change i - 52 < 11 at he
      simp [show i - 52 ≤ 10 by omega, show 52 + (i - 52) = i by omega]
    next he =>
      change ¬ i - 52 < 11 at he
      obtain rfl : i = 63 := by omega
      simp [BitVec.getLsbD_eq_getElem (show 63 < Format.binary64.numBits by decide)]

variable {s : Sign} {e : BitVec Format.binary64.exponentBits}
  {m : BitVec Format.binary64.mantissaBitsWithoutImplicit}

/-- An exponent that is not all ones. -/
theorem toNat_ne_of_ne (h : e ≠ -1#_) : e.toNat ≠ 2047 := by
  intro hn
  exact h (BitVec.eq_of_toNat_eq hn)

/-- A mantissa has a bit in front. -/
theorem toNat_append_mantissa : (1#1 ++ m).toNat = 4503599627370496 + m.toNat := by
  rw [BitVec.toNat_append]
  exact (Nat.two_pow_add_eq_or_of_lt m.isLt 1).symm

/-- A number below the normal ones is packed by its mantissa alone. -/
theorem pack_subnormal {exponent : Int} {hm : 0 < m.toNat} (he : exponent = -1074) :
    UnpackedFloat.pack Format.binary64 (.finite s m.toNat exponent hm) =
      packComponents Format.binary64 s 0#_ m := by
  have hlog : m.toNat.log2 < 52 := (Nat.log2_lt (by omega)).2 m.isLt
  subst he
  unfold UnpackedFloat.pack
  dsimp only
  rw [if_neg (by decide), if_neg (by change ¬ _ = 53; omega), BitVec.ofNat_toNat,
    BitVec.setWidth_eq]

/-- A normal number is packed by its exponent and its mantissa without the first bit. -/
theorem pack_normal {exponent : Int} {hm : 0 < (1#1 ++ m).toNat} (he : e ≠ -1#_)
    (hexponent : exponent = e.toNat - 1075) :
    UnpackedFloat.pack Format.binary64 (.finite s (1#1 ++ m).toNat exponent hm) =
      packComponents Format.binary64 s e m := by
  have he := toNat_ne_of_ne he
  have hlt : e.toNat < 2048 := e.isLt
  have hm' : m.toNat < 4503599627370496 := m.isLt
  have hlog : (1#1 ++ m).toNat.log2 = 52 := by
    rw [toNat_append_mantissa, Nat.log2_eq_iff (by omega)]
    constructor
    · exact Nat.le_add_right _ _
    · change _ < 9007199254740992
      omega
  unfold UnpackedFloat.pack
  dsimp only
  have hbiased : (exponent + Format.binary64.exponentBias +
      Format.binary64.mantissaBitsWithoutImplicit).toNat = e.toNat := by
    change (exponent + 1023 + 52).toNat = _
    omega
  rw [hbiased, if_neg (by change ¬ 2048 ≤ _; omega), if_pos (by rw [hlog]; rfl), BitVec.ofNat_toNat,
    BitVec.setWidth_eq]
  congr 1
  apply BitVec.eq_of_toNat_eq
  rw [BitVec.toNat_ofNat, toNat_append_mantissa]
  change _ % 4503599627370496 = _
  omega

/-- Valid bits are packed again. -/
theorem pack_unpack {b : BitVec Format.binary64.numBits} (h : Format.binary64.Valid b) :
    UnpackedFloat.pack Format.binary64 (UnpackedFloat.unpack Format.binary64 b) = b := by
  have hparts := packComponents_parts b
  unfold UnpackedFloat.unpack
  dsimp only
  by_cases he : unpackExponent b = -1#_
  · rw [if_pos he]
    by_cases hm : unpackMantissa b = 0#_
    · rw [if_pos hm]
      rw [he, hm] at hparts
      exact hparts
    · rw [if_neg hm]
      exact (h.eq_packedNaN he hm).symm
  · rw [if_neg he]
    by_cases hz : unpackExponent b = 0#_
    · rw [if_pos hz]
      by_cases hm : unpackMantissa b = 0#_
      · rw [dif_pos hm]
        rw [hz, hm] at hparts
        exact hparts
      · rw [dif_neg hm, pack_subnormal (by rw [hz]; rfl)]
        rw [hz] at hparts
        exact hparts
    · rw [if_neg hz, pack_normal he (by rfl)]
      exact hparts

/-- A double keeps its bits. -/
theorem Double.toFloat_ofFloat (x : Float) : (Double.ofFloat x).toFloat = x := by
  obtain ⟨⟨bits, valid⟩⟩ := x
  unfold Double.toFloat Double.ofFloat Float.ofBits Float.toBits Float.Model.ofBits Float.Model.pack
  congr 2
  exact congrArg UInt64.ofBitVec (pack_unpack valid)
end Gml
