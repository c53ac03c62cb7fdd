import Gml.Proofs.Number.Rounding
import Gml.Machine.Exec
import Mathlib.Tactic.Ring

/-!
# Whole machine numbers

Machine numbers that are integers of at most `2 ^ 53` either way. `Whole` ties an unpacked number to
the integer that it is, with both zeros for zero, and `Number.Is` does so for a machine number. On
such numbers the machine is exact as long as the result is one of them: signs, sums, differences,
products and comparisons are those of the integers, and the conversions to 64 bits and back lose
nothing.
-/

namespace Gml

open Float.Model Float.Model.UnpackedFloat

/-! ### Whole numbers -/

/-- An unpacked number is an integer. The mantissa of a number other than zero has fifty-three
bits. -/
inductive Whole : UnpackedFloat → Int → Prop
  | zero (s : Sign) : Whole (.zero s) 0
  | finite {s : Sign} {m n : Nat} (hm : 0 < m) (hn : 0 < n)
      (heq : m * 2 ^ n.log2 = n * 2 ^ 52) : Whole (.finite s m (n.log2 - 52) hm) (s.apply n)

/-- Integers that machine numbers can be, with all between them and zero. -/
def Exact (n : Int) : Prop :=
  n.natAbs ≤ 2 ^ 53

instance (n : Int) : Decidable (Exact n) :=
  inferInstanceAs (Decidable (_ ≤ _))

/-- A power of two adds to the logarithm. -/
theorem log2_mul_two_pow {n : Nat} (hn : 0 < n) (k : Nat) : (n * 2 ^ k).log2 = n.log2 + k := by
  have hpos := Nat.two_pow_pos k
  rw [Nat.log2_eq_iff (Nat.ne_of_gt (Nat.mul_pos hn hpos)), Nat.pow_add, Nat.add_right_comm, Nat.pow_add]
  exact ⟨Nat.mul_le_mul_right _ (Nat.log2_self_le (by omega)),
    Nat.mul_lt_mul_of_pos_right Nat.lt_log2_self hpos⟩

/-- An exact number has few bits. -/
theorem log2_le_of_exact {n : Nat} (hn : 0 < n) (hle : n ≤ 2 ^ 53) : n.log2 ≤ 53 :=
  Nat.le_of_lt_succ ((Nat.log2_lt (by omega)).2 (by omega))

/-- The mantissa of a number has fifty-three bits. -/
theorem mantissa_bounds {m n : Nat} (hn : 0 < n) (h : m * 2 ^ n.log2 = n * 2 ^ 52) :
    2 ^ 52 ≤ m ∧ m < 2 ^ 53 := by
  have hpos := Nat.two_pow_pos n.log2
  constructor
  · apply Nat.le_of_mul_le_mul_right _ hpos
    rw [h, Nat.mul_comm]
    exact Nat.mul_le_mul_right _ (Nat.log2_self_le (by omega))
  · apply Nat.lt_of_mul_lt_mul_right (a := 2 ^ n.log2)
    rw [h, Nat.mul_comm]
    calc 2 ^ 52 * n < 2 ^ 52 * 2 ^ (n.log2 + 1) :=
          Nat.mul_lt_mul_of_pos_left Nat.lt_log2_self (Nat.two_pow_pos 52)
      _ = 2 ^ 53 * 2 ^ n.log2 := by rw [← Nat.pow_add, ← Nat.pow_add]; congr 1; omega

/-- Every number that is not too large has a mantissa. -/
theorem exists_mantissa {n : Nat} (hn : 0 < n) (hle : n ≤ 2 ^ 53) :
    ∃ m, m * 2 ^ n.log2 = n * 2 ^ 52 := by
  rcases Nat.lt_or_ge n (2 ^ 53) with hlt | hge
  · have hlog : n.log2 < 53 := (Nat.log2_lt (by omega)).2 hlt
    refine ⟨n * 2 ^ (52 - n.log2), ?_⟩
    rw [Nat.mul_assoc, ← Nat.pow_add, show 52 - n.log2 + n.log2 = 52 by omega]
  · obtain rfl : n = 2 ^ 53 := by omega
    exact ⟨2 ^ 52, by rw [Nat.log2_two_pow, Nat.mul_comm]⟩

/-! ### Exact rounding -/

section Rounding

variable {s : Sign} {m n k c : Nat}

/-- Rounding keeps a number that has a mantissa. -/
theorem whole_roundWithAccuracy (hn : 0 < n) (hle : n ≤ 2 ^ 53) (h : m * 2 ^ k = n * 2 ^ c)
    (hm : 2 ^ 52 ≤ m) (hc : c ≤ 1074) :
    Whole (roundWithAccuracy Format.binary64 s m (k - c) .exact) (s.apply n) := by
  have hmpos : 0 < m := by omega
  have hlog : m.log2 + k = n.log2 + c := by
    rw [← log2_mul_two_pow hmpos, ← log2_mul_two_pow hn, h]
  have hlow : 52 ≤ m.log2 := (Nat.le_log2 (by omega)).2 hm
  obtain ⟨f, hf⟩ := exists_mantissa hn hle
  have hbounds := mantissa_bounds hn hf
  have hshift : m = f * 2 ^ (m.log2 - 52) := by
    apply Nat.eq_of_mul_eq_mul_right (Nat.two_pow_pos (k + 52))
    calc m * 2 ^ (k + 52) = n * 2 ^ 52 * 2 ^ c := by rw [Nat.pow_add, ← Nat.mul_assoc, h]; ring
      _ = f * 2 ^ (n.log2 + c) := by rw [← hf, Nat.mul_assoc, ← Nat.pow_add]
      _ = f * 2 ^ (m.log2 - 52) * 2 ^ (k + 52) := by
        rw [Nat.mul_assoc, ← Nat.pow_add]
        congr 2
        omega
  have hpos := Nat.two_pow_pos (m.log2 - 52)
  have hnearest : nearest m (1 * 2 ^ (m.log2 - 52)) = f := by
    rw [Nat.one_mul, nearest_of_dvd hpos]
    · exact Nat.div_eq_of_eq_mul_left hpos hshift
    · exact Nat.mod_eq_zero_of_dvd (Dvd.intro_left f hshift.symm)
  obtain ⟨m', e', hm', heq, -, -, ⟨rfl, rfl⟩ | ⟨hmax, -⟩⟩ :=
    roundWithAccuracy_eq (s := s) (e := (k : Int) - c) (stands_exact m) Nat.one_pos hm (by omega)
  · rw [heq, finite_eq rfl hnearest (by omega : _ = (n.log2 : Int) - 52)]
    exact .finite (by omega) hn hf
  · omega

/-- A whole number is not changed by rounding. -/
theorem whole_round (hn : 0 < n) (hle : n ≤ 2 ^ 53) (hm : 0 < m) (h : m * 2 ^ k = n * 2 ^ c)
    (hlow : 52 ≤ c) (hc : c ≤ 1074) :
    Whole (UnpackedFloat.round Format.binary64 s m (k - c)) (s.apply n) := by
  have hlog : m.log2 + k = n.log2 + c := by
    rw [← log2_mul_two_pow hm, ← log2_mul_two_pow hn, h]
  have htarget : Format.binary64.targetExponent (totalExponent m (k - c)) = n.log2 - 52 := by
    change max ((m.log2 : Int) + 1 + (k - c) - 53) (-1074) = _
    omega
  unfold UnpackedFloat.round decreaseExponent
  dsimp only
  rw [htarget]
  generalize ha : ((k : Int) - c - (n.log2 - 52)).toNat = a
  rw [Nat.shiftLeft_eq, show (k : Int) - c - a = (k - a : Nat) - c by omega]
  apply whole_roundWithAccuracy hn hle _ _ hc
  · rw [Nat.mul_assoc, ← Nat.pow_add, show a + (k - a) = k by omega, h]
  · have hpos := Nat.mul_pos hm (Nat.two_pow_pos a)
    apply (Nat.le_log2 (by omega)).1
    rw [log2_mul_two_pow hm]
    omega

/-- Nor is it changed by scaling. -/
theorem whole_normalize {z w : Int} (hw : Exact w) (h : z * 2 ^ k = w * 2 ^ c)
    (hlow : 52 ≤ c) (hc : c ≤ 1074) :
    Whole (UnpackedFloat.normalize Format.binary64 z (k - c) .positive) w := by
  have hk : (0 : Int) < 2 ^ k := Int.pow_pos (by decide)
  have hcpos : (0 : Int) < 2 ^ c := Int.pow_pos (by decide)
  have habs : z.natAbs * 2 ^ k = w.natAbs * 2 ^ c := by
    have := congrArg Int.natAbs h
    rwa [Int.natAbs_mul, Int.natAbs_mul, Int.natAbs_pow, Int.natAbs_pow] at this
  unfold UnpackedFloat.normalize
  cases hz : compare z 0 with
  | lt =>
    have hneg := Int.compare_eq_lt.1 hz
    have hw0 : w < 0 := by
      apply Int.lt_of_mul_lt_mul_right _ (Int.le_of_lt hcpos)
      rw [← h, Int.zero_mul]
      exact Int.mul_neg_of_neg_of_pos hneg hk
    have := whole_round (s := .negative) (n := w.natAbs) (by omega) hw (by omega) habs hlow hc
    rw [show Sign.apply .negative w.natAbs = w by change -(w.natAbs : Int) = w; omega] at this
    rwa [show (-z).toNat = z.natAbs by omega]
  | eq =>
    obtain rfl := Int.compare_eq_eq.1 hz
    rw [Int.zero_mul] at h
    obtain rfl : w = 0 := (Int.mul_eq_zero.1 h.symm).resolve_right (Int.ne_of_gt hcpos)
    exact .zero .positive
  | gt =>
    have hpos := Int.compare_eq_gt.1 hz
    have hw0 : 0 < w := by
      apply Int.lt_of_mul_lt_mul_right _ (Int.le_of_lt hcpos)
      rw [← h, Int.zero_mul]
      exact Int.mul_pos hpos hk
    have := whole_round (s := .positive) (n := w.natAbs) (by omega) hw (by omega) habs hlow hc
    rw [show Sign.apply .positive w.natAbs = w by change (w.natAbs : Int) = w; omega] at this
    rwa [show z.toNat = z.natAbs by omega]

end Rounding

/-! ### Operations on unpacked numbers -/

section Unpacked

variable {u v : UnpackedFloat} {a b : Int}

/-- A sign can be changed. -/
theorem apply_neg (s : Sign) (n : Int) : (-s).apply n = -s.apply n := by
  cases s
  · exact (Int.neg_neg n).symm
  · rfl

/-- Signs are multiplied. -/
theorem apply_mul (s t : Sign) (m n : Int) : (s * t).apply (m * n) = s.apply m * t.apply n := by
  cases s <;> cases t
  · exact (Int.neg_mul_neg m n).symm
  · exact (Int.neg_mul m n).symm
  · exact (Int.mul_neg m n).symm
  · rfl

/-- A sign does not matter to the size. -/
theorem natAbs_apply (s : Sign) (n : Nat) : (s.apply n).natAbs = n := by
  cases s
  · exact Int.natAbs_neg n
  · rfl

/-- Whole numbers are negated. -/
theorem Whole.neg (h : Whole u a) : Whole u.neg (-a) := by
  cases h with
  | zero s => exact .zero (-s)
  | finite hm hn heq =>
    rw [← apply_neg]
    exact .finite hm hn heq

/-- The scaled mantissa of a number. -/
theorem scaled_apply (s : Sign) {m n l k : Nat} (h : m * 2 ^ l = n * 2 ^ 52) (hk : k ≤ l) :
    s.apply (m * 2 ^ (l - k) : Nat) * 2 ^ k = s.apply n * 2 ^ 52 := by
  have hscaled : ((m * 2 ^ (l - k) : Nat) : Int) * 2 ^ k = n * 2 ^ 52 := by
    have : m * 2 ^ (l - k) * 2 ^ k = n * 2 ^ 52 := by
      rw [Nat.mul_assoc, ← Nat.pow_add, Nat.sub_add_cancel hk, h]
    exact_mod_cast this
  cases s
  · change -((m * 2 ^ (l - k) : Nat) : Int) * 2 ^ k = -(n : Int) * 2 ^ 52
    rw [Int.neg_mul, Int.neg_mul, hscaled]
  · exact hscaled

/-- Whole numbers are added. -/
theorem Whole.add (hu : Whole u a) (hv : Whole v b) (h : Exact (a + b)) :
    Whole (u.add Format.binary64 v) (a + b) := by
  cases hu with
  | zero s =>
    cases hv with
    | zero t => cases s <;> cases t <;> exact .zero _
    | finite hm hn heq =>
      rw [Int.zero_add]
      exact .finite hm hn heq
  | @finite s m n hm hn heq =>
    cases hv with
    | zero t =>
      rw [Int.add_zero]
      exact .finite hm hn heq
    | @finite t m' n' hm' hn' heq' =>
      change Whole (UnpackedFloat.normalize Format.binary64
        (s.apply (m <<< _ : Nat) + t.apply (m' <<< _ : Nat)) (min _ _) .positive) _
      rw [Nat.shiftLeft_eq, Nat.shiftLeft_eq]
      have hmin : min ((n.log2 : Int) - 52) (n'.log2 - 52) = (min n.log2 n'.log2 : Nat) - (52 : Nat) := by
        omega
      rw [hmin]
      apply whole_normalize h _ (Nat.le_refl 52) (by decide)
      rw [show ((n.log2 : Int) - 52 - ((min n.log2 n'.log2 : Nat) - (52 : Nat))).toNat =
          n.log2 - min n.log2 n'.log2 by omega,
        show ((n'.log2 : Int) - 52 - ((min n.log2 n'.log2 : Nat) - (52 : Nat))).toNat =
          n'.log2 - min n.log2 n'.log2 by omega, Int.add_mul,
        scaled_apply s heq (Nat.min_le_left _ _), scaled_apply t heq' (Nat.min_le_right _ _), Int.add_mul]

/-- To subtract is to add the opposite. -/
theorem sub_eq_add_neg (u v : UnpackedFloat) :
    u.sub Format.binary64 v = u.add Format.binary64 v.neg := by
  cases u with
  | finite s m e hm =>
    cases v with
    | finite t m' e' hm' =>
      change UnpackedFloat.normalize Format.binary64 (s.apply _ - t.apply _) _ _ =
        UnpackedFloat.normalize Format.binary64 (s.apply _ + (-t).apply _) _ _
      rw [apply_neg, Int.sub_eq_add_neg]
    | _ => rfl
  | _ => cases v <;> rfl

/-- Whole numbers are subtracted. -/
theorem Whole.sub (hu : Whole u a) (hv : Whole v b) (h : Exact (a - b)) :
    Whole (u.sub Format.binary64 v) (a - b) := by
  rw [sub_eq_add_neg]
  exact hu.add hv.neg h

/-- They are multiplied. -/
theorem Whole.mul (hu : Whole u a) (hv : Whole v b) (h : Exact (a * b)) :
    Whole (u.mul Format.binary64 v) (a * b) := by
  cases hu with
  | zero s =>
    rw [Int.zero_mul]
    cases hv with
    | zero t => exact .zero (s * t)
    | finite hm hn heq => exact .zero (s * _)
  | @finite s m n hm hn heq =>
    cases hv with
    | zero t =>
      rw [Int.mul_zero]
      exact .zero (s * t)
    | @finite t m' n' hm' hn' heq' =>
      change Whole (roundWithAccuracy Format.binary64 (s * t) (m * m')
        (n.log2 - 52 + (n'.log2 - 52)) .exact) _
      rw [show (n.log2 - 52 + (n'.log2 - 52) : Int) = (n.log2 + n'.log2 : Nat) - (104 : Nat) by omega,
        ← apply_mul, ← Int.natCast_mul]
      apply whole_roundWithAccuracy (Nat.mul_pos hn hn')
      · rwa [Exact, ← apply_mul, ← Int.natCast_mul, natAbs_apply] at h
      · calc m * m' * 2 ^ (n.log2 + n'.log2) = (m * 2 ^ n.log2) * (m' * 2 ^ n'.log2) := by ring
          _ = n * n' * 2 ^ 104 := by rw [heq, heq']; ring
      · have hlow := (mantissa_bounds hn heq).1
        have hlow' := (mantissa_bounds hn' heq').1
        calc 2 ^ 52 ≤ 2 ^ 52 * 2 ^ 52 := by decide
          _ ≤ m * m' := Nat.mul_le_mul hlow hlow'
      · decide

/-- Of two numbers the one with more bits is larger, and with as many bits the one with the larger
mantissa. -/
theorem compare_mantissas {m n m' n' : Nat} (hn : 0 < n) (hn' : 0 < n')
    (heq : m * 2 ^ n.log2 = n * 2 ^ 52) (heq' : m' * 2 ^ n'.log2 = n' * 2 ^ 52) :
    (compare ((n.log2 : Int) - 52) (n'.log2 - 52)).then (compare m m') =
      compare (n : Int) (n' : Int) := by
  have hlt : ∀ {k k' : Nat}, 0 < k' → k.log2 < k'.log2 → k < k' := by
    intro k k' hk' h
    calc k < 2 ^ (k.log2 + 1) := Nat.lt_log2_self
      _ ≤ 2 ^ k'.log2 := Nat.pow_le_pow_right (by decide) h
      _ ≤ k' := Nat.log2_self_le (by omega)
  rcases Nat.lt_trichotomy n.log2 n'.log2 with h | h | h
  · have := hlt hn' h
    rw [Int.compare_eq_lt.2 (by omega), Int.compare_eq_lt.2 (by omega)]
    rfl
  · rw [Int.compare_eq_eq.2 (by omega)]
    change compare m m' = _
    rw [← h] at heq'
    have hpos := Nat.two_pow_pos n.log2
    rcases Nat.lt_trichotomy m m' with hm | rfl | hm
    · have := Nat.mul_lt_mul_of_pos_right hm hpos
      rw [Nat.compare_eq_lt.2 hm, Int.compare_eq_lt.2 (by omega)]
    · rw [Nat.compare_eq_eq.2 rfl, Int.compare_eq_eq.2 (by omega)]
    · have := Nat.mul_lt_mul_of_pos_right hm hpos
      rw [Nat.compare_eq_gt.2 hm, Int.compare_eq_gt.2 (by omega)]
  · have := hlt hn h
    rw [Int.compare_eq_gt.2 (by omega), Int.compare_eq_gt.2 (by omega)]
    rfl

/-- Negation turns an order around. -/
theorem compare_neg_neg (a b : Int) : compare (-a) (-b) = (compare a b).swap := by
  rcases Int.lt_trichotomy a b with h | rfl | h
  · rw [Int.compare_eq_lt.2 h, Int.compare_eq_gt.2 (by omega)]
    rfl
  · rw [Int.compare_eq_eq.2 rfl, Int.compare_eq_eq.2 rfl]
    rfl
  · rw [Int.compare_eq_gt.2 h, Int.compare_eq_lt.2 (by omega)]
    rfl

/-- Whole numbers compare as the integers. -/
theorem Whole.compare (hu : Whole u a) (hv : Whole v b) : u.compare v = some (compare a b) := by
  cases hu with
  | zero s =>
    cases hv with
    | zero t => rfl
    | @finite t m' n' hm' hn' heq' =>
      cases t
      · exact congrArg some (Int.compare_eq_gt.2 (by change -(n' : Int) < 0; omega)).symm
      · exact congrArg some (Int.compare_eq_lt.2 (by change (0 : Int) < n'; omega)).symm
  | @finite s m n hm hn heq =>
    cases hv with
    | zero t =>
      cases s
      · exact congrArg some (Int.compare_eq_lt.2 (by change -(n : Int) < 0; omega)).symm
      · exact congrArg some (Int.compare_eq_gt.2 (by change (0 : Int) < n; omega)).symm
    | @finite t m' n' hm' hn' heq' =>
      have hsame := compare_mantissas hn hn' heq heq'
      cases s <;> cases t
      · change some (Ordering.swap _) = some (Ord.compare (-(n : Int)) (-(n' : Int)))
        rw [hsame, compare_neg_neg]
      · exact congrArg some (Int.compare_eq_lt.2 (by change -(n : Int) < n'; omega)).symm
      · exact congrArg some (Int.compare_eq_gt.2 (by change -(n' : Int) < n; omega)).symm
      · exact congrArg some hsame

/-- A whole number is unpacked as it was packed. -/
theorem Whole.unpack_pack (h : Whole u a) (ha : Exact a) : (Float.Model.pack u).unpack = u := by
  cases h with
  | zero s => exact unpack_pack_zero s
  | finite hm hn heq =>
    obtain ⟨hlow, hhigh⟩ := mantissa_bounds hn heq
    rw [Exact, natAbs_apply] at ha
    have := log2_le_of_exact hn ha
    exact Gml.unpack_pack hlow hhigh (by omega) (by omega)

end Unpacked

/-! ### Machine numbers

Operations on machine numbers that are integers are those on integers.
-/

/-- A machine number is an integer. -/
def Number.Is (x : Float) (n : Int) : Prop :=
  Whole x.toModel.unpack n

namespace Number

variable {x y : Float} {a b : Int}

/-- A whole number that is packed. -/
theorem Is.of_pack {u : UnpackedFloat} (h : Whole u a) (ha : Exact a) :
    Is (.ofModel (.pack u)) a := by
  change Whole (Float.Model.pack u).unpack a
  rwa [h.unpack_pack ha]

/-- A negation. -/
theorem Is.neg (h : Is x a) (ha : Exact a) : Is (-x) (-a) :=
  .of_pack (Whole.neg h) (by rwa [Exact, Int.natAbs_neg])

/-- A sum. -/
theorem Is.add (hx : Is x a) (hy : Is y b) (h : Exact (a + b)) : Is (x + y) (a + b) :=
  .of_pack (Whole.add hx hy h) h

/-- A difference. -/
theorem Is.sub (hx : Is x a) (hy : Is y b) (h : Exact (a - b)) : Is (x - y) (a - b) :=
  .of_pack (Whole.sub hx hy h) h

/-- A product. -/
theorem Is.mul (hx : Is x a) (hy : Is y b) (h : Exact (a * b)) : Is (x * y) (a * b) :=
  .of_pack (Whole.mul hx hy h) h

/-- The integer that a natural number is. -/
theorem is_ofNat {n : Nat} (hn : n ≤ 2 ^ 53) : Is (Float.ofNat n) n := by
  by_cases hlt : n < 2 ^ 53
  · have hone : Is (Float.ofBits 0x3FF0000000000000) 1 := by
      have hunpack : (Float.ofBits 0x3FF0000000000000).toModel.unpack =
        .finite .positive (2 ^ 52) (-52) (by decide) := rfl
      rw [Is, hunpack]
      exact Whole.finite (s := .positive) (n := 1) (by decide) (by decide) (by decide)
    have hn64 : Is n.toUInt64.toFloat n := by
      have hnat : n.toUInt64.toNat = n := Nat.mod_eq_of_lt (by omega)
      refine Is.of_pack (u := UnpackedFloat.ofUInt64 Format.binary64 n.toUInt64) ?_ hn
      unfold UnpackedFloat.ofUInt64 UnpackedFloat.ofNat UnpackedFloat.ofInt
      rw [hnat]
      exact whole_normalize (k := 52) (c := 52) hn rfl (by decide) (by decide)
    have hproduct : Float.ofNat n = n.toUInt64.toFloat * Float.ofBits 0x3FF0000000000000 := by
      change Float.ofScientific n false 0 = _
      unfold Float.ofScientific
      rw [dif_pos ⟨hlt, by decide⟩]
      rfl
    rw [hproduct, ← Int.mul_one n]
    exact hn64.mul hone (by rwa [Int.mul_one])
  · obtain rfl : n = 2 ^ 53 := by omega
    have hunpack : (Float.ofNat (2 ^ 53)).toModel.unpack =
      .finite .positive (2 ^ 52) 1 (by decide) := rfl
    rw [Is, hunpack]
    exact Whole.finite (s := .positive) (m := 2 ^ 52) (n := 2 ^ 53) (by decide) (by decide) (by decide)

/-- An integer is a whole number. -/
theorem is_ofInt (ha : Exact a) : Is (Float.ofInt a) a := by
  cases a with
  | ofNat n => exact is_ofNat ha
  | negSucc n => exact (is_ofNat (n := n + 1) ha).neg ha

/-- Numbers are ordered as they should be. -/
theorem Is.lt_iff (hx : Is x a) (hy : Is y b) : x < y ↔ a < b := by
  change decide ((x.toModel.unpack.compare y.toModel.unpack == some .lt) = true) = true ↔ a < b
  rw [Whole.compare hx hy, decide_eq_true_iff, beq_iff_eq, Option.some_inj, Int.compare_eq_lt]

/-- They are equal if they should be. -/
theorem Is.beq_iff (hx : Is x a) (hy : Is y b) : (x == y) = true ↔ a = b := by
  change (x.toModel.unpack.compare y.toModel.unpack == some .eq) = true ↔ a = b
  rw [Whole.compare hx hy, beq_iff_eq, Option.some_inj, Int.compare_eq_eq]

/-- The numbers above one half are the positive ones. -/
theorem Is.half_lt_iff (h : Is x a) : 0.5 < x ↔ 0 < a := by
  change decide ((UnpackedFloat.compare (.finite .positive (2 ^ 52) (-53) (by decide))
    x.toModel.unpack == some .lt) = true) = true ↔ 0 < a
  unfold Is at h
  generalize x.toModel.unpack = u at h
  rw [decide_eq_true_iff, beq_iff_eq]
  cases h with
  | zero s => exact iff_of_false nofun (Int.lt_irrefl 0)
  | @finite s m n hm hn heq =>
    cases s
    · exact iff_of_false nofun (by change ¬ 0 < -(n : Int); omega)
    · refine iff_of_true ?_ (by change 0 < (n : Int); omega)
      change some ((Ord.compare (-53) ((n.log2 : Int) - 52)).then _) = _
      rw [Int.compare_eq_lt.2 (by omega)]
      rfl

/-- Nothing has no whole part. -/
theorem wholePart_zero (e : Int) : wholePart 0 e = 0 := by
  unfold wholePart
  split
  · exact Nat.zero_mul _
  · exact Nat.zero_div _

/-- A mantissa has its number as whole part. -/
theorem wholePart_mantissa {m n : Nat} (heq : m * 2 ^ n.log2 = n * 2 ^ 52) :
    wholePart m (n.log2 - 52) = n := by
  unfold wholePart
  by_cases h : 52 ≤ n.log2
  · rw [if_pos (by omega), show ((n.log2 : Int) - 52).toNat = n.log2 - 52 by omega]
    apply Nat.eq_of_mul_eq_mul_right (Nat.two_pow_pos 52)
    change m * 2 ^ (n.log2 - 52) * 2 ^ 52 = _
    rw [Nat.mul_assoc, ← Nat.pow_add, Nat.sub_add_cancel h, heq]
  · rw [if_neg (by omega), show (-((n.log2 : Int) - 52)).toNat = 52 - n.log2 by omega]
    apply Nat.div_eq_of_eq_mul_left (Nat.two_pow_pos (52 - n.log2))
    apply Nat.eq_of_mul_eq_mul_right (Nat.two_pow_pos n.log2)
    rw [Nat.mul_assoc, ← Nat.pow_add, Nat.sub_add_cancel (by omega), heq]

/-- The integer that a number is. -/
theorem Is.toIntWithin (h : Is x a) {low high : Int} (hlow : low ≤ a) (hhigh : a ≤ high) :
    (Double.ofFloat x).toIntWithin low high = a := by
  unfold Double.toIntWithin
  rw [Double.form_ofFloat]
  unfold Is at h
  generalize x.toModel.unpack = u at h
  cases h with
  | zero s =>
    change max low (min high (if _ then -(wholePart 0 (-1074) : Int) else wholePart 0 (-1074))) = 0
    rw [wholePart_zero, Int.natCast_zero, Int.neg_zero, ite_self]
    omega
  | @finite s m n hm hn heq =>
    change max low (min high (if _ then -(wholePart m (n.log2 - 52) : Int) else
      wholePart m (n.log2 - 52))) = _
    rw [wholePart_mantissa heq]
    cases s
    · change max low (min high (-(n : Int))) = -(n : Int)
      change low ≤ -(n : Int) at hlow
      change -(n : Int) ≤ high at hhigh
      omega
    · change max low (min high (n : Int)) = n
      change low ≤ (n : Int) at hlow
      change (n : Int) ≤ high at hhigh
      omega

/-- The bits of a whole number. -/
theorem Is.bits (h : Is x a) (ha : Exact a) : Exec.bits x = Int64.ofInt a := by
  rw [Exact] at ha
  unfold Exec.bits
  rw [h.toIntWithin]
  · change -9223372036854775808 ≤ a
    omega
  · change a ≤ 9223372036854775807
    omega

end Number

end Gml
