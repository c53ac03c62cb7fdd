import Gml.Proofs.Number.Whole

/-!
# Quotients of whole machine numbers

Division of whole machine numbers is exact where the quotient is whole (`Number.Is.div`). Elsewhere
the quotient is rounded, but never as far as the next integer: the numbers are too small for a
fraction to come so near to one (`nearest_div_two_pow`). So its whole part is the quotient of the
integers (`Number.Is.truncate_div`). The remainder is always exact (`Number.Is.remainder`).
-/

namespace Gml

open Float.Model Float.Model.UnpackedFloat

/-! ### Rounded quotients -/

/-- A fraction of numbers up to `2 ^ 53` that is not whole, scaled to at least fifty-three bits, is not
rounded up to a multiple of the scale. -/
theorem nearest_div_two_pow {p c d n k : Nat} (hc : 0 < c) (hk : 0 < k)
    (hscale : p * k = n * (c * 2 ^ d)) (hbits : 2 ^ 52 ≤ p / c) (hn : n ≤ 2 ^ 53)
    (hk' : k ≤ 2 ^ 53) (hwhole : ¬ k ∣ n) : nearest p c / 2 ^ d = n / k := by
  have hd := Nat.two_pow_pos d
  have hfloor : p / c / 2 ^ d = n / k := by
    rw [Nat.div_div_eq_div_mul, ← Nat.mul_div_mul_right p _ hk, hscale, Nat.mul_comm (c * 2 ^ d) k,
      Nat.mul_div_mul_right _ _ (Nat.mul_pos hc hd)]
  rcases nearest_cases p c with h | ⟨h, hhalf⟩
  · rw [h, hfloor]
  · rw [h, ← hfloor, Nat.succ_div, if_neg, Nat.add_zero]
    rintro ⟨z, hz⟩
    have hD : 0 < c * 2 ^ d := Nat.mul_pos hc hd
    have hlt := Nat.mod_lt p hc
    -- Otherwise the fraction lies below the integer `z`, by what is missing to the next mantissa.
    have hgap : n * (c * 2 ^ d) + (c - p % c) * k = z * k * (c * 2 ^ d) := by
      have hsplit : p + (c - p % c) = c * (p / c + 1) := by
        have := Nat.div_add_mod p c
        rw [Nat.mul_add, Nat.mul_one]
        omega
      rw [← hscale, ← Nat.add_mul, hsplit, hz]
      ring
    have hless : n + 1 ≤ z * k := by
      rcases Nat.lt_or_ge n (z * k) with h | h
      · exact h
      · have := Nat.mul_le_mul_right (c * 2 ^ d) h
        have : 0 < (c - p % c) * k := Nat.mul_pos (by omega) hk
        omega
    have hmissing : c * 2 ^ d ≤ (c - p % c) * k := by
      have := Nat.mul_le_mul_right (c * 2 ^ d) hless
      rw [Nat.add_mul, Nat.one_mul, ← hgap] at this
      omega
    -- At least one part of `k` is missing, and at most one half of a mantissa, so `k` is the scale.
    have hlow : 2 * 2 ^ d ≤ k := by
      apply Nat.le_of_mul_le_mul_left _ hc
      calc c * (2 * 2 ^ d) = 2 * (c * 2 ^ d) := by ring
        _ ≤ 2 * ((c - p % c) * k) := Nat.mul_le_mul_left 2 hmissing
        _ = 2 * (c - p % c) * k := by ring
        _ ≤ c * k := Nat.mul_le_mul_right k (by omega)
    have hmantissa : 2 ^ 52 * k ≤ n * 2 ^ d := by
      apply Nat.le_of_mul_le_mul_left _ hc
      calc c * (2 ^ 52 * k) = 2 ^ 52 * c * k := by ring
        _ ≤ p * k := Nat.mul_le_mul_right k ((Nat.le_div_iff_mul_le hc).1 hbits)
        _ = c * (n * 2 ^ d) := by rw [hscale]; ring
    have hscaled : n * 2 ^ d ≤ 2 ^ 53 * 2 ^ d := Nat.mul_le_mul_right _ hn
    obtain rfl : k = 2 ^ (d + 1) := by omega
    obtain rfl : n = 2 ^ 53 := by
      apply Nat.le_antisymm hn
      apply Nat.le_of_mul_le_mul_right _ hd
      omega
    exact hwhole (Nat.pow_dvd_pow 2 ((Nat.pow_le_pow_iff_right (by decide)).1 hk'))

section Unpacked

variable {m n m' n' : Nat}

/-- Division of mantissas gives at least fifty-three bits. -/
theorem divCore_eq (hm : 2 ^ 52 ≤ m ∧ m < 2 ^ 53) (hm' : 2 ^ 52 ≤ m' ∧ m' < 2 ^ 53) {l l' : Nat}
    (hl : l' ≤ 1000) :
    divCore Format.binary64 m (l - 52) m' (l' - 52) =
      (m * 2 ^ 53 / m', (l : Int) - (l' + 53 : Nat),
        accuracyOfFraction (m * 2 ^ 53 % m') m') := by
  have hlog : m.log2 = 52 := (Nat.log2_eq_iff (by omega)).2 hm
  have hlog' : m'.log2 = 52 := (Nat.log2_eq_iff (by omega)).2 hm'
  have htarget : min ((l : Int) - 52 - (l' - 52)) (Format.binary64.targetExponent
      (totalExponent m (l - 52) - totalExponent m' (l' - 52))) = l - (l' + 53 : Nat) := by
    change min _ (max ((m.log2 : Int) + 1 + (l - 52) - (m'.log2 + 1 + (l' - 52)) - 53) (-1074)) = _
    omega
  unfold divCore
  dsimp only
  rw [htarget, Nat.shiftLeft_eq,
    show ((l : Int) - 52 - (l' - 52) - (l - (l' + 53 : Nat))).toNat = 53 by omega]

/-- A quotient has bits enough. -/
theorem two_pow_le_quotient (hm : 2 ^ 52 ≤ m) (hm' : 0 < m' ∧ m' < 2 ^ 53) :
    2 ^ 52 ≤ m * 2 ^ 53 / m' := by
  rw [Nat.le_div_iff_mul_le hm'.1]
  exact Nat.mul_le_mul hm (Nat.le_of_lt hm'.2)

/-- A whole quotient is exact. -/
theorem whole_div_of_dvd {s t : Sign} {hm : 0 < m} {hm' : 0 < m'} (hn : 0 < n) (hn' : 0 < n')
    (hle : n ≤ 2 ^ 53) (hle' : n' ≤ 2 ^ 53) (heq : m * 2 ^ n.log2 = n * 2 ^ 52)
    (heq' : m' * 2 ^ n'.log2 = n' * 2 ^ 52) (hdvd : n' ∣ n) :
    Whole (UnpackedFloat.div Format.binary64 (.finite s m (n.log2 - 52) hm)
      (.finite t m' (n'.log2 - 52) hm')) ((s / t).apply (n / n' : Nat)) := by
  obtain ⟨z, rfl⟩ := hdvd
  have hz : 0 < z := Nat.pos_of_mul_pos_left hn
  have hbounds := mantissa_bounds hn heq
  have hbounds' := mantissa_bounds hn' heq'
  have hl := log2_le_of_exact hn hle
  have hl' := log2_le_of_exact hn' hle'
  have hp : m * 2 ^ 53 = z * 2 ^ (n'.log2 + 53 - (n' * z).log2) * m' := by
    apply Nat.eq_of_mul_eq_mul_right (Nat.two_pow_pos (n' * z).log2)
    calc m * 2 ^ 53 * 2 ^ (n' * z).log2 = n' * z * 2 ^ 52 * 2 ^ 53 := by
          rw [← heq]; ring
      _ = z * m' * (2 ^ n'.log2 * 2 ^ 53) := by rw [Nat.mul_right_comm n' z, ← heq']; ring
      _ = z * m' * (2 ^ (n'.log2 + 53 - (n' * z).log2) * 2 ^ (n' * z).log2) := by
          rw [← Nat.pow_add, ← Nat.pow_add, Nat.sub_add_cancel (by omega)]
      _ = _ := by ring
  have hq := two_pow_le_quotient hbounds.1 ⟨hm', hbounds'.2⟩
  rw [hp, Nat.mul_div_cancel _ hm'] at hq
  change Whole (roundWithAccuracy Format.binary64 (s / t) (divCore _ _ _ _ _).1
    (divCore _ _ _ _ _).2.1 (divCore _ _ _ _ _).2.2) _
  rw [divCore_eq hbounds hbounds' (by omega), Nat.mul_div_cancel_left z hn']
  dsimp only
  rw [hp, Nat.mul_mod_left, Nat.mul_div_cancel _ hm']
  apply whole_roundWithAccuracy hz _ _ hq (by omega)
  · exact Nat.le_trans (Nat.le_mul_of_pos_left z hn') hle
  · rw [Nat.mul_assoc, ← Nat.pow_add, Nat.sub_add_cancel (by omega)]

/-- The whole part of a small number. -/
theorem wholePart_of_nonpos (f : Nat) {e : Int} (he : e ≤ 0) :
    wholePart f e = f / 2 ^ (-e).toNat := by
  unfold wholePart
  split
  · rw [show e.toNat = 0 by omega, show (-e).toNat = 0 by omega]
    exact (Nat.mul_one f).trans (Nat.div_one f).symm
  · rfl

/-- A mantissa with one bit too many has the whole part that it has without the bit. -/
theorem wholePart_two_pow {e : Int} (he : e ≤ 0) :
    wholePart (2 ^ 52) (e + 1) = 2 ^ 53 / 2 ^ (-e).toNat := by
  rcases Int.lt_or_eq_of_le he with hlt | rfl
  · rw [wholePart_of_nonpos _ (by omega), show (-e).toNat = (-(e + 1)).toNat + 1 by omega,
      Nat.pow_succ 2 52, Nat.pow_succ 2 (-(e + 1)).toNat, Nat.mul_div_mul_right _ _ (by decide)]
  · rfl

/-- The whole part of a quotient that is not whole. -/
theorem wholePart_div (s t : Sign) (hm : 0 < m) (hm' : 0 < m') (hn : 0 < n) (hn' : 0 < n')
    (hle : n ≤ 2 ^ 53) (hle' : n' ≤ 2 ^ 53) (heq : m * 2 ^ n.log2 = n * 2 ^ 52)
    (heq' : m' * 2 ^ n'.log2 = n' * 2 ^ 52) (hdvd : ¬ n' ∣ n) :
    ∃ f e hf, UnpackedFloat.div Format.binary64 (.finite s m (n.log2 - 52) hm)
        (.finite t m' (n'.log2 - 52) hm') = .finite (s / t) f e hf ∧
      2 ^ 52 ≤ f ∧ f < 2 ^ 53 ∧ -1000 ≤ e ∧ e ≤ 2 ∧ wholePart f e = n / n' := by
  have hbounds := mantissa_bounds hn heq
  have hbounds' := mantissa_bounds hn' heq'
  have hl := log2_le_of_exact hn hle
  have hl' := log2_le_of_exact hn' hle'
  have hq := two_pow_le_quotient hbounds.1 ⟨hm', hbounds'.2⟩
  have hlog : (m * 2 ^ 53 / m').log2 ≤ 53 := by
    apply Nat.le_of_lt_succ
    rw [Nat.log2_lt (by omega), Nat.div_lt_iff_lt_mul hm']
    omega
  have hlog52 : 52 ≤ (m * 2 ^ 53 / m').log2 := (Nat.le_log2 (by omega)).2 hq
  obtain ⟨f, e, hf, hdiv, hlow, hhigh, hcases⟩ := roundWithAccuracy_eq (s := s / t)
    (e := (n.log2 : Int) - (n'.log2 + 53 : Nat)) (stands_fraction (m * 2 ^ 53) hm') hm' hq (by omega)
  refine ⟨f, e, hf, ?_, hlow, hhigh, ?_⟩
  · change roundWithAccuracy Format.binary64 (s / t) (divCore _ _ _ _ _).1
      (divCore _ _ _ _ _).2.1 (divCore _ _ _ _ _).2.2 = _
    rw [divCore_eq hbounds hbounds' (by omega)]
    exact hdiv
  · have hbits := (shifted_bounds hq).1
    generalize hj : (m * 2 ^ 53 / m').log2 - 52 = j at hcases hbits
    rw [Nat.div_div_eq_div_mul] at hbits
    -- Only one divides every number, so the exponent is not positive.
    have hnonpos : (n.log2 : Int) - (n'.log2 + 53 : Nat) + j ≤ 0 := by
      have hone : n'.log2 ≠ 0 := by
        intro h0
        have := (Nat.log2_eq_iff (by omega)).1 h0
        obtain rfl : n' = 1 := by omega
        exact hdvd (Nat.one_dvd n)
      omega
    generalize hd : (-((n.log2 : Int) - (n'.log2 + 53 : Nat) + j)).toNat = d
    have hscale : m * 2 ^ 53 * n' = n * (m' * 2 ^ j * 2 ^ d) := by
      apply Nat.eq_of_mul_eq_mul_right (Nat.two_pow_pos (n.log2 + 52))
      calc m * 2 ^ 53 * n' * 2 ^ (n.log2 + 52) = (m * 2 ^ n.log2) * (n' * 2 ^ 52) * 2 ^ 53 := by ring
        _ = n * m' * (2 ^ (n'.log2 + 53) * 2 ^ 52) := by rw [heq, ← heq']; ring
        _ = n * m' * (2 ^ (j + d + n.log2) * 2 ^ 52) := by
          rw [show n'.log2 + 53 = j + d + n.log2 by omega]
        _ = _ := by ring
    have hnearest := nearest_div_two_pow (Nat.mul_pos hm' (Nat.two_pow_pos j)) hn' hscale hbits hle
      hle' hdvd
    rcases hcases with ⟨rfl, rfl⟩ | ⟨hmax, rfl, rfl⟩
    · refine ⟨by omega, by omega, ?_⟩
      rw [wholePart_of_nonpos _ hnonpos, hd, hnearest]
    · refine ⟨by omega, by omega, ?_⟩
      rw [wholePart_two_pow hnonpos, hd, ← hmax, hnearest]

/-- A quotient has the sign of both. -/
theorem tdiv_apply (s t : Sign) (n n' : Nat) :
    (s.apply n).tdiv (t.apply n') = (s / t).apply (n / n' : Nat) := by
  cases s <;> cases t
  · exact Int.neg_tdiv_neg n n'
  · exact Int.neg_tdiv n n'
  · exact Int.tdiv_neg n n'
  · rfl

end Unpacked

/-! ### Machine numbers -/

namespace Number

variable {x y : Float} {a b : Int} {s : Sign}

/-- A quotient is exact. -/
theorem exact_tdiv (ha : Exact a) (b : Int) : Exact (a.tdiv b) := by
  rw [Exact, Int.natAbs_tdiv]
  exact Nat.le_trans (Nat.div_le_self _ _) ha

/-- A whole quotient is exact. -/
theorem Is.div (hx : Is x a) (hy : Is y b) (ha : Exact a) (hb : Exact b) (hne : b ≠ 0)
    (hdvd : b ∣ a) : Is (x / y) (a.tdiv b) := by
  refine .of_pack (u := UnpackedFloat.div Format.binary64 x.toModel.unpack y.toModel.unpack) ?_
    (exact_tdiv ha b)
  unfold Is at hx hy
  generalize x.toModel.unpack = u at hx
  generalize y.toModel.unpack = v at hy
  cases hy with
  | zero t => exact absurd rfl hne
  | @finite t m' n' hm' hn' heq' =>
    cases hx with
    | zero s =>
      rw [Int.zero_tdiv]
      exact .zero (s / t)
    | @finite s m n hm hn heq =>
      rw [Exact, natAbs_apply] at ha hb
      rw [← Int.natAbs_dvd_natAbs, natAbs_apply, natAbs_apply] at hdvd
      rw [tdiv_apply]
      exact whole_div_of_dvd hn hn' ha hb heq heq' hdvd

/-! ### Whole parts -/

/-- A finite number is truncated. -/
theorem truncate_of_finite {f : Nat} {e : Int} {hf : 0 < f} (h : x.toModel.unpack = .finite s f e hf)
    (hlow : 2 ^ 52 ≤ f) (hhigh : f < 2 ^ 53) (hle : wholePart f e ≤ 2 ^ 53) :
    Is (truncate x) (s.apply (wholePart f e)) := by
  unfold truncate
  rw [Double.form_ofFloat, h]
  change Is (if 0 ≤ e then x else if s == .negative then -Float.ofNat (wholePart f e) else
    Float.ofNat (wholePart f e)) _
  by_cases he : 0 ≤ e
  · rw [if_pos he]
    obtain ⟨k, rfl⟩ := Int.eq_ofNat_of_zero_le he
    have hwhole : wholePart f k = f * 2 ^ k := by
      unfold wholePart
      rw [if_pos he]
      rfl
    have hlog : (f * 2 ^ k).log2 = 52 + k := by
      rw [log2_mul_two_pow hf, (Nat.log2_eq_iff (by omega)).2 ⟨hlow, hhigh⟩]
    rw [Is, h, hwhole, finite_eq rfl rfl (by omega : (k : Int) = (f * 2 ^ k).log2 - 52)]
    refine .finite hf (Nat.mul_pos hf (Nat.two_pow_pos k)) ?_
    rw [hlog]
    ring
  · rw [if_neg he]
    cases s
    · exact (is_ofNat hle).neg hle
    · exact is_ofNat hle

/-- So is zero. -/
theorem truncate_of_zero (h : x.toModel.unpack = .zero s) : Is (truncate x) 0 := by
  have hzero : Is (Float.ofNat 0) 0 := is_ofNat (by decide)
  unfold truncate
  rw [Double.form_ofFloat, h]
  change Is (if s == .negative then -Float.ofNat (wholePart 0 (-1074)) else
    Float.ofNat (wholePart 0 (-1074))) 0
  rw [wholePart_zero]
  cases s
  · exact hzero.neg (by decide)
  · exact hzero

/-- A whole number is not changed by it. -/
theorem Is.truncate (h : Is x a) (ha : Exact a) : Is (truncate x) a := by
  unfold Is at h
  generalize hu : x.toModel.unpack = u at h
  cases h with
  | zero s => exact truncate_of_zero hu
  | finite hm hn heq =>
    obtain ⟨hlow, hhigh⟩ := mantissa_bounds hn heq
    have hwhole := wholePart_mantissa heq
    rw [Exact, natAbs_apply] at ha
    have hpart := truncate_of_finite hu hlow hhigh (Nat.le_trans (Nat.le_of_eq hwhole) ha)
    rwa [hwhole] at hpart

/-- The whole part of a quotient is that of the integers. -/
theorem Is.truncate_div (hx : Is x a) (hy : Is y b) (ha : Exact a) (hb : Exact b) (hne : b ≠ 0) :
    Is (Number.truncate (x / y)) (a.tdiv b) := by
  by_cases hdvd : b ∣ a
  · exact (hx.div hy ha hb hne hdvd).truncate (exact_tdiv ha b)
  · have hdiv : (x / y).toModel.unpack = (Float.Model.pack (UnpackedFloat.div Format.binary64
      x.toModel.unpack y.toModel.unpack)).unpack := rfl
    unfold Is at hx hy
    generalize x.toModel.unpack = u at hx hdiv
    generalize y.toModel.unpack = v at hy hdiv
    cases hx with
    | zero s => exact absurd (Int.dvd_zero b) hdvd
    | @finite s m n hm hn heq =>
      cases hy with
      | zero t => exact absurd rfl hne
      | @finite t m' n' hm' hn' heq' =>
        rw [Exact, natAbs_apply] at ha hb
        rw [← Int.natAbs_dvd_natAbs, natAbs_apply, natAbs_apply] at hdvd
        obtain ⟨f, e, hf, hquotient, hlow, hhigh, helow, hehigh, hwhole⟩ :=
          wholePart_div s t hm hm' hn hn' ha hb heq heq' hdvd
        rw [hquotient, unpack_pack hlow hhigh (by omega) (by omega)] at hdiv
        rw [tdiv_apply, ← hwhole]
        apply truncate_of_finite hdiv hlow hhigh
        rw [hwhole]
        exact Nat.le_trans (Nat.div_le_self n n') ha

/-! ### Remainders -/

/-- The number with a pattern is unpacked as the pattern. -/
theorem unpack_toFloat (p : Double) :
    p.toFloat.toModel.unpack =
      (Float.Model.pack (UnpackedFloat.unpack Format.binary64 p.bits.toBitVec)).unpack :=
  rfl

/-- The number of an unpacked form. -/
theorem eq_finite_of_form {u : UnpackedFloat} {f : Nat} {e : Int} (hf : 0 < f)
    (h : Double.Form.ofUnpacked u = .finite (s == .negative) f e) : u = .finite s f e hf := by
  cases u with
  | notANumber => cases h
  | infinity t => cases h
  | zero t =>
    injection h with _ hzero
    omega
  | finite t m' e' hm' =>
    injection h with hsign hmantissa hexponent
    subst hmantissa hexponent
    cases s <;> cases t <;> first | rfl | cases hsign

/-- Nothing, at any scale, is zero. -/
theorem is_ofParts_zero (negative : Bool) (e : Int) : Is (Double.ofParts negative 0 e).toFloat 0 := by
  have hpositive : (Double.toFloat ⟨0⟩).toModel.unpack = .zero .positive := rfl
  have hnegative : (Double.toFloat ⟨0x8000000000000000⟩).toModel.unpack = .zero .negative := rfl
  cases negative
  · change Whole (Double.toFloat ⟨0⟩).toModel.unpack 0
    rw [hpositive]
    exact .zero .positive
  · change Whole (Double.toFloat ⟨0x8000000000000000⟩).toModel.unpack 0
    rw [hnegative]
    exact .zero .negative

/-- The form of a pattern that is put together from a sign, an exponent and a fraction. -/
theorem form_ofNat (negative : Bool) {e f : Nat} (hpos : 0 < e) (he : e < 2047)
    (hf : f < 4503599627370496) :
    Double.form ⟨UInt64.ofNat ((if negative then 9223372036854775808 else 0) +
        e * 4503599627370496 + f)⟩ =
      .finite negative (4503599627370496 + f) (e - 1075) := by
  have h52 : Nat.pow 2 52 = 4503599627370496 := rfl
  have h11 : Nat.pow 2 11 = 2048 := rfl
  have h63 : Nat.pow 2 63 = 9223372036854775808 := rfl
  have hsign : (if negative then 9223372036854775808 else 0) = 0 ∧ negative = false ∨
      (if negative then 9223372036854775808 else 0) = 9223372036854775808 ∧ negative = true := by
    cases negative
    · exact .inl ⟨rfl, rfl⟩
    · exact .inr ⟨rfl, rfl⟩
  generalize (if negative then 9223372036854775808 else 0) = sign at hsign
  have hnat : (UInt64.ofNat (sign + e * 4503599627370496 + f)).toNat =
      sign + e * 4503599627370496 + f :=
    UInt64.toNat_ofNat_of_lt' (show _ < 18446744073709551616 by omega)
  have hexponent : (sign + e * 4503599627370496 + f) / 4503599627370496 % 2048 = e := by omega
  have hfraction : (sign + e * 4503599627370496 + f) % 4503599627370496 = f := by omega
  have hnegative : decide (9223372036854775808 ≤ sign + e * 4503599627370496 + f) = negative := by
    rcases hsign with ⟨hsign, rfl⟩ | ⟨hsign, rfl⟩
    · exact decide_eq_false (by omega)
    · exact decide_eq_true (by omega)
  unfold Double.form Double.isNegative
  dsimp only
  rw [h52, h11, h63, hnat, hexponent, hfraction, hnegative, if_neg (by omega), if_neg (by omega)]

/-- A number that is put together from its parts. -/
theorem is_ofParts {f n k : Nat} (hf : 0 < f) (hhigh : f < 2 ^ 53) (hn : 0 < n) (hle : n ≤ 2 ^ 53)
    (heq : f * 2 ^ k = n * 2 ^ 52) :
    Is (Double.ofParts (s == .negative) f (k - 52)).toFloat (s.apply n) := by
  have hlog : f.log2 + k = n.log2 + 52 := by
    rw [← log2_mul_two_pow hf, ← log2_mul_two_pow hn, heq]
  have hbits : f.log2 ≤ 52 := Nat.le_of_lt_succ ((Nat.log2_lt (by omega)).2 hhigh)
  have hl := log2_le_of_exact hn hle
  have hmantissa : f * 2 ^ (52 - f.log2) * 2 ^ n.log2 = n * 2 ^ 52 := by
    rw [Nat.mul_assoc, ← Nat.pow_add, show 52 - f.log2 + n.log2 = k by omega, heq]
  obtain ⟨hlow, hhigh⟩ := mantissa_bounds hn hmantissa
  have hform : (Double.ofParts (s == .negative) f (k - 52)).form =
      .finite (s == .negative) (f * 2 ^ (52 - f.log2)) (n.log2 - 52) := by
    unfold Double.ofParts
    dsimp only
    rw [if_neg (by omega), if_neg (by omega),
      show ((k : Int) - 52 + f.log2 + 1023).toNat = n.log2 + 1023 by omega]
    rw [show Nat.pow 2 52 = 4503599627370496 from rfl,
      show Nat.pow 2 63 = 9223372036854775808 from rfl,
      show Nat.pow 2 (52 - f.log2) = 2 ^ (52 - f.log2) from rfl,
      form_ofNat _ (by omega) (by omega) (by omega), Nat.add_sub_cancel' (by omega),
      show ((n.log2 + 1023 : Nat) : Int) - 1075 = n.log2 - 52 by omega]
  have hpos : 0 < f * 2 ^ (52 - f.log2) := by omega
  have hunpack := eq_finite_of_form hpos ((Double.form_eq _).symm.trans hform)
  rw [Is, unpack_toFloat, hunpack, unpack_pack hlow hhigh (by omega) (by omega)]
  exact .finite hpos hn hmantissa

/-- A remainder has the sign of the dividend. -/
theorem tmod_apply (s t : Sign) (n n' : Nat) :
    (s.apply n).tmod (t.apply n') = s.apply (n % n' : Nat) := by
  cases s <;> cases t
  · exact (Int.neg_tmod n (-n')).trans (congrArg _ (Int.tmod_neg n n'))
  · exact Int.neg_tmod n n'
  · exact Int.tmod_neg n n'
  · rfl

/-- The remainder of scaled mantissas. -/
theorem remainder_mantissas {m n m' n' k : Nat} (heq : m * 2 ^ n.log2 = n * 2 ^ 52)
    (heq' : m' * 2 ^ n'.log2 = n' * 2 ^ 52) (hk : k = min n.log2 n'.log2) :
    m * 2 ^ (n.log2 - k) % (m' * 2 ^ (n'.log2 - k)) * 2 ^ k = n % n' * 2 ^ 52 := by
  rw [← Nat.mul_mod_mul_right, ← Nat.mul_mod_mul_right, Nat.mul_assoc, Nat.mul_assoc, ← Nat.pow_add,
    ← Nat.pow_add, Nat.sub_add_cancel (by omega), Nat.sub_add_cancel (by omega), heq, heq']

/-- The remainder is exact. -/
theorem Is.remainder (hx : Is x a) (hy : Is y b) (ha : Exact a) (hne : b ≠ 0) :
    Is (Number.remainder x y) (a.tmod b) := by
  unfold Number.remainder
  rw [Double.form_ofFloat, Double.form_ofFloat]
  unfold Is at hx hy
  generalize x.toModel.unpack = u at hx
  generalize y.toModel.unpack = v at hy
  cases hy with
  | zero t => exact absurd rfl hne
  | @finite t m' n' hm' hn' heq' =>
    cases hx with
    | zero s =>
      change Is (if m' = 0 then 0.0 / 0.0 else (Double.ofParts (s == .negative)
        (0 * Nat.pow 2 _ % (m' * Nat.pow 2 _)) _).toFloat) _
      rw [if_neg (by omega), Nat.zero_mul, Nat.zero_mod, Int.zero_tmod]
      exact is_ofParts_zero _ _
    | @finite s m n hm hn heq =>
      change Is (if m' = 0 then 0.0 / 0.0 else (Double.ofParts (s == .negative)
        (m * Nat.pow 2 ((n.log2 : Int) - 52 - min ((n.log2 : Int) - 52) (n'.log2 - 52)).toNat %
          (m' * Nat.pow 2 ((n'.log2 : Int) - 52 - min ((n.log2 : Int) - 52) (n'.log2 - 52)).toNat))
        (min ((n.log2 : Int) - 52) (n'.log2 - 52))).toFloat) _
      rw [if_neg (by omega), tmod_apply]
      generalize hk : min n.log2 n'.log2 = k
      rw [show min ((n.log2 : Int) - 52) (n'.log2 - 52) = k - 52 by omega,
        show ((n.log2 : Int) - 52 - (k - 52)).toNat = n.log2 - k by omega,
        show ((n'.log2 : Int) - 52 - (k - 52)).toNat = n'.log2 - k by omega]
      change Is (Double.ofParts (s == .negative)
        (m * 2 ^ (n.log2 - k) % (m' * 2 ^ (n'.log2 - k))) (k - 52)).toFloat _
      have hrest := remainder_mantissas heq heq' hk.symm
      -- One of the mantissas is not scaled, and the remainder is at most either of them.
      have hlt : m * 2 ^ (n.log2 - k) % (m' * 2 ^ (n'.log2 - k)) < 2 ^ 53 := by
        rcases (show n.log2 - k = 0 ∨ n'.log2 - k = 0 by omega) with h | h
        · rw [h, Nat.pow_zero, Nat.mul_one]
          exact Nat.lt_of_le_of_lt (Nat.mod_le _ _) (mantissa_bounds hn heq).2
        · rw [h, Nat.pow_zero, Nat.mul_one]
          exact Nat.lt_trans (Nat.mod_lt _ hm') (mantissa_bounds hn' heq').2
      generalize m * 2 ^ (n.log2 - k) % (m' * 2 ^ (n'.log2 - k)) = r at hrest hlt
      rcases Nat.eq_zero_or_pos r with rfl | hr
      · rw [Nat.zero_mul] at hrest
        have hzero : n % n' = 0 := by omega
        rw [hzero]
        have hsign : s.apply (0 : Nat) = 0 := by cases s <;> rfl
        rw [hsign]
        exact is_ofParts_zero _ _
      · rw [Exact, natAbs_apply] at ha
        have hpos : 0 < n % n' := by
          have := Nat.mul_pos hr (Nat.two_pow_pos k)
          omega
        exact is_ofParts hr hlt hpos (Nat.le_trans (Nat.mod_le n n') ha) hrest

end Number

end Gml
