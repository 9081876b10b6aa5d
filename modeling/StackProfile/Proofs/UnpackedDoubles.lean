import StackProfile.Proofs.Mantissas

/-! # Arithmetic of unpacked doubles

Products, quotients and differences of unpacked doubles are the doubles nearest to the exact ones,
and doubles compare as the numbers that they stand for.  A result may be too large for a double;
packing makes it infinite.

Main lemmas: `encodes_mul`, `encodes_div` and `encodes_sub` for the operations, and `compare_eq`
for comparisons. -/

namespace StackProfile.Sampling

open Float.Model (Format UnpackedFloat totalExponent)
open Float.Model.UnpackedFloat

variable {u w : UnpackedFloat} {s t : Sign} {p q : ℚ}

theorem Encodes.nonneg (h : Encodes u s p) : 0 ≤ p := by
  cases h with
  | zero => exact le_rfl
  | finite _ h => exact h.value_pos.le

theorem Encodes.representable (h : Encodes u s p) : Representable p := by
  cases h with
  | zero => exact_mod_cast representable_natCast (show 0 < 2 ^ 53 by decide)
  | finite _ h => exact h.representable

/-! ### Products and quotients -/

/-- The exact product of two mantissas has enough bits, or the least exponents. -/
theorem lastPlace_mul {m m' : ℕ} {e e' : ℤ} (h : Canonical m e) (h' : Canonical m' e') :
    e + e' ≤ lastPlace ((m * m' : ℕ) * 2 ^ (e + e')) := by
  have hpos := Nat.mul_pos h.pos h'.pos
  have hlog : 2 ^ 52 ≤ m * m' → 52 ≤ (m * m').log2 := (Nat.le_log2 hpos.ne').2
  unfold lastPlace
  rw [log_natCast_mul_zpow hpos]
  rcases h.leading with hm | he
  · have := hlog (hm.trans (Nat.le_mul_of_pos_right m h'.pos))
    omega
  · rcases h'.leading with hm' | he'
    · have := hlog (hm'.trans (Nat.le_mul_of_pos_left m' h.pos))
      omega
    · omega

theorem encodes_mul (hu : Encodes u s p) (hw : Encodes w t q) :
    Encodes (mul .binary64 u w) (s * t) (nearest (p * q)) := by
  cases hu with
  | zero s =>
      rw [zero_mul, nearest_zero]
      cases hw with
      | zero t => exact .zero (s * t)
      | finite t h => exact .zero (s * t)
  | @finite s m e h =>
      cases hw with
      | zero t =>
          rw [mul_zero, nearest_zero]
          exact .zero (s * t)
      | @finite t m' e' h' =>
          have hvalue : (m : ℚ) * 2 ^ e * (m' * 2 ^ e') = (m * m' : ℕ) * 2 ^ (e + e') := by
            rw [zpow_add₀ two_ne_zero]
            push_cast
            ring
          rw [hvalue]
          exact encodes_roundWithAccuracy (s * t) (tracks_exact _)
            (Nat.cast_pos.2 (Nat.mul_pos h.pos h'.pos)) (lastPlace_mul h h')

/-- Comparing a remainder with half of the divisor is comparing the fraction with one half. -/
theorem compare_remainder (r : ℕ) {b : ℕ} (hb : 0 < b) :
    compare (2 * r) b = compare (2 * ((r : ℚ) / b)) 1 := by
  have hb' : (0 : ℚ) < b := Nat.cast_pos.2 hb
  have hhalf : 2 * ((r : ℚ) / b) = (2 * r : ℕ) / b := by push_cast; ring
  rw [hhalf]
  rcases lt_trichotomy (2 * r) b with hc | hc | hc
  · rw [compare_lt_iff_lt.2 hc, compare_lt_iff_lt.2 ((div_lt_one hb').2 (Nat.cast_lt.2 hc))]
  · rw [compare_eq_iff_eq.2 hc, compare_eq_iff_eq.2 (by rw [hc, div_self hb'.ne'])]
  · rw [compare_gt_iff_gt.2 hc, compare_gt_iff_gt.2 ((one_lt_div hb').2 (Nat.cast_lt.2 hc))]

/-- The remainder of a division gives the accuracy of the quotient. -/
theorem tracks_fraction (a : ℕ) {b : ℕ} (hb : 0 < b) :
    Tracks (.ofMantissaAndAccuracy (a / b) (accuracyOfFraction (a % b) b)) (a / b) := by
  have hb' : (0 : ℚ) < b := Nat.cast_pos.2 hb
  have hsplit : (a : ℚ) / b = (a / b : ℕ) + (a % b : ℕ) / b := by
    have hdiv : (a : ℚ) = b * (a / b : ℕ) + (a % b : ℕ) := by
      exact_mod_cast (Nat.div_add_mod a b).symm
    rw [eq_comm, ← sub_eq_zero]
    field_simp
    linarith
  rw [hsplit]
  unfold accuracyOfFraction
  by_cases hr : a % b = 0
  · rw [if_pos hr, hr, Nat.cast_zero, zero_div, add_zero]
    exact tracks_exact _
  · rw [if_neg hr, compare_remainder _ hb]
    refine tracks_inexact _ ?_ ?_
    · exact div_pos (Nat.cast_pos.2 (Nat.pos_of_ne_zero hr)) hb'
    · exact (div_lt_one hb').2 (Nat.cast_lt.2 (Nat.mod_lt a hb))

/-- The total exponents tell the leading place of a quotient up to one. -/
theorem le_log_div {m m' : ℕ} (hm : 0 < m) (hm' : 0 < m') (e e' : ℤ) :
    (m.log2 + e - (m'.log2 + e') - 1 : ℤ) ≤ Int.log 2 ((m : ℚ) * 2 ^ e / (m' * 2 ^ e')) := by
  have hpos : (0 : ℚ) < m * 2 ^ e := mul_pos (Nat.cast_pos.2 hm) (two_zpow_pos e)
  have hpos' : (0 : ℚ) < m' * 2 ^ e' := mul_pos (Nat.cast_pos.2 hm') (two_zpow_pos e')
  have hnum := zpow_log_le hpos
  have hden := lt_zpow_log ((m' : ℚ) * 2 ^ e')
  rw [log_natCast_mul_zpow hm] at hnum
  rw [log_natCast_mul_zpow hm'] at hden
  refine (Int.zpow_le_iff_le_log Nat.one_lt_two (div_pos hpos hpos')).1 ?_
  rw [Nat.cast_two, le_div_iff₀ hpos']
  calc (2 : ℚ) ^ (m.log2 + e - (m'.log2 + e') - 1 : ℤ) * (m' * 2 ^ e')
      ≤ 2 ^ (m.log2 + e - (m'.log2 + e') - 1 : ℤ) * 2 ^ (m'.log2 + e' + 1 : ℤ) :=
        mul_le_mul_of_nonneg_left hden.le (two_zpow_pos _).le
    _ = 2 ^ (m.log2 + e : ℤ) := by
        rw [← zpow_add₀ two_ne_zero]
        congr 1
        ring
    _ ≤ m * 2 ^ e := hnum

/-- The exponent that a quotient is computed at is not above its last place. -/
theorem targetExponent_div_le {m m' : ℕ} (hm : 0 < m) (hm' : 0 < m') (e e' : ℤ) :
    Format.binary64.targetExponent (totalExponent m e - totalExponent m' e') ≤
      lastPlace ((m : ℚ) * 2 ^ e / (m' * 2 ^ e')) := by
  have hlog := le_log_div hm hm' e e'
  have hmin : Format.binary64.minExponent = -1074 := by decide
  have hbits : (Format.binary64.mantissaBits : ℤ) = 53 := by decide
  rw [Format.targetExponent, totalExponent, totalExponent, hmin, hbits]
  unfold lastPlace
  omega

theorem encodes_div (hu : Encodes u s p) (hw : Encodes w t q) (hq : q ≠ 0) :
    Encodes (div .binary64 u w) (s / t) (nearest (p / q)) := by
  cases hw with
  | zero => exact absurd rfl hq
  | @finite t m' e' h' =>
      cases hu with
      | zero s =>
          rw [zero_div, nearest_zero]
          exact .zero (s / t)
      | @finite s m e h =>
          have htarget := targetExponent_div_le h.pos h'.pos e e'
          simp only [div, divCore]
          generalize Format.binary64.targetExponent (totalExponent m e - totalExponent m' e') = t₀
            at htarget ⊢
          -- The numerator is shifted by `k` places.
          obtain ⟨k, hk⟩ : ∃ k : ℕ, e - e' - min (e - e') t₀ = k :=
            Int.eq_ofNat_of_zero_le (by omega)
          have hmin : min (e - e') t₀ = e - e' - k := by omega
          have hvalue : ((m <<< k : ℕ) : ℚ) / m' * 2 ^ (e - e' - k) =
              m * 2 ^ e / (m' * 2 ^ e') := by
            rw [div_mul_eq_mul_div, shiftLeft_mul_zpow, zpow_sub₀ two_ne_zero]
            field_simp
          rw [hk, Int.toNat_natCast, hmin, ← hvalue]
          refine encodes_roundWithAccuracy (s / t) (tracks_fraction _ h'.pos) ?_ ?_
          · refine div_pos (Nat.cast_pos.2 ?_) (Nat.cast_pos.2 h'.pos)
            rw [Nat.shiftLeft_eq]
            exact Nat.mul_pos h.pos (Nat.two_pow_pos k)
          · rw [hvalue]
            omega

theorem div_zero_eq (hu : Encodes u s p) (hp : p ≠ 0) (t : Sign) :
    div .binary64 u (.zero t) = .infinity (s / t) := by
  cases hu with
  | zero => exact absurd rfl hp
  | finite => rfl

theorem div_infinity_eq (hu : Encodes u s p) (t : Sign) :
    div .binary64 u (.infinity t) = .zero (s / t) := by
  cases hu with
  | zero => rfl
  | finite => rfl

theorem mul_infinity_eq (hu : Encodes u s p) (hp : p ≠ 0) (t : Sign) :
    mul .binary64 u (.infinity t) = .infinity (s * t) := by
  cases hu with
  | zero => exact absurd rfl hp
  | finite => rfl

theorem div_notANumber (u : UnpackedFloat) : div .binary64 u .notANumber = .notANumber := by
  cases u <;> rfl

/-! ### Differences -/

/-- The number with a sign and a magnitude. -/
def signed : Sign → ℚ → ℚ
  | .negative, q => -q
  | .positive, q => q

@[simp] theorem signed_zero (s : Sign) : signed s 0 = 0 := by
  cases s with
  | negative => exact neg_zero
  | positive => rfl

@[simp] theorem signed_neg (s : Sign) (q : ℚ) : signed (-s) q = -signed s q := by
  cases s with
  | negative => exact (neg_neg q).symm
  | positive => rfl

/-- The sign of a number other than zero. -/
def signOfRat (v : ℚ) : Sign := if v < 0 then .negative else .positive

theorem signOfRat_signed (hp : 0 < p) (s : Sign) : signOfRat (signed s p) = s := by
  cases s with
  | negative => exact if_pos (neg_lt_zero.2 hp)
  | positive => exact if_neg hp.not_gt

theorem abs_signed (hp : 0 ≤ p) (s : Sign) : |signed s p| = p := by
  cases s with
  | negative => rw [signed, abs_neg, abs_of_nonneg hp]
  | positive => exact abs_of_nonneg hp

theorem cast_apply (s : Sign) (m : ℕ) : ((s.apply m : ℤ) : ℚ) = signed s m := by
  cases s with
  | negative => simp [Sign.apply, signed]
  | positive => simp [Sign.apply, signed]

theorem signed_mul (s : Sign) (p q : ℚ) : signed s (p * q) = signed s p * q := by
  cases s with
  | negative => exact neg_mul_eq_neg_mul p q
  | positive => rfl

/-- An aligned mantissa. -/
theorem cast_decreaseExponent (m : ℕ) {e e₀ : ℤ} (he : e₀ ≤ e) :
    ((decreaseExponent m e e₀).1 : ℚ) * 2 ^ e₀ = m * 2 ^ e := by
  obtain ⟨k, hk⟩ := Int.eq_ofNat_of_zero_le (sub_nonneg.2 he)
  have he₀ : e₀ = e - k := by omega
  simp only [decreaseExponent, hk, Int.toNat_natCast]
  rw [he₀, shiftLeft_mul_zpow]

/-- The difference of two mantissas at their smaller exponent is exact. -/
theorem cast_aligned (s t : Sign) (m m' : ℕ) (e e' : ℤ) :
    ((s.apply (decreaseExponent m e (min e e')).1 -
      t.apply (decreaseExponent m' e' (min e e')).1 : ℤ) : ℚ) * 2 ^ min e e' =
      signed s (m * 2 ^ e) - signed t (m' * 2 ^ e') := by
  rw [Int.cast_sub, cast_apply, cast_apply, sub_mul, ← signed_mul, ← signed_mul,
    cast_decreaseExponent m (min_le_left e e'), cast_decreaseExponent m' (min_le_right e e')]

theorem signOfRat_mul_zpow (n e : ℤ) : signOfRat (n * 2 ^ e) = signOf n := by
  have hpow := two_zpow_pos e
  have hiff : (n : ℚ) * 2 ^ e < 0 ↔ n < 0 := by
    rw [mul_neg_iff]
    simp only [hpow.not_gt, and_false, hpow, and_true, false_or, Int.cast_lt_zero]
  unfold signOfRat signOf
  simp only [hiff]

theorem abs_mul_zpow (n e : ℤ) : |(n : ℚ) * 2 ^ e| = n.natAbs * 2 ^ e := by
  rw [abs_mul, abs_of_pos (two_zpow_pos e), Nat.cast_natAbs, Int.cast_abs]

theorem encodes_sub (hu : Encodes u s p) (hw : Encodes w t q) (hne : signed s p ≠ signed t q) :
    Encodes (sub .binary64 u w) (signOfRat (signed s p - signed t q))
      (nearest |signed s p - signed t q|) := by
  cases hu with
  | zero s =>
      cases hw with
      | zero t => exact absurd ((signed_zero s).trans (signed_zero t).symm) hne
      | @finite t m e h =>
          rw [signed_zero, zero_sub, ← signed_neg, signOfRat_signed h.value_pos,
            abs_signed h.value_pos.le, h.representable.nearest_eq]
          exact .finite (-t) h
  | @finite s m e h =>
      cases hw with
      | zero t =>
          rw [signed_zero, sub_zero, signOfRat_signed h.value_pos, abs_signed h.value_pos.le,
            h.representable.nearest_eq]
          exact .finite s h
      | @finite t m' e' h' =>
          have hvalue := cast_aligned s t m m' e e'
          simp only [sub]
          generalize s.apply (decreaseExponent m e (min e e')).1 -
            t.apply (decreaseExponent m' e' (min e e')).1 = n at hvalue ⊢
          rw [← hvalue]
          have hn : n ≠ 0 := by
            rintro rfl
            rw [Int.cast_zero, zero_mul] at hvalue
            exact hne (sub_eq_zero.1 hvalue.symm)
          rw [signOfRat_mul_zpow, abs_mul_zpow]
          exact encodes_normalize hn _ _

/-- A number less itself is the positive zero. -/
theorem sub_eq_zero_of_eq (hu : Encodes u s p) (hw : Encodes w t q)
    (heq : signed s p = signed t q) (hp : p ≠ 0) : sub .binary64 u w = .zero .positive := by
  cases hu with
  | zero => exact absurd rfl hp
  | @finite s m e h =>
      cases hw with
      | zero t =>
          have habs := abs_signed h.value_pos.le s
          rw [heq, signed_zero, abs_zero] at habs
          exact absurd habs.symm hp
      | @finite t m' e' h' =>
          have hvalue := cast_aligned s t m m' e e'
          simp only [sub]
          generalize s.apply (decreaseExponent m e (min e e')).1 -
            t.apply (decreaseExponent m' e' (min e e')).1 = n at hvalue ⊢
          rw [heq, sub_self, mul_eq_zero, Int.cast_eq_zero] at hvalue
          rw [hvalue.resolve_right (two_zpow_pos _).ne']
          rfl

theorem sub_notANumber (u : UnpackedFloat) : sub .binary64 u .notANumber = .notANumber := by
  cases u <;> rfl

theorem sub_infinity (u : UnpackedFloat) (t : Sign) :
    sub .binary64 u (.infinity t) = .notANumber ∨
      ∃ s, sub .binary64 u (.infinity t) = .infinity s := by
  cases u with
  | notANumber => exact .inl rfl
  | infinity s =>
      simp only [sub]
      split
      · exact .inr ⟨s, rfl⟩
      · exact .inl rfl
  | zero s => exact .inr ⟨-t, rfl⟩
  | finite s m e hm => exact .inr ⟨-t, rfl⟩

/-! ### Comparisons -/

/-- Of two doubles the one with the larger exponent is larger. -/
theorem Canonical.lt_of_lt {m m' : ℕ} {e e' : ℤ} (h : Canonical m e) (h' : Canonical m' e')
    (hlt : e < e') : (m : ℚ) * 2 ^ e < m' * 2 ^ e' := by
  have hexp := h.exponent
  have hm' : 2 ^ 52 ≤ m' := h'.leading.resolve_right (by omega)
  calc (m : ℚ) * 2 ^ e < (2 ^ 53 : ℕ) * 2 ^ e :=
        mul_lt_mul_of_pos_right (Nat.cast_lt.2 h.lt) (two_zpow_pos e)
    _ = (2 ^ 52 : ℕ) * 2 ^ (e + 1) := by
        rw [zpow_add_one₀ two_ne_zero]
        push_cast
        ring
    _ ≤ (2 ^ 52 : ℕ) * 2 ^ e' :=
        mul_le_mul_of_nonneg_left (zpow_le_zpow_right₀ one_le_two hlt) (Nat.cast_nonneg _)
    _ ≤ m' * 2 ^ e' := mul_le_mul_of_nonneg_right (Nat.cast_le.2 hm') (two_zpow_pos e').le

theorem compare_magnitudes {m m' : ℕ} {e e' : ℤ} (h : Canonical m e) (h' : Canonical m' e') :
    (compare e e').then (compare m m') = compare ((m : ℚ) * 2 ^ e) (m' * 2 ^ e') := by
  rcases lt_trichotomy e e' with hlt | rfl | hgt
  · rw [compare_lt_iff_lt.2 hlt, compare_lt_iff_lt.2 (h.lt_of_lt h' hlt)]
    rfl
  · have hpow := two_zpow_pos e
    rw [compare_eq_iff_eq.2 rfl, Ordering.then]
    rcases lt_trichotomy m m' with hm | rfl | hm
    · rw [compare_lt_iff_lt.2 hm,
        compare_lt_iff_lt.2 (mul_lt_mul_of_pos_right (Nat.cast_lt.2 hm) hpow)]
    · rw [compare_eq_iff_eq.2 rfl, compare_eq_iff_eq.2 rfl]
    · rw [compare_gt_iff_gt.2 hm,
        compare_gt_iff_gt.2 (mul_lt_mul_of_pos_right (Nat.cast_lt.2 hm) hpow)]
  · rw [compare_gt_iff_gt.2 hgt, compare_gt_iff_gt.2 (h'.lt_of_lt h hgt)]
    rfl

theorem swap_compare (a b : ℚ) : (compare a b).swap = compare (-a) (-b) := by
  rcases lt_trichotomy a b with h | h | h
  · rw [compare_lt_iff_lt.2 h, compare_gt_iff_gt.2 (neg_lt_neg h)]
    rfl
  · rw [compare_eq_iff_eq.2 h, compare_eq_iff_eq.2 (congrArg Neg.neg h)]
    rfl
  · rw [compare_gt_iff_gt.2 h, compare_lt_iff_lt.2 (neg_lt_neg h)]
    rfl

/-- Doubles compare as their numbers. -/
theorem compare_eq (hu : Encodes u s p) (hw : Encodes w t q) :
    u.compare w = some (compare (signed s p) (signed t q)) := by
  cases hu with
  | zero s =>
      rw [signed_zero]
      cases hw with
      | zero t =>
          rw [signed_zero, compare_eq_iff_eq.2 rfl]
          rfl
      | finite t h =>
          cases t with
          | negative => exact congrArg some (compare_gt_iff_gt.2 (neg_lt_zero.2 h.value_pos)).symm
          | positive => exact congrArg some (compare_lt_iff_lt.2 h.value_pos).symm
  | finite s h =>
      cases hw with
      | zero t =>
          rw [signed_zero]
          cases s with
          | negative => exact congrArg some (compare_lt_iff_lt.2 (neg_lt_zero.2 h.value_pos)).symm
          | positive => exact congrArg some (compare_gt_iff_gt.2 h.value_pos).symm
      | finite t h' =>
          have hneg := (neg_lt_zero.2 h.value_pos).trans h'.value_pos
          have hpos := (neg_lt_zero.2 h'.value_pos).trans h.value_pos
          cases s with
          | negative =>
              cases t with
              | negative =>
                  simp only [UnpackedFloat.compare, compare_magnitudes h h', swap_compare, signed]
              | positive => exact congrArg some (compare_lt_iff_lt.2 hneg).symm
          | positive =>
              cases t with
              | negative => exact congrArg some (compare_gt_iff_gt.2 hpos).symm
              | positive => simp only [UnpackedFloat.compare, compare_magnitudes h h', signed]

end StackProfile.Sampling
