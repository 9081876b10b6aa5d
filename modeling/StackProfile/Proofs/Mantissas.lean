import Mathlib
import StackProfile.Proofs.Nearest

/-! # Rounding of mantissas

The core library computes with doubles that are unpacked into a sign, a mantissa and an exponent.
It rounds a mantissa by two residual bits, of which the second one, the sticky bit, tells that more
was cut off.  This is rounding to the nearest double: the mantissa and its bits track a magnitude
through all shifts.

Main lemmas: what the bits track is rounded half to even (`Tracks.roundedMantissa_eq`), rounding
with a known accuracy gives the nearest double (`encodes_roundWithAccuracy`), and so do rounding and
normalizing (`encodes_round`, `encodes_normalize`). -/

namespace StackProfile.Sampling

open Float.Model Float.Model.UnpackedFloat

/-! ### Residual bits -/

/-- A mantissa with its residual bits tells where a magnitude lies among the halves of whole
numbers. -/
def Tracks (em : ExtendedMantissa) (x : ℚ) : Prop :=
  let halves : ℚ := 2 * em.mantissa + em.roundBit.toNat
  if em.stickyBit then halves < 2 * x ∧ 2 * x < halves + 1 else 2 * x = halves

theorem tracks_exact (m : ℕ) : Tracks (.ofMantissaAndAccuracy m .exact) m := by
  simp [Tracks, ExtendedMantissa.ofMantissaAndAccuracy]

/-- How a fraction compares with one half tells its bits. -/
theorem tracks_inexact (m : ℕ) {x : ℚ} (hpos : 0 < x) (hlt : x < 1) :
    Tracks (.ofMantissaAndAccuracy m (.inexact (compare (2 * x) 1))) (m + x) := by
  rcases lt_trichotomy (2 * x) 1 with hx | hx | hx
  · simp only [compare_lt_iff_lt.2 hx, ExtendedMantissa.ofMantissaAndAccuracy, Tracks,
      Bool.toNat_false, Nat.cast_zero, if_true]
    constructor <;> linarith
  · simp only [compare_eq_iff_eq.2 hx, ExtendedMantissa.ofMantissaAndAccuracy, Tracks,
      Bool.toNat_true, Nat.cast_one, Bool.false_eq_true, if_false]
    linarith
  · simp only [compare_gt_iff_gt.2 hx, ExtendedMantissa.ofMantissaAndAccuracy, Tracks,
      Bool.toNat_true, Nat.cast_one, if_true]
    constructor <;> linarith

namespace Tracks

variable {em : ExtendedMantissa} {x : ℚ}

theorem bounds (h : Tracks em x) : (em.mantissa : ℚ) ≤ x ∧ x < em.mantissa + 1 := by
  obtain ⟨m, r, s⟩ := em
  cases r <;> cases s <;> simp [Tracks] at h ⊢ <;> constructor <;> linarith

theorem floor_eq (h : Tracks em x) : ⌊x⌋₊ = em.mantissa := by
  obtain ⟨hl, hu⟩ := h.bounds
  exact (Nat.floor_eq_iff ((Nat.cast_nonneg _).trans hl)).2 ⟨hl, hu⟩

/-- The core library rounds half to even. -/
theorem roundedMantissa_eq (h : Tracks em x) : em.roundedMantissa = halfEven x := by
  unfold halfEven
  rw [h.floor_eq]
  obtain ⟨m, r, s⟩ := em
  cases r with
  | false =>
      have hlt : 2 * x < 2 * m + 1 := by
        cases s <;> simp [Tracks] at h <;> linarith
      rw [if_pos (.inl hlt)]
      cases s <;> rfl
  | true =>
      cases s with
      | false =>
          have heq : 2 * x = 2 * m + 1 := by simpa [Tracks] using h
          simp only [heq, lt_irrefl, true_and, false_or, ExtendedMantissa.roundedMantissa,
            ExtendedMantissa.accuracy, Accuracy.roundToNearestEven]
          split <;> omega
      | true =>
          have hgt : 2 * m + 1 < 2 * x := by
            simp [Tracks] at h
            linarith
          rw [if_neg]
          · rfl
          · rintro (hlt | ⟨heq, -⟩)
            · exact lt_asymm hlt hgt
            · exact hgt.ne' heq

theorem shiftRightOne (h : Tracks em x) : Tracks em.shiftRightOne (x / 2) := by
  obtain ⟨m, r, s⟩ := em
  have hm : (2 * (m / 2 : ℕ) + (m % 2 : ℕ) : ℚ) = m := by exact_mod_cast Nat.div_add_mod m 2
  -- The mantissa before the shift counts the halves after it.
  have hhalves : (2 * ((m / 2 : ℕ) : ℚ) + ((m % 2 != 0).toNat : ℚ)) = m := by
    rcases Nat.mod_two_eq_zero_or_one m with h₂ | h₂
    · rw [h₂] at hm ⊢
      simpa using hm
    · rw [h₂] at hm ⊢
      simpa using hm
  unfold Tracks at h ⊢
  simp only [ExtendedMantissa.shiftRightOne, hhalves]
  cases s with
  | false =>
      cases r with
      | false =>
          simp at h ⊢
          linarith
      | true =>
          -- The half that was told exactly is below the places that are told now.
          simp at h ⊢
          constructor <;> linarith
  | true =>
      cases r with
      | false =>
          simp at h ⊢
          constructor <;> linarith
      | true =>
          simp at h ⊢
          constructor <;> linarith

theorem shiftRight (h : Tracks em x) (k : ℕ) : Tracks (em >>> k) (x / 2 ^ k) := by
  change Tracks (k.repeat ExtendedMantissa.shiftRightOne em) _
  induction k with
  | zero => simpa [Nat.repeat] using h
  | succ k ih =>
      rw [Nat.repeat, pow_succ, ← div_div]
      exact ih.shiftRightOne

end Tracks

/-! ### Target exponents -/

theorem targetExponent_eq (m : ℕ) (e : ℤ) :
    Format.binary64.targetExponent (totalExponent m e) = max (m.log2 + e - 52) (-1074) := by
  have hmin : Format.binary64.minExponent = -1074 := by decide
  have hbits : (Format.binary64.mantissaBits : ℤ) = 53 := by decide
  rw [Format.targetExponent, totalExponent, hmin, hbits]
  omega

/-- A mantissa below one can only be rounded at the least exponent. -/
theorem targetExponent_eq_lastPlace {m : ℕ} {acc : Accuracy} {x : ℚ} {e : ℤ}
    (h : Tracks (.ofMantissaAndAccuracy m acc) x) (hx : 0 < x) (he : e ≤ lastPlace (x * 2 ^ e)) :
    Format.binary64.targetExponent (totalExponent m e) = lastPlace (x * 2 ^ e) := by
  have hmant : (ExtendedMantissa.ofMantissaAndAccuracy m acc).mantissa = m := by
    unfold ExtendedMantissa.ofMantissaAndAccuracy
    split <;> rfl
  have hfloor : ⌊x⌋₊ = m := h.floor_eq.trans hmant
  rw [targetExponent_eq]
  rcases Nat.eq_zero_or_pos m with rfl | hm
  · have hlt : x * 2 ^ e < 2 ^ e := by
      have hone : x < 1 := Nat.floor_eq_zero.1 hfloor
      have hpos := two_zpow_pos e
      nlinarith
    have hlog : Int.log 2 (x * 2 ^ e) < e :=
      (Int.lt_zpow_iff_log_lt Nat.one_lt_two (mul_pos hx (two_zpow_pos e))).1
        (by exact_mod_cast hlt)
    unfold lastPlace at he ⊢
    rw [Nat.log2_zero]
    omega
  · unfold lastPlace
    rw [log_mul_zpow (hfloor ▸ hm), hfloor]

/-- The first shift goes to the last place. -/
theorem shiftToTargetExponent_tracks {m : ℕ} {acc : Accuracy} {x : ℚ} {e : ℤ}
    (h : Tracks (.ofMantissaAndAccuracy m acc) x) (hx : 0 < x) (he : e ≤ lastPlace (x * 2 ^ e)) :
    ∃ em, shiftToTargetExponent .binary64 m e acc = (em, lastPlace (x * 2 ^ e)) ∧
      Tracks em (x * 2 ^ e / 2 ^ lastPlace (x * 2 ^ e)) := by
  obtain ⟨k, hk⟩ := Int.eq_ofNat_of_zero_le (sub_nonneg.2 he)
  have hplace : lastPlace (x * 2 ^ e) = e + k := by omega
  refine ⟨ExtendedMantissa.ofMantissaAndAccuracy m acc >>> k, ?_, ?_⟩
  · rw [shiftToTargetExponent, targetExponent_eq_lastPlace h hx he, shiftToExponent, hk, hplace]
    rfl
  · have hdiv : x * 2 ^ e / 2 ^ (e + k : ℤ) = x / 2 ^ k := by
      rw [zpow_add_natCast, mul_div_mul_right _ _ (two_zpow_pos e).ne']
    rw [hplace, hdiv]
    exact h.shiftRight k

theorem shiftToTargetExponent_of_lt {m : ℕ} {e : ℤ} (hm : m < 2 ^ 53) (he : -1074 ≤ e) :
    shiftToTargetExponent .binary64 m e .exact = (⟨m, false, false⟩, e) := by
  have hlog : m.log2 ≤ 52 := by
    rcases Nat.eq_zero_or_pos m with rfl | hpos
    · simp
    · exact log2_le hpos hm
  have hshift : (max (m.log2 + e - 52) (-1074) - e).toNat = 0 := by omega
  rw [shiftToTargetExponent, targetExponent_eq, shiftToExponent, hshift]
  simp [HShiftRight.hShiftRight, Nat.repeat, ExtendedMantissa.ofMantissaAndAccuracy]

/-- Rounding up may need one more bit. -/
theorem shiftToTargetExponent_carry {e : ℤ} (he : -1074 ≤ e) :
    shiftToTargetExponent .binary64 (2 ^ 53) e .exact = (⟨2 ^ 52, false, false⟩, e + 1) := by
  have hlog : (2 ^ 53).log2 = 53 := Nat.log2_two_pow
  have hshift : (max (((2 ^ 53).log2 : ℤ) + e - 52) (-1074) - e).toNat = 1 := by
    rw [hlog]
    omega
  rw [shiftToTargetExponent, targetExponent_eq, shiftToExponent, hshift]
  rfl

/-! ### Unpacked doubles -/

/-- An unpacked double has a sign and a magnitude, with a canonical mantissa and exponent. -/
inductive Encodes : UnpackedFloat → Sign → ℚ → Prop
  | zero (s : Sign) : Encodes (.zero s) s 0
  | finite (s : Sign) {m : ℕ} {e : ℤ} (h : Canonical m e) :
      Encodes (.finite s m e h.pos) s (m * 2 ^ e)

/-- Rounding with a known accuracy gives the nearest double, if no bits are missing. -/
theorem encodes_roundWithAccuracy (s : Sign) {m : ℕ} {acc : Accuracy} {x : ℚ} {e : ℤ}
    (h : Tracks (.ofMantissaAndAccuracy m acc) x) (hx : 0 < x) (he : e ≤ lastPlace (x * 2 ^ e)) :
    Encodes (roundWithAccuracy .binary64 s m e acc) s (nearest (x * 2 ^ e)) := by
  obtain ⟨em, hshift, hem⟩ := shiftToTargetExponent_tracks h hx he
  have hv : 0 < x * 2 ^ e := mul_pos hx (two_zpow_pos e)
  have hround := hem.roundedMantissa_eq
  have hplace := neg_le_lastPlace (x * 2 ^ e)
  have hle := halfEven_le_pow (v := x * 2 ^ e)
  have hfull := pow_le_halfEven hv
  unfold nearest
  generalize x * 2 ^ e = v at *
  generalize halfEven (v / 2 ^ lastPlace v) = n at *
  simp only [roundWithAccuracy, hshift, hround]
  rcases hle.lt_or_eq with hlt | rfl
  · simp only [shiftToTargetExponent_of_lt hlt hplace]
    split
    · rename_i hzero
      rw [hzero, Nat.cast_zero, zero_mul]
      exact .zero s
    · rename_i hne
      refine .finite s ⟨Nat.pos_of_ne_zero hne, hlt, hplace, ?_⟩
      by_cases hleast : lastPlace v = -1074
      · exact .inr hleast
      · exact .inl (hfull hleast)
  · simp only [shiftToTargetExponent_carry hplace]
    have hcarry : ((2 ^ 53 : ℕ) : ℚ) * 2 ^ lastPlace v =
        ((2 ^ 52 : ℕ) : ℚ) * 2 ^ (lastPlace v + 1) := by
      rw [zpow_add_one₀ two_ne_zero]
      push_cast
      ring
    rw [dif_neg (by decide), hcarry]
    exact .finite s ⟨by decide, by decide, by omega, .inl le_rfl⟩

/-- Rounding gives the nearest double. -/
theorem encodes_round (s : Sign) {m : ℕ} (hm : 0 < m) (e : ℤ) :
    Encodes (round .binary64 s m e) s (nearest (m * 2 ^ e)) := by
  have hplace : Format.binary64.targetExponent (totalExponent m e) = lastPlace (m * 2 ^ e) := by
    rw [targetExponent_eq]
    unfold lastPlace
    rw [log_natCast_mul_zpow hm]
  unfold UnpackedFloat.round
  simp only [hplace, decreaseExponent]
  generalize hk : (e - lastPlace (m * 2 ^ e)).toNat = k
  have hpos : (0 : ℚ) < (m <<< k : ℕ) := by
    rw [Nat.shiftLeft_eq]
    exact_mod_cast Nat.mul_pos hm (Nat.two_pow_pos k)
  have hround := encodes_roundWithAccuracy s (tracks_exact (m <<< k)) hpos (e := e - k)
    (by rw [shiftLeft_mul_zpow]; omega)
  rwa [shiftLeft_mul_zpow] at hround

/-- The sign of an integer other than zero. -/
def signOf (n : ℤ) : Sign := if n < 0 then .negative else .positive

theorem encodes_normalize {n : ℤ} (hn : n ≠ 0) (e : ℤ) (zeroSign : Sign) :
    Encodes (UnpackedFloat.normalize .binary64 n e zeroSign) (signOf n)
      (nearest (n.natAbs * 2 ^ e)) := by
  unfold UnpackedFloat.normalize signOf
  rcases lt_trichotomy n 0 with h | h | h
  · have habs : (-n).toNat = n.natAbs := by omega
    simp only [compare_lt_iff_lt.2 h, habs, if_pos h]
    exact encodes_round _ (Int.natAbs_pos.2 hn) e
  · exact absurd h hn
  · have habs : n.toNat = n.natAbs := by omega
    simp only [compare_gt_iff_gt.2 h, habs, if_neg h.not_gt]
    exact encodes_round _ (Int.natAbs_pos.2 hn) e

end StackProfile.Sampling
