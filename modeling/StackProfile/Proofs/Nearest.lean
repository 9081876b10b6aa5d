import Mathlib.Algebra.Order.Floor.Semiring
import Mathlib.Data.Int.Log
import Mathlib.Data.Rat.Floor
import Mathlib.Tactic.FieldSimp
import Mathlib.Tactic.Linarith
import Mathlib.Tactic.Positivity
import Mathlib.Tactic.Ring

/-! # The double nearest to a number

A double other than zero is a mantissa of at most 53 bits and a power of two.  A magnitude, which is
a rational number without sign, is rounded at the last binary place that a double of its size has;
if it lies halfway between two doubles the one with the even mantissa is taken.  There is no largest
double here.

Main lemmas: rounding keeps the order (`nearest_mono`), a double is its own nearest one
(`Representable.nearest_eq`), and what is rounded is a double (`Canonical.representable`,
`representable_nearest`). -/

namespace StackProfile.Sampling

/-! ### Nearest natural numbers -/

/-- The natural number nearest to a magnitude, the even one if two are equally near. -/
def halfEven (x : ℚ) : ℕ :=
  if 2 * x < 2 * ⌊x⌋₊ + 1 ∨ 2 * x = 2 * ⌊x⌋₊ + 1 ∧ ⌊x⌋₊ % 2 = 0 then ⌊x⌋₊ else ⌊x⌋₊ + 1

theorem floor_le_halfEven (x : ℚ) : ⌊x⌋₊ ≤ halfEven x := by
  unfold halfEven
  split <;> omega

theorem halfEven_le_succ (x : ℚ) : halfEven x ≤ ⌊x⌋₊ + 1 := by
  unfold halfEven
  split <;> omega

@[simp] theorem halfEven_natCast (n : ℕ) : halfEven n = n := by
  unfold halfEven
  rw [Nat.floor_natCast, if_pos (.inl (by linarith))]

theorem halfEven_mono {x y : ℚ} (h : x ≤ y) : halfEven x ≤ halfEven y := by
  rcases (Nat.floor_mono h).lt_or_eq with hlt | heq
  · have hx := halfEven_le_succ x
    have hy := floor_le_halfEven y
    omega
  · unfold halfEven
    rw [heq]
    by_cases hy : 2 * y < 2 * ⌊y⌋₊ + 1 ∨ 2 * y = 2 * ⌊y⌋₊ + 1 ∧ ⌊y⌋₊ % 2 = 0
    · -- What rounds down at `y` does so at `x`.
      have hx : 2 * x < 2 * ⌊y⌋₊ + 1 ∨ 2 * x = 2 * ⌊y⌋₊ + 1 ∧ ⌊y⌋₊ % 2 = 0 := by
        rcases hy with hy | ⟨hy, heven⟩
        · exact .inl (by linarith)
        · rcases (show 2 * x ≤ 2 * ⌊y⌋₊ + 1 by linarith).lt_or_eq with hx | hx
          · exact .inl hx
          · exact .inr ⟨hx, heven⟩
      rw [if_pos hx, if_pos hy]
    · rw [if_neg hy]
      split <;> omega

theorem halfEven_le {x : ℚ} {n : ℕ} (h : x ≤ n) : halfEven x ≤ n := by
  have hmono := halfEven_mono h
  rwa [halfEven_natCast] at hmono

theorem le_halfEven {x : ℚ} {n : ℕ} (h : n ≤ x) : n ≤ halfEven x := by
  have hmono := halfEven_mono h
  rwa [halfEven_natCast] at hmono

/-! ### Magnitudes of doubles -/

/-- The exponent of the last binary place of doubles of some size. -/
def lastPlace (v : ℚ) : ℤ := max (Int.log 2 v - 52) (-1074)

/-- A mantissa and an exponent as a double has them: the mantissa has 53 bits unless the exponent is
the least one. -/
structure Canonical (m : ℕ) (e : ℤ) : Prop where
  pos : 0 < m
  lt : m < 2 ^ 53
  exponent : -1074 ≤ e
  leading : 2 ^ 52 ≤ m ∨ e = -1074

/-- The magnitude is one of the doubles, or too large. -/
def Representable (v : ℚ) : Prop := ∃ (m : ℕ) (e : ℤ), m < 2 ^ 53 ∧ -1074 ≤ e ∧ v = m * 2 ^ e

theorem representable_natCast {n : ℕ} (h : n < 2 ^ 53) : Representable n :=
  ⟨n, 0, h, by decide, by simp⟩

theorem representable_zpow {k : ℤ} (h : -1074 ≤ k) : Representable (2 ^ k) :=
  ⟨1, k, by decide, h, by simp⟩

/-- The magnitude rounded to a double. -/
def nearest (v : ℚ) : ℚ := halfEven (v / 2 ^ lastPlace v) * 2 ^ lastPlace v

theorem two_zpow_pos (e : ℤ) : (0 : ℚ) < 2 ^ e := zpow_pos two_pos e

theorem zpow_add_natCast (e : ℤ) (k : ℕ) : (2 : ℚ) ^ (e + k) = 2 ^ k * 2 ^ e := by
  rw [zpow_add₀ two_ne_zero, zpow_natCast, mul_comm]

/-- A longer mantissa with a lower exponent has the same value. -/
theorem shiftLeft_mul_zpow (m k : ℕ) (e : ℤ) :
    ((m <<< k : ℕ) : ℚ) * 2 ^ (e - k) = m * 2 ^ e := by
  have hpow : (2 : ℚ) ^ e = 2 ^ k * 2 ^ (e - k) := by
    rw [← zpow_add_natCast, sub_add_cancel]
  rw [Nat.shiftLeft_eq, hpow]
  push_cast
  ring

/-- A larger power of two is a multiple of a smaller one. -/
theorem exists_zpow_eq {k l : ℤ} (h : l ≤ k) :
    ∃ n : ℕ, (2 : ℚ) ^ k = ((2 ^ n : ℕ) : ℚ) * 2 ^ l := by
  obtain ⟨n, hn⟩ := Int.eq_ofNat_of_zero_le (sub_nonneg.2 h)
  refine ⟨n, ?_⟩
  rw [← sub_add_cancel k l, hn, add_comm, zpow_add_natCast]
  push_cast
  rfl

theorem log_eq {v : ℚ} (hv : 0 < v) {k : ℤ} (hl : 2 ^ k ≤ v) (hu : v < 2 ^ (k + 1)) :
    Int.log 2 v = k := by
  have h₁ := (Int.zpow_le_iff_le_log (R := ℚ) Nat.one_lt_two hv).1 (by exact_mod_cast hl)
  have h₂ := (Int.lt_zpow_iff_log_lt (R := ℚ) Nat.one_lt_two hv).1 (by exact_mod_cast hu)
  omega

theorem zpow_log_le {v : ℚ} (hv : 0 < v) : (2 : ℚ) ^ Int.log 2 v ≤ v := by
  exact_mod_cast Int.zpow_log_le_self Nat.one_lt_two hv

theorem lt_zpow_log (v : ℚ) : v < 2 ^ (Int.log 2 v + 1) := by
  exact_mod_cast Int.lt_zpow_succ_log_self Nat.one_lt_two v

theorem neg_le_lastPlace (v : ℚ) : -1074 ≤ lastPlace v := le_max_right _ _

theorem log_le_lastPlace (v : ℚ) : Int.log 2 v ≤ lastPlace v + 52 := by
  have h : Int.log 2 v - 52 ≤ lastPlace v := le_max_left _ _
  omega

namespace Canonical

variable {m : ℕ} {e : ℤ}

theorem value_pos (h : Canonical m e) : (0 : ℚ) < m * 2 ^ e :=
  mul_pos (Nat.cast_pos.2 h.pos) (two_zpow_pos e)

theorem representable (h : Canonical m e) : Representable (m * 2 ^ e) :=
  ⟨m, e, h.lt, h.exponent, rfl⟩

end Canonical

/-- The logarithm of a number by its whole part and a power of two. -/
theorem log_mul_zpow {x : ℚ} (hx : 0 < ⌊x⌋₊) (e : ℤ) :
    Int.log 2 (x * 2 ^ e) = Nat.log2 ⌊x⌋₊ + e := by
  have hpos : 0 < x := Nat.pos_of_floor_pos hx
  have hle : ((2 ^ ⌊x⌋₊.log2 : ℕ) : ℚ) ≤ x :=
    (Nat.cast_le.2 (Nat.log2_self_le hx.ne')).trans (Nat.floor_le hpos.le)
  have hlt : x < ((2 ^ (⌊x⌋₊.log2 + 1) : ℕ) : ℚ) :=
    (Nat.lt_floor_add_one x).trans_le (by exact_mod_cast Nat.lt_log2_self)
  have hshift : ∀ k : ℕ, (2 : ℚ) ^ (k + e) = ((2 ^ k : ℕ) : ℚ) * 2 ^ e := fun k => by
    rw [add_comm, zpow_add_natCast]
    push_cast
    rfl
  refine log_eq (mul_pos hpos (two_zpow_pos e)) ?_ ?_
  · rw [hshift]
    exact mul_le_mul_of_nonneg_right hle (two_zpow_pos e).le
  · have hstep : (⌊x⌋₊.log2 : ℤ) + e + 1 = ((⌊x⌋₊.log2 + 1 : ℕ) : ℤ) + e := by push_cast; ring
    rw [hstep, hshift]
    exact mul_lt_mul_of_pos_right hlt (two_zpow_pos e)

theorem log_natCast_mul_zpow {m : ℕ} (hm : 0 < m) (e : ℤ) :
    Int.log 2 ((m : ℚ) * 2 ^ e) = Nat.log2 m + e := by
  have h := log_mul_zpow (x := (m : ℚ)) (by rwa [Nat.floor_natCast]) e
  rwa [Nat.floor_natCast] at h

theorem log2_le {m : ℕ} (hm : 0 < m) (hlt : m < 2 ^ 53) : m.log2 ≤ 52 := by
  have h := (Nat.log2_lt hm.ne').2 hlt
  omega

/-! ### Rounding -/

theorem nearest_zero : nearest 0 = 0 := by
  have h : halfEven ((0 : ℕ) : ℚ) = 0 := halfEven_natCast 0
  unfold nearest
  rw [zero_div, ← Nat.cast_zero, h, Nat.cast_zero, zero_mul]

theorem nearest_nonneg (v : ℚ) : 0 ≤ nearest v :=
  mul_nonneg (Nat.cast_nonneg _) (two_zpow_pos _).le

theorem Representable.nearest_eq {v : ℚ} (h : Representable v) : nearest v = v := by
  obtain ⟨m, e, hm, he, rfl⟩ := h
  rcases Nat.eq_zero_or_pos m with rfl | hpos
  · simpa using nearest_zero
  · -- The last place is at most the exponent, so the quotient is a natural number.
    have hle := log2_le hpos hm
    have hplace : lastPlace (m * 2 ^ e) ≤ e := by
      unfold lastPlace
      rw [log_natCast_mul_zpow hpos]
      omega
    obtain ⟨n, hpow⟩ := exists_zpow_eq hplace
    have hdiv : (m : ℚ) * 2 ^ e / 2 ^ lastPlace (m * 2 ^ e) = ((m * 2 ^ n : ℕ) : ℚ) := by
      rw [div_eq_iff (two_zpow_pos _).ne', Nat.cast_mul, mul_assoc, ← hpow]
    unfold nearest
    rw [hdiv, halfEven_natCast, ← hdiv, div_mul_cancel₀ _ (two_zpow_pos _).ne']

/-- Rounding does not pass a power of two. -/
theorem nearest_le_zpow {v : ℚ} {k : ℤ} (hk : lastPlace v ≤ k) (h : v ≤ 2 ^ k) :
    nearest v ≤ 2 ^ k := by
  obtain ⟨n, hpow⟩ := exists_zpow_eq hk
  have hdiv : v / 2 ^ lastPlace v ≤ ((2 ^ n : ℕ) : ℚ) := by
    rwa [div_le_iff₀ (two_zpow_pos _), ← hpow]
  unfold nearest
  rw [hpow]
  exact mul_le_mul_of_nonneg_right (Nat.cast_le.2 (halfEven_le hdiv)) (two_zpow_pos _).le

theorem zpow_le_nearest {v : ℚ} {k : ℤ} (hk : lastPlace v ≤ k) (h : 2 ^ k ≤ v) :
    2 ^ k ≤ nearest v := by
  obtain ⟨n, hpow⟩ := exists_zpow_eq hk
  have hdiv : ((2 ^ n : ℕ) : ℚ) ≤ v / 2 ^ lastPlace v := by
    rwa [le_div_iff₀ (two_zpow_pos _), ← hpow]
  unfold nearest
  rw [hpow]
  exact mul_le_mul_of_nonneg_right (Nat.cast_le.2 (le_halfEven hdiv)) (two_zpow_pos _).le

/-- Rounding keeps the order. -/
theorem nearest_mono {u v : ℚ} (hu : 0 ≤ u) (h : u ≤ v) : nearest u ≤ nearest v := by
  rcases hu.eq_or_lt with rfl | hu
  · rw [nearest_zero]
    exact nearest_nonneg v
  have hlog := Int.log_mono_right (b := 2) hu h
  by_cases hsame : lastPlace u = lastPlace v
  · unfold nearest
    rw [hsame]
    have hdiv : u / 2 ^ lastPlace v ≤ v / 2 ^ lastPlace v :=
      div_le_div_of_nonneg_right h (two_zpow_pos _).le
    exact mul_le_mul_of_nonneg_right (Nat.cast_le.2 (halfEven_mono hdiv)) (two_zpow_pos _).le
  · -- A power of two lies between them.
    unfold lastPlace at hsame
    have hu' : u ≤ 2 ^ Int.log 2 v := by
      refine (lt_zpow_log u).le.trans (zpow_le_zpow_right₀ one_le_two ?_)
      omega
    calc nearest u ≤ 2 ^ Int.log 2 v := nearest_le_zpow (by unfold lastPlace; omega) hu'
      _ ≤ nearest v :=
        zpow_le_nearest (by unfold lastPlace; omega) (zpow_log_le (hu.trans_le h))

/-- Rounding does not pass a double. -/
theorem Representable.nearest_le {v w : ℚ} (h : Representable w) (hv : 0 ≤ v) (hle : v ≤ w) :
    nearest v ≤ w :=
  calc nearest v ≤ nearest w := nearest_mono hv hle
    _ = w := h.nearest_eq

theorem Representable.le_nearest {v w : ℚ} (h : Representable v) (hv : 0 ≤ v) (hle : v ≤ w) :
    v ≤ nearest w :=
  calc v = nearest v := h.nearest_eq.symm
    _ ≤ nearest w := nearest_mono hv hle

/-- The mantissa of a rounded magnitude has at most one bit too many. -/
theorem halfEven_le_pow {v : ℚ} : halfEven (v / 2 ^ lastPlace v) ≤ 2 ^ 53 := by
  have hlog := log_le_lastPlace v
  have hv : v ≤ 2 ^ (lastPlace v + (53 : ℕ)) :=
    (lt_zpow_log v).le.trans (zpow_le_zpow_right₀ one_le_two (by push_cast; omega))
  refine halfEven_le ?_
  rw [div_le_iff₀ (two_zpow_pos _)]
  rw [zpow_add_natCast] at hv
  exact_mod_cast hv

/-- It has all its bits unless the last place is the least one. -/
theorem pow_le_halfEven {v : ℚ} (hv : 0 < v) (h : lastPlace v ≠ -1074) :
    2 ^ 52 ≤ halfEven (v / 2 ^ lastPlace v) := by
  have hplace : lastPlace v + (52 : ℕ) = Int.log 2 v := by
    unfold lastPlace at h ⊢
    push_cast
    omega
  refine le_halfEven ?_
  rw [le_div_iff₀ (two_zpow_pos _)]
  have hle := zpow_log_le hv
  rw [← hplace, zpow_add_natCast] at hle
  exact_mod_cast hle

theorem representable_nearest (v : ℚ) : Representable (nearest v) := by
  have hplace := neg_le_lastPlace v
  rcases (halfEven_le_pow (v := v)).lt_or_eq with hlt | heq
  · exact ⟨_, _, hlt, hplace, rfl⟩
  · refine ⟨2 ^ 52, lastPlace v + (1 : ℕ), by norm_num, by omega, ?_⟩
    unfold nearest
    rw [heq, zpow_add_natCast]
    push_cast
    ring

end StackProfile.Sampling
