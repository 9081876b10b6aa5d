import StackProfile.Proofs.PackedDoubles
import StackProfile.Sampling.Ratio

/-! # Doubles as numbers

A double that is finite holds a sign and a magnitude.  Its products, quotients and differences hold
the nearest double of the exact result, or are infinite if that is too large; comparisons compare
the numbers.

Main lemmas: `rounds_ofInt` for integers, `rounds_mul`, `rounds_div` and `rounds_sub` for
operations, `le_iff`, `lt_iff` and `beq_iff` for comparisons, and `Rounds.truncate_cases` for the
integer part. -/

namespace StackProfile.Sampling

open Float.Model (Format UnpackedFloat)
open Float.Model.UnpackedFloat

/-- The double is a number, with a sign and a magnitude. -/
def Holds (x : Float) (s : Sign) (q : ℚ) : Prop := Encodes x.toModel.unpack s q

/-- The double is the infinity with a sign. -/
def Infinite (x : Float) (s : Sign) : Prop := x.toModel.unpack = .infinity s

variable {x y : Float} {s t : Sign} {p q : ℚ} {u : UnpackedFloat}

/-! ### Finite doubles -/

theorem Encodes.isFinite (h : Encodes u s p) : u.isFinite = true := by
  cases h <;> rfl

theorem Encodes.unique (h : Encodes u s p) (h' : Encodes u t q) : s = t ∧ p = q := by
  cases h with
  | zero => cases h'; exact ⟨rfl, rfl⟩
  | finite => cases h'; exact ⟨rfl, rfl⟩

theorem holds_or (x : Float) :
    x.toModel.unpack = .notANumber ∨ (∃ s, Infinite x s) ∨ ∃ s q, Holds x s q ∧ q < overflow :=
  unpack_cases _

theorem exists_holds (hf : x.isFinite = true) : ∃ s q, Holds x s q ∧ q < overflow := by
  change x.toModel.unpack.isFinite = true at hf
  rcases holds_or x with hx | ⟨s, hx⟩ | hx
  · rw [hx] at hf
    nomatch hf
  · rw [hx] at hf
    nomatch hf
  · exact hx

namespace Holds

theorem isFinite (h : Holds x s p) : x.isFinite = true := Encodes.isFinite h

theorem unique (h : Holds x s p) (h' : Holds x t q) : s = t ∧ p = q := Encodes.unique h h'

theorem nonneg (h : Holds x s p) : 0 ≤ p := Encodes.nonneg h

theorem representable (h : Holds x s p) : Representable p := Encodes.representable h

theorem lt_overflow (h : Holds x s p) : p < overflow := by
  obtain ⟨t, q, hx, hq⟩ := exists_holds h.isFinite
  rwa [(h.unique hx).2]

end Holds

theorem Infinite.not_isFinite (h : Infinite x s) : x.isFinite = false := by
  change x.toModel.unpack.isFinite = false
  rw [h]
  rfl

/-! ### Packed results -/

/-- The double is what a result of some magnitude is packed into. -/
structure Rounds (x : Float) (s : Sign) (q : ℚ) : Prop where
  holds : q < overflow → Holds x s q
  infinite : overflow ≤ q → Infinite x s

theorem Rounds.holds_of_isFinite (h : Rounds x s p) (hf : x.isFinite = true) : Holds x s p := by
  rcases lt_or_ge p overflow with hp | hp
  · exact h.holds hp
  · rw [(h.infinite hp).not_isFinite] at hf
    nomatch hf

theorem rounds_pack (h : Encodes u s q) : Rounds (.ofModel (.pack u)) s q where
  holds hq := by
    have hpack : (Float.Model.pack u).unpack = u := (unpack_pack h).trans (if_pos hq)
    unfold Holds
    rwa [hpack]
  infinite hq := (unpack_pack h).trans (if_neg hq.not_gt)

theorem rounds_mul (hx : Holds x s p) (hy : Holds y t q) :
    Rounds (x * y) (s * t) (nearest (p * q)) :=
  rounds_pack (encodes_mul hx hy)

theorem rounds_div (hx : Holds x s p) (hy : Holds y t q) (hq : q ≠ 0) :
    Rounds (x / y) (s / t) (nearest (p / q)) :=
  rounds_pack (encodes_div hx hy hq)

theorem Holds.unpack_eq_zero (h : Holds x s 0) : x.toModel.unpack = .zero s := by
  unfold Holds at h
  generalize x.toModel.unpack = u at h
  generalize hq : (0 : ℚ) = q at h
  cases h with
  | zero => rfl
  | finite _ h => exact absurd hq h.value_pos.ne

theorem infinite_div_zero (hx : Holds x s p) (hp : p ≠ 0) (hy : Holds y t 0) :
    Infinite (x / y) (s / t) := by
  change unpack .binary64 (pack .binary64 (div .binary64 x.toModel.unpack y.toModel.unpack)) = _
  rw [hy.unpack_eq_zero, div_zero_eq hx hp]
  exact unpack_packedInfinity _

theorem infinite_mul (hx : Holds x s p) (hp : p ≠ 0) (hy : Infinite y t) :
    Infinite (x * y) (s * t) := by
  change unpack .binary64 (pack .binary64 (mul .binary64 x.toModel.unpack y.toModel.unpack)) = _
  rw [hy, mul_infinity_eq hx hp]
  exact unpack_packedInfinity _

theorem rounds_sub (hx : Holds x s p) (hy : Holds y t q) (hne : signed s p ≠ signed t q) :
    Rounds (x - y) (signOfRat (signed s p - signed t q)) (nearest |signed s p - signed t q|) :=
  rounds_pack (encodes_sub hx hy hne)

/-- A difference that is a number is one of numbers. -/
theorem isFinite_of_isFinite_sub (hf : (x - y).isFinite = true) : y.isFinite = true := by
  change (unpack .binary64 (pack .binary64
    (sub .binary64 x.toModel.unpack y.toModel.unpack))).isFinite = true at hf
  rcases holds_or y with hy | ⟨s, hy⟩ | ⟨s, q, hy, -⟩
  · rw [hy, sub_notANumber] at hf
    exact absurd hf (by decide)
  · rw [hy] at hf
    rcases sub_infinity x.toModel.unpack s with hsub | ⟨t, hsub⟩
    · rw [hsub] at hf
      exact absurd hf (by decide)
    · have hinf : unpack .binary64 (pack .binary64 (.infinity t)) = .infinity t :=
        unpack_packedInfinity t
      rw [hsub, hinf] at hf
      exact absurd hf Bool.false_ne_true
  · exact hy.isFinite

theorem holds_sub_self (hx : Holds x s p) (hy : Holds y t q) (heq : signed s p = signed t q)
    (hp : p ≠ 0) : Holds (x - y) .positive 0 := by
  have hsub := sub_eq_zero_of_eq hx hy heq hp
  exact (rounds_pack (hsub ▸ .zero .positive)).holds overflow_pos

theorem encodes_neg (h : Encodes u s p) : Encodes u.neg (-s) p := by
  cases h with
  | zero => exact .zero _
  | finite _ h => exact .finite _ h

theorem Rounds.neg (h : Rounds x s p) : Rounds (-x) (-s) p where
  holds hp := (rounds_pack (encodes_neg (h.holds hp))).holds hp
  infinite hp := by
    change unpack .binary64 (pack .binary64 x.toModel.unpack.neg) = _
    rw [h.infinite hp]
    exact unpack_packedInfinity _

theorem Holds.neg (h : Holds x s p) : Holds (-x) (-s) p :=
  (Rounds.neg ⟨fun _ => h, fun hp => absurd h.lt_overflow hp.not_gt⟩).holds h.lt_overflow

/-- A quotient by a number that is at least one. -/
theorem Holds.div_of_one_le (hx : Holds x s p) (hy : Holds y .positive q) (hone : 1 ≤ q) :
    Holds (x / y) s (nearest (p / q)) := by
  have hround := rounds_div hx hy (one_pos.trans_le hone).ne'
  have hsign : s / Sign.positive = s := by cases s <;> rfl
  rw [hsign] at hround
  have hnonneg : 0 ≤ p / q := div_nonneg hx.nonneg (zero_le_one.trans hone)
  have hle := hx.representable.nearest_le hnonneg (div_le_self hx.nonneg hone)
  exact hround.holds (hle.trans_lt hx.lt_overflow)

/-! ### Integers -/

theorem holds_one : Holds 1.0 .positive 1 := by
  have hcan : Canonical (2 ^ 52) (-52) := ⟨by decide, by decide, by decide, by decide⟩
  have hone : (1.0 : Float) = .ofModel (.pack (.finite .positive (2 ^ 52) (-52) (by decide))) := by
    decide +kernel
  have hvalue : ((2 ^ 52 : ℕ) : ℚ) * 2 ^ (-52 : ℤ) = 1 := by norm_num
  rw [hone, ← hvalue]
  exact (rounds_pack (.finite .positive hcan)).holds (hcan.lt_overflow_iff.2 (by decide))

theorem holds_zero : Holds 0.0 .positive 0 := by
  have hzero : (0.0 : Float) = .ofModel (.pack (.zero .positive)) := by decide +kernel
  rw [hzero]
  exact (rounds_pack (.zero .positive)).holds overflow_pos

theorem encodes_ofNat (n : ℕ) : Encodes (ofNat .binary64 n) .positive (nearest n) := by
  rcases Nat.eq_zero_or_pos n with rfl | hn
  · rw [Nat.cast_zero, nearest_zero]
    exact .zero .positive
  · have hne : (n : ℤ) ≠ 0 := by omega
    have h := encodes_normalize hne 0 .positive
    rw [zpow_zero, mul_one] at h
    exact h

/-- Integers below `2 ^ 53` are converted by way of a machine word. -/
theorem ofNat_of_lt {n : ℕ} (hn : n < 2 ^ 53) :
    Float.ofNat n = .ofModel (.pack (ofNat .binary64 n)) * 1.0 := by
  have hword : n.toUInt64.toNat = n := by
    rw [Nat.toUInt64, UInt64.toNat_ofNat']
    omega
  have hone : getElem Float.exactlyRepresentablePowersOfTen 0 (by decide) = 1.0 := by
    decide +kernel
  change Float.ofScientific n false 0 = _
  unfold Float.ofScientific
  rw [dif_pos ⟨hn, by decide⟩]
  simp only [hone]
  change .ofModel (.pack (ofNat .binary64 n.toUInt64.toNat)) * 1.0 = _
  rw [hword]

/-- Larger ones are multiplied by one in the unpacked form. -/
theorem encodes_ofScientific {n : ℕ} (hn : 2 ^ 53 ≤ n) :
    Encodes (ofScientific .binary64 n 0) .positive (nearest n) := by
  have hpos : 0 < n := by omega
  have hvalue : ((n <<< 53 * 1 : ℕ) : ℚ) * 2 ^ (-53 : ℤ) = n := by
    have hshift := shiftLeft_mul_zpow n 53 0
    have hexp : (0 : ℤ) - (53 : ℕ) = -53 := by decide
    rw [hexp, zpow_zero, mul_one] at hshift
    rw [Nat.mul_one, hshift]
  have hlog : 53 ≤ n.log2 := (Nat.le_log2 hpos.ne').2 hn
  have hplace : (-53 : ℤ) ≤ lastPlace n := by
    have h := log_natCast_mul_zpow hpos 0
    rw [zpow_zero, mul_one] at h
    unfold lastPlace
    omega
  have hbound : (0 : ℤ) < 2 ^ Format.binary64.exponentBits := by decide
  unfold ofScientific
  rw [dif_neg hpos.ne', if_neg (by omega), if_neg (by omega), if_pos le_rfl]
  have hround := encodes_roundWithAccuracy .positive (tracks_exact (n <<< 53 * 1)) (e := -53)
    (by rw [Nat.shiftLeft_eq]; positivity) (by rwa [hvalue])
  rw [hvalue] at hround
  exact hround

theorem lt_overflow_of_le {v : ℚ} (h : v ≤ 2 ^ 53) : v < overflow := by
  have hpow : (2 : ℚ) ^ ((53 : ℕ) : ℤ) < overflow := zpow_lt_zpow_right₀ one_lt_two (by decide)
  rw [zpow_natCast] at hpow
  exact h.trans_lt hpow

theorem rounds_ofNat (n : ℕ) : Rounds (Float.ofNat n) .positive (nearest n) := by
  by_cases hn : n < 2 ^ 53
  · have hrep := representable_natCast hn
    have hlt : (n : ℚ) < overflow := lt_overflow_of_le (by exact_mod_cast hn.le)
    have h := (rounds_pack (encodes_ofNat n)).holds (by rwa [hrep.nearest_eq])
    have hmul := rounds_mul h holds_one
    rw [mul_one, hrep.nearest_eq, hrep.nearest_eq] at hmul
    rw [ofNat_of_lt hn, hrep.nearest_eq]
    exact hmul
  · have hscientific : Float.ofNat n = .ofModel (.pack (ofScientific .binary64 n 0)) := by
      change Float.ofScientific n false 0 = _
      unfold Float.ofScientific
      rw [dif_neg (fun h => hn h.1)]
      rfl
    rw [hscientific]
    exact rounds_pack (encodes_ofScientific (Nat.le_of_not_lt hn))

/-- An integer is rounded to the nearest double. -/
theorem rounds_ofInt (n : ℤ) : Rounds (Float.ofInt n) (signOf n) (nearest n.natAbs) := by
  cases n with
  | ofNat n =>
      have hsign : signOf (Int.ofNat n) = .positive := if_neg (Int.natCast_nonneg n).not_gt
      rw [hsign]
      exact rounds_ofNat n
  | negSucc n =>
      have hsign : signOf (Int.negSucc n) = .negative := if_pos (Int.negSucc_lt_zero n)
      rw [hsign]
      exact (rounds_ofNat (n + 1)).neg

/-! ### Comparisons -/

theorem le_iff_unpack (x y : Float) :
    x ≤ y ↔ UnpackedFloat.le x.toModel.unpack y.toModel.unpack = true := by
  change Float.le x y = true ↔ _
  unfold Float.le
  rw [decide_eq_true_iff]
  rfl

theorem le_iff (hx : Holds x s p) (hy : Holds y t q) : x ≤ y ↔ signed s p ≤ signed t q := by
  rw [le_iff_unpack]
  unfold UnpackedFloat.le
  rw [compare_eq hx hy, Option.any_some]
  rcases lt_trichotomy (signed s p) (signed t q) with h | h | h
  · rw [compare_lt_iff_lt.2 h]
    exact iff_of_true rfl h.le
  · rw [compare_eq_iff_eq.2 h]
    exact iff_of_true rfl h.le
  · rw [compare_gt_iff_gt.2 h]
    exact iff_of_false (by decide) h.not_ge

theorem Holds.le_zero (h : Holds x .negative p) : x ≤ 0.0 := by
  rw [le_iff h holds_zero, signed_zero]
  exact neg_nonpos.2 h.nonneg

theorem infinity_le_eq_false (h : Encodes u s p) :
    UnpackedFloat.le (.infinity .positive) u = false := by
  cases h <;> rfl

theorem lt_iff (hx : Holds x s p) (hy : Holds y t q) : x < y ↔ signed s p < signed t q := by
  change Float.lt x y = true ↔ _
  unfold Float.lt
  rw [decide_eq_true_iff]
  change (UnpackedFloat.compare _ _ == some Ordering.lt) = true ↔ _
  rw [compare_eq hx hy, beq_iff_eq, Option.some_inj]
  exact compare_lt_iff_lt

theorem beq_iff (hx : Holds x s p) (hy : Holds y t q) :
    (x == y) = true ↔ signed s p = signed t q := by
  change (UnpackedFloat.compare _ _ == some Ordering.eq) = true ↔ _
  rw [compare_eq hx hy, beq_iff_eq, Option.some_inj]
  exact compare_eq_iff_eq

/-! ### Integer parts -/

theorem toInt_eq (h : Encodes u s q) : u.toInt 0 0 = s.apply ⌊q⌋₊ := by
  cases h with
  | zero s =>
      rw [Nat.floor_zero]
      cases s <;> rfl
  | @finite s m e h =>
      obtain ⟨k, hk⟩ : ∃ k, k = (e - 0).toNat := ⟨_, rfl⟩
      obtain ⟨l, hl⟩ : ∃ l, l = (0 - (e - k)).toNat := ⟨_, rfl⟩
      have htrack := (tracks_exact (m <<< k)).shiftRight l
      have hvalue : ((m <<< k : ℕ) : ℚ) / 2 ^ l = m * 2 ^ e := by
        have hl' : e - k = -l := by omega
        rw [← shiftLeft_mul_zpow m k e, hl', zpow_neg, zpow_natCast, div_eq_mul_inv]
      rw [hvalue] at htrack
      simp only [toInt, roundToInt, decreaseExponent, shiftToExponent, ← hk, ← hl, htrack.floor_eq]

theorem Encodes.truncates (h : Encodes u s p) : u.isNaN = false ∧ u.isInf = false := by
  cases h <;> exact ⟨rfl, rfl⟩

/-- A number has an integer part. -/
theorem Holds.truncate_eq (h : Holds x s q) : truncate x = .ok (s.apply ⌊q⌋₊) := by
  have hnan : x.isNaN = false := h.truncates.1
  have hinf : x.isInf = false := h.truncates.2
  rw [truncate, hnan, hinf, toInt_eq h]
  rfl

/-- An infinity has none, which is not for want of being a number. -/
theorem Infinite.truncate_eq (h : Infinite x s) : truncate x = .error .tooLarge := by
  have hnan : x.isNaN = false := by
    change x.toModel.unpack.isNaN = false
    rw [h]
    rfl
  have hinf : x.isInf = true := by
    change x.toModel.unpack.isInf = true
    rw [h]
    rfl
  rw [truncate, hnan, hinf]
  rfl

/-- The only reason why a rounded result has no integer part is its size. -/
theorem Rounds.truncate_cases (h : Rounds x s q) :
    truncate x = .ok (s.apply ⌊q⌋₊) ∨ truncate x = .error .tooLarge := by
  rcases lt_or_ge q overflow with hq | hq
  · exact .inl (h.holds hq).truncate_eq
  · exact .inr (h.infinite hq).truncate_eq

end StackProfile.Sampling
