import StackProfile.Proofs.UnpackedDoubles

/-! # Packed doubles

A double is packed into 64 bits: its sign, a biased exponent and the mantissa without its leading
bit.  Packing loses nothing of a double with a canonical mantissa and exponent, unless it is too
large; and whatever 64 bits there are, they unpack to such a double if they are a number at all.

Main lemmas: what packing keeps (`unpack_pack`), and what unpacking gives (`unpack_cases`). -/

namespace StackProfile.Sampling

open Float.Model (Format UnpackedFloat)
open Float.Model.UnpackedFloat

/-! ### Components -/

theorem toNat_append_one (m : BitVec 52) : (1#1 ++ m).toNat = 2 ^ 52 + m.toNat := by
  rw [BitVec.toNat_append, ← Nat.shiftLeft_add_eq_or_of_lt m.isLt]
  rfl

/-- What unpacking makes of the components. -/
theorem unpack_packComponents_normal (s : Sign) {e : BitVec 11} (m : BitVec 52) (hz : e ≠ 0#11)
    (ho : e ≠ -1#11) (hpos : 0 < (1#1 ++ m).toNat) :
    unpack .binary64 (packComponents .binary64 s e m) =
      .finite s (1#1 ++ m).toNat (e.toNat - 1075) hpos := by
  simp only [unpack, unpackMantissa_packComponents, unpackExponent_packComponents,
    unpackSign_packComponents, Sign.ofBitVec_toBitVec, if_neg ho, if_neg hz]
  rfl

theorem unpack_packComponents_subnormal (s : Sign) {m : BitVec 52} (hm : m ≠ 0#52)
    (hpos : 0 < m.toNat) :
    unpack .binary64 (packComponents .binary64 s 0#11 m) = .finite s m.toNat (-1074) hpos := by
  have ho : (0#11) ≠ -1#11 := by decide
  simp only [unpack, unpackMantissa_packComponents, unpackExponent_packComponents,
    unpackSign_packComponents, Sign.ofBitVec_toBitVec, if_neg ho, dif_neg hm, if_true]
  rfl

theorem unpack_packedInfinity (s : Sign) :
    unpack .binary64 (packedInfinity .binary64 s) = .infinity s := by
  cases s <;> rfl

/-! ### Packing -/

/-- A mantissa of 53 bits loses the first one; a shorter one has the exponent zero. -/
theorem pack_finite (s : Sign) {m : ℕ} {e : ℤ} (h : Canonical m e) (he : e ≤ 971) :
    pack .binary64 (.finite s m e h.pos) =
      if 2 ^ 52 ≤ m then
        packComponents .binary64 s (BitVec.ofNat 11 (e + 1075).toNat) (BitVec.ofNat 52 m)
      else packComponents .binary64 s 0#11 (BitVec.ofNat 52 m) := by
  have hbias : Format.binary64.exponentBias = 1023 := by decide
  have hbits : Format.binary64.mantissaBits = 53 := by decide
  have hexp := h.exponent
  have hbiased : e + (1023 : ℕ) + (52 : ℕ) = e + 1075 := by omega
  have hfits : ¬ 2 ^ 11 ≤ (e + 1075).toNat + 1 := by omega
  have hlog : m.log2 + 1 = 53 ↔ 2 ^ 52 ≤ m := by
    have hle := log2_le h.pos h.lt
    rw [← Nat.le_log2 h.pos.ne']
    omega
  unfold UnpackedFloat.pack
  simp only [hbias, hbits, hbiased, if_neg hfits, hlog]

theorem unpack_pack_normal (s : Sign) {m : ℕ} {e : ℤ} (h : Canonical m e) (he : e ≤ 971)
    (hm : 2 ^ 52 ≤ m) :
    unpack .binary64 (pack .binary64 (.finite s m e h.pos)) = .finite s m e h.pos := by
  have hexp := h.exponent
  have hlt := h.lt
  have hbiased : (BitVec.ofNat 11 (e + 1075).toNat).toNat = (e + 1075).toNat := by
    rw [BitVec.toNat_ofNat, Nat.mod_eq_of_lt (by omega)]
  have hmant : (1#1 ++ BitVec.ofNat 52 m).toNat = m := by
    rw [toNat_append_one, BitVec.toNat_ofNat]
    omega
  have hz : BitVec.ofNat 11 (e + 1075).toNat ≠ 0#11 := by
    intro hz
    rw [hz, BitVec.toNat_ofNat] at hbiased
    omega
  have ho : BitVec.ofNat 11 (e + 1075).toNat ≠ -1#11 := by
    intro ho
    have hones : (-1#11).toNat = 2047 := by decide
    rw [ho, hones] at hbiased
    omega
  rw [pack_finite s h he, if_pos hm,
    unpack_packComponents_normal s _ hz ho (hmant.symm ▸ h.pos)]
  congr 1
  rw [hbiased]
  omega

theorem unpack_pack_subnormal (s : Sign) {m : ℕ} {e : ℤ} (h : Canonical m e) (hm : m < 2 ^ 52) :
    unpack .binary64 (pack .binary64 (.finite s m e h.pos)) = .finite s m e h.pos := by
  obtain rfl := h.leading.resolve_left hm.not_ge
  have hmant : (BitVec.ofNat 52 m).toNat = m := by
    rw [BitVec.toNat_ofNat, Nat.mod_eq_of_lt hm]
  have hpos : 0 < (BitVec.ofNat 52 m).toNat := hmant.symm ▸ h.pos
  have hne : BitVec.ofNat 52 m ≠ 0#52 := by
    intro hz
    rw [hz] at hpos
    exact absurd hpos (by decide)
  rw [pack_finite s h (by decide), if_neg hm.not_ge, unpack_packComponents_subnormal s hne hpos]
  congr 1

theorem unpack_pack_finite (s : Sign) {m : ℕ} {e : ℤ} (h : Canonical m e) (he : e ≤ 971) :
    unpack .binary64 (pack .binary64 (.finite s m e h.pos)) = .finite s m e h.pos := by
  rcases lt_or_ge m (2 ^ 52) with hm | hm
  · exact unpack_pack_subnormal s h hm
  · exact unpack_pack_normal s h he hm

theorem unpack_pack_overflow (s : Sign) {m : ℕ} {e : ℤ} (h : Canonical m e) (he : 971 < e) :
    unpack .binary64 (pack .binary64 (.finite s m e h.pos)) = .infinity s := by
  have hbias : Format.binary64.exponentBias = 1023 := by decide
  have hlarge : 2 ^ 11 ≤ (e + (1023 : ℕ) + (52 : ℕ)).toNat + 1 := by omega
  unfold UnpackedFloat.pack
  simp only [hbias, if_pos hlarge]
  exact unpack_packedInfinity s

/-- Magnitudes from here on are too large for a double. -/
def overflow : ℚ := 2 ^ (1024 : ℤ)

theorem overflow_pos : 0 < overflow := two_zpow_pos _

theorem Canonical.lt_overflow_iff {m : ℕ} {e : ℤ} (h : Canonical m e) :
    (m : ℚ) * 2 ^ e < overflow ↔ e ≤ 971 := by
  unfold overflow
  have hpow := two_zpow_pos e
  constructor
  · intro hlt
    by_contra he
    have hm : 2 ^ 52 ≤ m := h.leading.resolve_right (by omega)
    have hle : (2 : ℚ) ^ (1024 : ℤ) ≤ 2 ^ (e + (52 : ℕ)) :=
      zpow_le_zpow_right₀ one_le_two (by push_cast; omega)
    rw [zpow_add_natCast] at hle
    have hm' : (2 : ℚ) ^ 52 * 2 ^ e ≤ m * 2 ^ e :=
      mul_le_mul_of_nonneg_right (by exact_mod_cast hm) hpow.le
    exact absurd hlt (hle.trans hm').not_gt
  · intro he
    have hle : (2 : ℚ) ^ (e + (53 : ℕ)) ≤ 2 ^ (1024 : ℤ) :=
      zpow_le_zpow_right₀ one_le_two (by push_cast; omega)
    rw [zpow_add_natCast] at hle
    have hm : (m : ℚ) * 2 ^ e < 2 ^ 53 * 2 ^ e :=
      mul_lt_mul_of_pos_right (by exact_mod_cast h.lt) hpow
    exact hm.trans_le hle

/-- Packing keeps a double unless it is too large. -/
theorem unpack_pack {u : UnpackedFloat} {s : Sign} {q : ℚ} (h : Encodes u s q) :
    unpack .binary64 (pack .binary64 u) = if q < overflow then u else .infinity s := by
  cases h with
  | zero s =>
      rw [if_pos overflow_pos]
      exact unpack_packedZero
  | @finite s m e h =>
      by_cases hlt : (m : ℚ) * 2 ^ e < overflow
      · rw [if_pos hlt]
        exact unpack_pack_finite s h (h.lt_overflow_iff.1 hlt)
      · rw [if_neg hlt]
        have he := mt h.lt_overflow_iff.2 hlt
        exact unpack_pack_overflow s h (by omega)

/-! ### Unpacking -/

theorem canonical_subnormal {m : BitVec 52} (hm : m ≠ 0#52) : Canonical m.toNat (-1074) := by
  have hpos : 0 < m.toNat := Nat.pos_of_ne_zero fun h => hm (BitVec.eq_of_toNat_eq h)
  exact ⟨hpos, m.isLt.trans (by decide), le_rfl, .inr rfl⟩

theorem canonical_normal (m : BitVec 52) {e : BitVec 11} (hz : e ≠ 0#11) :
    Canonical (1#1 ++ m).toNat (e.toNat - 1075) := by
  have hpos : 0 < e.toNat := Nat.pos_of_ne_zero fun h => hz (BitVec.eq_of_toNat_eq h)
  have hm := m.isLt
  rw [toNat_append_one]
  exact ⟨by omega, by omega, by omega, .inl (by omega)⟩

/-- Unpacking gives no number, an infinity or a magnitude. -/
theorem unpack_cases (b : BitVec 64) :
    unpack .binary64 b = .notANumber ∨ (∃ s, unpack .binary64 b = .infinity s) ∨
      ∃ s q, Encodes (unpack .binary64 b) s q ∧ q < overflow := by
  have hbias : Format.binary64.exponentBias = 1023 := by decide
  unfold UnpackedFloat.unpack
  simp only [hbias]
  split
  · split
    · exact .inr (.inl ⟨_, rfl⟩)
    · exact .inl rfl
  · rename_i ho
    split
    · rename_i hz
      split
      · exact .inr (.inr ⟨_, 0, .zero _, overflow_pos⟩)
      · rename_i hm
        have hexp : (@unpackExponent .binary64 b).toNat - ((1023 : ℕ) + (52 : ℕ) : ℤ) + 1 =
            -1074 := by
          rw [hz]
          rfl
        have hcan := canonical_subnormal hm
        rw [← hexp] at hcan
        exact .inr (.inr ⟨_, _, .finite _ hcan, hcan.lt_overflow_iff.2 (by omega)⟩)
    · rename_i hz
      have hcan := canonical_normal (@unpackMantissa .binary64 b) hz
      have hne : (@unpackExponent .binary64 b).toNat ≠ 2047 :=
        fun h => ho (BitVec.eq_of_toNat_eq h)
      have hlt : (@unpackExponent .binary64 b).toNat < 2048 := (@unpackExponent .binary64 b).isLt
      exact .inr (.inr ⟨_, _, .finite _ hcan, hcan.lt_overflow_iff.2 (by omega)⟩)

end StackProfile.Sampling
