import StackProfile.Proofs.Doubles
import StackProfile.Sampling.Ratio

/-! # Integers in doubles

Integers are converted to the nearest double unless they are too large.  Converting one and cutting
its fraction off keeps it if it has at most 53 significant bits, and changes it otherwise.

Main lemmas: which integers are doubles (`representable_natAbs_iff`), what comes back of an integer
(`throughDouble_eq_iff`), and when a column of integers converts (`mapM_toDouble_eq_ok`). -/

namespace StackProfile.Sampling

open Float.Model.UnpackedFloat (Sign)

/-- The integer has at most 53 significant bits. -/
def Exact (n : ℤ) : Prop := ∃ m k : ℕ, m < 2 ^ 53 ∧ n.natAbs = m * 2 ^ k

theorem representable_natAbs_iff (n : ℤ) : Representable n.natAbs ↔ Exact n := by
  constructor
  · rintro ⟨m, e, hm, -, hv⟩
    rcases Int.le_total 0 e with he | he
    · obtain ⟨k, rfl⟩ := Int.eq_ofNat_of_zero_le he
      refine ⟨m, k, hm, ?_⟩
      rw [zpow_natCast] at hv
      exact_mod_cast hv
    · -- A fraction of a short mantissa is shorter.
      have hle : (n.natAbs : ℚ) ≤ m := by
        rw [hv]
        exact mul_le_of_le_one_right (Nat.cast_nonneg m) (zpow_le_one_of_nonpos₀ one_le_two he)
      have hlt : n.natAbs < 2 ^ 53 := (Nat.cast_le.1 hle).trans_lt hm
      exact ⟨n.natAbs, 0, hlt, by rw [pow_zero, Nat.mul_one]⟩
  · rintro ⟨m, k, hm, hv⟩
    refine ⟨m, k, hm, by omega, ?_⟩
    rw [hv, zpow_natCast]
    push_cast
    rfl

/-- The double nearest to a natural number is a natural number. -/
theorem exists_nearest_eq_natCast (n : ℕ) : ∃ m : ℕ, nearest n = m := by
  by_cases hn : n < 2 ^ 53
  · exact ⟨n, (representable_natCast hn).nearest_eq⟩
  · have hpos : 0 < n := by omega
    have hlog : 53 ≤ n.log2 := (Nat.le_log2 hpos.ne').2 (Nat.le_of_not_lt hn)
    have hplace : 0 ≤ lastPlace n := by
      have h := log_natCast_mul_zpow hpos 0
      rw [zpow_zero, mul_one] at h
      unfold lastPlace
      omega
    obtain ⟨k, hk⟩ := Int.eq_ofNat_of_zero_le hplace
    refine ⟨halfEven (n / 2 ^ lastPlace n) * 2 ^ k, ?_⟩
    unfold nearest
    rw [hk, zpow_natCast]
    push_cast
    rfl

/-- The integer that the nearest double of an integer is. -/
def throughDouble (n : ℤ) : ℤ := (signOf n).apply ⌊nearest n.natAbs⌋₊

theorem apply_signOf_natAbs (n : ℤ) : (signOf n).apply n.natAbs = n := by
  unfold signOf
  split
  · change -(n.natAbs : ℤ) = n
    omega
  · change (n.natAbs : ℤ) = n
    omega

theorem throughDouble_eq_iff (n : ℤ) : throughDouble n = n ↔ Exact n := by
  rw [← representable_natAbs_iff]
  unfold throughDouble
  constructor
  · intro h
    obtain ⟨m, hm⟩ := exists_nearest_eq_natCast n.natAbs
    have hrep := representable_nearest n.natAbs
    rw [hm, Nat.floor_natCast] at h
    have habs : m = n.natAbs := by
      conv_rhs at h => rw [← apply_signOf_natAbs n]
      cases hs : signOf n with
      | negative =>
          rw [hs] at h
          change -(m : ℤ) = -(n.natAbs : ℤ) at h
          omega
      | positive =>
          rw [hs] at h
          exact Int.ofNat.inj h
    rwa [hm, habs] at hrep
  · intro h
    rw [h.nearest_eq, Nat.floor_natCast, apply_signOf_natAbs]

/-- The integer is not beyond the largest double. -/
def Convertible (n : ℤ) : Prop := (toDouble? n).isSome = true

instance (n : ℤ) : Decidable (Convertible n) := inferInstanceAs (Decidable (_ = _))

theorem Convertible.isFinite {n : ℤ} (h : Convertible n) : (Float.ofInt n).isFinite = true := by
  unfold Convertible toDouble? at h
  by_contra hf
  rw [if_neg hf] at h
  nomatch h

theorem Convertible.holds {n : ℤ} (h : Convertible n) :
    Holds (Float.ofInt n) (signOf n) (nearest n.natAbs) :=
  (rounds_ofInt n).holds_of_isFinite h.isFinite

theorem toDouble?_of_convertible {n : ℤ} (h : Convertible n) :
    toDouble? n = some (Float.ofInt n) :=
  if_pos h.isFinite

theorem toDouble_of_convertible {n : ℤ} (h : Convertible n) : toDouble n = .ok (Float.ofInt n) := by
  unfold toDouble
  rw [toDouble?_of_convertible h]

theorem toDouble_of_not_convertible {n : ℤ} (h : ¬ Convertible n) :
    toDouble n = .error .tooLarge := by
  have hnone : toDouble? n = none := Option.not_isSome_iff_eq_none.1 h
  rw [toDouble, hnone]

theorem convertible_of_toDouble {n : ℤ} {x : Float} (h : toDouble n = .ok x) : Convertible n := by
  unfold toDouble at h
  split at h
  · rename_i hx
    exact Option.isSome_of_eq_some hx
  · nomatch h

theorem scale_of_convertible {n : ℤ} (h : Convertible n) (r : Float) :
    scale n r = truncate (Float.ofInt n * r) := by
  rw [scale, toDouble_of_convertible h]
  rfl

theorem scale_of_not_convertible {n : ℤ} (h : ¬ Convertible n) (r : Float) :
    scale n r = .error .tooLarge := by
  rw [scale, toDouble_of_not_convertible h]
  rfl

theorem mapM_toDouble {ns : List ℤ} (h : ∀ n ∈ ns, Convertible n) :
    ns.mapM toDouble = .ok (ns.map Float.ofInt) := by
  induction ns with
  | nil => rfl
  | cons n ns ih =>
      rw [List.mapM_cons, toDouble_of_convertible (h n List.mem_cons_self),
        ih fun m hm => h m (List.mem_cons_of_mem n hm)]
      rfl

theorem convertible_of_mapM {ns : List ℤ} {xs : List Float} (h : ns.mapM toDouble = .ok xs) :
    ∀ n ∈ ns, Convertible n := by
  induction ns generalizing xs with
  | nil => simp
  | cons n ns ih =>
      rw [List.mapM_cons] at h
      cases hn : toDouble n with
      | error e =>
          rw [hn] at h
          nomatch h
      | ok x =>
          cases hns : ns.mapM toDouble with
          | error e =>
              rw [hn, hns] at h
              nomatch h
          | ok ys =>
              intro m hm
              rcases List.mem_cons.1 hm with rfl | hm
              · exact convertible_of_toDouble hn
              · exact ih hns m hm

/-- A column of integers converts if all of them do. -/
theorem mapM_toDouble_eq_ok {ns : List ℤ} {xs : List Float} :
    ns.mapM toDouble = .ok xs ↔ (∀ n ∈ ns, Convertible n) ∧ xs = ns.map Float.ofInt := by
  constructor
  · intro h
    have hall := convertible_of_mapM h
    rw [mapM_toDouble hall] at h
    exact ⟨hall, (Except.ok.inj h).symm⟩
  · rintro ⟨hall, rfl⟩
    exact mapM_toDouble hall

end StackProfile.Sampling
