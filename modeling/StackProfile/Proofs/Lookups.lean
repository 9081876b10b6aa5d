import StackProfile.Native.Symbolizer

/-! # Look-ups of addresses

Builders take turns at a symbolizer: each look-up is made for a builder and an address.  The
symbolizer remembers what it found for the builder of the last look-ups and forgets it when another
builder comes, also if that one has no address to look up and its look-up fails.  A log of look-ups,
the latest first, tells which look-ups found nothing.

Main lemmas: a builder misses an address twice exactly if another builder came between two of its
look-ups of the address (`two_le_misses_iff`). -/

namespace StackProfile

/-- A builder and the address that was looked up for it, if there was one. -/
abbrev Lookup := Nat × Option Int

namespace Lookup

/-- All look-ups since one of the address `a` were made for the builder `i`. -/
def Held (i : Nat) (a : Int) : List Lookup → Prop
  | [] => False
  | x :: r => x.1 = i ∧ (x.2 = some a ∨ Held i a r)

instance decidableHeld (i : Nat) (a : Int) : (r : List Lookup) → Decidable (Held i a r)
  | [] => inferInstanceAs (Decidable False)
  | x :: r =>
    have := decidableHeld i a r
    inferInstanceAs (Decidable (x.1 = i ∧ (x.2 = some a ∨ Held i a r)))

/-- How many look-ups of the address `a` for the builder `i` found nothing. -/
def misses (i : Nat) (a : Int) : List Lookup → Nat
  | [] => 0
  | x :: r => misses i a r + if x = (i, some a) ∧ ¬ Held i a r then 1 else 0

variable {i j : Nat} {a : Int} {b : Option Int} {x : Lookup} {r : List Lookup}

theorem misses_of_ne (h : x ≠ (i, some a)) (r : List Lookup) :
    misses i a (x :: r) = misses i a r := by
  simp [misses, h]

theorem misses_of_held (h : Held i a r) (x : Lookup) : misses i a (x :: r) = misses i a r := by
  simp [misses, h]

theorem misses_of_not_held (h : ¬ Held i a r) :
    misses i a ((i, some a) :: r) = misses i a r + 1 := by
  simp [misses, h]

/-- What is held was looked up for the builder of the latest look-up. -/
theorem Held.head (h : Held i a r) : r.head?.map Prod.fst = some i := by
  cases r with
  | nil => exact h.elim
  | cons x r => exact congrArg some h.1

theorem Held.mem (h : Held i a r) : (i, some a) ∈ r := by
  induction r with
  | nil => exact h.elim
  | cons x r ih =>
      obtain ⟨hi, ha | hr⟩ := h
      · exact List.mem_cons.2 (.inl (Prod.ext hi ha).symm)
      · exact List.mem_cons_of_mem x (ih hr)

/-- The first look-up misses. -/
theorem misses_pos_iff : 0 < misses i a r ↔ (i, some a) ∈ r := by
  induction r with
  | nil => simp [misses]
  | cons x r ih =>
      by_cases hx : x = (i, some a)
      · subst hx
        by_cases hr : Held i a r
        · rw [misses_of_held hr, ih]
          simp [hr.mem]
        · rw [misses_of_not_held hr]
          simp
      · rw [misses_of_ne hx, ih, List.mem_cons]
        simp [Ne.symm hx]

/-- What is not held any more was lost to another builder. -/
theorem exists_other (hm : (i, some a) ∈ r) (hr : ¬ Held i a r) :
    ∃ j b, j ≠ i ∧ [(j, b), (i, some a)].Sublist r := by
  induction r with
  | nil => cases hm
  | cons x r ih =>
      by_cases hx : x.1 = i
      · have hxa : x.2 ≠ some a := fun ha => hr ⟨hx, .inl ha⟩
        have hr' : ¬ Held i a r := fun h => hr ⟨hx, .inr h⟩
        have hm' : (i, some a) ∈ r := by
          rcases List.mem_cons.1 hm with rfl | hm
          · exact absurd rfl hxa
          · exact hm
        obtain ⟨j, b, hj, hs⟩ := ih hm' hr'
        exact ⟨j, b, hj, hs.cons x⟩
      · have hm' : (i, some a) ∈ r := by
          rcases List.mem_cons.1 hm with rfl | hm
          · exact absurd rfl hx
          · exact hm
        exact ⟨x.1, x.2, hx, (List.singleton_sublist.2 hm').cons_cons x⟩

/-- What is held was looked up again after every other builder. -/
theorem Held.sublist (h : Held i a r) (hj : j ≠ i) (hs : [(j, b), (i, some a)].Sublist r) :
    [(i, some a), (j, b), (i, some a)].Sublist r := by
  induction r with
  | nil => exact h.elim
  | cons x r ih =>
      obtain ⟨hi, hr⟩ := h
      have hs' : [(j, b), (i, some a)].Sublist r := by
        cases hs with
        | cons _ hs => exact hs
        | cons_cons _ _ => exact absurd hi hj
      rcases hr with ha | hr
      · rw [show x = (i, some a) from Prod.ext hi ha]
        exact hs'.cons_cons (i, some a)
      · exact (ih hr hs').cons x

/-- A builder misses an address twice exactly if another builder came in between. -/
theorem two_le_misses_iff :
    2 ≤ misses i a r ↔ ∃ j b, j ≠ i ∧ [(i, some a), (j, b), (i, some a)].Sublist r := by
  induction r with
  | nil => simp [misses]
  | cons x r ih =>
      have hold : (∃ j b, j ≠ i ∧ [(i, some a), (j, b), (i, some a)].Sublist r) →
          ∃ j b, j ≠ i ∧ [(i, some a), (j, b), (i, some a)].Sublist (x :: r) :=
        fun ⟨j, b, hj, hs⟩ => ⟨j, b, hj, hs.cons x⟩
      by_cases hx : x = (i, some a)
      · subst hx
        by_cases hr : Held i a r
        · rw [misses_of_held hr, ih]
          refine ⟨hold, ?_⟩
          rintro ⟨j, b, hj, hs⟩
          refine ⟨j, b, hj, ?_⟩
          cases hs with
          | cons _ hs => exact hs
          | cons_cons _ hs => exact hr.sublist hj hs
        · rw [misses_of_not_held hr]
          constructor
          · intro h
            obtain ⟨j, b, hj, hs⟩ := exists_other (misses_pos_iff.1 (by omega)) hr
            exact ⟨j, b, hj, hs.cons_cons (i, some a)⟩
          · rintro ⟨j, b, hj, hs⟩
            have hm : (i, some a) ∈ r := by
              cases hs with
              | cons _ hs => exact hs.subset List.mem_cons_self
              | cons_cons _ hs => exact hs.subset (by simp)
            have := misses_pos_iff.2 hm
            omega
      · rw [misses_of_ne hx, ih]
        refine ⟨hold, ?_⟩
        rintro ⟨j, b, hj, hs⟩
        refine ⟨j, b, hj, ?_⟩
        cases hs with
        | cons _ hs => exact hs
        | cons_cons _ _ => exact absurd rfl hx

/-- The same for a log with the latest look-up last. -/
theorem two_le_misses_reverse_iff :
    2 ≤ misses i a r.reverse ↔ ∃ j b, j ≠ i ∧ [(i, some a), (j, b), (i, some a)].Sublist r := by
  have hsub : ∀ j b, [(i, some a), (j, b), (i, some a)].Sublist r.reverse ↔
      [(i, some a), (j, b), (i, some a)].Sublist r :=
    fun j b => List.sublist_reverse_iff
  simp only [two_le_misses_iff, hsub]

end Lookup

end StackProfile
