/-! # Numbering by first occurrence

Dense tables give out the identifiers `1, 2, 3, …` in order.  `Numbered n ids m` reads a list of
identifiers from the left: someone who knows the identifiers up to `n` meets only known ones and
the next one, and knows those up to `m` in the end.

Main lemmas: numbered lists can be joined (`Numbered.append`), and a list that is numbered from
the beginning shows all identifiers in order, if only first occurrences count
(`Numbered.eraseDups_eq`). -/

namespace StackProfile

/-- The identifiers of a table with `n` entries. -/
def idsUpTo (n : Nat) : List Int := (List.range n).map fun i : Nat => (i : Int) + 1

theorem idsUpTo_succ (n : Nat) : idsUpTo (n + 1) = idsUpTo n ++ [(n : Int) + 1] := by
  simp [idsUpTo, List.range_succ]

theorem mem_idsUpTo {n : Nat} {id : Int} : id ∈ idsUpTo n ↔ 1 ≤ id ∧ id ≤ n := by
  rw [idsUpTo, List.mem_map]
  constructor
  · rintro ⟨i, hi, rfl⟩
    rw [List.mem_range] at hi
    omega
  · rintro ⟨h₁, h₂⟩
    exact ⟨(id - 1).toNat, List.mem_range.2 (by omega), by omega⟩

/-- Someone who knows the identifiers up to `n` reads the list and then knows those up to `m`. -/
inductive Numbered : Nat → List Int → Nat → Prop
  | nil (n : Nat) : Numbered n [] n
  | known {n m : Nat} {id : Int} {ids : List Int} (hl : 1 ≤ id) (hu : id ≤ n)
      (h : Numbered n ids m) : Numbered n (id :: ids) m
  | fresh {n m : Nat} {ids : List Int} (h : Numbered (n + 1) ids m) :
      Numbered n (((n : Int) + 1) :: ids) m

namespace Numbered

variable {n m k : Nat} {ids ids' : List Int}

theorem le (h : Numbered n ids m) : n ≤ m := by
  induction h with
  | nil => exact Nat.le_refl _
  | known _ _ _ ih => exact ih
  | fresh _ ih => omega

theorem bounds (h : Numbered n ids m) : ∀ id ∈ ids, 1 ≤ id ∧ id ≤ m := by
  induction h with
  | nil => simp
  | @known n m id ids hl hu h ih =>
      intro x hx
      rcases List.mem_cons.1 hx with rfl | hx
      · have := h.le
        omega
      · exact ih x hx
  | @fresh n m ids h ih =>
      intro x hx
      rcases List.mem_cons.1 hx with rfl | hx
      · have := h.le
        omega
      · exact ih x hx

theorem append (h : Numbered n ids m) (h' : Numbered m ids' k) : Numbered n (ids ++ ids') k := by
  induction h with
  | nil => exact h'
  | known hl hu _ ih => exact .known hl hu (ih h')
  | fresh _ ih => exact .fresh (ih h')

theorem single_known {id : Int} (hl : 1 ≤ id) (hu : id ≤ n) : Numbered n [id] n :=
  .known hl hu (.nil n)

theorem single_fresh (n : Nat) : Numbered n [(n : Int) + 1] (n + 1) := .fresh (.nil _)

/-! ### First occurrences -/

theorem eraseDups_idsUpTo (n : Nat) : (idsUpTo n).eraseDups = idsUpTo n := by
  induction n with
  | zero => rfl
  | succ n ih =>
      have hn : (n : Int) + 1 ∉ idsUpTo n := by
        rw [mem_idsUpTo]
        omega
      rw [idsUpTo_succ, List.eraseDups_append, ih, List.removeAll, List.filter_cons]
      simp [hn, List.eraseDups_cons]

theorem eraseDups_idsUpTo_append (h : Numbered n ids m) :
    (idsUpTo n ++ ids).eraseDups = idsUpTo m := by
  induction h with
  | nil n => rw [List.append_nil, eraseDups_idsUpTo]
  | @known n m id ids hl hu h ih =>
      have hid : id ∈ idsUpTo n := mem_idsUpTo.2 ⟨hl, hu⟩
      have hdrop : (id :: ids).removeAll (idsUpTo n) = ids.removeAll (idsUpTo n) := by
        simp [List.removeAll, hid]
      rw [List.eraseDups_append, hdrop, ← List.eraseDups_append, ih]
  | @fresh n m ids h ih =>
      rw [idsUpTo_succ, List.append_assoc] at ih
      exact ih

/-- The first occurrences in a list that is numbered from the beginning. -/
theorem eraseDups_eq (h : Numbered 0 ids m) : ids.eraseDups = idsUpTo m :=
  eraseDups_idsUpTo_append h

end Numbered

end StackProfile
