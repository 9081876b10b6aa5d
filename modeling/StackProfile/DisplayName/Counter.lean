/-! # Counters after a trigger

Generated names carry counters: runs of digits after a fixed trigger text.  `dropAfter` reads a
text from the left and removes the run of counter characters after every trigger it meets; it goes
on right behind that trigger, so what the removal brings together is read once, and characters of a
trigger are never read as part of another.

Main lemmas: the two equations by which the scan moves (`dropAfter_trigger`, `dropAfter_cons`), and
the result is a subsequence of the text (`dropAfter_sublist`). -/

namespace StackProfile.DisplayName

/-- Removes the run of characters in `p` after every occurrence of `trigger`.  An empty trigger
occurs nowhere. -/
def dropAfter (trigger : List Char) (p : Char → Bool) : List Char → List Char
  | [] => []
  | c :: s =>
    if trigger ≠ [] ∧ trigger <+: c :: s then
      trigger ++ dropAfter trigger p (((c :: s).drop trigger.length).dropWhile p)
    else
      c :: dropAfter trigger p s
termination_by s => s.length
decreasing_by
  · have h := (List.dropWhile_sublist p (l := (c :: s).drop trigger.length)).length_le
    have := List.length_pos_iff.2 (by assumption : trigger ≠ [] ∧ trigger <+: c :: s).1
    simp only [List.length_drop, List.length_cons] at h ⊢
    omega
  · simp

@[simp] theorem dropAfter_nil (trigger : List Char) (p : Char → Bool) :
    dropAfter trigger p [] = [] := by
  rw [dropAfter]

/-- Behind a trigger the scan goes on at the end of the counter. -/
theorem dropAfter_trigger {trigger : List Char} (h : trigger ≠ []) (p : Char → Bool)
    (s : List Char) :
    dropAfter trigger p (trigger ++ s) = trigger ++ dropAfter trigger p (s.dropWhile p) := by
  obtain ⟨t, ts, rfl⟩ := List.exists_cons_of_ne_nil h
  rw [List.cons_append, dropAfter, if_pos ⟨h, by simp [List.cons_prefix_cons]⟩]
  simp

/-- Where no trigger begins, the scan keeps one character. -/
theorem dropAfter_cons {trigger : List Char} {c : Char} {s : List Char}
    (h : ¬trigger <+: c :: s) (p : Char → Bool) :
    dropAfter trigger p (c :: s) = c :: dropAfter trigger p s := by
  rw [dropAfter, if_neg fun h' => h h'.2]

theorem dropAfter_sublist (trigger : List Char) (p : Char → Bool) (s : List Char) :
    (dropAfter trigger p s).Sublist s := by
  fun_induction dropAfter trigger p s with
  | case1 => simp
  | case2 c s h ih =>
      obtain ⟨t, ht⟩ := h.2
      rw [← ht, List.drop_left] at ih ⊢
      refine List.Sublist.append (List.Sublist.refl _) ?_
      exact ih.trans (List.dropWhile_sublist p)
  | case3 c s _ ih => exact ih.cons_cons c

end StackProfile.DisplayName
