import StackProfile.DisplayName.Generated

/-! # Scans for a trigger

A simplification of display names scans a text and changes it only behind a trigger.  So the text
and what becomes of it have a common front that reaches over the first place that changes: what
begins in the front begins in both of them.

Main lemmas: scanning for counters once more changes nothing (`dropAfter_dropAfter`), scans for
different triggers can be exchanged if no trigger overlaps another (`dropAfter_comm`), and a text is
scanned in two parts where no trigger lies across the cut (`dropAfter_append_of_cut`). -/

namespace StackProfile.DisplayName

/-! ### Common fronts -/

/-- Both texts are equal, or they are so up to the end of an occurrence of the trigger. -/
def SameFront (trigger s s' : List Char) : Prop :=
  s' = s ∨ ∃ a b b', s = a ++ trigger ++ b ∧ s' = a ++ trigger ++ b'

namespace SameFront

variable {t s s' : List Char}

theorem refl (t s : List Char) : SameFront t s s := .inl rfl

theorem append_left (h : SameFront t s s') (w : List Char) : SameFront t (w ++ s) (w ++ s') := by
  rcases h with rfl | ⟨a, b, b', rfl, rfl⟩
  · exact .refl t _
  · exact .inr ⟨w ++ a, b, b', by simp, by simp⟩

theorem symm (h : SameFront t s s') : SameFront t s' s := by
  rcases h with rfl | ⟨a, b, b', rfl, rfl⟩
  · exact .refl t _
  · exact .inr ⟨a, b', b, rfl, rfl⟩

theorem head? (h : SameFront t s s') (ht : t ≠ []) : s'.head? = s.head? := by
  rcases h with rfl | ⟨a, b, b', rfl, rfl⟩
  · rfl
  · obtain ⟨c, t, rfl⟩ := List.exists_cons_of_ne_nil ht
    cases a <;> rfl

theorem begins_of_begins (h : SameFront t s s') {u w : List Char}
    (hu : ∀ a, ¬ w ++ a ++ t <+: u) (hs : u <+: w ++ s) : u <+: w ++ s' := by
  rcases h with rfl | ⟨a, b, b', rfl, rfl⟩
  · exact hs
  · have hfront : w ++ (a ++ t ++ b) = w ++ a ++ t ++ b := by simp
    have hwhole : w ++ a ++ t <+: w ++ (a ++ t ++ b) := hfront ▸ List.prefix_append _ _
    rcases List.prefix_or_prefix_of_prefix hs hwhole with hin | hout
    · have hfront' : w ++ a ++ t <+: w ++ (a ++ t ++ b') := by
        rw [← List.append_assoc, ← List.append_assoc]
        exact List.prefix_append _ _
      exact hin.trans hfront'
    · exact absurd hout (hu a)

/-- A text that the trigger does not fit into begins both or none of them. -/
theorem begins_iff (h : SameFront t s s') {u w : List Char} (hu : ∀ a, ¬ w ++ a ++ t <+: u) :
    u <+: w ++ s' ↔ u <+: w ++ s :=
  ⟨h.symm.begins_of_begins hu, h.begins_of_begins hu⟩

end SameFront

theorem not_begins_of_not_inside {t u : List Char} (h : ¬ t <:+: u) (w a : List Char) :
    ¬ w ++ a ++ t <+: u := by
  rintro ⟨r, hr⟩
  exact h ⟨w ++ a, r, hr⟩

theorem not_cons_begins (t : List Char) (c : Char) (a : List Char) : ¬ [c] ++ a ++ t <+: t := by
  intro h
  have hlen := h.length_le
  simp only [List.length_append, List.length_singleton] at hlen
  omega

/-! ### Counters -/

section counters

variable {t t' : List Char} {p : Char → Bool}

theorem sameFront_dropAfter (t : List Char) (p : Char → Bool) (s : List Char) :
    SameFront t s (dropAfter t p s) := by
  fun_induction dropAfter t p s with
  | case1 => exact .refl t []
  | case2 c s h _ =>
      obtain ⟨b, hb⟩ := h.2
      exact .inr ⟨[], b, _, by simpa using hb.symm, rfl⟩
  | case3 c s _ ih => exact ih.append_left [c]

@[simp] theorem head?_dropAfter (t : List Char) (p : Char → Bool) (s : List Char) :
    (dropAfter t p s).head? = s.head? := by
  by_cases ht : t = []
  · subst ht
    cases s with
    | nil => simp
    | cons c s => rw [dropAfter, if_neg (by simp), List.head?_cons, List.head?_cons]
  · exact (sameFront_dropAfter t p s).head? ht

theorem dropWhile_eq_self {q : Char → Bool} {s : List Char} (h : s.head?.any q = false) :
    s.dropWhile q = s := by
  cases s with
  | nil => rfl
  | cons c s => exact List.dropWhile_cons_of_neg (by simpa using h)

theorem head?_dropWhile_any (q : Char → Bool) (s : List Char) :
    (s.dropWhile q).head?.any q = false := by
  have h := List.head?_dropWhile_not q s
  cases hs : (s.dropWhile q).head? with
  | none => rfl
  | some c =>
      rw [hs] at h
      exact h

/-- Scanning once more changes nothing. -/
theorem dropAfter_dropAfter (t : List Char) (p : Char → Bool) (s : List Char) :
    dropAfter t p (dropAfter t p s) = dropAfter t p s := by
  fun_induction dropAfter t p s with
  | case1 => simp
  | case2 c s h ih =>
      rw [dropAfter_trigger h.1, dropWhile_eq_self, ih]
      rw [head?_dropAfter]
      exact head?_dropWhile_any p _
  | case3 c s h ih =>
      by_cases ht : t = []
      · rw [dropAfter, if_neg fun h' => h'.1 ht, ih]
      · have hfront : t <+: c :: dropAfter t p s ↔ t <+: c :: s :=
          (sameFront_dropAfter t p s).begins_iff (not_cons_begins t c)
        have hn : ¬ t <+: c :: dropAfter t p s := fun h' => h ⟨ht, hfront.1 h'⟩
        rw [dropAfter_cons hn, ih]

/-- No occurrence of the trigger begins in a text, whatever follows it. -/
def Apart (trigger w : List Char) : Prop :=
  ∀ i < w.length, ¬ w.drop i <+: trigger ∧ ¬ trigger <+: w.drop i

instance (trigger w : List Char) : Decidable (Apart trigger w) :=
  inferInstanceAs (Decidable (∀ i < w.length, ¬ w.drop i <+: trigger ∧ ¬ trigger <+: w.drop i))

theorem Apart.not_begins {c : Char} {w : List Char} (h : Apart t (c :: w)) (s : List Char) :
    ¬ t <+: c :: w ++ s := by
  intro hs
  obtain ⟨hv, ht⟩ := h 0 (by simp)
  rcases List.prefix_or_prefix_of_prefix hs (List.prefix_append _ s) with hin | hout
  · exact ht hin
  · exact hv hout

theorem Apart.tail {c : Char} {w : List Char} (h : Apart t (c :: w)) : Apart t w :=
  fun i hi => h (i + 1) (by simpa using hi)

theorem Apart.not_inside (h : Apart t t') (ht : t ≠ []) : ¬ t <:+: t' := by
  rintro ⟨a, b, rfl⟩
  have hpos := List.length_pos_iff.2 ht
  have hlen : a.length < (a ++ t ++ b).length := by
    simp only [List.length_append]
    omega
  refine (h a.length hlen).2 ?_
  rw [List.append_assoc, List.drop_left]
  exact List.prefix_append _ _

/-- A trigger whose first character does not occur in a text is apart from it. -/
theorem apart_of_notMem {c : Char} {t w : List Char} (h : c ∉ w) : Apart (c :: t) w := by
  intro i hi
  have hlen : 0 < (w.drop i).length := by
    rw [List.length_drop]
    omega
  obtain ⟨d, r, hr⟩ := List.exists_cons_of_length_pos hlen
  have hne : d ≠ c := by
    rintro rfl
    exact h (List.mem_of_mem_drop (hr ▸ List.mem_cons_self))
  rw [hr, List.cons_prefix_cons, List.cons_prefix_cons]
  exact ⟨fun h' => hne h'.1, fun h' => hne h'.1.symm⟩

/-- A scan passes over a text in which no trigger begins. -/
theorem dropAfter_append {w : List Char} (h : Apart t w) (p : Char → Bool) (s : List Char) :
    dropAfter t p (w ++ s) = w ++ dropAfter t p s := by
  induction w with
  | nil => rfl
  | cons c w ih =>
      have hstep : dropAfter t p (c :: (w ++ s)) = c :: dropAfter t p (w ++ s) :=
        dropAfter_cons (h.not_begins s) p
      rw [List.cons_append, hstep, ih h.tail, List.cons_append]

/-- A run of characters that no trigger begins with can be dropped before the scan. -/
theorem dropWhile_dropAfter {q : Char → Bool} (ht : t ≠ []) (hq : t.head?.any q = false)
    (p : Char → Bool) (s : List Char) :
    (dropAfter t p s).dropWhile q = dropAfter t p (s.dropWhile q) := by
  induction s with
  | nil => simp
  | cons c s ih =>
      by_cases hc : q c = true
      · have hn : ¬ t <+: c :: s := by
          obtain ⟨d, t, rfl⟩ := List.exists_cons_of_ne_nil ht
          intro h
          obtain ⟨rfl, -⟩ := List.cons_prefix_cons.1 h
          simp [hc] at hq
        rw [dropAfter_cons hn, List.dropWhile_cons_of_pos hc, List.dropWhile_cons_of_pos hc, ih]
      · rw [List.dropWhile_cons_of_neg hc]
        exact dropWhile_eq_self (by simpa using hc)

theorem length_dropWhile_lt (ht : t ≠ []) (s : List Char) :
    (s.dropWhile p).length < (t ++ s).length := by
  have hle : (s.dropWhile p).length ≤ s.length := (List.dropWhile_sublist p).length_le
  have hpos := List.length_pos_iff.2 ht
  rw [List.length_append]
  omega

/-- Scans for triggers apart can be exchanged, if no trigger begins with a counter character. -/
theorem dropAfter_comm (ht : t ≠ []) (ht' : t' ≠ []) (h : Apart t t') (h' : Apart t' t)
    (hp : t.head?.any p = false) (hp' : t'.head?.any p = false) (s : List Char) :
    dropAfter t p (dropAfter t' p s) = dropAfter t' p (dropAfter t p s) := by
  induction hn : s.length using Nat.strongRecOn generalizing s with
  | ind n ih =>
  subst hn
  by_cases hs' : t' <+: s
  · obtain ⟨r, rfl⟩ := hs'
    rw [dropAfter_trigger ht', dropAfter_append h, dropAfter_append h, dropAfter_trigger ht',
      dropWhile_dropAfter ht hp, ih _ (length_dropWhile_lt ht' r) _ rfl]
  by_cases hs : t <+: s
  · obtain ⟨r, rfl⟩ := hs
    rw [dropAfter_trigger ht, dropAfter_append h', dropAfter_append h', dropAfter_trigger ht,
      dropWhile_dropAfter ht' hp', ih _ (length_dropWhile_lt ht r) _ rfl]
  cases s with
  | nil => simp
  | cons c s =>
      have hfront : t <+: c :: dropAfter t' p s ↔ t <+: c :: s :=
        (sameFront_dropAfter t' p s).begins_iff (not_begins_of_not_inside (h'.not_inside ht') [c])
      have hfront' : t' <+: c :: dropAfter t p s ↔ t' <+: c :: s :=
        (sameFront_dropAfter t p s).begins_iff (not_begins_of_not_inside (h.not_inside ht) [c])
      rw [dropAfter_cons hs', dropAfter_cons hs, dropAfter_cons (mt hfront.1 hs),
        dropAfter_cons (mt hfront'.1 hs'), ih _ (by simp) _ rfl]

end counters

/-! ### Seams -/

section seams

variable {t a u : List Char} {p : Char → Bool}

/-- No occurrence of the trigger begins in the first text and ends in the second one. -/
def Cut (trigger a u : List Char) : Prop :=
  ∀ v, v <:+ a → v ≠ [] → trigger <+: v ++ u → trigger <+: v

theorem Cut.of_suffix {b : List Char} (h : Cut t a u) (hb : b <:+ a) : Cut t b u :=
  fun v hv => h v (hv.trans hb)

/-- A text in which nothing of the trigger but its first character could end makes a cut. -/
theorem cut_of_apart {w : List Char} (h : Apart w t.tail) (a s : List Char) : Cut t a (w ++ s) := by
  intro v _ hne hbegins
  rcases List.prefix_or_prefix_of_prefix hbegins (List.prefix_append v _) with hin | ⟨r, rfl⟩
  · exact hin
  rw [List.prefix_append_right_inj] at hbegins
  obtain ⟨c, v, rfl⟩ := List.exists_cons_of_ne_nil hne
  cases r with
  | nil => simp
  | cons d r =>
      obtain ⟨hr, hw⟩ := h v.length (by simp)
      rw [List.cons_append, List.tail_cons, List.drop_left] at hr hw
      rcases List.prefix_or_prefix_of_prefix hbegins (List.prefix_append w s) with h' | h'
      · exact absurd h' hr
      · exact absurd h' hw

theorem dropWhile_append_of_head? (hu : u.head?.any p = false) (s : List Char) :
    (s ++ u).dropWhile p = s.dropWhile p ++ u := by
  rw [List.dropWhile_append]
  split
  · rename_i hs
    rw [List.isEmpty_iff.1 hs, dropWhile_eq_self hu, List.nil_append]
  · rfl

/-- At a cut behind which no counter goes on the texts are scanned one by one. -/
theorem dropAfter_append_of_cut (hcut : Cut t a u) (hu : u.head?.any p = false) :
    dropAfter t p (a ++ u) = dropAfter t p a ++ dropAfter t p u := by
  fun_induction dropAfter t p a with
  | case1 => rfl
  | case2 c s h ih =>
      obtain ⟨r, hr⟩ := h.2
      rw [← hr, List.drop_left] at ih ⊢
      have hsuffix : r.dropWhile p <:+ c :: s :=
        (List.dropWhile_suffix p).trans (hr ▸ List.suffix_append t r)
      rw [List.append_assoc, dropAfter_trigger h.1, dropWhile_append_of_head? hu,
        ih (hcut.of_suffix hsuffix), List.append_assoc]
  | case3 c s h ih =>
      have hn : ¬ (t ≠ [] ∧ t <+: c :: (s ++ u)) := fun h' =>
        h ⟨h'.1, hcut (c :: s) (List.suffix_refl _) (List.cons_ne_nil c s) h'.2⟩
      rw [List.cons_append, dropAfter, if_neg hn, ih (hcut.of_suffix (List.suffix_cons c s)),
        List.cons_append]

end seams

end StackProfile.DisplayName
