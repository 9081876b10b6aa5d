import StackProfile.Proofs.Scans

/-! # Markers that nothing is dropped behind

The simplification of dynamic class names (`dropDynamicNumbers`) reads the markers of a text from
the left and drops what stands behind them: the hexadecimal number, and a generator tag with its
closing marker.  A text is settled (`settled`) if none of its markers has such a thing behind it.

Main lemmas: the simplification leaves a settled text (`settled_dropDynamicNumbers`), it keeps the
settled ones and no other (`dropDynamicNumbers_eq_self_iff`), and a scan for a trigger with a dot
and without a dollar sign does not change whether a text is settled (`settled_dropAfter`). -/

namespace StackProfile.DisplayName

/-! ### Conditions on every marker -/

/-- The condition holds for what follows each marker.  A dollar sign belongs to one marker only. -/
def everyMarker (q : List Char → Bool) : List Char → Bool
  | [] => true
  | '$' :: '$' :: s => q s && everyMarker q s
  | _ :: s => everyMarker q s

section everyMarker

variable {q : List Char → Bool} {c : Char} {s w : List Char}

@[simp] theorem everyMarker_nil : everyMarker q [] = true := by rw [everyMarker]

@[simp] theorem everyMarker_marker :
    everyMarker q ('$' :: '$' :: s) = (q s && everyMarker q s) := by rw [everyMarker]

theorem everyMarker_cons (h : ¬ marker <+: c :: s) : everyMarker q (c :: s) = everyMarker q s := by
  rw [everyMarker]
  rintro t rfl rfl
  exact h ⟨t, rfl⟩

theorem marker_prefix_cons : marker <+: c :: s ↔ c = '$' ∧ s.head? = some '$' := by
  rw [marker, List.cons_prefix_cons]
  cases s with
  | nil => simp
  | cons d s =>
      rw [List.cons_prefix_cons, List.head?_cons, Option.some.injEq]
      constructor
      · rintro ⟨rfl, rfl, -⟩
        exact ⟨rfl, rfl⟩
      · rintro ⟨rfl, rfl⟩
        exact ⟨rfl, rfl, List.nil_prefix⟩

/-- Whether a marker begins shows in the first character behind. -/
theorem not_marker_begins_of_head? {t : List Char} (h : t.head? = s.head?)
    (hm : ¬ marker <+: c :: s) : ¬ marker <+: c :: t := by
  rwa [marker_prefix_cons, h, ← marker_prefix_cons]

theorem not_marker_begins (h : ∀ r, c = '$' → s = '$' :: r → False) : ¬ marker <+: c :: s := by
  rintro ⟨r, hr⟩
  obtain ⟨rfl, rfl⟩ := List.cons.inj hr
  exact h r rfl rfl

theorem everyMarker_append (h : '$' ∉ w) : everyMarker q (w ++ s) = everyMarker q s := by
  induction w with
  | nil => rfl
  | cons c w ih =>
      rw [List.mem_cons, not_or] at h
      have hn : ¬ marker <+: c :: (w ++ s) := fun h' => h.1 (marker_prefix_cons.1 h').1.symm
      rw [List.cons_append, everyMarker_cons hn, ih h.2]

end everyMarker

/-! ### What is dropped behind a marker -/

/-- A number or a generator tag begins the text, so that a marker before it drops something. -/
def droppable (s : List Char) : Bool := s.head?.any isLowerHex || (afterTag? s).isSome

/-- No marker drops anything. -/
def settled (s : List Char) : Bool := everyMarker (fun t => !droppable t) s

/-- No marker drops a number. -/
def numberless (s : List Char) : Bool := everyMarker (fun t => !t.head?.any isLowerHex) s

section settled

variable {c : Char} {s w : List Char}

theorem settled_marker : settled ('$' :: '$' :: s) = (!droppable s && settled s) :=
  everyMarker_marker

theorem settled_cons (h : ¬ marker <+: c :: s) : settled (c :: s) = settled s := everyMarker_cons h

theorem settled_append (h : '$' ∉ w) : settled (w ++ s) = settled s := everyMarker_append h

end settled

theorem afterMarker?_cons {c : Char} {s : List Char} (h : ¬ marker <+: c :: s) :
    afterMarker? (c :: s) = if c = '.' then none else afterMarker? s := by
  rw [afterMarker?]
  rintro t rfl rfl
  exact h ⟨t, rfl⟩

/-- A marker or a dot in the front of a text decides whether a marker comes first. -/
theorem isSome_afterMarker?_append {a : List Char} (h : marker <:+: a ∨ '.' ∈ a)
    (b b' : List Char) :
    (afterMarker? (a ++ b)).isSome = (afterMarker? (a ++ b')).isSome := by
  fun_induction afterMarker? a with
  | case1 => simp [marker] at h
  | case2 s => simp [afterMarker?]
  | case3 s hs =>
      have hn (x : List Char) : ¬ marker <+: '.' :: (s ++ x) := by simp [marker_prefix_cons]
      rw [List.cons_append, List.cons_append, afterMarker?_cons (hn b), afterMarker?_cons (hn b'),
        if_pos rfl, if_pos rfl]
  | case4 c s hs hc ih =>
      have hm : ¬ marker <+: c :: s := not_marker_begins hs
      have hrest : marker <:+: s ∨ '.' ∈ s := by
        rcases h with h | h
        · rcases List.infix_cons_iff.1 h with h | h
          · exact absurd h hm
          · exact .inl h
        · rcases List.mem_cons.1 h with h | h
          · exact absurd h.symm hc
          · exact .inr h
      -- The next character is one of the front, so no marker begins with what comes behind it.
      have hn (x : List Char) : ¬ marker <+: c :: (s ++ x) := by
        cases s with
        | nil => simp [marker] at hrest
        | cons d s => simpa [marker_prefix_cons] using hm
      rw [List.cons_append, List.cons_append, afterMarker?_cons (hn b), afterMarker?_cons (hn b'),
        if_neg hc, if_neg hc, ih hrest]

theorem generatorTags_letters : ∀ tag ∈ generatorTags, '$' ∉ tag ∧ '.' ∉ tag := by
  simp [generatorTags]

theorem head?_of_mem_generatorTags :
    ∀ tag ∈ generatorTags, tag.head? = some 'F' ∨ tag.head? = some 'E' := by
  simp [generatorTags]

/-- Nothing is dropped in front of a character that begins neither a number nor a tag. -/
theorem droppable_cons {c : Char} (hhex : isLowerHex c = false) (hF : c ≠ 'F') (hE : c ≠ 'E')
    (s : List Char) : droppable (c :: s) = false := by
  have hstarts : startsWithTag (c :: s) = false := by
    rw [startsWithTag, List.any_eq_false]
    intro tag hmem hbegins
    rw [List.isPrefixOf_iff_prefix] at hbegins
    rcases head?_of_mem_generatorTags tag hmem with h | h
    all_goals
      obtain ⟨tag, rfl⟩ := List.head?_eq_some_iff.1 h
      have hc := (List.cons_prefix_cons.1 hbegins).1
    · exact hF hc.symm
    · exact hE hc.symm
  rw [droppable, afterTag?, hstarts, List.head?_cons, Option.any_some, hhex]
  rfl

theorem droppable_dollar (s : List Char) : droppable ('$' :: s) = false :=
  droppable_cons (by decide) (by decide) (by decide) s

/-- Whether a tag begins is decided by a front that does not fit into a tag. -/
theorem startsWithTag_sameFront {t s s' : List Char} (hs : SameFront t s s')
    (htag : ∀ tag ∈ generatorTags, ¬ t <:+: tag) : startsWithTag s' = startsWithTag s := by
  rw [Bool.eq_iff_iff, startsWithTag, startsWithTag, List.any_eq_true, List.any_eq_true]
  simp only [List.isPrefixOf_iff_prefix]
  have hbegins (tag : List Char) (hmem : tag ∈ generatorTags) : tag <+: s' ↔ tag <+: s :=
    hs.begins_iff (not_begins_of_not_inside (htag tag hmem) [])
  constructor
  · rintro ⟨tag, hmem, h⟩
    exact ⟨tag, hmem, (hbegins tag hmem).1 h⟩
  · rintro ⟨tag, hmem, h⟩
    exact ⟨tag, hmem, (hbegins tag hmem).2 h⟩

/-- What is dropped behind a marker is decided by a front with a marker or a dot in it. -/
theorem droppable_sameFront {t s s' : List Char} (hs : SameFront t s s')
    (hdecides : marker <:+: t ∨ '.' ∈ t) (htag : ∀ tag ∈ generatorTags, ¬ t <:+: tag) :
    droppable s' = droppable s := by
  have ht : t ≠ [] := by
    rintro rfl
    simp [marker] at hdecides
  have hstarts : startsWithTag s' = startsWithTag s := startsWithTag_sameFront hs htag
  have hmarker : (afterMarker? s').isSome = (afterMarker? s).isSome := by
    rcases hs with rfl | ⟨a, b, b', rfl, rfl⟩
    · rfl
    · refine isSome_afterMarker?_append ?_ b' b
      rcases hdecides with h | h
      · exact .inl (h.trans (List.suffix_append a t).isInfix)
      · exact .inr (List.mem_append_right a h)
  have htags : (afterTag? s').isSome = (afterTag? s).isSome := by
    rw [afterTag?, afterTag?, hstarts]
    split
    · exact hmarker
    · rfl
  rw [droppable, droppable, hs.head? ht, htags]

theorem not_marker_inside_tag : ∀ tag ∈ generatorTags, ¬ marker <:+: tag := by
  intro tag hmem h
  exact (generatorTags_letters tag hmem).1 (h.subset (by simp [marker]))

/-- A front with a marker in it decides what is dropped. -/
theorem droppable_sameFront_marker {s s' : List Char} (hs : SameFront marker s s') :
    droppable s' = droppable s :=
  droppable_sameFront hs (.inl (List.infix_refl marker)) not_marker_inside_tag

/-! ### Dynamic classes -/

theorem exists_foldTags_marker (s : List Char) :
    ∃ r, foldTags ('$' :: '$' :: s) = '$' :: '$' :: r := by
  induction hn : s.length using Nat.strongRecOn generalizing s with
  | ind n ih =>
  subst hn
  cases h : afterTag? s with
  | none => exact ⟨_, foldTags_marker h⟩
  | some r =>
      rw [foldTags_tag h]
      exact ih _ (length_afterTag? h) r rfl

theorem sameFront_foldTags (s : List Char) : SameFront marker s (foldTags s) := by
  fun_induction foldTags s with
  | case1 => exact .refl marker []
  | case2 s r h _ =>
      obtain ⟨r', hr'⟩ := exists_foldTags_marker r
      exact .inr ⟨[], s, r', rfl, hr'⟩
  | case3 s _ ih => exact ih.append_left ['$', '$']
  | case4 c s _ ih => exact ih.append_left [c]

theorem sublist_of_afterMarker? {s r : List Char} (h : afterMarker? s = some r) : r.Sublist s := by
  fun_induction afterMarker? s with
  | case1 => simp at h
  | case2 s =>
      obtain rfl := Option.some.inj h
      exact ((List.Sublist.refl s).cons '$').cons '$'
  | case3 => simp at h
  | case4 c s _ _ ih => exact (ih h).cons c

theorem foldTags_sublist (s : List Char) : (foldTags s).Sublist s := by
  fun_induction foldTags s with
  | case1 => exact List.Sublist.refl []
  | case2 s r h ih =>
      rw [afterTag?] at h
      split at h
      · exact ih.trans (((sublist_of_afterMarker? h).cons_cons '$').cons_cons '$')
      · simp at h
  | case3 s _ ih => exact (ih.cons_cons '$').cons_cons '$'
  | case4 c s _ ih => exact ih.cons_cons c

theorem dropDynamicNumbers_sublist (s : List Char) : (dropDynamicNumbers s).Sublist s :=
  (foldTags_sublist _).trans (dropAfter_sublist marker isLowerHex s)

/-- Behind a marker the text of a numberless one goes on without a number. -/
theorem numberless_afterMarker? {s r : List Char} (h : afterMarker? s = some r)
    (hs : numberless s = true) : numberless ('$' :: '$' :: r) = true := by
  fun_induction afterMarker? s with
  | case1 => simp at h
  | case2 s =>
      obtain rfl := Option.some.inj h
      exact hs
  | case3 => simp at h
  | case4 c s hn _ ih =>
      have hm : ¬ marker <+: c :: s := not_marker_begins hn
      rw [numberless, everyMarker_cons hm] at hs
      exact ih h hs

theorem numberless_dropAfter (s : List Char) :
    numberless (dropAfter marker isLowerHex s) = true := by
  fun_induction dropAfter marker isLowerHex s with
  | case1 => exact everyMarker_nil
  | case2 c s h ih =>
      rw [numberless, marker, List.cons_append, List.cons_append, List.nil_append,
        everyMarker_marker, head?_dropAfter, head?_dropWhile_any]
      exact ih
  | case3 c s h ih =>
      have hm : ¬ marker <+: c :: dropAfter marker isLowerHex s :=
        not_marker_begins_of_head? (head?_dropAfter ..) fun h' => h ⟨by simp [marker], h'⟩
      rw [numberless, everyMarker_cons hm]
      exact ih

theorem settled_foldTags {s : List Char} (h : numberless s = true) :
    settled (foldTags s) = true := by
  fun_induction foldTags s with
  | case1 => exact everyMarker_nil
  | case2 s r htag ih =>
      rw [numberless, everyMarker_marker, Bool.and_eq_true] at h
      rw [afterTag?] at htag
      split at htag
      · exact ih (numberless_afterMarker? htag h.2)
      · simp at htag
  | case3 s htag ih =>
      rw [numberless, everyMarker_marker, Bool.and_eq_true] at h
      have hkept : droppable (foldTags s) = droppable s :=
        droppable_sameFront_marker (sameFront_foldTags s)
      have hhead : s.head?.any isLowerHex = false := by simpa using h.1
      have hs : droppable s = false := by rw [droppable, hhead, htag]; rfl
      rw [settled_marker, hkept, hs]
      exact ih h.2
  | case4 c s hn ih =>
      have hm := not_marker_begins hn
      have hhead : (foldTags s).head? = s.head? := (sameFront_foldTags s).head? (by simp [marker])
      have hm' : ¬ marker <+: c :: foldTags s := not_marker_begins_of_head? hhead hm
      rw [numberless, everyMarker_cons hm] at h
      rw [settled_cons hm']
      exact ih h

/-- The simplification leaves no marker that it would drop something behind. -/
theorem settled_dropDynamicNumbers (s : List Char) : settled (dropDynamicNumbers s) = true :=
  settled_foldTags (numberless_dropAfter s)

theorem dropAfter_of_settled {s : List Char} (h : settled s = true) :
    dropAfter marker isLowerHex s = s := by
  induction s using everyMarker.induct with
  | case1 => exact dropAfter_nil _ _
  | case2 s ih =>
      rw [settled_marker, Bool.and_eq_true] at h
      have hhead : s.head?.any isLowerHex = false := by
        have hd : droppable s = false := by simpa using h.1
        exact (Bool.or_eq_false_iff.1 hd).1
      have hscan : dropAfter marker isLowerHex (marker ++ s) =
          marker ++ dropAfter marker isLowerHex (s.dropWhile isLowerHex) :=
        dropAfter_trigger (by simp [marker]) isLowerHex s
      rw [dropWhile_eq_self hhead, ih h.2] at hscan
      exact hscan
  | case3 c s hn ih =>
      have hm := not_marker_begins hn
      rw [settled_cons hm] at h
      rw [dropAfter_cons hm, ih h]

theorem foldTags_of_settled {s : List Char} (h : settled s = true) : foldTags s = s := by
  induction s using everyMarker.induct with
  | case1 => exact foldTags_nil
  | case2 s ih =>
      rw [settled_marker, Bool.and_eq_true] at h
      have htag : afterTag? s = none := by
        have hd : droppable s = false := by simpa using h.1
        simpa using (Bool.or_eq_false_iff.1 hd).2
      rw [foldTags_marker htag, ih h.2]
  | case3 c s hn ih =>
      have hm := not_marker_begins hn
      rw [settled_cons hm] at h
      rw [foldTags_cons hm, ih h]

/-- The simplification of dynamic class names keeps the settled texts and no other. -/
theorem dropDynamicNumbers_eq_self_iff {s : List Char} :
    dropDynamicNumbers s = s ↔ settled s = true := by
  constructor
  · intro h
    rw [← h]
    exact settled_dropDynamicNumbers s
  · intro h
    rw [dropDynamicNumbers, dropAfter_of_settled h, foldTags_of_settled h]

/-! ### Scans for other triggers -/

theorem notMem_takeWhile {p : Char → Bool} {c : Char} (hp : p c = false) (s : List Char) :
    c ∉ s.takeWhile p := by
  intro h
  have hall := List.all_eq_true.1 List.all_takeWhile c h
  rw [hp] at hall
  exact Bool.false_ne_true hall

theorem settled_dropWhile {p : Char → Bool} (hp : p '$' = false) (s : List Char) :
    settled (s.dropWhile p) = settled s :=
  calc settled (s.dropWhile p)
      = settled (s.takeWhile p ++ s.dropWhile p) := (settled_append (notMem_takeWhile hp s)).symm
    _ = settled s := by rw [List.takeWhile_append_dropWhile]

/-- A scan for a trigger with a dot and without a dollar sign neither settles nor unsettles. -/
theorem settled_dropAfter {t : List Char} {p : Char → Bool} (hdot : '.' ∈ t) (hdollar : '$' ∉ t)
    (hp : p '$' = false) (s : List Char) : settled (dropAfter t p s) = settled s := by
  have ht : t ≠ [] := List.ne_nil_of_mem hdot
  induction hn : s.length using Nat.strongRecOn generalizing s with
  | ind n ih =>
  subst hn
  by_cases hs : t <+: s
  · obtain ⟨r, rfl⟩ := hs
    have hrest := ih _ (length_dropWhile_lt ht r) (r.dropWhile p) rfl
    rw [dropAfter_trigger ht, settled_append hdollar, settled_append hdollar, hrest,
      settled_dropWhile hp]
  cases s with
  | nil => simp
  | cons c s =>
  by_cases hm : marker <+: c :: s
  · obtain ⟨r, hr⟩ := hm
    obtain ⟨rfl, rfl⟩ := List.cons.inj hr
    have hscan (x : List Char) : dropAfter t p ('$' :: x) = '$' :: dropAfter t p x := by
      refine dropAfter_cons ?_ p
      intro h
      obtain ⟨d, t, rfl⟩ := List.exists_cons_of_ne_nil ht
      exact hdollar ((List.cons_prefix_cons.1 h).1 ▸ List.mem_cons_self)
    have hkept : droppable (dropAfter t p r) = droppable r := by
      refine droppable_sameFront (sameFront_dropAfter t p r) (.inr hdot) ?_
      intro tag hmem h
      exact (generatorTags_letters tag hmem).2 (h.subset hdot)
    have hlt : r.length < ('$' :: '$' :: r).length := by
      rw [List.length_cons, List.length_cons]
      omega
    have hrest := ih r.length hlt r rfl
    show settled (dropAfter t p ('$' :: '$' :: r)) = settled ('$' :: '$' :: r)
    rw [hscan, hscan, settled_marker, settled_marker, hkept, hrest]
  · have hm' : ¬ marker <+: c :: dropAfter t p s :=
      not_marker_begins_of_head? (head?_dropAfter ..) hm
    have hrest := ih s.length (by simp) s rfl
    rw [dropAfter_cons hs, settled_cons hm', settled_cons hm, hrest]

end StackProfile.DisplayName
