import StackProfile.Proofs.Markers

/-! # Chains of generator tags

The simplification of dynamic class names can be cut in front of a marker: what comes before decides
what is kept of it, and whether the marker closes a tag, but not what becomes of the text from the
marker on.  The same holds in front of a text with a dot and without a dollar sign, since no tag is
closed beyond a dot.  So it is enough to know what becomes of a marker with a number or a tag behind
it, and chains of tags are folded however they are embedded.

Main lemmas: where a marker after two texts begins (`afterMarker?_append`), folding is cut in front
of markers and of texts with a dot (`exists_foldTags_append`), and so is the simplification
(`exists_dropDynamicNumbers_marker`, `exists_dropDynamicNumbers_dotted`); a chain of tags goes with
its number (`dropDynamicNumbers_chain`). -/

namespace StackProfile.DisplayName

variable {c : Char} {a r s t u w : List Char}

/-! ### Texts without dollar signs -/

theorem not_marker_begins_of_ne (h : '$' ≠ c) (s : List Char) : ¬ marker <+: c :: s :=
  fun h' => h (marker_prefix_cons.1 h').1.symm

theorem dropAfter_marker_append (h : '$' ∉ w) (p : Char → Bool) (s : List Char) :
    dropAfter marker p (w ++ s) = w ++ dropAfter marker p s := by
  have hapart : Apart marker w := apart_of_notMem h
  exact dropAfter_append hapart p s

theorem foldTags_append (h : '$' ∉ w) (s : List Char) : foldTags (w ++ s) = w ++ foldTags s := by
  induction w with
  | nil => rfl
  | cons c w ih =>
      rw [List.mem_cons, not_or] at h
      rw [List.cons_append, foldTags_cons (not_marker_begins_of_ne h.1 _), ih h.2, List.cons_append]

theorem dropDynamicNumbers_append (h : '$' ∉ w) (s : List Char) :
    dropDynamicNumbers (w ++ s) = w ++ dropDynamicNumbers s := by
  rw [dropDynamicNumbers, dropAfter_marker_append h, foldTags_append h, dropDynamicNumbers]

/-! ### Seams -/

/-- No single dollar sign is left at the end when the text is read from the left in markers. -/
def paired : List Char → Bool
  | [] => true
  | '$' :: '$' :: s => paired s
  | c :: s => (c != '$' || !s.isEmpty) && paired s

@[simp] theorem paired_nil : paired [] = true := by rw [paired]

@[simp] theorem paired_marker : paired ('$' :: '$' :: s) = paired s := by rw [paired]

theorem paired_cons (h : ¬ marker <+: c :: s) :
    paired (c :: s) = ((c != '$' || !s.isEmpty) && paired s) := by
  rw [paired]
  rintro t rfl rfl
  exact h ⟨t, rfl⟩

theorem paired_append (h : '$' ∉ w) (s : List Char) : paired (w ++ s) = paired s := by
  induction w with
  | nil => rfl
  | cons c w ih =>
      rw [List.mem_cons, not_or] at h
      have hc : (c != '$') = true := bne_iff_ne.2 (Ne.symm h.1)
      rw [List.cons_append, paired_cons (not_marker_begins_of_ne h.1 _), hc, ih h.2, Bool.true_or,
        Bool.true_and]

theorem paired_of_getLast? (h : s.getLast? ≠ some '$') : paired s = true := by
  induction s using paired.induct with
  | case1 => exact paired_nil
  | case2 s ih =>
      rw [paired_marker]
      refine ih fun h' => h ?_
      rw [List.getLast?_cons, List.getLast?_cons, h']
      rfl
  | case3 c s hn ih =>
      rw [paired_cons (not_marker_begins hn)]
      cases s with
      | nil => simpa using h
      | cons d s => simpa using ih (by simpa using h)

theorem paired_dropAfter (s : List Char) : paired (dropAfter marker isLowerHex s) = paired s := by
  fun_induction dropAfter marker isLowerHex s with
  | case1 => rfl
  | case2 c s h ih =>
      obtain ⟨r, hr⟩ := h.2
      have hdollar : '$' ∉ r.takeWhile isLowerHex := notMem_takeWhile (by decide) r
      rw [← hr, List.drop_left] at ih ⊢
      rw [marker, List.cons_append, List.cons_append, List.nil_append, paired_marker,
        List.cons_append, List.cons_append, List.nil_append, paired_marker, ← marker, ih,
        ← paired_append hdollar, List.takeWhile_append_dropWhile]
  | case3 c s h ih =>
      have hn : ¬ marker <+: c :: s := fun h' => h ⟨by simp [marker], h'⟩
      have hn' : ¬ marker <+: c :: dropAfter marker isLowerHex s :=
        not_marker_begins_of_head? (head?_dropAfter ..) hn
      have hempty : (dropAfter marker isLowerHex s).isEmpty = s.isEmpty := by
        rw [Bool.eq_iff_iff, List.isEmpty_iff, List.isEmpty_iff, ← List.head?_eq_none_iff,
          head?_dropAfter, List.head?_eq_none_iff]
      rw [paired_cons hn, paired_cons hn', hempty, ih]

/-- No marker begins in the first text and ends in the second one. -/
def Seam (a u : List Char) : Prop := paired a = true ∨ u.head? ≠ some '$'

namespace Seam

theorem of_marker (h : Seam ('$' :: '$' :: s) u) : Seam s u :=
  h.imp_left fun h => by rwa [paired_marker] at h

theorem tail (hn : ¬ marker <+: c :: s) (h : Seam (c :: s) u) : Seam s u := by
  refine h.imp_left fun h => ?_
  rw [paired_cons hn, Bool.and_eq_true] at h
  exact h.2

theorem not_begins (hn : ¬ marker <+: c :: s) (h : Seam (c :: s) u) :
    ¬ marker <+: c :: (s ++ u) := by
  cases s with
  | cons d s => simpa [marker_prefix_cons] using hn
  | nil =>
      rw [List.nil_append, marker_prefix_cons]
      rintro ⟨rfl, hu⟩
      rcases h with h | h
      · rw [paired_cons hn] at h
        exact absurd h (by decide)
      · exact h hu

theorem append_right (h : Seam a t) (ht : t ≠ []) (y : List Char) : Seam a (t ++ y) := by
  obtain ⟨d, t, rfl⟩ := List.exists_cons_of_ne_nil ht
  exact h

theorem afterMarker? (h : Seam w u) (hr : afterMarker? w = some r) : Seam r u := by
  fun_induction DisplayName.afterMarker? w with
  | case1 => simp at hr
  | case2 s =>
      obtain rfl := Option.some.inj hr
      exact h.of_marker
  | case3 => simp at hr
  | case4 c s hn _ ih => exact ih (h.tail (not_marker_begins hn)) hr

end Seam

/-- What follows the first marker of two texts: that of the first one, or else that of the second
one unless a dot comes before it. -/
theorem afterMarker?_append (h : Seam w u) :
    afterMarker? (w ++ u) =
      match afterMarker? w with
      | some r => some (r ++ u)
      | none => if '.' ∈ w then none else afterMarker? u := by
  fun_induction afterMarker? w with
  | case1 => simp
  | case2 s => rw [List.cons_append, List.cons_append, afterMarker?]
  | case3 s hn =>
      rw [List.cons_append, afterMarker?_cons (not_marker_begins_of_ne (by decide) _)]
      simp
  | case4 c s hn hc ih =>
      have hm := not_marker_begins hn
      have hdot : '.' ∈ c :: s ↔ '.' ∈ s := by simp [Ne.symm hc]
      rw [List.cons_append, afterMarker?_cons (h.not_begins hm), if_neg hc, ih (h.tail hm)]
      simp only [hdot]

theorem afterMarker?_append_of_notMem (h : '$' ∉ w) (u : List Char) :
    afterMarker? (w ++ u) = if '.' ∈ w then none else afterMarker? u := by
  induction w with
  | nil => simp
  | cons c w ih =>
      rw [List.mem_cons, not_or] at h
      rw [List.cons_append, afterMarker?_cons (not_marker_begins_of_ne h.1 _), ih h.2]
      by_cases hc : c = '.'
      · simp [hc]
      · have hdot : '.' ∈ c :: w ↔ '.' ∈ w := by simp [Ne.symm hc]
        simp only [if_neg hc, hdot]

/-! ### Cutting in front of markers and dots -/

/-- Behind the text no tag is closed that was opened before it, or it is a marker. -/
def Shields (t : List Char) : Prop := t = marker ∨ '$' ∉ t ∧ '.' ∈ t

theorem Shields.ne_nil (h : Shields t) : t ≠ [] := by
  rcases h with rfl | h
  · simp [marker]
  · exact List.ne_nil_of_mem h.2

theorem afterMarker?_shield (h : Shields t) :
    (t = marker ∧ ∀ y, afterMarker? (t ++ y) = some y) ∨ ∀ y, afterMarker? (t ++ y) = none := by
  rcases h with rfl | ⟨hdollar, hdot⟩
  · refine .inl ⟨rfl, fun y => ?_⟩
    rw [marker, List.cons_append, List.cons_append, afterMarker?, List.nil_append]
  · refine .inr fun y => ?_
    rw [afterMarker?_append_of_notMem hdollar, if_pos hdot]

/-- Whether a tag begins is decided in front of a marker and of a dot. -/
theorem startsWithTag_append (h : Shields t) (a y : List Char) :
    startsWithTag (a ++ (t ++ y)) = startsWithTag (a ++ t) := by
  have hout : ∀ tag ∈ generatorTags, ¬ a ++ t <+: tag := by
    intro tag hmem hin
    obtain ⟨hdollar, hdot⟩ := generatorTags_letters tag hmem
    rcases h with rfl | h
    · exact hdollar (hin.subset (by simp [marker]))
    · exact hdot (hin.subset (List.mem_append_right a h.2))
  have hbegins (tag : List Char) (hmem : tag ∈ generatorTags) :
      tag <+: a ++ (t ++ y) ↔ tag <+: a ++ t := by
    have hfront : a ++ t <+: a ++ t ++ y := List.prefix_append _ y
    rw [← List.append_assoc]
    refine ⟨fun h' => ?_, fun h' => h'.trans hfront⟩
    exact (List.prefix_or_prefix_of_prefix h' hfront).resolve_right (hout tag hmem)
  rw [Bool.eq_iff_iff, startsWithTag, startsWithTag, List.any_eq_true, List.any_eq_true]
  simp only [List.isPrefixOf_iff_prefix]
  exact exists_congr fun tag => and_congr_right (hbegins tag)

/-- Whatever follows it, the text has a tag closed within it, or a tag that the marker behind it
closes, or no tag. -/
theorem afterTag?_append_cases (hs : Seam a t) (ht : Shields t) :
    (∃ r, r.length < a.length ∧ Seam r t ∧ ∀ y, afterTag? (a ++ (t ++ y)) = some (r ++ (t ++ y))) ∨
      (t = marker ∧ ∀ y, afterTag? (a ++ (t ++ y)) = some y) ∨
      ∀ y, afterTag? (a ++ (t ++ y)) = none := by
  have hseam (y : List Char) : Seam a (t ++ y) := hs.append_right ht.ne_nil y
  have htag (y : List Char) : afterTag? (a ++ (t ++ y)) =
      if startsWithTag (a ++ t) then afterMarker? (a ++ (t ++ y)) else none := by
    rw [afterTag?, startsWithTag_append ht]
  cases hstarts : startsWithTag (a ++ t) with
  | false => exact .inr (.inr fun y => by rw [htag, hstarts]; rfl)
  | true =>
      simp only [htag, hstarts, if_true]
      cases ha : afterMarker? a with
      | some r =>
          refine .inl ⟨r, length_afterMarker? ha, hs.afterMarker? ha, fun y => ?_⟩
          rw [afterMarker?_append (hseam y), ha]
      | none =>
          by_cases hdot : '.' ∈ a
          · refine .inr (.inr fun y => ?_)
            rw [afterMarker?_append (hseam y), ha]
            exact if_pos hdot
          · have hon (y : List Char) : afterMarker? (a ++ (t ++ y)) = afterMarker? (t ++ y) := by
              rw [afterMarker?_append (hseam y), ha]
              exact if_neg hdot
            simp only [hon]
            exact .inr (afterMarker?_shield ht)

/-- What folding keeps of a text does not depend on what follows the marker or the dot behind it. -/
theorem exists_foldTags_append (hs : Seam a t) (ht : Shields t) :
    ∃ b, ∀ y, foldTags (a ++ (t ++ y)) = b ++ foldTags (t ++ y) := by
  induction hn : a.length using Nat.strongRecOn generalizing a with
  | ind n ih =>
  subst hn
  by_cases hm : marker <+: a
  · obtain ⟨a, rfl⟩ := hm
    change ∃ b, ∀ y, foldTags ('$' :: '$' :: (a ++ (t ++ y))) = b ++ foldTags (t ++ y)
    change Seam ('$' :: '$' :: a) t at hs
    have hlen : (marker ++ a).length = a.length + 2 := by simp [marker]
    have hcases := afterTag?_append_cases hs.of_marker ht
    rcases hcases with ⟨r, hr, hrs, hclosed⟩ | ⟨rfl, hclosed⟩ | hnone
    · -- The tag is closed within the text, which gets shorter.
      have hseam : Seam ('$' :: '$' :: r) t := hrs.imp_left fun h => by rwa [paired_marker]
      obtain ⟨b, hb⟩ := ih _ (by simp only [List.length_cons]; omega) hseam rfl
      exact ⟨b, fun y => by rw [foldTags_tag (hclosed y)]; exact hb y⟩
    · exact ⟨[], fun y => by rw [foldTags_tag (hclosed y)]; rfl⟩
    · obtain ⟨b, hb⟩ := ih a.length (by omega) hs.of_marker rfl
      exact ⟨'$' :: '$' :: b, fun y => by rw [foldTags_marker (hnone y), hb]; rfl⟩
  · cases a with
    | nil => exact ⟨[], fun y => rfl⟩
    | cons c a =>
        obtain ⟨b, hb⟩ := ih a.length (by simp) (hs.tail hm) rfl
        refine ⟨c :: b, fun y => ?_⟩
        have hn := (hs.append_right ht.ne_nil y).not_begins hm
        rw [List.cons_append, foldTags_cons hn, hb, List.cons_append]

theorem cut_marker (h : a.getLast? ≠ some '$' ∨ u.head? ≠ some '$') : Cut marker a u := by
  intro v hv hne hbegins
  match v with
  | [] => exact absurd rfl hne
  | [c] =>
      obtain ⟨rfl, hu⟩ := marker_prefix_cons.1 hbegins
      obtain ⟨b, rfl⟩ := hv
      exact h.elim (fun h => absurd (by simp) h) (fun h => absurd hu h)
  | c :: d :: v =>
      obtain ⟨hc, hd⟩ := marker_prefix_cons.1 hbegins
      exact marker_prefix_cons.2 ⟨hc, hd⟩

theorem dropDynamicNumbers_marker (s : List Char) :
    dropDynamicNumbers (marker ++ s) =
      foldTags (marker ++ dropAfter marker isLowerHex (s.dropWhile isLowerHex)) := by
  rw [dropDynamicNumbers, dropAfter_trigger (by simp [marker])]

/-- Behind a text that does not end in a dollar sign a marker and what follows it are simplified on
their own. -/
theorem exists_dropDynamicNumbers_marker (h : a.getLast? ≠ some '$') :
    ∃ b, ∀ y, dropDynamicNumbers (a ++ (marker ++ y)) = b ++ dropDynamicNumbers (marker ++ y) := by
  have hseam : Seam (dropAfter marker isLowerHex a) marker :=
    .inl (by rw [paired_dropAfter, paired_of_getLast? h])
  obtain ⟨b, hb⟩ := exists_foldTags_append hseam (.inl rfl)
  refine ⟨b, fun y => ?_⟩
  have hhead : (marker ++ y).head?.any isLowerHex = false := rfl
  rw [dropDynamicNumbers_marker, ← hb, dropDynamicNumbers,
    dropAfter_append_of_cut (cut_marker (.inl h)) hhead, dropAfter_trigger (by simp [marker])]

/-- A text with a dot and without a dollar sign is kept, and what follows it is simplified on its
own. -/
theorem exists_dropDynamicNumbers_dotted (hdollar : '$' ∉ t) (hdot : '.' ∈ t)
    (hhex : t.head?.any isLowerHex = false) (a : List Char) :
    ∃ b, ∀ y, dropDynamicNumbers (a ++ (t ++ y)) = b ++ (t ++ dropDynamicNumbers y) := by
  obtain ⟨d, t, rfl⟩ := List.exists_cons_of_ne_nil (List.ne_nil_of_mem hdot)
  have hhead (y : List Char) : (d :: t ++ y).head? ≠ some '$' := fun h =>
    hdollar (Option.some.inj h ▸ List.mem_cons_self)
  have hseam : Seam (dropAfter marker isLowerHex a) (d :: t) := .inr (by simpa using hhead [])
  obtain ⟨b, hb⟩ := exists_foldTags_append hseam (.inr ⟨hdollar, hdot⟩)
  refine ⟨b, fun y => ?_⟩
  rw [dropDynamicNumbers, dropAfter_append_of_cut (cut_marker (.inr (hhead y))) hhex,
    dropAfter_marker_append hdollar, hb, foldTags_append hdollar, dropDynamicNumbers]

/-! ### Numbers and tags behind a marker -/

/-- A marker drops the number behind it. -/
theorem dropDynamicNumbers_marker_hex {h : List Char} (hh : ∀ c ∈ h, isLowerHex c = true)
    (s : List Char) :
    dropDynamicNumbers (marker ++ (h ++ s)) = dropDynamicNumbers (marker ++ s) := by
  rw [dropDynamicNumbers_marker, dropDynamicNumbers_marker, List.dropWhile_append_of_pos hh]

/-- A generator tag and what stands between it and the marker that closes it. -/
structure Link where
  tag : List Char
  name : List Char
  tag_mem : tag ∈ generatorTags
  dollar_notMem : '$' ∉ name
  dot_notMem : '.' ∉ name

namespace Link

/-- The tag with its closing marker. -/
def text (l : Link) : List Char := l.tag ++ l.name ++ marker

theorem notMem (l : Link) : '$' ∉ l.tag ++ l.name ∧ '.' ∉ l.tag ++ l.name := by
  obtain ⟨hdollar, hdot⟩ := generatorTags_letters l.tag l.tag_mem
  exact ⟨by simp [hdollar, l.dollar_notMem], by simp [hdot, l.dot_notMem]⟩

theorem afterTag?_append (l : Link) (s : List Char) : afterTag? (l.text ++ s) = some s := by
  have hstarts : startsWithTag (l.text ++ s) = true := by
    rw [startsWithTag, List.any_eq_true]
    refine ⟨l.tag, l.tag_mem, ?_⟩
    rw [text, List.isPrefixOf_iff_prefix, List.append_assoc, List.append_assoc]
    exact List.prefix_append _ _
  rw [afterTag?, if_pos hstarts, text, List.append_assoc, afterMarker?_append_of_notMem l.notMem.1,
    if_neg l.notMem.2, marker, List.cons_append, List.cons_append, afterMarker?, List.nil_append]

/-- No number stands behind the marker before a tag. -/
theorem head?_text (l : Link) (s : List Char) : (l.text ++ s).head?.any isLowerHex = false := by
  rcases head?_of_mem_generatorTags l.tag l.tag_mem with h | h
  all_goals
    obtain ⟨r, hr⟩ := List.head?_eq_some_iff.1 h
    rw [text, hr]
    rfl

end Link

/-- A marker drops the tag behind it with its closing marker. -/
theorem dropDynamicNumbers_marker_link (l : Link) (s : List Char) :
    dropDynamicNumbers (marker ++ (l.text ++ s)) = dropDynamicNumbers (marker ++ s) := by
  have hscan : dropAfter marker isLowerHex (l.text ++ s) =
      l.text ++ dropAfter marker isLowerHex (s.dropWhile isLowerHex) := by
    rw [Link.text, List.append_assoc, dropAfter_marker_append l.notMem.1,
      dropAfter_trigger (by simp [marker]), List.append_assoc (l.tag ++ l.name)]
  rw [dropDynamicNumbers_marker, dropDynamicNumbers_marker, dropWhile_eq_self (l.head?_text s),
    hscan]
  exact foldTags_tag (l.afterTag?_append _)

/-- Tags with their closing markers, one behind the other. -/
def chain (ls : List Link) : List Char := ls.flatMap Link.text

theorem dropDynamicNumbers_marker_chain (ls : List Link) (s : List Char) :
    dropDynamicNumbers (marker ++ (chain ls ++ s)) = dropDynamicNumbers (marker ++ s) := by
  induction ls with
  | nil => rfl
  | cons l ls ih =>
      have hchain : chain (l :: ls) ++ s = l.text ++ (chain ls ++ s) := by
        rw [chain, List.flatMap_cons, List.append_assoc, chain]
      rw [hchain, dropDynamicNumbers_marker_link, ih]

/-- A chain of tags and the number behind it leave no trace between a marker in front of them,
whatever precedes that, and any text behind them. -/
theorem dropDynamicNumbers_chain {p : List Char} (hp : p.getLast? ≠ some '$') (ls : List Link)
    {h : List Char} (hh : ∀ c ∈ h, isLowerHex c = true) (s : List Char) :
    dropDynamicNumbers (p ++ marker ++ chain ls ++ h ++ s) =
      dropDynamicNumbers (p ++ marker ++ s) := by
  obtain ⟨b, hb⟩ := exists_dropDynamicNumbers_marker hp
  simp only [List.append_assoc, hb]
  rw [dropDynamicNumbers_marker_chain, dropDynamicNumbers_marker_hex hh]

/-- The text in front has a tag itself, which the first marker closes. -/
theorem dropDynamicNumbers_chain_swallowed :
    let p := "$$EnhancerByQ$x".toList
    let ls : List Link :=
      [⟨"FastClassBy".toList, "CGLIB".toList, by decide, by decide +kernel, by decide +kernel⟩,
        ⟨"EnhancedBy".toList, [], by decide, by decide, by decide⟩]
    let h := "ab12".toList
    let s := "3$1.f".toList
    (p.getLast? ≠ some '$' ∧ ∀ c ∈ h, isLowerHex c = true) ∧
      p ++ marker ++ chain ls ++ h ++ s =
        "$$EnhancerByQ$x$$FastClassByCGLIB$$EnhancedBy$$ab123$1.f".toList ∧
      dropDynamicNumbers (p ++ marker ++ chain ls ++ h ++ s) = "$$$1.f".toList := by
  intro p ls h s
  have hp : p.getLast? ≠ some '$' := by decide +kernel
  have hh : ∀ c ∈ h, isLowerHex c = true := List.all_eq_true.1 (by decide +kernel)
  refine ⟨⟨hp, hh⟩, by decide +kernel, ?_⟩
  rw [dropDynamicNumbers_chain hp ls hh s]
  decide +kernel

end StackProfile.DisplayName
