import StackProfile.Proofs.EqualCounters

/-! # What simplification leaves

The simplification of dynamic class names reads a run of dollar signs from the left in markers.  So
no number is left behind a run of even length, but one can stand behind a run of odd length, whose
last dollar sign belongs to no marker.  Whether a name keeps such a run is seen when it is read
once: a marker uncovers what stands behind the numbers and tags that it drops (`uncovered`), and
this must not be a single dollar sign with a number (`exposes`).

Main lemmas: a marker keeps what it uncovers (`dropDynamicNumbers_marker_uncovered`), a number
behind two dollar signs stands behind a run of odd length, and there is one exactly if the name
exposes it (`hex_behind_dollars`); each simplification is idempotent
(`simplifications_idempotent`). -/

namespace StackProfile.DisplayName

variable {c : Char} {s : List Char}

/-! ### Numbers behind settled dollar signs -/

/-- No hexadecimal digit stands behind two dollar signs, wherever they are in their run. -/
def Bare (s : List Char) : Prop :=
  ∀ a c r, s = a ++ marker ++ c :: r → isLowerHex c = false

/-- A dollar sign begins the text, and a hexadecimal digit stands behind it. -/
def hexBehindDollar : List Char → Bool
  | '$' :: s => s.head?.any isLowerHex
  | _ => false

theorem exists_of_hexBehindDollar (h : hexBehindDollar s = true) :
    ∃ c r, s = '$' :: c :: r ∧ isLowerHex c = true := by
  revert h
  fun_cases hexBehindDollar s with
  | case1 s =>
      intro h
      cases s with
      | nil => nomatch h
      | cons c r => exact ⟨c, r, rfl, h⟩
  | case2 => exact fun h => absurd h Bool.false_ne_true

/-- Two dollar signs in a text that a marker begins are those of the marker, the second of them with
the next one, or two behind it. -/
theorem occurrence_of_marker {a r : List Char} {d : Char}
    (he : '$' :: '$' :: s = a ++ marker ++ d :: r) :
    (a = [] ∧ s = d :: r) ∨ (a = ['$'] ∧ s = '$' :: d :: r) ∨
      ∃ a', a = '$' :: '$' :: a' ∧ s = a' ++ marker ++ d :: r := by
  cases a with
  | nil => exact .inl ⟨rfl, by simpa [marker] using he⟩
  | cons x a =>
      obtain ⟨rfl, hx⟩ := List.cons.inj he
      cases a with
      | nil => exact .inr (.inl ⟨rfl, by simpa [marker] using hx⟩)
      | cons y a =>
          obtain ⟨rfl, hs⟩ := List.cons.inj hx
          exact .inr (.inr ⟨a, rfl, hs⟩)

theorem occurrence_of_cons (h : ¬ marker <+: c :: s) {a r : List Char} {d : Char}
    (he : c :: s = a ++ marker ++ d :: r) : ∃ a', a = c :: a' ∧ s = a' ++ marker ++ d :: r := by
  cases a with
  | nil => exact absurd ⟨d :: r, he.symm⟩ h
  | cons x a =>
      obtain ⟨rfl, hs⟩ := List.cons.inj he
      exact ⟨a, rfl, hs⟩

theorem isLowerHex_of_not_droppable (h : droppable (c :: s) = false) : isLowerHex c = false :=
  (Bool.or_eq_false_iff.1 h).1

/-- A number behind two dollar signs of a settled text stands behind a run of odd length. -/
theorem odd_run_of_settled (hs : settled s = true) {a r : List Char} {d : Char}
    (he : s = a ++ marker ++ d :: r) (hd : isLowerHex d = true) :
    ∃ b k, a = b ++ List.replicate (2 * k + 1) '$' ∧ b.getLast? ≠ some '$' := by
  induction s using everyMarker.induct generalizing a with
  | case1 => simp [marker] at he
  | case2 s ih =>
      rw [settled_marker, Bool.and_eq_true, Bool.not_eq_true'] at hs
      rcases occurrence_of_marker he with ⟨rfl, rfl⟩ | ⟨rfl, -⟩ | ⟨a, rfl, hrest⟩
      · rw [isLowerHex_of_not_droppable hs.1] at hd
        exact absurd hd Bool.false_ne_true
      · exact ⟨[], 0, rfl, by simp⟩
      · obtain ⟨b, k, rfl, hb⟩ := ih hs.2 hrest
        cases b with
        | nil => exact ⟨[], k + 1, rfl, hb⟩
        | cons x b => exact ⟨'$' :: '$' :: x :: b, k, rfl, by simpa using hb⟩
  | case3 c s hn ih =>
      have hm := not_marker_begins hn
      rw [settled_cons hm] at hs
      obtain ⟨a, rfl, hrest⟩ := occurrence_of_cons hm he
      obtain ⟨b, k, rfl, hb⟩ := ih hs hrest
      cases b with
      | nil =>
          -- The run begins the rest of the text, so its dollar signs do not go on to the left.
          have hc : c ≠ '$' := by
            rintro rfl
            rw [hrest, List.nil_append, List.replicate_succ] at hm
            exact hm (marker_prefix_cons.2 ⟨rfl, rfl⟩)
          exact ⟨[c], k, rfl, by simpa using hc⟩
      | cons x b => exact ⟨c :: x :: b, k, rfl, by simpa using hb⟩

/-- A settled text is bare if no marker stands before a single dollar sign with a number. -/
theorem bare_iff_of_settled (hs : settled s = true) :
    Bare s ↔ everyMarker (fun t => !hexBehindDollar t) s = true := by
  induction s using everyMarker.induct with
  | case1 => simp [Bare, marker]
  | case2 s ih =>
      rw [settled_marker, Bool.and_eq_true, Bool.not_eq_true'] at hs
      rw [everyMarker_marker, Bool.and_eq_true, Bool.not_eq_true', ← ih hs.2]
      constructor
      · intro h
        refine ⟨?_, fun a c r he => h ('$' :: '$' :: a) c r (by rw [he]; rfl)⟩
        rw [← Bool.not_eq_true]
        intro hdollar
        obtain ⟨c, r, rfl, hc⟩ := exists_of_hexBehindDollar hdollar
        rw [h ['$'] c r rfl] at hc
        exact Bool.false_ne_true hc
      · rintro ⟨hdollar, h⟩ a c r he
        rcases occurrence_of_marker he with ⟨rfl, rfl⟩ | ⟨rfl, rfl⟩ | ⟨a, rfl, hrest⟩
        · exact isLowerHex_of_not_droppable hs.1
        · exact hdollar
        · exact h a c r hrest
  | case3 c s hn ih =>
      have hm := not_marker_begins hn
      rw [settled_cons hm] at hs
      rw [everyMarker_cons hm, ← ih hs]
      constructor
      · exact fun h a d r he => h (c :: a) d r (by rw [he]; rfl)
      · intro h a d r he
        obtain ⟨a, rfl, hrest⟩ := occurrence_of_cons hm he
        exact h a d r hrest

/-! ### What a marker uncovers -/

/-- What stands behind a marker when it has dropped the numbers and tags behind it. -/
def uncovered (s : List Char) : List Char :=
  match _h : afterTag? (s.dropWhile isLowerHex) with
  | some r => uncovered r
  | none => s.dropWhile isLowerHex
termination_by s.length
decreasing_by
  exact Nat.lt_of_lt_of_le (length_afterTag? _h) (List.dropWhile_sublist _).length_le

theorem length_uncovered_le (s : List Char) : (uncovered s).length ≤ s.length := by
  have hle (s : List Char) : (s.dropWhile isLowerHex).length ≤ s.length :=
    (List.dropWhile_sublist _).length_le
  fun_induction uncovered s with
  | case1 s r h ih =>
      have hr := length_afterTag? h
      have hs := hle s
      omega
  | case2 s => exact hle s

/-- Some marker uncovers a single dollar sign with a number behind it. -/
def exposes : List Char → Bool
  | [] => false
  | '$' :: '$' :: s => hexBehindDollar (uncovered s) || exposes (uncovered s)
  | _ :: s => exposes s
termination_by s => s.length
decreasing_by
  · have := length_uncovered_le s
    simp only [List.length_cons]
    omega
  · simp

theorem exposes_marker (s : List Char) :
    exposes (marker ++ s) = (hexBehindDollar (uncovered s) || exposes (uncovered s)) := by
  rw [marker, List.cons_append, List.cons_append, List.nil_append, exposes]

theorem exposes_cons (h : ¬ marker <+: c :: s) : exposes (c :: s) = exposes s := by
  rw [exposes]
  rintro t rfl rfl
  exact h ⟨t, rfl⟩

theorem afterMarker?_dropAfter (s : List Char) :
    afterMarker? (dropAfter marker isLowerHex s) =
      (afterMarker? s).map fun r => dropAfter marker isLowerHex (r.dropWhile isLowerHex) := by
  fun_induction afterMarker? s with
  | case1 => rw [dropAfter_nil, afterMarker?, Option.map_none]
  | case2 s =>
      have hscan : dropAfter marker isLowerHex (marker ++ s) =
          marker ++ dropAfter marker isLowerHex (s.dropWhile isLowerHex) :=
        dropAfter_trigger (by simp [marker]) isLowerHex s
      change afterMarker? (dropAfter marker isLowerHex (marker ++ s)) = _
      rw [hscan, marker, List.cons_append, List.cons_append, afterMarker?, Option.map_some,
        List.nil_append]
  | case3 s hn =>
      have hm := not_marker_begins_of_ne (c := '.') (by decide)
      rw [dropAfter_cons (hm s), afterMarker?_cons (hm _), if_pos rfl, Option.map_none]
  | case4 c s hn hc ih =>
      have hm := not_marker_begins hn
      have hm' : ¬ marker <+: c :: dropAfter marker isLowerHex s :=
        not_marker_begins_of_head? (head?_dropAfter ..) hm
      rw [dropAfter_cons hm, afterMarker?_cons hm', if_neg hc, ih]

/-- The scan for numbers drops the one behind the marker that closes a tag as well. -/
theorem afterTag?_dropAfter (s : List Char) :
    afterTag? (dropAfter marker isLowerHex s) =
      (afterTag? s).map fun r => dropAfter marker isLowerHex (r.dropWhile isLowerHex) := by
  have hstarts : startsWithTag (dropAfter marker isLowerHex s) = startsWithTag s :=
    startsWithTag_sameFront (sameFront_dropAfter marker isLowerHex s) not_marker_inside_tag
  rw [afterTag?, afterTag?, hstarts]
  split
  · exact afterMarker?_dropAfter s
  · rfl

/-- A marker is kept with what it uncovers, simplified. -/
theorem dropDynamicNumbers_marker_uncovered (s : List Char) :
    dropDynamicNumbers (marker ++ s) = marker ++ dropDynamicNumbers (uncovered s) := by
  fun_induction uncovered s with
  | case1 s r h ih =>
      have htag := afterTag?_dropAfter (s.dropWhile isLowerHex)
      rw [h, Option.map_some] at htag
      calc dropDynamicNumbers (marker ++ s)
          = foldTags (marker ++ dropAfter marker isLowerHex (s.dropWhile isLowerHex)) :=
            dropDynamicNumbers_marker s
        _ = foldTags (marker ++ dropAfter marker isLowerHex (r.dropWhile isLowerHex)) :=
            foldTags_tag htag
        _ = dropDynamicNumbers (marker ++ r) := (dropDynamicNumbers_marker r).symm
        _ = _ := ih
  | case2 s h =>
      have htag := afterTag?_dropAfter (s.dropWhile isLowerHex)
      rw [h, Option.map_none] at htag
      rw [dropDynamicNumbers_marker]
      exact foldTags_marker htag

theorem head?_dropDynamicNumbers (s : List Char) : (dropDynamicNumbers s).head? = s.head? := by
  rw [dropDynamicNumbers, (sameFront_foldTags _).head? (by simp [marker]), head?_dropAfter]

theorem hexBehindDollar_dropDynamicNumbers (s : List Char) :
    hexBehindDollar (dropDynamicNumbers s) = hexBehindDollar s := by
  by_cases hm : marker <+: s
  · obtain ⟨r, rfl⟩ := hm
    rw [dropDynamicNumbers_marker_uncovered]
    rfl
  · cases s with
    | nil => simp [dropDynamicNumbers]
    | cons c s =>
        rw [dropDynamicNumbers_cons hm]
        by_cases hc : c = '$'
        · subst hc
          rw [hexBehindDollar, hexBehindDollar, head?_dropDynamicNumbers]
        · simp [hexBehindDollar, hc]

/-- A simplified name has a number behind a single dollar sign behind a marker exactly if the name
exposes one. -/
theorem everyMarker_dropDynamicNumbers (s : List Char) :
    everyMarker (fun t => !hexBehindDollar t) (dropDynamicNumbers s) = !exposes s := by
  induction s using exposes.induct with
  | case1 => simp [dropDynamicNumbers, exposes]
  | case2 s ih =>
      change everyMarker _ (dropDynamicNumbers (marker ++ s)) = !exposes (marker ++ s)
      rw [dropDynamicNumbers_marker_uncovered, exposes_marker, Bool.not_or, ← ih,
        ← hexBehindDollar_dropDynamicNumbers]
      exact everyMarker_marker
  | case3 c s hn ih =>
      have hm := not_marker_begins hn
      have hm' : ¬ marker <+: c :: dropDynamicNumbers s :=
        not_marker_begins_of_head? (head?_dropDynamicNumbers s) hm
      rw [dropDynamicNumbers_cons hm, everyMarker_cons hm', exposes_cons hm, ih]

/-- In a simplified dynamic class name, a number behind two dollar signs stands behind a run of
dollar signs of odd length.  There is none exactly if no marker of the name uncovers a single dollar
sign with a number. -/
theorem hex_behind_dollars (name : List Char) :
    (∀ a c r, dropDynamicNumbers name = a ++ marker ++ c :: r → isLowerHex c = true →
      ∃ b k, a = b ++ List.replicate (2 * k + 1) '$' ∧ b.getLast? ≠ some '$') ∧
    (Bare (dropDynamicNumbers name) ↔ exposes name = false) := by
  have hsettled := settled_dropDynamicNumbers name
  refine ⟨fun a c r he hc => odd_run_of_settled hsettled he hc, ?_⟩
  have hbare := bare_iff_of_settled hsettled
  rwa [everyMarker_dropDynamicNumbers, Bool.not_eq_true'] at hbare

-- The number between them has kept the dollar signs apart.
example : dropDynamicNumbers "$$1$2".toList = "$$$2".toList ∧ exposes "$$1$2".toList = true := by
  decide +kernel

/-- A class whose own name ends in a dollar sign keeps the number of what was generated from it. -/
theorem hex_behind_three_dollars : ¬ ∀ name, Bare (dropDynamicNumbers name) := by
  intro h
  have hkept : dropDynamicNumbers "com.foo.Proxy$$$5f3a.call".toList =
      "com.foo.Proxy$".toList ++ marker ++ '5' :: "f3a.call".toList := by
    decide +kernel
  exact absurd (h _ _ _ _ hkept) (by decide)

/-! ### Simplifying once more -/

/-- Simplifying dynamic class names once more changes nothing. -/
@[simp] theorem dropDynamicNumbers_dropDynamicNumbers (s : List Char) :
    dropDynamicNumbers (dropDynamicNumbers s) = dropDynamicNumbers s :=
  dropDynamicNumbers_eq_self_iff.2 (settled_dropDynamicNumbers s)

/-- Each simplification leaves alone what it has made, and so does the scan for the counters of any
trigger, also of one with counter characters in it. -/
theorem simplifications_idempotent (s : List Char) :
    dropDynamicNumbers (dropDynamicNumbers s) = dropDynamicNumbers s ∧
      dropLambdaNumber (dropLambdaNumber s) = dropLambdaNumber s ∧
      dropAccessorNumbers (dropAccessorNumbers s) = dropAccessorNumbers s ∧
      ∀ (trigger : List Char) (p : Char → Bool),
        dropAfter trigger p (dropAfter trigger p s) = dropAfter trigger p s := by
  refine ⟨dropDynamicNumbers_dropDynamicNumbers s, dropLambdaNumber_dropLambdaNumber s,
    dropAccessorNumbers_dropAccessorNumbers s, ?_⟩
  exact fun trigger p => dropAfter_dropAfter trigger p s

end StackProfile.DisplayName
