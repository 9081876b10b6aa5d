import StackProfile.Proofs.Markers

/-! # Which display names are stable

A name whose display name is simplified again does not always keep it.  The scans for counters are
idempotent and can be exchanged, so only what a later simplification brings together can be dropped
the second time.  There is one such place: the number of a lambda stands behind a dollar sign, and
without it this dollar sign can meet the next one and form a marker.

Main lemmas: the lambda number is dropped once (`dropLambdaNumber_dropLambdaNumber`) and can be
dropped after the accessor numbers as well (`dropLambdaNumber_dropAfter`); the text without it is
settled unless it rejoins (`settled_dropLambdaNumber`); and the display name is its own display name
in exactly this case (`ofString_ofString_iff`). -/

namespace StackProfile.DisplayName

/-! ### Dotted numbers -/

theorem dropDottedNumber_of_not_digit {s : List Char} (h : startsWithDigit s = false) :
    dropDottedNumber s = s := by
  rw [dropDottedNumber, h]
  rfl

/-- The text is kept, or a number in front of it is dropped and what is left begins otherwise. -/
theorem dropDottedNumber_cases (s : List Char) :
    dropDottedNumber s = s ∨
      ∃ w, s = w ++ dropDottedNumber s ∧ '$' ∉ w ∧ startsWithDigit s = true ∧
        startsWithDigit (dropDottedNumber s) = false := by
  fun_cases dropDottedNumber s with
  | case1 hs x hx h =>
      refine .inr ⟨s.takeWhile Char.isDigit ++ '.' :: x.takeWhile Char.isDigit, ?_, ?_, hs,
        head?_dropWhile_any Char.isDigit x⟩
      · calc s = s.takeWhile Char.isDigit ++ s.dropWhile Char.isDigit :=
              List.takeWhile_append_dropWhile.symm
          _ = _ := by simp [hx]
      · simp [notMem_takeWhile (show '$'.isDigit = false from rfl)]
  | case2 => exact .inl rfl
  | case3 => exact .inl rfl
  | case4 => exact .inl rfl

theorem dropDottedNumber_sublist (s : List Char) : (dropDottedNumber s).Sublist s := by
  rcases dropDottedNumber_cases s with h | ⟨w, h, -⟩
  · exact h.symm ▸ List.Sublist.refl s
  · have hsub := List.sublist_append_right w (dropDottedNumber s)
    rwa [← h] at hsub

@[simp] theorem dropDottedNumber_dropDottedNumber (s : List Char) :
    dropDottedNumber (dropDottedNumber s) = dropDottedNumber s := by
  rcases dropDottedNumber_cases s with h | ⟨w, -, -, -, h⟩
  · rw [h, h]
  · exact dropDottedNumber_of_not_digit h

/-- A dotted number can be dropped before a scan for a trigger that begins otherwise. -/
theorem dropDottedNumber_dropAfter {t : List Char} (p : Char → Bool) (ht : t ≠ [])
    (hdigit : startsWithDigit t = false) (hdot : t.head? ≠ some '.') (s : List Char) :
    dropDottedNumber (dropAfter t p s) = dropAfter t p (dropDottedNumber s) := by
  have hstarts (x : List Char) : startsWithDigit (dropAfter t p x) = startsWithDigit x := by
    rw [startsWithDigit, head?_dropAfter, startsWithDigit]
  have hrest (x : List Char) :
      (dropAfter t p x).dropWhile Char.isDigit = dropAfter t p (x.dropWhile Char.isDigit) :=
    dropWhile_dropAfter ht hdigit p x
  have hpoint (x : List Char) : dropAfter t p ('.' :: x) = '.' :: dropAfter t p x := by
    refine dropAfter_cons (fun h => hdot ?_) p
    obtain ⟨d, t, rfl⟩ := List.exists_cons_of_ne_nil ht
    rw [(List.cons_prefix_cons.1 h).1]
    rfl
  fun_cases dropDottedNumber s with
  | case1 hs x hx h =>
      rw [dropDottedNumber, hstarts, if_pos hs, hrest, hx, hpoint]
      simp only [hstarts, h, if_true, hrest]
  | case2 hs x hx h =>
      rw [dropDottedNumber, hstarts, if_pos hs, hrest, hx, hpoint]
      simp only [hstarts, h]
      rfl
  | case3 hs hx =>
      rw [dropDottedNumber, hstarts, if_pos hs, hrest]
      split
      · rename_i y hy
        have hhead := congrArg List.head? hy
        rw [head?_dropAfter] at hhead
        obtain ⟨z, hz⟩ := List.head?_eq_some_iff.1 hhead
        exact absurd hz (hx z)
      · rfl
  | case4 hs => rw [dropDottedNumber_of_not_digit (by simpa [hstarts] using hs)]

/-! ### The first lambda -/

theorem lambdaTrigger_append (s : List Char) :
    lambdaTrigger ++ s = '$' :: '$' :: ("Lambda".toList ++ '$' :: s) := rfl

theorem lambdaTrigger_ne_nil : lambdaTrigger ≠ [] :=
  List.cons_ne_nil '$' ('$' :: "Lambda$".toList)

theorem dollar_notMem_lambda : '$' ∉ "Lambda".toList := by simp

/-- What follows the first lambda trigger. -/
def afterLambda? : List Char → Option (List Char)
  | [] => none
  | c :: s =>
    if lambdaTrigger <+: c :: s then some ((c :: s).drop lambdaTrigger.length) else afterLambda? s

/-- The number is dropped behind the first lambda trigger, and nothing else is. -/
theorem dropLambdaNumber_cases (s : List Char) :
    (afterLambda? s = none ∧ dropLambdaNumber s = s) ∨
      ∃ a r, s = a ++ lambdaTrigger ++ r ∧ afterLambda? s = some r ∧
        dropLambdaNumber s = a ++ lambdaTrigger ++ dropDottedNumber r := by
  induction s with
  | nil => exact .inl ⟨rfl, rfl⟩
  | cons c s ih =>
      by_cases h : lambdaTrigger <+: c :: s
      · refine .inr ⟨[], (c :: s).drop lambdaTrigger.length, ?_, ?_, ?_⟩
        · exact (List.prefix_iff_eq_append.1 h).symm
        · rw [afterLambda?, if_pos h]
        · rw [dropLambdaNumber, if_pos h, List.nil_append]
      · rw [afterLambda?, if_neg h, dropLambdaNumber_cons h]
        rcases ih with ⟨hnone, hs⟩ | ⟨a, r, hs, hsome, hr⟩
        · exact .inl ⟨hnone, by rw [hs]⟩
        · exact .inr ⟨c :: a, r, by rw [hs]; rfl, hsome, by rw [hr]; rfl⟩

theorem sameFront_dropLambdaNumber (s : List Char) :
    SameFront lambdaTrigger s (dropLambdaNumber s) := by
  rcases dropLambdaNumber_cases s with ⟨-, h⟩ | ⟨a, r, hs, -, h⟩
  · exact .inl h
  · exact .inr ⟨a, r, _, hs, h⟩

@[simp] theorem head?_dropLambdaNumber (s : List Char) :
    (dropLambdaNumber s).head? = s.head? :=
  (sameFront_dropLambdaNumber s).head? lambdaTrigger_ne_nil

theorem dropLambdaNumber_sublist (s : List Char) : (dropLambdaNumber s).Sublist s := by
  rcases dropLambdaNumber_cases s with ⟨-, h⟩ | ⟨a, r, hs, -, h⟩
  · exact h.symm ▸ List.Sublist.refl s
  · have hsub := (List.Sublist.refl (a ++ lambdaTrigger)).append (dropDottedNumber_sublist r)
    rwa [← h, ← hs] at hsub

/-- Dropping the number of a lambda once more changes nothing. -/
@[simp] theorem dropLambdaNumber_dropLambdaNumber (s : List Char) :
    dropLambdaNumber (dropLambdaNumber s) = dropLambdaNumber s := by
  induction s with
  | nil => rfl
  | cons c s ih =>
      by_cases h : lambdaTrigger <+: c :: s
      · obtain ⟨r, hr⟩ := h
        rw [← hr, dropLambdaNumber_trigger, dropLambdaNumber_trigger,
          dropDottedNumber_dropDottedNumber]
      · have hfront : lambdaTrigger <+: c :: dropLambdaNumber s ↔ lambdaTrigger <+: c :: s :=
          (sameFront_dropLambdaNumber s).begins_iff (not_cons_begins lambdaTrigger c)
        rw [dropLambdaNumber_cons h, dropLambdaNumber_cons (mt hfront.1 h), ih]

/-- A text in which no lambda trigger begins can stand in front. -/
theorem dropLambdaNumber_append {w : List Char} (h : Apart lambdaTrigger w) (s : List Char) :
    dropLambdaNumber (w ++ s) = w ++ dropLambdaNumber s := by
  induction w with
  | nil => rfl
  | cons c w ih =>
      have hstep : dropLambdaNumber (c :: (w ++ s)) = c :: dropLambdaNumber (w ++ s) :=
        dropLambdaNumber_cons (h.not_begins s)
      rw [List.cons_append, hstep, ih h.tail, List.cons_append]

theorem dropWhile_dropLambdaNumber {q : Char → Bool} (hq : q '$' = false) (s : List Char) :
    (dropLambdaNumber s).dropWhile q = dropLambdaNumber (s.dropWhile q) := by
  induction s with
  | nil => rfl
  | cons c s ih =>
      by_cases hc : q c = true
      · have hn : ¬ lambdaTrigger <+: c :: s := by
          rintro ⟨r, hr⟩
          rw [lambdaTrigger_append] at hr
          obtain ⟨rfl, -⟩ := List.cons.inj hr
          exact Bool.false_ne_true (hq.symm.trans hc)
        rw [dropLambdaNumber_cons hn, List.dropWhile_cons_of_pos hc, List.dropWhile_cons_of_pos hc,
          ih]
      · rw [List.dropWhile_cons_of_neg hc]
        refine dropWhile_eq_self ?_
        rw [head?_dropLambdaNumber]
        simpa using hc

/-- The number of the first lambda can be dropped before or after the counters of a trigger. -/
theorem dropLambdaNumber_dropAfter {t : List Char} {p : Char → Bool} (ht : t ≠ [])
    (h : Apart lambdaTrigger t) (h' : Apart t lambdaTrigger) (hp : p '$' = false)
    (hdigit : startsWithDigit t = false) (hdot : t.head? ≠ some '.') (s : List Char) :
    dropLambdaNumber (dropAfter t p s) = dropAfter t p (dropLambdaNumber s) := by
  induction hn : s.length using Nat.strongRecOn generalizing s with
  | ind n ih =>
  subst hn
  by_cases hs : t <+: s
  · obtain ⟨r, rfl⟩ := hs
    rw [dropAfter_trigger ht, dropLambdaNumber_append h, dropLambdaNumber_append h,
      dropAfter_trigger ht, dropWhile_dropLambdaNumber hp, ih _ (length_dropWhile_lt ht r) _ rfl]
  cases s with
  | nil => simp [dropLambdaNumber]
  | cons c s =>
  by_cases hl : lambdaTrigger <+: c :: s
  · obtain ⟨r, hr⟩ := hl
    rw [← hr, dropAfter_append h', dropLambdaNumber_trigger, dropLambdaNumber_trigger,
      dropAfter_append h', dropDottedNumber_dropAfter p ht hdigit hdot]
  · have hfront : t <+: c :: dropLambdaNumber s ↔ t <+: c :: s :=
      (sameFront_dropLambdaNumber s).begins_iff
        (not_begins_of_not_inside (h.not_inside lambdaTrigger_ne_nil) [c])
    have hfront' : lambdaTrigger <+: c :: dropAfter t p s ↔ lambdaTrigger <+: c :: s :=
      (sameFront_dropAfter t p s).begins_iff (not_begins_of_not_inside (h'.not_inside ht) [c])
    rw [dropAfter_cons hs, dropLambdaNumber_cons hl, dropLambdaNumber_cons (mt hfront'.1 hl),
      dropAfter_cons (mt hfront.1 hs), ih _ (by simp) _ rfl]

/-! ### Accessors -/

section accessors

variable {ts : List (List Char)}

theorem foldl_dropAfter_hom {α : Type} {f : List Char → α} {g : α → List Char → α}
    {p : Char → Bool} (h : ∀ t ∈ ts, ∀ s, f (dropAfter t p s) = g (f s) t) (s : List Char) :
    f (ts.foldl (fun s t => dropAfter t p s) s) = ts.foldl g (f s) := by
  induction ts generalizing s with
  | nil => rfl
  | cons t ts ih =>
      have hts : ∀ t' ∈ ts, ∀ s, f (dropAfter t' p s) = g (f s) t' :=
        fun t' ht' => h t' (List.mem_cons_of_mem t ht')
      rw [List.foldl_cons, List.foldl_cons, ih hts, h t List.mem_cons_self]

section exchange

variable {p : Char → Bool} (h : ∀ t ∈ ts, ∀ t' ∈ ts, ∀ s, dropAfter t p (dropAfter t' p s) =
  dropAfter t' p (dropAfter t p s))
include h

/-- Of scans that can be exchanged in pairs one can be made before all of them. -/
theorem foldl_dropAfter_absorb {t : List Char} (ht : t ∈ ts) (s : List Char) :
    ts.foldl (fun s t => dropAfter t p s) (dropAfter t p s) =
      ts.foldl (fun s t => dropAfter t p s) s := by
  induction ts generalizing s with
  | nil => nomatch ht
  | cons t' ts ih =>
      have hts : ∀ t ∈ ts, ∀ t' ∈ ts, ∀ s, dropAfter t p (dropAfter t' p s) =
          dropAfter t' p (dropAfter t p s) :=
        fun t ht t' ht' => h t (List.mem_cons_of_mem _ ht) t' (List.mem_cons_of_mem _ ht')
      rw [List.foldl_cons, List.foldl_cons]
      rcases List.mem_cons.1 ht with rfl | ht
      · rw [dropAfter_dropAfter]
      · rw [h t' List.mem_cons_self t (List.mem_cons_of_mem t' ht), ih hts ht]

/-- They are idempotent together. -/
theorem foldl_dropAfter_idem (s : List Char) :
    ts.foldl (fun s t => dropAfter t p s) (ts.foldl (fun s t => dropAfter t p s) s) =
      ts.foldl (fun s t => dropAfter t p s) s := by
  have habsorb : ∀ us ⊆ ts, ∀ s, ts.foldl (fun s t => dropAfter t p s)
      (us.foldl (fun s t => dropAfter t p s) s) = ts.foldl (fun s t => dropAfter t p s) s := by
    intro us
    induction us with
    | nil => exact fun _ _ => rfl
    | cons t us ih =>
        intro hus s
        obtain ⟨ht, hus⟩ := List.cons_subset.1 hus
        rw [List.foldl_cons, ih hus, foldl_dropAfter_absorb h ht]
  exact habsorb ts (List.Subset.refl ts) s

end exchange

end accessors

theorem accessorTriggers_letters :
    ∀ t ∈ accessorTriggers, t.head? = some 's' ∧ '.' ∈ t ∧ '$' ∉ t := by
  simp [accessorTriggers]

theorem accessorTriggers_apart :
    ∀ t ∈ accessorTriggers, ∀ t' ∈ accessorTriggers, t = t' ∨ Apart t t' := by
  decide +kernel

theorem accessorTriggers_apart_lambdaTrigger :
    ∀ t ∈ accessorTriggers, Apart lambdaTrigger t ∧ Apart t lambdaTrigger := by
  have hs : 's' ∉ lambdaTrigger := by
    unfold lambdaTrigger
    simp
  intro t h
  obtain ⟨hhead, -, hdollar⟩ := accessorTriggers_letters t h
  obtain ⟨r, rfl⟩ := List.head?_eq_some_iff.1 hhead
  have hlambda : Apart ('$' :: '$' :: "Lambda$".toList) ('s' :: r) := apart_of_notMem hdollar
  exact ⟨hlambda, apart_of_notMem hs⟩

theorem ne_nil_of_mem_accessorTriggers {t : List Char} (h : t ∈ accessorTriggers) : t ≠ [] :=
  List.ne_nil_of_mem (accessorTriggers_letters t h).2.1

theorem startsWithDigit_of_mem_accessorTriggers {t : List Char} (h : t ∈ accessorTriggers) :
    startsWithDigit t = false := by
  rw [startsWithDigit, (accessorTriggers_letters t h).1]
  rfl

theorem dropAfter_accessor_comm {t t' : List Char} (h : t ∈ accessorTriggers)
    (h' : t' ∈ accessorTriggers) (s : List Char) :
    dropAfter t Char.isDigit (dropAfter t' Char.isDigit s) =
      dropAfter t' Char.isDigit (dropAfter t Char.isDigit s) := by
  rcases accessorTriggers_apart t h t' h' with rfl | hapart
  · rfl
  rcases accessorTriggers_apart t' h' t h with rfl | hapart'
  · rfl
  exact dropAfter_comm (ne_nil_of_mem_accessorTriggers h) (ne_nil_of_mem_accessorTriggers h')
    hapart hapart' (startsWithDigit_of_mem_accessorTriggers h)
    (startsWithDigit_of_mem_accessorTriggers h') s

/-- The numbers of one accessor can be dropped before those of all. -/
theorem dropAccessorNumbers_dropAfter {t : List Char} (h : t ∈ accessorTriggers) (s : List Char) :
    dropAccessorNumbers (dropAfter t Char.isDigit s) = dropAccessorNumbers s :=
  foldl_dropAfter_absorb (fun _ h _ h' => dropAfter_accessor_comm h h') h s

/-- Dropping the numbers of accessors once more changes nothing. -/
@[simp] theorem dropAccessorNumbers_dropAccessorNumbers (s : List Char) :
    dropAccessorNumbers (dropAccessorNumbers s) = dropAccessorNumbers s :=
  foldl_dropAfter_idem (fun _ h _ h' => dropAfter_accessor_comm h h') s

theorem dropLambdaNumber_dropAccessorNumbers (s : List Char) :
    dropLambdaNumber (dropAccessorNumbers s) = dropAccessorNumbers (dropLambdaNumber s) := by
  refine foldl_dropAfter_hom (fun t h s => ?_) s
  obtain ⟨hapart, hapart'⟩ := accessorTriggers_apart_lambdaTrigger t h
  refine dropLambdaNumber_dropAfter (ne_nil_of_mem_accessorTriggers h) hapart hapart' rfl
    (startsWithDigit_of_mem_accessorTriggers h) ?_ s
  rw [(accessorTriggers_letters t h).1]
  decide

theorem dropAccessorNumbers_sublist (s : List Char) : (dropAccessorNumbers s).Sublist s := by
  unfold dropAccessorNumbers
  induction accessorTriggers generalizing s with
  | nil => exact List.Sublist.refl s
  | cons t ts ih => exact (ih _).trans (dropAfter_sublist t Char.isDigit s)

theorem settled_dropAccessorNumbers (s : List Char) :
    settled (dropAccessorNumbers s) = settled s := by
  have hkept : settled (dropAccessorNumbers s) =
      accessorTriggers.foldl (fun b _ => b) (settled s) := by
    refine foldl_dropAfter_hom (fun t h s => ?_) s
    obtain ⟨-, hdot, hdollar⟩ := accessorTriggers_letters t h
    exact settled_dropAfter hdot hdollar rfl s
  rw [hkept]
  induction accessorTriggers with
  | nil => rfl
  | cons t ts ih => exact ih

/-! ### Rejoined markers -/

/-- An odd number of dollar signs begins the text, with something behind them that a marker
drops: one more dollar sign in front turns the last two into such a marker. -/
def rejoins : List Char → Bool
  | '$' :: '$' :: s => rejoins s
  | '$' :: s => droppable s
  | _ => false

/-- The number of the first lambda is dropped and the text behind it rejoins. -/
def rejoining (s : List Char) : Bool :=
  match afterLambda? s with
  | some r => dropDottedNumber r ≠ r && rejoins (dropDottedNumber r)
  | none => false

/-- One more dollar sign in front of a settled text unsettles it exactly if the text rejoins. -/
theorem settled_cons_dollar {s : List Char} (h : settled s = true) :
    settled ('$' :: s) = !rejoins s := by
  fun_induction rejoins s with
  | case1 s ih =>
      rw [settled_marker, Bool.and_eq_true] at h
      rw [settled_marker, droppable_dollar, ih h.2]
      rfl
  | case2 s hn =>
      have hm : ¬ marker <+: '$' :: s := not_marker_begins fun r _ hs => hn r hs
      rw [settled_cons hm] at h
      rw [settled_marker, h, Bool.and_true]
  | case3 s hn hn' =>
      have hm : ¬ marker <+: '$' :: s := not_marker_begins fun r _ hs => hn' r hs
      rw [settled_cons hm, h]
      rfl

theorem settled_lambdaTrigger_append (s : List Char) :
    settled (lambdaTrigger ++ s) = settled ('$' :: s) := by
  have htail : settled ("Lambda".toList ++ '$' :: s) = settled ('$' :: s) :=
    settled_append dollar_notMem_lambda
  have hkept : droppable ("Lambda".toList ++ '$' :: s) = false :=
    droppable_cons (by decide) (by decide) (by decide) _
  rw [lambdaTrigger_append, settled_marker, hkept, htail]
  rfl

theorem settled_dollar_lambdaTrigger_append (s : List Char) :
    settled ('$' :: (lambdaTrigger ++ s)) = settled ('$' :: s) := by
  have htail : settled ('$' :: ("Lambda".toList ++ '$' :: s)) = settled ('$' :: s) := by
    have hm : ¬ marker <+: '$' :: ("Lambda".toList ++ '$' :: s) := by
      have hhead : ("Lambda".toList ++ '$' :: s).head? = some 'L' := rfl
      rw [marker_prefix_cons, hhead]
      decide
    exact (settled_cons hm).trans (settled_append dollar_notMem_lambda)
  rw [lambdaTrigger_append, settled_marker, droppable_dollar, htail]
  rfl

/-- A lambda trigger shows the text behind it nothing but the dollar sign at its end. -/
theorem settled_append_lambdaTrigger (a s : List Char) :
    settled (a ++ (lambdaTrigger ++ s)) =
      (settled (a ++ lambdaTrigger) && settled ('$' :: s)) := by
  have hnone : settled ['$'] = true := rfl
  induction a using everyMarker.induct with
  | case1 =>
      have hself := settled_lambdaTrigger_append []
      rw [List.append_nil, hnone] at hself
      rw [List.nil_append, List.nil_append, settled_lambdaTrigger_append, hself, Bool.true_and]
  | case2 a ih =>
      have hfront : SameFront marker (a ++ lambdaTrigger) (a ++ (lambdaTrigger ++ s)) := by
        refine .append_left (.inr ⟨[], "Lambda$".toList, "Lambda$".toList ++ s, rfl, ?_⟩) a
        rfl
      have hkept : droppable (a ++ (lambdaTrigger ++ s)) = droppable (a ++ lambdaTrigger) :=
        droppable_sameFront_marker hfront
      rw [List.cons_append, List.cons_append, List.cons_append, List.cons_append,
        settled_marker, settled_marker, hkept, ih, Bool.and_assoc]
  | case3 c a hn ih =>
      by_cases hodd : c = '$' ∧ a = []
      · obtain ⟨rfl, rfl⟩ := hodd
        have hself := settled_dollar_lambdaTrigger_append []
        rw [List.append_nil, hnone] at hself
        have hwhole := settled_dollar_lambdaTrigger_append s
        simp only [List.cons_append, List.nil_append, hself, hwhole, Bool.true_and]
      · have hm (x : List Char) : ¬ marker <+: c :: (a ++ x) := by
          rw [marker_prefix_cons]
          rintro ⟨rfl, hhead⟩
          cases a with
          | nil => exact hodd ⟨rfl, rfl⟩
          | cons d a => exact hn a rfl (by rw [Option.some.inj hhead])
        rw [List.cons_append, List.cons_append, settled_cons (hm _), settled_cons (hm _), ih]

/-- Without the number of its first lambda a settled text is settled unless it rejoins. -/
theorem settled_dropLambdaNumber {s : List Char} (h : settled s = true) :
    settled (dropLambdaNumber s) = !rejoining s := by
  rcases dropLambdaNumber_cases s with ⟨hnone, hs⟩ | ⟨a, r, hs, hsome, hr⟩
  · rw [hs, h, rejoining, hnone]
    rfl
  rw [List.append_assoc] at hs hr
  rw [hs, settled_append_lambdaTrigger, Bool.and_eq_true] at h
  rw [hr, settled_append_lambdaTrigger, rejoining, hsome, h.1, Bool.true_and]
  rcases dropDottedNumber_cases r with hkept | ⟨w, hw, hdollar, hstarts, hrest⟩
  · simp [hkept, h.2]
  · have hne : dropDottedNumber r ≠ r := by
      intro heq
      rw [heq, hstarts] at hrest
      exact Bool.false_ne_true hrest.symm
    have hm : ¬ marker <+: '$' :: r := by
      rw [marker_prefix_cons]
      rintro ⟨-, hhead⟩
      rw [startsWithDigit, hhead] at hstarts
      exact absurd hstarts (by decide)
    have hsettled : settled (dropDottedNumber r) = true :=
      calc settled (dropDottedNumber r)
          = settled (w ++ dropDottedNumber r) := (settled_append hdollar).symm
        _ = settled r := by rw [← hw]
        _ = settled ('$' :: r) := (settled_cons hm).symm
        _ = true := h.2
    rw [settled_cons_dollar hsettled]
    simp [hne]

/-! ### Simplifying twice -/

theorem stable_sublist_dropDynamicNumbers (s : List Char) :
    (stable s).Sublist (dropDynamicNumbers s) :=
  (dropAccessorNumbers_sublist _).trans (dropLambdaNumber_sublist _)

/-- Simplifying leaves characters out and does nothing else. -/
theorem stable_sublist (s : List Char) : (stable s).Sublist s :=
  (stable_sublist_dropDynamicNumbers s).trans (dropDynamicNumbers_sublist s)

/-- The later simplifications keep what they have made. -/
theorem stable_stable_of_settled {s : List Char} (h : settled (stable s) = true) :
    stable (stable s) = stable s := by
  have hdynamic := dropDynamicNumbers_eq_self_iff.2 h
  rw [stable, hdynamic, stable, dropLambdaNumber_dropAccessorNumbers,
    dropLambdaNumber_dropLambdaNumber, dropAccessorNumbers_dropAccessorNumbers]

/-- A text that is kept as a whole is kept by the first simplification. -/
theorem settled_of_stable_eq_self {s : List Char} (h : stable s = s) : settled s = true := by
  have hkept := stable_sublist_dropDynamicNumbers s
  rw [h] at hkept
  have hle := (dropDynamicNumbers_sublist s).length_le
  exact dropDynamicNumbers_eq_self_iff.1 (hkept.eq_of_length_le hle).symm

theorem stable_stable_iff (s : List Char) :
    stable (stable s) = stable s ↔ rejoining (dropDynamicNumbers s) = false := by
  have hsettled : settled (stable s) = !rejoining (dropDynamicNumbers s) := by
    rw [stable, settled_dropAccessorNumbers]
    exact settled_dropLambdaNumber (settled_dropDynamicNumbers s)
  constructor
  · intro h
    have hs := settled_of_stable_eq_self h
    rwa [hsettled, Bool.not_eq_true'] at hs
  · intro h
    refine stable_stable_of_settled ?_
    rw [hsettled, h]
    rfl

/-- Simplifying a display name again changes nothing, except where the number of the first lambda
was dropped and the dollar sign before it has joined a marker with something to drop behind it. -/
theorem ofString_ofString_iff (name : String) :
    ofString (ofString name) = ofString name ↔
      rejoining (dropDynamicNumbers name.toList) = false := by
  rw [← stable_stable_iff, ← String.toList_inj]
  simp only [toList_ofString]

/-- Not every display name is its own display name. -/
theorem ofString_twice_ne :
    ¬ ∀ name : String, ofString (ofString name) = ofString name := by
  intro h
  have hname := h "$$Lambda$1.2$abc"
  revert hname
  decide +kernel

end StackProfile.DisplayName
