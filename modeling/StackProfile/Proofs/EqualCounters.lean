import StackProfile.Proofs.StableNames
import StackProfile.Proofs.TagChains

/-! # Names that differ in a counter

Names of generated code that differ in nothing but a counter have one display name.  A counter
stands behind a trigger, and every simplification before the one that drops it keeps it with its
trigger and does the same around it, whatever the counter is.

Main lemmas: what becomes of the text around a counter (`exists_dropDynamicNumbers_dotted`,
`exists_dropLambdaNumber_accessor`, `dropDynamicNumbers_lambda`), the display names of texts with a
counter behind a marker, an accessor and the first lambda trigger (`stable_marker`,
`stable_accessor`, `stable_lambda`), and that they are independent of it (`ofString_counter`). -/

namespace StackProfile.DisplayName

variable {c : Char} {d e n p s t u : List Char}

/-! ### Numbers -/

/-- The text is made of digits. -/
def Digits (d : List Char) : Prop := ∀ c ∈ d, c.isDigit = true

instance (d : List Char) : Decidable (Digits d) :=
  decidable_of_iff (d.all Char.isDigit = true) List.all_eq_true

theorem Digits.notMem (h : Digits d) (hc : c.isDigit = false) : c ∉ d := by
  intro hmem
  rw [h c hmem] at hc
  nomatch hc

/-- The text is made of digits, one at least. -/
structure Number (d : List Char) : Prop where
  ne_nil : d ≠ []
  digits : Digits d

instance (d : List Char) : Decidable (Number d) :=
  decidable_of_iff (d ≠ [] ∧ Digits d) ⟨fun h => ⟨h.1, h.2⟩, fun h => ⟨h.1, h.2⟩⟩

theorem Number.startsWithDigit_append (h : Number d) (s : List Char) :
    startsWithDigit (d ++ s) = true := by
  obtain ⟨c, d, rfl⟩ := List.exists_cons_of_ne_nil h.ne_nil
  exact h.digits c List.mem_cons_self

theorem startsWithDigit_append (h : startsWithDigit u = false) (s : List Char) :
    startsWithDigit (s ++ u) = startsWithDigit s := by
  cases s with
  | nil => exact h
  | cons c s => rfl

/-- A dotted number is dropped with the digits behind it. -/
theorem dropDottedNumber_number (hd : Number d) (he : Number e) (s : List Char) :
    dropDottedNumber (d ++ '.' :: (e ++ s)) = s.dropWhile Char.isDigit := by
  have hdot : ('.' :: (e ++ s)).dropWhile Char.isDigit = '.' :: (e ++ s) := rfl
  rw [dropDottedNumber, hd.startsWithDigit_append, if_pos rfl,
    List.dropWhile_append_of_pos hd.digits, hdot]
  simp only [he.startsWithDigit_append, if_true, List.dropWhile_append_of_pos he.digits]

/-- A text that goes on neither a number nor its dot stays behind. -/
theorem dropDottedNumber_append (hdigit : startsWithDigit u = false) (hdot : u.head? ≠ some '.')
    (s : List Char) : dropDottedNumber (s ++ u) = dropDottedNumber s ++ u := by
  have hrest (x : List Char) : (x ++ u).dropWhile Char.isDigit = x.dropWhile Char.isDigit ++ u :=
    dropWhile_append_of_head? hdigit x
  fun_cases dropDottedNumber s with
  | case1 hs x hx h =>
      rw [dropDottedNumber, startsWithDigit_append hdigit, if_pos hs, hrest, hx, List.cons_append]
      simp only [startsWithDigit_append hdigit, h, if_true, hrest]
  | case2 hs x hx h =>
      rw [dropDottedNumber, startsWithDigit_append hdigit, if_pos hs, hrest, hx, List.cons_append]
      simp only [startsWithDigit_append hdigit, h]
      rfl
  | case3 hs hx =>
      rw [dropDottedNumber, startsWithDigit_append hdigit, if_pos hs, hrest]
      split
      · rename_i y hy
        cases hw : s.dropWhile Char.isDigit with
        | nil =>
            rw [hw, List.nil_append] at hy
            exact absurd (by rw [hy]; rfl) hdot
        | cons c w =>
            rw [hw, List.cons_append] at hy
            exact absurd (by rw [hw, (List.cons.inj hy).1]) (hx w)
      · rfl
  | case4 hs =>
      rw [dropDottedNumber_of_not_digit]
      rw [startsWithDigit_append hdigit]
      simpa using hs

/-! ### Dynamic classes -/

theorem dropDynamicNumbers_cons (h : ¬ marker <+: c :: s) :
    dropDynamicNumbers (c :: s) = c :: dropDynamicNumbers s := by
  have h' : ¬ marker <+: c :: dropAfter marker isLowerHex s :=
    not_marker_begins_of_head? (head?_dropAfter ..) h
  rw [dropDynamicNumbers, dropAfter_cons h, foldTags_cons h', dropDynamicNumbers]

/-- A marker that drops nothing is kept. -/
theorem dropDynamicNumbers_marker_of_kept (h : droppable s = false) :
    dropDynamicNumbers (marker ++ s) = marker ++ dropDynamicNumbers s := by
  have hkept : droppable (dropAfter marker isLowerHex s) = droppable s :=
    droppable_sameFront_marker (sameFront_dropAfter marker isLowerHex s)
  rw [h, droppable, Bool.or_eq_false_iff] at hkept
  obtain ⟨hhead, htag⟩ := hkept
  rw [head?_dropAfter] at hhead
  rw [dropDynamicNumbers_marker, dropWhile_eq_self hhead]
  exact foldTags_marker (by simpa using htag)

/-- A lambda trigger with a number behind it is kept. -/
theorem dropDynamicNumbers_lambda (hp : '$' ∉ p) (hn : '$' ∉ n) (hn₀ : n ≠ []) (s : List Char) :
    dropDynamicNumbers (p ++ (lambdaTrigger ++ (n ++ s))) =
      p ++ (lambdaTrigger ++ (n ++ dropDynamicNumbers s)) := by
  have hkept : droppable ("Lambda".toList ++ '$' :: (n ++ s)) = false :=
    droppable_cons (by decide) (by decide) (by decide) _
  have hm : ¬ marker <+: '$' :: (n ++ s) := by
    obtain ⟨c, n, rfl⟩ := List.exists_cons_of_ne_nil hn₀
    rw [marker_prefix_cons]
    rintro ⟨-, h⟩
    exact hn (Option.some.inj h ▸ List.mem_cons_self)
  have hlambda (x : List Char) :
      lambdaTrigger ++ x = marker ++ ("Lambda".toList ++ '$' :: x) := rfl
  rw [dropDynamicNumbers_append hp, hlambda, dropDynamicNumbers_marker_of_kept hkept,
    dropDynamicNumbers_append dollar_notMem_lambda, dropDynamicNumbers_cons hm,
    dropDynamicNumbers_append hn, hlambda]

/-! ### Accessors -/

theorem accessorTriggers_apart_tail : ∀ t ∈ accessorTriggers, Apart t t.tail := by
  decide +kernel

/-- The number of an accessor behind a text has no part in what the first lambda drops. -/
theorem exists_dropLambdaNumber_accessor (ht : t ∈ accessorTriggers) (a s : List Char) :
    ∃ b s', ∀ d, Digits d →
      dropLambdaNumber (a ++ (t ++ (d ++ s))) = b ++ (t ++ (d ++ s')) := by
  obtain ⟨hlambda, hacc⟩ := accessorTriggers_apart_lambdaTrigger t ht
  induction a with
  | nil =>
      refine ⟨[], dropLambdaNumber s, fun d hd => ?_⟩
      have hapart : Apart lambdaTrigger d :=
        apart_of_notMem (t := "$Lambda$".toList) (hd.notMem (by decide))
      rw [List.nil_append, dropLambdaNumber_append hlambda, dropLambdaNumber_append hapart,
        List.nil_append]
  | cons c a ih =>
      by_cases h : lambdaTrigger <+: c :: a
      · obtain ⟨r, hr⟩ := h
        refine ⟨lambdaTrigger ++ dropDottedNumber r, s, fun d _ => ?_⟩
        have hhead (x : List Char) : (t ++ x).head? = some 's' := by
          obtain ⟨t, rfl⟩ := List.head?_eq_some_iff.1 (accessorTriggers_letters t ht).1
          rfl
        have hdigit (x : List Char) : startsWithDigit (t ++ x) = false := by
          rw [startsWithDigit, hhead]
          rfl
        rw [← hr, List.append_assoc, dropLambdaNumber_trigger,
          dropDottedNumber_append (hdigit _) (by rw [hhead]; decide), List.append_assoc]
      · obtain ⟨b, s', hb⟩ := ih
        refine ⟨c :: b, s', fun d hd => ?_⟩
        have hcut := cut_of_apart (t := lambdaTrigger) hacc.tail (c :: a) (d ++ s)
        have hn : ¬ lambdaTrigger <+: c :: (a ++ (t ++ (d ++ s))) := fun h' =>
          h (hcut (c :: a) (List.suffix_refl _) (List.cons_ne_nil c a) h')
        rw [List.cons_append, dropLambdaNumber_cons hn, hb d hd, List.cons_append]

/-- The scan for an accessor drops its number wherever it stands. -/
theorem dropAccessorNumbers_accessor (ht : t ∈ accessorTriggers) (hd : Digits d) (a s : List Char) :
    dropAccessorNumbers (a ++ (t ++ (d ++ s))) = dropAccessorNumbers (a ++ (t ++ s)) := by
  have hscan (x : List Char) : dropAfter t Char.isDigit (a ++ (t ++ x)) =
      dropAfter t Char.isDigit a ++ (t ++ dropAfter t Char.isDigit (x.dropWhile Char.isDigit)) := by
    have hcut := cut_of_apart (accessorTriggers_apart_tail t ht) a x
    have hhead : (t ++ x).head?.any Char.isDigit = false := by
      obtain ⟨t, rfl⟩ := List.head?_eq_some_iff.1 (accessorTriggers_letters t ht).1
      rfl
    rw [dropAfter_append_of_cut hcut hhead, dropAfter_trigger (ne_nil_of_mem_accessorTriggers ht)]
  rw [← dropAccessorNumbers_dropAfter ht, hscan, List.dropWhile_append_of_pos hd, ← hscan,
    dropAccessorNumbers_dropAfter ht]

/-! ### Display names -/

/-- The display name without the number behind a marker. -/
theorem stable_marker (hp : p.getLast? ≠ some '$') (hn : ∀ c ∈ n, isLowerHex c = true)
    (s : List Char) : stable (p ++ (marker ++ (n ++ s))) = stable (p ++ (marker ++ s)) := by
  obtain ⟨b, hb⟩ := exists_dropDynamicNumbers_marker hp
  rw [stable, hb, dropDynamicNumbers_marker_hex hn, ← hb, stable]

/-- The display name without the number of an accessor. -/
theorem stable_accessor (ht : t ∈ accessorTriggers) (hd : Digits d) (p s : List Char) :
    stable (p ++ (t ++ (d ++ s))) = stable (p ++ (t ++ s)) := by
  obtain ⟨hhead, hdot, hdollar⟩ := accessorTriggers_letters t ht
  have hhex : t.head?.any isLowerHex = false := by
    rw [hhead]
    rfl
  obtain ⟨b, hb⟩ := exists_dropDynamicNumbers_dotted hdollar hdot hhex p
  obtain ⟨b', s', hb'⟩ := exists_dropLambdaNumber_accessor ht b (dropDynamicNumbers s)
  have hnone := hb' [] (fun c hc => nomatch hc)
  rw [List.nil_append, List.nil_append] at hnone
  rw [stable, hb, dropDynamicNumbers_append (hd.notMem (by decide)), hb' d hd,
    dropAccessorNumbers_accessor ht hd, stable, hb, hnone]

/-- The display name of a text with a dotted number behind its first lambda trigger. -/
theorem stable_lambda (hp : '$' ∉ p) (hd : Number d) (he : Number e) (s : List Char) :
    stable (p ++ (lambdaTrigger ++ (d ++ '.' :: (e ++ s)))) =
      dropAccessorNumbers
        (p ++ (lambdaTrigger ++ (dropDynamicNumbers s).dropWhile Char.isDigit)) := by
  have hapart : Apart lambdaTrigger p := apart_of_notMem (t := "$Lambda$".toList) hp
  have hdollar : '$' ∉ d ++ '.' :: e := by
    simp [hd.digits.notMem (c := '$') (by decide), he.digits.notMem (c := '$') (by decide)]
  have hnumber (x : List Char) : d ++ '.' :: (e ++ x) = (d ++ '.' :: e) ++ x := by simp
  rw [stable, hnumber, dropDynamicNumbers_lambda hp hdollar (by simp),
    dropLambdaNumber_append hapart, dropLambdaNumber_trigger, ← hnumber,
    dropDottedNumber_number hd he]

/-- Names that differ only in the number behind a marker, in that of an accessor, or in the dotted
one behind their first lambda trigger have the same display name. -/
theorem ofString_counter (s : String) :
    (∀ p h₁ h₂ : String, p.toList.getLast? ≠ some '$' → (∀ c ∈ h₁.toList, isLowerHex c = true) →
      (∀ c ∈ h₂.toList, isLowerHex c = true) →
      ofString (p ++ "$$" ++ h₁ ++ s) = ofString (p ++ "$$" ++ h₂ ++ s)) ∧
    (∀ p t d₁ d₂ : String, t.toList ∈ accessorTriggers → Digits d₁.toList → Digits d₂.toList →
      ofString (p ++ t ++ d₁ ++ s) = ofString (p ++ t ++ d₂ ++ s)) ∧
    ∀ p d₁ e₁ d₂ e₂ : String, '$' ∉ p.toList → Number d₁.toList → Number e₁.toList →
      Number d₂.toList → Number e₂.toList →
      ofString (p ++ "$$Lambda$" ++ d₁ ++ "." ++ e₁ ++ s) =
        ofString (p ++ "$$Lambda$" ++ d₂ ++ "." ++ e₂ ++ s) := by
  have hmarker : "$$".toList = marker := by decide +kernel
  have hlambda : "$$Lambda$".toList = lambdaTrigger := rfl
  have hdot : ".".toList = ['.'] := by decide +kernel
  refine ⟨fun p h₁ h₂ hp hh₁ hh₂ => ?_, fun p t d₁ d₂ ht hd₁ hd₂ => ?_, ?_⟩
  · simp only [← String.toList_inj, toList_ofString, String.toList_append, List.append_assoc,
      hmarker]
    rw [stable_marker hp hh₁, stable_marker hp hh₂]
  · simp only [← String.toList_inj, toList_ofString, String.toList_append, List.append_assoc]
    rw [stable_accessor ht hd₁, stable_accessor ht hd₂]
  · intro p d₁ e₁ d₂ e₂ hp hd₁ he₁ hd₂ he₂
    simp only [← String.toList_inj, toList_ofString, String.toList_append, List.append_assoc,
      hlambda, hdot, List.cons_append, List.nil_append]
    rw [stable_lambda hp hd₁ he₁, stable_lambda hp hd₂ he₂]

/-- A marker behind a tag that it closes, an accessor behind a lambda, and a number that goes on
behind the one of a lambda. -/
theorem ofString_counter_mixed :
    (("a$$EnhancerByB".toList.getLast? ≠ some '$' ∧ ∀ c ∈ "12ff".toList, isLowerHex c = true) ∧
      ofString ("a$$EnhancerByB" ++ "$$" ++ "12ff" ++ "3$1") = "a$$$1") ∧
    (("sun.reflect.GeneratedMethodAccessor".toList ∈ accessorTriggers ∧ Digits "42".toList) ∧
      ofString ("$$Lambda$1." ++ "sun.reflect.GeneratedMethodAccessor" ++ "42" ++ "3$1") =
        "$$Lambda$1.sun.reflect.GeneratedMethodAccessor$1") ∧
    (('$' ∉ "a.B".toList ∧ Number "1".toList ∧ Number "20".toList) ∧
      ofString ("a.B" ++ "$$Lambda$" ++ "1" ++ "." ++ "20" ++ "3$1") = "a.B$$Lambda$$1") := by
  obtain ⟨hmarker, haccessor, hlambda⟩ := ofString_counter "3$1"
  have hp : "a$$EnhancerByB".toList.getLast? ≠ some '$' := by decide +kernel
  have hhex : ∀ c ∈ "12ff".toList, isLowerHex c = true := List.all_eq_true.1 (by decide +kernel)
  have hnone : ∀ c ∈ "".toList, isLowerHex c = true := List.all_eq_true.1 (by decide +kernel)
  have ht : "sun.reflect.GeneratedMethodAccessor".toList ∈ accessorTriggers := by decide +kernel
  have hd : Digits "42".toList := by decide +kernel
  have hdollar : '$' ∉ "a.B".toList := by decide +kernel
  have hone : Number "1".toList := by decide +kernel
  have htwenty : Number "20".toList := by decide +kernel
  refine ⟨⟨⟨hp, hhex⟩, ?_⟩, ⟨⟨ht, hd⟩, ?_⟩, ⟨hdollar, hone, htwenty⟩, ?_⟩
  · exact (hmarker _ _ "" hp hhex hnone).trans (by decide +kernel)
  · exact (haccessor _ _ _ "" ht hd (by decide +kernel)).trans (by decide +kernel)
  · exact (hlambda _ _ _ _ _ hdollar hone htwenty htwenty hone).trans (by decide +kernel)

end StackProfile.DisplayName
