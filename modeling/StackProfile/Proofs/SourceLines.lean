import Mathlib.Data.List.MinMax
import StackProfile.Method.LineTable

/-! # Source lines

A line table keeps its entries sorted, and looks for a location from the front up to the first entry
that starts behind it.  Neither can be told from the lines: a location has the line of the
lexicographically greatest of the entries that it has reached, in whatever order they were given.

Main lemmas: the greatest entry depends only on which entries there are (`latest?_congr`), the scan
of a sorted list finds it (`lineFrom_eq`), and a table made from entries in any order gives its line
(`lineAt_ofEntries`). -/

namespace StackProfile

/-! ### The greatest entry -/

namespace LineEntry

/-- Entries are ordered lexicographically, by start and then by line. -/
instance : LinearOrder LineEntry where
  le a b := a.start < b.start ∨ a.start = b.start ∧ a.line ≤ b.line
  le_refl a := .inr ⟨rfl, Int.le_refl _⟩
  le_trans a b c hab hbc := by omega
  le_antisymm a b hab hba := by
    obtain ⟨hstart, hline⟩ : a.start = b.start ∧ a.line = b.line := by omega
    cases a
    cases b
    exact congrArg₂ mk hstart hline
  le_total a b := by omega
  toDecidableLE a b := inferInstanceAs (Decidable (_ ∨ _ ∧ _))

/-- The greatest of the entries that start at or before a location. -/
def latest? (es : List LineEntry) (location : Int) : Option LineEntry :=
  (es.filter (·.start ≤ location)).argmax id

variable {es es' : List LineEntry} {e : LineEntry} {x : Int}

theorem le_iff {a b : LineEntry} :
    a ≤ b ↔ a.start < b.start ∨ a.start = b.start ∧ a.line ≤ b.line :=
  Iff.rfl

/-- Tables are sorted by this order. -/
theorem le_eq_true_iff {a b : LineEntry} : le a b = true ↔ a ≤ b := by
  rw [le_iff]
  simp [le]

theorem start_le_of_le {a b : LineEntry} (h : a ≤ b) : a.start ≤ b.start := by
  rw [le_iff] at h
  omega

theorem mem_filter_start : e ∈ es.filter (·.start ≤ x) ↔ e ∈ es ∧ e.start ≤ x := by
  rw [List.mem_filter, decide_eq_true_eq]

theorem latest?_eq_none_iff : latest? es x = none ↔ ∀ e ∈ es, x < e.start := by
  rw [latest?, List.argmax_eq_none, List.filter_eq_nil_iff]
  simp only [decide_eq_true_eq, not_le]

theorem latest?_eq_some_iff :
    latest? es x = some e ↔ (e ∈ es ∧ e.start ≤ x) ∧ ∀ a ∈ es, a.start ≤ x → a ≤ e := by
  have hmax : latest? es x = some e ↔
      e ∈ es.filter (·.start ≤ x) ∧ ∀ a ∈ es.filter (·.start ≤ x), a ≤ e :=
    List.maximum_eq_coe_iff
  simpa only [mem_filter_start, and_imp] using hmax

/-- The greatest entry does not depend on the order of the entries, nor on how often one comes. -/
theorem latest?_congr (h : ∀ e, e ∈ es ↔ e ∈ es') : latest? es x = latest? es' x := by
  apply Option.ext
  intro e
  simp only [latest?_eq_some_iff, h]

/-- In front of greater entries, an entry is the greatest one unless one of them is reached. -/
theorem latest?_cons (h : ∀ a ∈ es, e ≤ a) (hx : e.start ≤ x) :
    latest? (e :: es) x = some ((latest? es x).getD e) := by
  rw [latest?_eq_some_iff]
  cases hlatest : latest? es x with
  | none =>
      have hbehind := latest?_eq_none_iff.1 hlatest
      refine ⟨⟨List.mem_cons_self, hx⟩, fun a ha hax => ?_⟩
      rcases List.mem_cons.1 ha with rfl | ha
      · exact le_rfl
      · exact absurd hax (not_le.2 (hbehind a ha))
  | some m =>
      obtain ⟨⟨hm, hmx⟩, hmax⟩ := latest?_eq_some_iff.1 hlatest
      refine ⟨⟨List.mem_cons_of_mem e hm, hmx⟩, fun a ha hax => ?_⟩
      rcases List.mem_cons.1 ha with rfl | ha
      · exact h m hm
      · exact hmax a ha hax

end LineEntry

/-! ### Tables -/

namespace LineTable

/-- The scan of sorted entries, which stops at the first one behind the location, ends with the
greatest of those that are reached. -/
theorem lineFrom_eq {es : List LineEntry} (h : es.Pairwise (LineEntry.le · ·)) (line x : Int) :
    lineFrom line x es = ((LineEntry.latest? es x).map LineEntry.line).getD line := by
  induction es generalizing line with
  | nil => rfl
  | cons e es ih =>
      obtain ⟨hle, hsorted⟩ := List.pairwise_cons.1 h
      have hfirst : ∀ a ∈ es, e ≤ a := fun a ha => LineEntry.le_eq_true_iff.1 (hle a ha)
      rw [lineFrom]
      by_cases hx : x < e.start
      · -- The entries that are not looked at start behind the location as well.
        have hnone : LineEntry.latest? (e :: es) x = none := by
          rw [LineEntry.latest?_eq_none_iff, List.forall_mem_cons]
          exact ⟨hx, fun a ha => hx.trans_le (LineEntry.start_le_of_le (hfirst a ha))⟩
        rw [if_pos hx, hnone]
        rfl
      · rw [if_neg hx, ih hsorted, LineEntry.latest?_cons hfirst (not_lt.1 hx)]
        cases LineEntry.latest? es x <;> rfl

/-- The line of a location by entries that the table holds in another order. -/
theorem lineAt_of_perm {t : LineTable} {es : List LineEntry} (h : t.entries.Perm es) (x : Int) :
    t.lineAt x =
      if es = [] then x
      else match LineEntry.latest? es x with
        | none => 0
        | some e => e.line := by
  by_cases hnil : es = []
  · subst hnil
    rw [if_pos rfl, lineAt_of_nil h.eq_nil]
  · have hne : t.entries ≠ [] := by
      intro ht
      rw [ht] at h
      exact hnil h.nil_eq.symm
    rw [if_neg hnil, lineAt_of_ne_nil hne, lineFrom_eq t.sorted,
      LineEntry.latest?_congr fun e => h.mem_iff]
    cases LineEntry.latest? es x <;> rfl

/-- The line of a location by a table of entries that are given in any order, some of them perhaps
for one start: without entries it is the location; before the first start it is zero; and from there
on it is the line of the lexicographically greatest entry that starts at or before the location.
Entries in another order give the same lines. -/
theorem lineAt_ofEntries (es : List LineEntry) (x : Int) :
    ((ofEntries es).lineAt x =
      if es = [] then x
      else match LineEntry.latest? es x with
        | none => 0
        | some e => e.line) ∧
      ∀ es' : List LineEntry, es'.Perm es → (ofEntries es').lineAt x = (ofEntries es).lineAt x := by
  have hline := lineAt_of_perm (perm_ofEntries es) x
  refine ⟨hline, fun es' h => ?_⟩
  rw [hline]
  exact lineAt_of_perm ((perm_ofEntries es').trans h) x

/-- Two entries for one start, and locations with negative numbers, in two orders. -/
theorem lineAt_ofEntries_shuffled :
    let es : List LineEntry := [⟨10, -4⟩, ⟨-7, 20⟩, ⟨25, 23⟩, ⟨10, 21⟩]
    let es' : List LineEntry := [⟨25, 23⟩, ⟨10, 21⟩, ⟨10, -4⟩, ⟨-7, 20⟩]
    es'.Perm es ∧ (ofEntries es').lineAt 12 = 21 ∧ (ofEntries es').lineAt (-8) = 0 := by
  intro es es'
  have hperm : es'.Perm es := by decide
  obtain ⟨hline, horder⟩ := lineAt_ofEntries es 12
  obtain ⟨hzero, horder'⟩ := lineAt_ofEntries es (-8)
  exact ⟨hperm, (horder es' hperm).trans (hline.trans (by decide)),
    (horder' es' hperm).trans (hzero.trans (by decide))⟩

end LineTable

end StackProfile
