import StackProfile.Proofs.PlainScan

/-! # Names by ranges

A symbol is meant to name the addresses of its range.  Only the symbol nearest to an address is
asked, however, and where ranges nest that one may have ended already: the address is then hidden
from the symbols whose ranges hold it, and shown as its text.

Main lemmas: what a scan answers when the nearest symbol holds the address and when it does not
(`scannedName_of_nearest?`, `scannedName_of_not_holds`), that hidden addresses are the exceptions,
for a scan (`namedByRange_iff`) and after every run (`namedByRange_nameOf_iff`), and that there are
none if no range ends inside another one that holds its start (`not_hidden_of_staggered`). -/

namespace StackProfile

namespace Symbol

variable {ss : List Symbol} {s u : Symbol} {a : Int} {n : String}

theorem holds_iff : s.holds a = true ↔ s.start ≤ a ∧ a < s.start + s.size := by
  simp [holds]

/-- A name of an address that the ranges of the registered symbols account for. -/
structure NamedByRange (registered : List Symbol) (address : Int) (name : String) : Prop where
  held : (∃ s ∈ registered, s.holds address) →
    ∃ s ∈ registered, s.holds address ∧ s.name = name
  unheld : (∀ s ∈ registered, ¬ s.holds address) → name = addressText address

/-- The address lies in the range of a symbol, but the nearest symbol has ended before it. -/
def Hidden (registered : List Symbol) (address : Int) : Prop :=
  ∃ s ∈ registered, s.holds address ∧
    ∃ u, nearest? registered address = some u ∧ u.start + u.size ≤ address

/-- A range that begins inside another one does not end before it. -/
def Staggered (registered : List Symbol) : Prop :=
  ∀ s ∈ registered, ∀ u ∈ registered, s.holds u.start → s.start + s.size ≤ u.start + u.size

/-! ### The nearest symbol -/

/-- A symbol that does not start above an address does not start above the nearest one either. -/
theorem exists_nearest? (hs : s ∈ ss) (ha : s.start ≤ a) :
    ∃ u, nearest? ss a = some u ∧ s.start ≤ u.start := by
  have hmem : s ∈ ss.filter (·.start ≤ a) := List.mem_filter.2 ⟨hs, by simpa using ha⟩
  cases h : nearest? ss a with
  | none =>
      have hnil := highest_eq_nil_iff.1 (List.getLast?_eq_none_iff.1 h)
      rw [hnil] at hmem
      cases hmem
  | some u => exact ⟨u, rfl, (mem_highest.1 (List.mem_of_getLast? h)).2 s hmem⟩

theorem scannedName_of_nearest? (h : nearest? ss a = some u) (hu : u.holds a) :
    scannedName ss a = u.name := by
  unfold scannedName
  rw [h]
  exact if_pos (holds_iff.1 hu).2

/-- An address that the nearest symbol does not hold is shown as its text. -/
theorem scannedName_of_not_holds (h : ∀ u, nearest? ss a = some u → ¬ u.holds a) :
    scannedName ss a = addressText a := by
  unfold scannedName
  cases hu : nearest? ss a with
  | none => rfl
  | some u =>
      have hstart := (mem_of_nearest? hu).2
      have hend : ¬ a < u.start + u.size := fun hlt => h u hu (holds_iff.2 ⟨hstart, hlt⟩)
      exact if_neg hend

/-! ### Hidden addresses -/

theorem not_holds_of_hidden (h : Hidden ss a) : ∀ u, nearest? ss a = some u → ¬ u.holds a := by
  obtain ⟨-, -, -, u, hu, hend⟩ := h
  intro v hv hholds
  obtain rfl := Option.some.inj (hu.symm.trans hv)
  exact absurd (holds_iff.1 hholds).2 (by omega)

/-- An address in the range of a symbol is hidden, or the nearest symbol holds it. -/
theorem hidden_or_nearest? (hs : s ∈ ss) (ha : s.holds a) :
    Hidden ss a ∨ ∃ u, nearest? ss a = some u ∧ u.holds a := by
  obtain ⟨u, hu, -⟩ := exists_nearest? hs (holds_iff.1 ha).1
  by_cases hend : u.start + u.size ≤ a
  · exact .inl ⟨s, hs, ha, u, hu, hend⟩
  · exact .inr ⟨u, hu, holds_iff.2 ⟨(mem_of_nearest? hu).2, by omega⟩⟩

/-- The ranges account for the name of an address, unless the address is hidden and no symbol that
holds it happens to be called like its text. -/
theorem namedByRange_iff (ss : List Symbol) (a : Int) :
    NamedByRange ss a (scannedName ss a) ↔
      (Hidden ss a → ∃ s ∈ ss, s.holds a ∧ s.name = addressText a) := by
  constructor
  · intro h hhidden
    have ⟨s, hs, ha, _⟩ := hhidden
    rw [← scannedName_of_not_holds (not_holds_of_hidden hhidden)]
    exact h.held ⟨s, hs, ha⟩
  · intro h
    refine ⟨?_, fun hnone => ?_⟩
    · rintro ⟨s, hs, ha⟩
      rcases hidden_or_nearest? hs ha with hhidden | ⟨u, hu, hholds⟩
      · rw [scannedName_of_not_holds (not_holds_of_hidden hhidden)]
        exact h hhidden
      · exact ⟨u, (mem_of_nearest? hu).1, hholds, (scannedName_of_nearest? hu hholds).symm⟩
    · exact scannedName_of_not_holds fun u hu => hnone u (mem_of_nearest? hu).1

/-- Ranges may overlap without hiding an address: the nearest symbol starts in every range that
holds the address, so it ends with that range or behind it. -/
theorem not_hidden_of_staggered (h : Staggered ss) (a : Int) : ¬ Hidden ss a := by
  rintro ⟨s, hs, ha, u, hu, hend⟩
  obtain ⟨hstart, hlt⟩ := holds_iff.1 ha
  obtain ⟨hmem, hle⟩ := mem_of_nearest? hu
  obtain ⟨v, hv, hsv⟩ := exists_nearest? hs hstart
  obtain rfl := Option.some.inj (hu.symm.trans hv)
  have hends := h s hs u hmem (holds_iff.2 ⟨hsv, by omega⟩)
  omega

/-- Two ranges that overlap, the later one registered first. -/
example : Staggered [⟨24, 16, "g"⟩, ⟨16, 16, "f"⟩] := by
  unfold Staggered
  decide

end Symbol

namespace Session

open StackProfile.Symbol

variable {k : Nat} {z : Symbolizer}

/-- After every run, the ranges of the registered symbols account for the name of an address exactly
if the address is not hidden, or a symbol that holds it is called like its text. -/
theorem namedByRange_nameOf_iff (exp : Float → Float) {ops : List Op}
    (hz : (after exp ops).symbolizers[k]? = some z) (a : Int) :
    let ss := registered exp k ops
    NamedByRange ss a (z.nameOf a).1 ↔
      (Hidden ss a → ∃ s ∈ ss, s.holds a ∧ s.name = addressText a) := by
  intro ss
  have htruthful : z.Truthful := (coherent_after_any exp ops).truthful k z hz
  have hname : (z.nameOf a).1 = scannedName ss a := by
    rw [← resolve_after exp hz]
    exact congrFun htruthful a
  rw [hname]
  exact namedByRange_iff ss a

/-- An address in two ranges, of which the inner one was registered again with another size. -/
theorem namedByRange_nameOf_inner :
    let ops : List Op := [.openSymbolizer [⟨4096, 256, "outer"⟩, ⟨4112, 8, "inner"⟩],
      .nameAll 0 [4120], .register 0 ⟨4112, 16, "inner again"⟩]
    ∃ z : Symbolizer, (after id ops).symbolizers[0]? = some z ∧
      ¬ Hidden (registered id 0 ops) 4120 ∧
      NamedByRange (registered id 0 ops) 4120 (z.nameOf 4120).1 := by
  intro ops
  have hregistered : registered id 0 ops =
      [⟨4096, 256, "outer"⟩, ⟨4112, 8, "inner"⟩, ⟨4112, 16, "inner again"⟩] := by decide +kernel
  have hnearest : nearest? (registered id 0 ops) 4120 = some ⟨4112, 16, "inner again"⟩ := by
    rw [hregistered]
    decide +kernel
  have hnot : ¬ Hidden (registered id 0 ops) 4120 :=
    fun h => not_holds_of_hidden h _ hnearest (by decide)
  exact ⟨_, rfl, hnot, (@namedByRange_nameOf_iff 0 _ id ops rfl 4120).2 fun h => absurd h hnot⟩

/-- Behind the end of an inner range, the outer one is not asked. -/
theorem nameOf_behind_inner :
    let ops : List Op := [.openSymbolizer [⟨4096, 256, "outer"⟩, ⟨4112, 16, "inner"⟩]]
    ∃ z : Symbolizer, (after id ops).symbolizers[0]? = some z ∧
      (⟨4096, 256, "outer"⟩ : Symbol) ∈ registered id 0 ops ∧
      (⟨4096, 256, "outer"⟩ : Symbol).holds 4200 = true ∧ (z.nameOf 4200).1 = "0x1068" ∧
      ¬ NamedByRange (registered id 0 ops) 4200 (z.nameOf 4200).1 := by
  intro ops
  have hregistered : registered id 0 ops =
      [⟨4096, 256, "outer"⟩, ⟨4112, 16, "inner"⟩] := by decide +kernel
  have hname : ((after id ops).symbolizers[0]?.map fun z => (z.nameOf 4200).1) =
      some "0x1068" := by decide +kernel
  obtain ⟨z, hz, hn⟩ := Option.map_eq_some_iff.1 hname
  have houter : (⟨4096, 256, "outer"⟩ : Symbol) ∈ registered id 0 ops := by
    rw [hregistered]
    exact List.mem_cons_self
  refine ⟨z, hz, houter, by decide, hn, fun h => ?_⟩
  obtain ⟨s, hs, -, hsn⟩ := h.held ⟨_, houter, by decide⟩
  rw [hregistered] at hs
  rw [hn] at hsn
  simp only [List.mem_cons, List.not_mem_nil, or_false] at hs
  rcases hs with rfl | rfl
  all_goals exact absurd hsn (by decide)

end Session

end StackProfile
