import StackProfile.Native.Symbolizer

/-! # The lines of a perf map one by one

Each line of a perf map is read without a look at the others: it is blank, holds a symbol, or is
refused with a warning that tells its number.  So a map whose last line is ended can be followed by
another map.  Loading both at once is loading one after the other, except that the lines of the
second are numbered on.

Main lemmas: a map splits where a line feed ends its first part (`mapLines_append`), numbering on
changes nothing but the numbers (`warnings_add`), every line is of one of three sorts
(`length_symbols_add_length_warnings`), and what both say of loading (`load_by_lines`). -/

namespace StackProfile

namespace MapLine

/-- Whether the line holds nothing. -/
def isBlank : MapLine → Bool
  | blank => true
  | _ => false

theorem isBlank_ofText (line : List Char) : (ofText line).isBlank = (Text.strip line).isEmpty := by
  unfold ofText
  cases h : (Text.strip line).isEmpty with
  | true => simp [h, isBlank]
  | false => cases hp : parse? (Text.strip line) <;> simp [h, hp, isBlank]

end MapLine

namespace PerfMap

variable {path : String}

theorem length_mapLines (content : List Char) :
    (mapLines content).length = (Text.lines content).length := List.length_map _

theorem mapLines_append {s : List Char} (h : s = [] ∨ s.getLast? = some '\n') (t : List Char) :
    mapLines (s ++ t) = mapLines s ++ mapLines t := by
  rcases h with rfl | h
  · rfl
  · obtain ⟨s, rfl⟩ := List.getLast?_eq_some_iff.1 h
    rw [List.append_assoc, List.singleton_append, mapLines_append_lineFeed]

/-- The warnings for lines that come with their numbers. -/
def warningsOf (path : String) (ls : List (MapLine × Nat)) : List String :=
  ls.filterMap fun l => l.1.warning? path l.2

theorem warnings_eq (path : String) (n : Nat) (ls : List MapLine) :
    warnings path n ls = warningsOf path (ls.zipIdx n) := by
  induction ls generalizing n with
  | nil => rfl
  | cons l ls ih =>
      unfold warningsOf at ih ⊢
      rw [warnings, ih, List.zipIdx_cons, List.filterMap_cons]
      cases l.warning? path n <;> rfl

/-- A numbered line with its number increased. -/
def numberedOn (k : Nat) (l : MapLine × Nat) : MapLine × Nat := (l.1, l.2 + k)

/-- The warnings for lines that are numbered on tell other numbers and nothing else. -/
theorem warnings_add (path : String) (n k : Nat) (ls : List MapLine) :
    warnings path (k + n) ls = warningsOf path ((ls.zipIdx n).map (numberedOn k)) := by
  rw [warnings_eq, ← List.map_snd_add_zipIdx_eq_zipIdx]
  rfl

/-- Each line gives a symbol, gives a warning, or is blank. -/
theorem length_symbols_add_length_warnings (path : String) (n : Nat) (ls : List MapLine) :
    (symbols ls).length + (warnings path n ls).length + ls.countP MapLine.isBlank = ls.length := by
  induction ls generalizing n with
  | nil => rfl
  | cons l ls ih =>
      have hrest := ih (n + 1)
      unfold symbols at hrest ⊢
      rw [List.filterMap_cons, warnings, List.countP_cons, List.length_append, List.length_cons]
      cases l <;> simp [MapLine.symbol?, MapLine.warning?, MapLine.isBlank] <;> omega

theorem countP_isBlank_mapLines (content : List Char) :
    (mapLines content).countP MapLine.isBlank =
      (Text.lines content).countP fun l => (Text.strip l).isEmpty := by
  unfold mapLines
  rw [List.countP_map]
  congr 1
  funext line
  exact MapLine.isBlank_ofText line

end PerfMap

namespace Symbolizer

open PerfMap

theorem registerAll_append (z : Symbolizer) (ss ts : List Symbol) :
    z.registerAll (ss ++ ts) = (z.registerAll ss).registerAll ts := List.foldl_append

theorem size_registerAll (z : Symbolizer) (ss : List Symbol) :
    (z.registerAll ss).symbols.size = z.symbols.size + ss.length := by
  induction ss generalizing z with
  | nil => rfl
  | cons s ss ih =>
      have hsize : (z.register s).symbols.size = z.symbols.size + 1 := SymbolTable.size_insert _ s
      have hrest := ih (z.register s)
      rw [hsize] at hrest
      rw [List.length_cons]
      change ((z.register s).registerAll ss).symbols.size = _
      omega

/-- A map whose lines are ended and another map behind it are loaded like one after the other, with
the lines of the second one numbered on; and the lines of any map are those that give symbols, those
that give warnings, and those that are blank. -/
theorem load_by_lines (z : Symbolizer) (path : String) {c₁ : String}
    (h : c₁ = "" ∨ c₁.toList.getLast? = some '\n') (c₂ : String) :
    (∃ r₁ r₂ z₁ z₂, z.load path (some c₁) = (.ok r₁, z₁) ∧ z₁.load path (some c₂) = (.ok r₂, z₂) ∧
      r₂.warnings = warningsOf path ((mapLines c₂.toList).zipIdx 1) ∧
      z.load path (some (c₁ ++ c₂)) =
        (.ok ⟨r₁.loaded + r₂.loaded, r₁.warnings ++ warningsOf path
          (((mapLines c₂.toList).zipIdx 1).map (numberedOn (Text.lines c₁.toList).length))⟩, z₂)) ∧
    ∀ c : String, ∃ r z', z.load path (some c) = (.ok r, z') ∧
      r.loaded + r.warnings.length +
          ((Text.lines c.toList).countP fun l => (Text.strip l).isEmpty) =
        (Text.lines c.toList).length ∧
      z'.symbols.size = z.symbols.size + r.loaded := by
  constructor
  · refine ⟨_, _, _, _, rfl, rfl, warnings_eq path 1 _, ?_⟩
    have hcut : c₁.toList = [] ∨ c₁.toList.getLast? = some '\n' := by
      rwa [String.toList_eq_nil_iff]
    have hfirst : 1 + (Text.lines c₁.toList).length = (Text.lines c₁.toList).length + 1 :=
      Nat.add_comm _ _
    simp only [load, String.toList_append, mapLines_append hcut, symbols_append, warnings_append,
      length_mapLines, hfirst, warnings_add, registerAll_append, List.length_append]
  · intro c
    refine ⟨_, _, rfl, ?_, size_registerAll z _⟩
    have hsorts := length_symbols_add_length_warnings path 1 (mapLines c.toList)
    rwa [countP_isBlank_mapLines, length_mapLines] at hsorts

/-- The first map ends in CR LF, and the second one begins with an empty line. -/
theorem load_by_lines_crlf :
    let c₁ := "10 8 f\r\n \nzz\r\n"
    let c₂ := "\n20 8"
    (c₁ = "" ∨ c₁.toList.getLast? = some '\n') ∧
      ∃ z₁ z₂,
        Symbolizer.load {} "m" (some c₁) =
          (.ok ⟨1, ["Warning: skipping malformed perf map line 3 in m: 'zz'"]⟩, z₁) ∧
        z₁.load "m" (some c₂) =
          (.ok ⟨0, ["Warning: skipping malformed perf map line 2 in m: '20 8'"]⟩, z₂) ∧
        Symbolizer.load {} "m" (some (c₁ ++ c₂)) =
          (.ok ⟨1, ["Warning: skipping malformed perf map line 3 in m: 'zz'",
            "Warning: skipping malformed perf map line 5 in m: '20 8'"]⟩, z₂) := by
  intro c₁ c₂
  have hended : c₁ = "" ∨ c₁.toList.getLast? = some '\n' := .inr (by decide +kernel)
  obtain ⟨⟨r₁, r₂, z₁, z₂, h₁, h₂, -, h⟩, -⟩ := load_by_lines {} "m" hended c₂
  have hr₁ : r₁ = ⟨1, ["Warning: skipping malformed perf map line 3 in m: 'zz'"]⟩ :=
    (Except.ok.inj (congrArg Prod.fst h₁)).symm.trans (by decide +kernel)
  have hr₂ : r₂ = ⟨0, ["Warning: skipping malformed perf map line 2 in m: '20 8'"]⟩ :=
    (Except.ok.inj (congrArg Prod.fst h₂)).symm.trans (by decide +kernel)
  have hon : warningsOf "m"
      (((mapLines c₂.toList).zipIdx 1).map (numberedOn (Text.lines c₁.toList).length)) =
        ["Warning: skipping malformed perf map line 5 in m: '20 8'"] := by decide +kernel
  rw [hon] at h
  subst hr₁ hr₂
  exact ⟨hended, z₁, z₂, h₁, h₂, h⟩

end Symbolizer

end StackProfile
