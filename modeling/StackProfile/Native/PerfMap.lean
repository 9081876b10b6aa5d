import StackProfile.Native.SymbolTable
import StackProfile.Text.Blank
import StackProfile.Text.Lines
import StackProfile.Text.Quoted

/-! # Perf maps

A perf map is a text with one symbol per line: start and size in hexadecimal, then the name, which
may contain blanks.  Blank lines hold nothing; a line that is malformed gives a warning.

Main lemmas: a written symbol is read back (`MapLine.ofText_write`), and a map that ends in a line
feed can be followed by another one (`mapLines_append_lineFeed`). -/

namespace StackProfile

/-- What a line of a perf map holds. -/
inductive MapLine where
  | blank
  | symbol (s : Symbol)
  | malformed (text : List Char)
deriving DecidableEq, Repr

namespace MapLine

/-- The symbol that a line without outer blanks spells. -/
def parse? (s : List Char) : Option Symbol := do
  let (start, size, name) ← Text.fields? s
  let start ← Text.readHex? start
  let size ← Text.readHex? size
  return ⟨start, size, String.ofList name⟩

/-- Reads one line. -/
def ofText (line : List Char) : MapLine :=
  let s := Text.strip line
  if s.isEmpty then blank
  else match parse? s with
    | some e => symbol e
    | none => malformed s

/-- The line of a symbol. -/
def write (s : Symbol) : List Char :=
  Text.hex s.start ++ ' ' :: (Text.hex s.size ++ ' ' :: s.name.toList)

/-- The symbol of a line. -/
def symbol? : MapLine → Option Symbol
  | symbol s => some s
  | _ => none

/-- The warning for a line of the map at `path`, by its number. -/
def warning? (path : String) (number : Nat) : MapLine → Option String
  | malformed s =>
    some (s!"Warning: skipping malformed perf map line {number} in {path}: " ++
      String.ofList (Text.quoted s))
  | _ => none

theorem parse?_write {s : Symbol} (hn : s.name.toList ≠ [])
    (hh : ∀ c ∈ s.name.toList.head?, Text.isBlank c = false) : parse? (write s) = some s := by
  rw [parse?, write, Text.fields?_append (Text.not_isBlank_of_mem_hex s.start)
    (Text.not_isBlank_of_mem_hex s.size) (Text.hex_ne_nil _) hh hn]
  simp [Text.readHex?_hex, String.ofList_toList]

/-- A written symbol is read back if its name has no blank at either end. -/
theorem ofText_write {s : Symbol} (hn : s.name.toList ≠ [])
    (hh : ∀ c ∈ s.name.toList.head?, Text.isBlank c = false)
    (hl : ∀ c ∈ s.name.toList.getLast?, Text.isBlank c = false) :
    ofText (write s) = symbol s := by
  obtain ⟨a, r, hr⟩ := List.exists_cons_of_ne_nil (Text.hex_ne_nil s.start)
  have hw : write s = a :: (r ++ ' ' :: (Text.hex s.size ++ ' ' :: s.name.toList)) := by
    rw [write, hr]
    rfl
  have hs : Text.strip (write s) = write s := by
    refine Text.strip_eq_self ?_ ?_
    · rw [hw]
      intro c hc
      exact Text.not_isBlank_of_mem_hex s.start c (by rw [hr]; simp_all)
    · have e : (write s).getLast? = s.name.toList.getLast? := by
        rw [write, List.getLast?_append, List.getLast?_cons, List.getLast?_append,
          List.getLast?_cons]
        cases h : s.name.toList.getLast? with
        | none => exact absurd (List.getLast?_eq_none_iff.1 h) hn
        | some c => rfl
      rwa [e]
  rw [ofText]
  simp only [hs, parse?_write hn hh, List.isEmpty_eq_false_iff.2 (hw ▸ List.cons_ne_nil _ _)]
  rfl

end MapLine

namespace PerfMap

/-- The lines of a perf map. -/
def mapLines (content : List Char) : List MapLine := (Text.lines content).map MapLine.ofText

/-- The symbols of some lines. -/
def symbols (ls : List MapLine) : List Symbol := ls.filterMap MapLine.symbol?

/-- The warnings for some lines, the first of which has number `first`. -/
def warnings (path : String) : (first : Nat) → List MapLine → List String
  | _, [] => []
  | n, l :: ls => (l.warning? path n).toList ++ warnings path (n + 1) ls

theorem mapLines_append_lineFeed (s t : List Char) :
    mapLines (s ++ '\n' :: t) = mapLines (s ++ ['\n']) ++ mapLines t := by
  rw [mapLines, Text.lines_append_lineFeed, List.map_append, mapLines, mapLines]

theorem symbols_append (ls ms : List MapLine) : symbols (ls ++ ms) = symbols ls ++ symbols ms :=
  List.filterMap_append

theorem warnings_append (path : String) (n : Nat) (ls ms : List MapLine) :
    warnings path n (ls ++ ms) = warnings path n ls ++ warnings path (n + ls.length) ms := by
  induction ls generalizing n with
  | nil => rfl
  | cons l ls ih =>
      simp only [List.cons_append, warnings, ih, List.append_assoc, List.length_cons]
      rw [Nat.add_assoc, Nat.add_comm 1]

end PerfMap

end StackProfile
