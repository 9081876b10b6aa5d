import StackProfile.Native.Symbolizer

/-! # Perf maps that were written

A list of symbols is written as a perf map, one line for each, with line ends of any kind and with
or without a line end after the last symbol.  If the names can be told from the blanks and line ends
around them, loading the map registers the symbols in their order, without a warning.

Main lemmas: lines that were joined by line ends are found again (`lines_append_lineEnd`), so are
the symbols of a written map (`mapLines_write`), and loading it is registering them
(`load_write`). -/

namespace StackProfile

namespace Text

/-- What can end a line. -/
inductive LineEnd where
  | lineFeed
  | crlf
  | carriageReturn
deriving DecidableEq, Repr

/-- The characters of a line end. -/
def LineEnd.text : LineEnd → List Char
  | lineFeed => ['\n']
  | crlf => ['\r', '\n']
  | carriageReturn => ['\r']

/-- No line ends within the text. -/
def OneLine (s : List Char) : Prop := ∀ c ∈ s, c ≠ '\r' ∧ c ≠ '\n'

instance (s : List Char) : Decidable (OneLine s) :=
  -- Not by trying all characters that there are.
  List.decidableBAll (fun c => c ≠ '\r' ∧ c ≠ '\n') s

theorem OneLine.tail {c : Char} {s : List Char} (h : OneLine (c :: s)) : OneLine s :=
  fun d hd => h d (List.mem_cons_of_mem c hd)

theorem oneLine_of_not_isBlank {s : List Char} (h : ∀ c ∈ s, isBlank c = false) : OneLine s := by
  intro c hc
  have hb := h c hc
  constructor
  · rintro rfl
    exact absurd hb (by decide)
  · rintro rfl
    exact absurd hb (by decide)

theorem OneLine.append {s t : List Char} (hs : OneLine s) (ht : OneLine t) : OneLine (s ++ t) := by
  intro c hc
  rcases List.mem_append.1 hc with hc | hc
  · exact hs c hc
  · exact ht c hc

/-- A line feed behind a line end would be taken for a part of it. -/
theorem lines_lineEnd (e : LineEnd) {s : List Char} (h : s.head? ≠ some '\n') :
    lines (e.text ++ s) = [] :: lines s := by
  cases e with
  | lineFeed => exact lines_lineFeed s
  | crlf => exact lines_crlf s
  | carriageReturn => exact lines_return h

theorem lines_append_lineEnd {l : List Char} (hl : OneLine l) (e : LineEnd) {s : List Char}
    (hs : s.head? ≠ some '\n') : lines (l ++ (e.text ++ s)) = l :: lines s := by
  induction l with
  | nil => exact lines_lineEnd e hs
  | cons c l ih =>
      have hc := hl c List.mem_cons_self
      rw [List.cons_append, lines_cons hc.1 hc.2, ih hl.tail]
      rfl

theorem lines_of_oneLine {l : List Char} (hl : OneLine l) (hne : l ≠ []) : lines l = [l] := by
  induction l with
  | nil => exact absurd rfl hne
  | cons c l ih =>
      have hc := hl c List.mem_cons_self
      rw [lines_cons hc.1 hc.2]
      cases l with
      | nil => rfl
      | cons d l =>
          rw [ih hl.tail (List.cons_ne_nil d l)]
          rfl

end Text

/-- A symbol whose name can be told from the blanks and line ends around it. -/
structure Symbol.Writable (s : Symbol) : Prop where
  name_ne_nil : s.name.toList ≠ []
  oneLine : Text.OneLine s.name.toList
  head : ∀ c ∈ s.name.toList.head?, Text.isBlank c = false
  getLast : ∀ c ∈ s.name.toList.getLast?, Text.isBlank c = false

theorem Symbol.writable_iff (s : Symbol) :
    s.Writable ↔ s.name.toList ≠ [] ∧ Text.OneLine s.name.toList ∧
      (s.name.toList.head?.all fun c => !Text.isBlank c) = true ∧
      (s.name.toList.getLast?.all fun c => !Text.isBlank c) = true := by
  simp only [Option.all_eq_true, Bool.not_eq_true']
  constructor
  · intro h
    exact ⟨h.name_ne_nil, h.oneLine, h.head, h.getLast⟩
  · rintro ⟨hne, hone, hhead, hlast⟩
    exact ⟨hne, hone, hhead, hlast⟩

instance (s : Symbol) : Decidable s.Writable := decidable_of_iff' _ s.writable_iff

namespace MapLine

theorem oneLine_write {s : Symbol} (h : s.Writable) : Text.OneLine (write s) := by
  have hex : ∀ a : Int, Text.OneLine (Text.hex a) :=
    fun a => Text.oneLine_of_not_isBlank (Text.not_isBlank_of_mem_hex a)
  have hspace : Text.OneLine [' '] := by decide
  exact (hex s.start).append (hspace.append ((hex s.size).append (hspace.append h.oneLine)))

theorem write_ne_nil (s : Symbol) : write s ≠ [] := by
  simp [write, Text.hex_ne_nil]

theorem head?_write_ne {s : Symbol} (h : s.Writable) (t : List Char) :
    (write s ++ t).head? ≠ some '\n' := by
  obtain ⟨c, r, hw⟩ := List.exists_cons_of_ne_nil (write_ne_nil s)
  have hc := oneLine_write h c (by rw [hw]; exact List.mem_cons_self)
  rw [hw]
  simpa using hc.2

end MapLine

namespace PerfMap

open Text (LineEnd)

/-- The symbols of a map: those with a line end and at last possibly one without. -/
def written (ss : List (Symbol × LineEnd)) (last? : Option Symbol) : List Symbol :=
  ss.map (·.1) ++ last?.toList

/-- The text of a map. -/
def write : List (Symbol × LineEnd) → Option Symbol → List Char
  | [], none => []
  | [], some s => MapLine.write s
  | (s, e) :: ss, last? => MapLine.write s ++ (e.text ++ write ss last?)

variable {ss : List (Symbol × LineEnd)} {last? : Option Symbol}

theorem head?_write_ne (h : ∀ s ∈ written ss last?, s.Writable) :
    (write ss last?).head? ≠ some '\n' := by
  fun_cases write ss last? with
  | case1 => simp
  | case2 s =>
      have hs := MapLine.head?_write_ne (h s (by simp [written])) []
      rwa [List.append_nil] at hs
  | case3 s e ss => exact MapLine.head?_write_ne (h s (by simp [written])) _

/-- Every line of a written map holds its symbol. -/
theorem mapLines_write (h : ∀ s ∈ written ss last?, s.Writable) :
    mapLines (write ss last?) = (written ss last?).map .symbol := by
  have hread : ∀ s ∈ written ss last?, MapLine.ofText (MapLine.write s) = .symbol s :=
    fun s hs => MapLine.ofText_write (h s hs).name_ne_nil (h s hs).head (h s hs).getLast
  induction ss with
  | nil =>
      cases last? with
      | none => rfl
      | some s =>
          have hs : s ∈ written [] (some s) := by simp [written]
          rw [write, mapLines, Text.lines_of_oneLine (MapLine.oneLine_write (h s hs))
            (MapLine.write_ne_nil s), List.map_singleton, hread s hs]
          rfl
  | cons p ss ih =>
      obtain ⟨s, e⟩ := p
      have hs : s ∈ written ((s, e) :: ss) last? := by simp [written]
      have hsub : ∀ s' ∈ written ss last?, s' ∈ written ((s, e) :: ss) last? :=
        fun s' hs' => List.mem_cons_of_mem s hs'
      have hrest : ∀ s' ∈ written ss last?, s'.Writable := fun s' hs' => h s' (hsub s' hs')
      have ih := ih hrest fun s' hs' => hread s' (hsub s' hs')
      rw [mapLines] at ih
      rw [write, mapLines, Text.lines_append_lineEnd (MapLine.oneLine_write (h s hs)) e
        (head?_write_ne hrest), List.map_cons, hread s hs, ih]
      rfl

theorem symbols_map_symbol (ss : List Symbol) : symbols (ss.map .symbol) = ss := by
  simp [symbols, List.filterMap_map, Function.comp_def, MapLine.symbol?]

theorem warnings_map_symbol (path : String) (n : Nat) (ss : List Symbol) :
    warnings path n (ss.map .symbol) = [] := by
  induction ss generalizing n with
  | nil => rfl
  | cons s ss ih => exact ih (n + 1)

end PerfMap

namespace Symbolizer

open Text (LineEnd)

/-- Loading a written map registers its symbols in their order, without a warning. -/
theorem load_write (z : Symbolizer) (path : String) {ss : List (Symbol × LineEnd)}
    {last? : Option Symbol} (h : ∀ s ∈ PerfMap.written ss last?, s.Writable) :
    z.load path (some (String.ofList (PerfMap.write ss last?))) =
      (.ok ⟨(PerfMap.written ss last?).length, []⟩,
        (PerfMap.written ss last?).foldl register z) := by
  simp only [load, registerAll, String.toList_ofList, PerfMap.mapLines_write h,
    PerfMap.symbols_map_symbol, PerfMap.warnings_map_symbol]

/-- A negative start, blanks and a line separator within a name, and every line end; a symbol with
one of the starts was there before, and its name was asked for. -/
theorem load_write_mixed :
    let z : Symbolizer := ((register {} ⟨4096, 16, "g"⟩).nameOf 4100).2
    let ss : List (Symbol × LineEnd) := [(⟨4096, 256, "int f(int,  int)"⟩, .carriageReturn),
      (⟨-1, 0, "#"⟩, .crlf), (⟨8192, -16, "a\u2028b"⟩, .lineFeed)]
    let last : Symbol := ⟨0, 1, "0x"⟩
    String.ofList (PerfMap.write ss (some last)) =
        "1000 100 int f(int,  int)\r-1 0 #\r\n2000 -10 a\u2028b\n0 1 0x" ∧
      ∃ z', z.load "m" (some (String.ofList (PerfMap.write ss (some last)))) =
          (.ok ⟨4, []⟩, z') ∧
        z'.symbols.symbols = [⟨-1, 0, "#"⟩, ⟨0, 1, "0x"⟩, ⟨4096, 16, "g"⟩,
          ⟨4096, 256, "int f(int,  int)"⟩, ⟨8192, -16, "a\u2028b"⟩] ∧
        z'.names = .empty := by
  intro z ss last
  have hw : ∀ s ∈ PerfMap.written ss (some last), s.Writable := by decide +kernel
  exact ⟨by decide +kernel, _, load_write z "m" hw, by decide +kernel, by decide +kernel⟩

end Symbolizer

end StackProfile
