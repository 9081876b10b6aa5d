/-! # Line tables

A line table maps locations in a method to source lines: each entry gives the line that begins at
its start location.  The entries are kept in increasing order of start and line.

Main lemmas: a table holds just the entries it was made from (`perm_ofEntries`), and a table without
entries keeps locations (`lineAt_of_nil`). -/

namespace StackProfile

/-- One entry of a line table: the line that begins at a start location. -/
structure LineEntry where
  start : Int
  line : Int
deriving DecidableEq, Repr

namespace LineEntry

/-- By start location, then by line. -/
def le (a b : LineEntry) : Bool := a.start < b.start || (a.start == b.start && a.line ≤ b.line)

theorem le_trans {a b c : LineEntry} (h : le a b = true) (h' : le b c = true) :
    le a c = true := by
  simp only [le, Bool.or_eq_true, Bool.and_eq_true, decide_eq_true_eq, beq_iff_eq] at *
  omega

theorem le_total (a b : LineEntry) : (le a b || le b a) = true := by
  simp only [le, Bool.or_eq_true, Bool.and_eq_true, decide_eq_true_eq, beq_iff_eq]
  omega

end LineEntry

/-- Entries in increasing order. -/
structure LineTable where
  entries : List LineEntry := []
  sorted : entries.Pairwise (LineEntry.le · ·) := by exact List.Pairwise.nil
deriving DecidableEq, Repr

namespace LineTable

theorem pairwise_mergeSort (es : List LineEntry) :
    (es.mergeSort LineEntry.le).Pairwise (LineEntry.le · ·) := by
  refine List.pairwise_mergeSort ?_ ?_ es
  · exact fun _ _ _ => LineEntry.le_trans
  · exact LineEntry.le_total

/-- The table of entries given in any order. -/
def ofEntries (es : List LineEntry) : LineTable :=
  ⟨es.mergeSort LineEntry.le, pairwise_mergeSort es⟩

/-- The line of the last entry that starts at or before a location; `line` if the first entry
starts behind it. -/
def lineFrom (line location : Int) : List LineEntry → Int
  | [] => line
  | e :: es => if location < e.start then line else lineFrom e.line location es

/-- The source line of a location.  A table without entries keeps the location; before the first
entry the line is zero. -/
def lineAt (t : LineTable) (location : Int) : Int :=
  if t.entries.isEmpty then location else lineFrom 0 location t.entries

theorem perm_ofEntries (es : List LineEntry) : (ofEntries es).entries.Perm es :=
  List.mergeSort_perm _ _

theorem lineAt_of_nil {t : LineTable} (h : t.entries = []) (x : Int) : t.lineAt x = x := by
  rw [lineAt, h]
  rfl

theorem lineAt_of_ne_nil {t : LineTable} (h : t.entries ≠ []) (x : Int) :
    t.lineAt x = lineFrom 0 x t.entries := by
  rw [lineAt, List.isEmpty_eq_false_iff.2 h]
  rfl

end LineTable

end StackProfile
