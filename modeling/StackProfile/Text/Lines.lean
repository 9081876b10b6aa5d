/-! # Lines of a text

A line ends at a line feed, at a carriage return, or at a carriage return followed by a line feed,
which count as one.  What follows the last line end is a line of its own unless it is empty.

Main lemma: a text that ends in a line feed can be cut there (`lines_append_lineFeed`). -/

namespace StackProfile.Text

/-- Puts a character in front of the first line. -/
def consToFirst (c : Char) : List (List Char) → List (List Char)
  | [] => [[c]]
  | l :: ls => (c :: l) :: ls

/-- The lines of a text, without the characters that end them. -/
def lines : List Char → List (List Char)
  | [] => []
  | '\r' :: '\n' :: s => [] :: lines s
  | '\r' :: s => [] :: lines s
  | '\n' :: s => [] :: lines s
  | c :: s => consToFirst c (lines s)

@[simp] theorem lines_nil : lines [] = [] := rfl

@[simp] theorem lines_lineFeed (s : List Char) : lines ('\n' :: s) = [] :: lines s := rfl

@[simp] theorem lines_crlf (s : List Char) : lines ('\r' :: '\n' :: s) = [] :: lines s := rfl

theorem lines_return {s : List Char} (h : s.head? ≠ some '\n') :
    lines ('\r' :: s) = [] :: lines s := by
  cases s with
  | nil => rfl
  | cons c s =>
      have hc : c ≠ '\n' := fun e => h (by rw [e]; rfl)
      rw [lines]
      intro t e
      exact hc (List.cons.inj e).1

theorem lines_cons {c : Char} (hr : c ≠ '\r') (hn : c ≠ '\n') (s : List Char) :
    lines (c :: s) = consToFirst c (lines s) := by
  rw [lines] <;> simp_all

theorem consToFirst_ne_nil (c : Char) (ls : List (List Char)) : consToFirst c ls ≠ [] := by
  cases ls <;> simp [consToFirst]

theorem consToFirst_append {c : Char} {ls : List (List Char)} (h : ls ≠ []) (ms) :
    consToFirst c (ls ++ ms) = consToFirst c ls ++ ms := by
  cases ls with
  | nil => exact absurd rfl h
  | cons l ls => rfl

theorem lines_eq_nil_iff {s : List Char} : lines s = [] ↔ s = [] := by
  fun_cases lines s <;> simp [consToFirst_ne_nil]

/-- A text that ends in a line feed can be cut there. -/
theorem lines_append_lineFeed (s t : List Char) :
    lines (s ++ '\n' :: t) = lines (s ++ ['\n']) ++ lines t := by
  fun_induction lines s with
  | case1 => simp
  | case2 s ih => simp [ih]
  | case3 s hs ih =>
      cases s with
      | nil => simp
      | cons c s =>
          have hc : c ≠ '\n' := fun e => hs s (by rw [e])
          have e : ∀ u : List Char, lines ('\r' :: (c :: s) ++ u) = [] :: lines (c :: s ++ u) :=
            fun u => lines_return (by simpa using hc)
          rw [e, e, ih]
          rfl
  | case4 s ih => simp [ih]
  | case5 c s _ hr hn ih =>
      have hne : lines (s ++ ['\n']) ≠ [] := fun e => by simp [lines_eq_nil_iff] at e
      rw [List.cons_append, List.cons_append, lines_cons hr hn, lines_cons hr hn, ih,
        consToFirst_append hne]

end StackProfile.Text
