import Mathlib.Order.Bounds.Basic
import StackProfile.Descriptor.Call
import StackProfile.Proofs.Grammar

/-! # Arguments read one by one

An argument list writes a comma when it sees that another argument follows, and a method type looks
at the last character of its argument list for whether a result follows.  A cursor that reads field
types one after the other, up to where the text ends or a parenthesis is closed, needs neither: the
arguments are what it has read, joined by commas, and the result follows if it has stopped at a
parenthesis.

Main lemmas: a reading moves a cursor on, and so do readings that follow each other (`Moved.trans`,
`moved_behindFields`); arguments are the field types up to their end (`exists_arguments`); and with
their parentheses and a result (`arguments_joined`). -/

namespace StackProfile.Descriptor

/-- What the call reads from the front of a text in which `d` arrays and method types may lie in
each other. -/
def Call.pieceWithin (d : Nat) : Call → List Char → Piece
  | fieldType, s => (readField d s).toPiece
  | argumentList, s => readSignature (readField d) s
  | methodType, s => readMethod (readField d) s

namespace Cursor

/-- Reads what the call asks for, where `d` arrays and method types may lie in each other. -/
def readWithin (d : Nat) (c : Cursor) (k : Call) : List Char × Cursor :=
  ((k.pieceWithin d c.rest).text, c.advance (k.pieceWithin d c.rest).rest)

/-- The cursor behind the next character. -/
def next (c : Cursor) : Cursor := { c with pos := c.pos + 1 }

/-- Whether no argument follows: the text ends, or a parenthesis is closed. -/
def AtListEnd (c : Cursor) : Prop := c.text.length ≤ c.pos ∨ c.text[c.pos]? = some ')'

instance (c : Cursor) : Decidable c.AtListEnd := inferInstanceAs (Decidable (_ ∨ _))

/-- What `n` field types spell that are read one after the other. -/
def fields (d : Nat) (c : Cursor) : Nat → List (List Char)
  | 0 => []
  | n + 1 => (c.readWithin d .fieldType).1 :: fields d (c.readWithin d .fieldType).2 n

/-- The cursor behind `n` field types that are read one after the other. -/
def behindFields (d : Nat) (c : Cursor) : Nat → Cursor
  | 0 => c
  | n + 1 => behindFields d (c.readWithin d .fieldType).2 n

variable {d n : Nat} {c c' c'' : Cursor}

/-- A cursor reads where as much nesting is allowed as there may be at all. -/
theorem read_eq_readWithin (c : Cursor) (k : Call) : c.read k = c.readWithin maxNesting k := by
  cases k <;> rfl

theorem rest_of_getElem {x : Char} (h : c.text[c.pos]? = some x) : c.rest = x :: c.next.rest := by
  obtain ⟨hlt, hx⟩ := List.getElem?_eq_some_iff.1 h
  rw [rest, List.drop_eq_getElem_cons hlt, hx, next, rest]

theorem rest_of_length_le (h : c.text.length ≤ c.pos) : c.rest = [] := List.drop_eq_nil_of_le h

theorem atArgumentsEnd_rest : atArgumentsEnd c.rest = true ↔ c.AtListEnd := by
  rw [atArgumentsEnd, rest, List.head?_drop, AtListEnd]
  cases h : c.text[c.pos]? with
  | none => simpa using h
  | some x =>
      have hlt : c.pos < c.text.length := (List.getElem?_eq_some_iff.1 h).1
      simp [hlt]

/-! ### Moving on -/

/-- `c'` is `c` moved on in its text, but not beyond its end. -/
structure Moved (c c' : Cursor) : Prop where
  text_eq : c'.text = c.text
  pos_le : c.pos ≤ c'.pos
  le_max : c'.pos ≤ max c.pos c.text.length

theorem Moved.refl (c : Cursor) : Moved c c := ⟨rfl, Nat.le_refl _, Nat.le_max_left _ _⟩

theorem Moved.trans (h : Moved c c') (h' : Moved c' c'') : Moved c c'' := by
  obtain ⟨htext, hpos, hmax⟩ := h
  obtain ⟨htext', hpos', hmax'⟩ := h'
  rw [htext] at hmax'
  exact ⟨htext'.trans htext, hpos.trans hpos', by omega⟩

theorem moved_advance (c : Cursor) (left : List Char) : Moved c (c.advance left) :=
  ⟨c.text_advance left, c.pos_le_advance left, c.pos_advance_le left⟩

theorem moved_readWithin (d : Nat) (c : Cursor) (k : Call) : Moved c (c.readWithin d k).2 :=
  c.moved_advance _

theorem moved_next {x : Char} (h : c.text[c.pos]? = some x) : Moved c c.next := by
  have hlt := (List.getElem?_eq_some_iff.1 h).1
  exact ⟨rfl, Nat.le_succ _, Nat.le_trans hlt (Nat.le_max_right _ _)⟩

/-- A cursor that was moved on is told by the text that is left. -/
theorem Moved.advance_rest (h : Moved c c') : c.advance c'.rest = c' := by
  obtain ⟨htext, hpos, hmax⟩ := h
  cases c'
  dsimp only at htext hpos hmax
  subst htext
  simp only [advance, rest, List.length_drop, mk.injEq, true_and]
  omega

theorem moved_behindFields (d : Nat) (c : Cursor) (n : Nat) : Moved c (c.behindFields d n) := by
  induction n generalizing c with
  | zero => exact .refl c
  | succ n ih => exact (c.moved_readWithin d .fieldType).trans (ih _)

/-! ### Arguments -/

/-- What is left behind a field type. -/
theorem rest_readWithin_fieldType (d : Nat) (c : Cursor) :
    (c.readWithin d .fieldType).2.rest = (readField d c.rest).rest :=
  c.advance_rest (readField d c.rest).rest_suffix_self

theorem isLeast_succ (hc : ¬c.AtListEnd)
    (h : IsLeast {m | ((c.readWithin d .fieldType).2.behindFields d m).AtListEnd} n) :
    IsLeast {m | (c.behindFields d m).AtListEnd} (n + 1) := by
  refine ⟨h.1, fun m hm => ?_⟩
  cases m with
  | zero => exact absurd hm hc
  | succ m => exact Nat.succ_le_succ (h.2 hm)

/-- The comma that is written by looking ahead is the one that joins. -/
theorem intercalate_fields_succ
    (h : IsLeast {m | ((c.readWithin d .fieldType).2.behindFields d m).AtListEnd} n) :
    List.intercalate ", ".toList (c.fields d (n + 1)) =
      (readField d c.rest).text ++
        (if atArgumentsEnd (readField d c.rest).rest then
          List.intercalate ", ".toList ((c.readWithin d .fieldType).2.fields d n)
        else ", ".toList ++
          List.intercalate ", ".toList ((c.readWithin d .fieldType).2.fields d n)) := by
  have hend := (c.readWithin d .fieldType).2.atArgumentsEnd_rest
  rw [rest_readWithin_fieldType] at hend
  rw [fields]
  -- Another argument follows unless the next cursor is the first one at an end.
  cases n with
  | zero =>
      rw [if_pos (hend.2 h.1), fields, List.intercalate_singleton]
      exact (List.append_nil _).symm
  | succ n =>
      have hgoes : ¬(c.readWithin d .fieldType).2.AtListEnd := by
        intro hstop
        have hle : n + 1 ≤ 0 := h.2 hstop
        exact Nat.not_succ_le_zero n hle
      rw [if_neg (mt hend.1 hgoes), fields, List.intercalate_cons_cons, List.append_assoc]
      rfl

/-- Arguments are the field types that are read up to the first place at which none follows, joined
by commas. -/
theorem exists_arguments (d : Nat) (c : Cursor) :
    ∃ n, IsLeast {m | (c.behindFields d m).AtListEnd} n ∧
      readArguments (readField d) c.rest =
        ⟨List.intercalate ", ".toList (c.fields d n), (c.behindFields d n).rest⟩ := by
  generalize hs : c.rest = s
  fun_induction readArguments (readField d) s generalizing c with
  | case1 s hend =>
      subst hs
      exact ⟨0, ⟨atArgumentsEnd_rest.1 hend, fun _ _ => Nat.zero_le _⟩, rfl⟩
  | case2 s hend r more ih =>
      subst hs
      obtain ⟨n, hleast, hmore⟩ := ih _ (c.rest_readWithin_fieldType d)
      have htext : more.text = _ := congrArg Piece.text hmore
      have hrest : more.rest = _ := congrArg Piece.rest hmore
      refine ⟨n + 1, isLeast_succ (mt atArgumentsEnd_rest.2 hend) hleast, ?_⟩
      rw [intercalate_fields_succ hleast, htext, hrest]
      rfl

/-! ### Argument lists and method types -/

theorem readWithin_of_piece {k : Call} {text : List Char} (hm : Moved c c')
    (hp : k.pieceWithin d c.rest = ⟨text, c'.rest⟩) : c.readWithin d k = (text, c') := by
  rw [readWithin, hp, hm.advance_rest]

section list

variable {text : List Char} (h : c.text[c.pos]? = some '(') (hm : Moved c.next c')
  (hargs : readArguments (readField d) c.next.rest = ⟨text, c'.rest⟩)

include h hm hargs

/-- Arguments that end at a parenthesis, which is taken with them. -/
theorem readWithin_of_closed (hclosed : c'.text[c'.pos]? = some ')') :
    c.readWithin d .argumentList = ('(' :: text ++ [')'], c'.next) ∧
      c.readWithin d .methodType =
        ((c'.next.readWithin d .fieldType).1 ++ ' ' :: ('(' :: text ++ [')']),
          (c'.next.readWithin d .fieldType).2) := by
  have hmoved : Moved c c'.next := (moved_next h).trans (hm.trans (moved_next hclosed))
  rw [rest_of_getElem hclosed] at hargs
  constructor
  · apply readWithin_of_piece hmoved
    rw [rest_of_getElem h]
    exact readSignature_of_closed hargs
  · apply readWithin_of_piece (hmoved.trans (c'.next.moved_readWithin d .fieldType))
    rw [rest_of_getElem h, rest_readWithin_fieldType]
    exact readMethod_of_closed hargs

/-- Arguments that end with the text. -/
theorem readWithin_of_open (hopen : c'.text.length ≤ c'.pos) :
    c.readWithin d .argumentList = ('(' :: text ++ Fault.missingParen.text, c') ∧
      c.readWithin d .methodType = ('(' :: text ++ Fault.missingParen.text, c') := by
  have hmoved : Moved c c' := (moved_next h).trans hm
  have hrest := rest_of_length_le hopen
  rw [hrest] at hargs
  constructor
  · apply readWithin_of_piece hmoved
    rw [rest_of_getElem h, hrest]
    exact readSignature_of_open hargs
  · apply readWithin_of_piece hmoved
    rw [rest_of_getElem h, hrest]
    exact readMethod_of_open hargs

end list

end Cursor

/-- Where a parenthesis is opened, and however much nesting is allowed there: an argument list is
the field types that are read behind it, one after the other up to the first place where the text
ends or a parenthesis is closed, joined by commas; then comes that parenthesis, which is taken, or
the note on a missing one.  The last character tells which, so a method type goes on to its result,
and puts it and a blank in front, exactly behind a closed list.  Where as much nesting is allowed as
there may be at all, these are the readings of a cursor (`Cursor.read_eq_readWithin`). -/
theorem arguments_joined (d : Nat) {c : Cursor} (h : c.text[c.pos]? = some '(') :
    ∃ n, IsLeast {m | (c.next.behindFields d m).AtListEnd} n ∧
      let stop := c.next.behindFields d n
      let arguments := '(' :: List.intercalate ", ".toList (c.next.fields d n)
      let list := c.readWithin d .argumentList
      let result := list.2.readWithin d .fieldType
      (list =
        if stop.text[stop.pos]? = some ')' then (arguments ++ [')'], stop.next)
        else (arguments ++ Fault.missingParen.text, stop)) ∧
      (list.1.getLast? = some ')' ↔ stop.text[stop.pos]? = some ')') ∧
      (c.readWithin d .methodType =
        if stop.text[stop.pos]? = some ')' then (result.1 ++ ' ' :: list.1, result.2)
        else list) := by
  obtain ⟨n, hleast, hargs⟩ := c.next.exists_arguments d
  have hm := c.next.moved_behindFields d n
  refine ⟨n, hleast, ?_⟩
  dsimp only
  by_cases hclosed : (c.next.behindFields d n).text[(c.next.behindFields d n).pos]? = some ')'
  · obtain ⟨hlist, hmethod⟩ := Cursor.readWithin_of_closed h hm hargs hclosed
    rw [if_pos hclosed, if_pos hclosed, hmethod, hlist]
    exact ⟨rfl, iff_of_true List.getLast?_concat hclosed, rfl⟩
  · have hopen := hleast.1.resolve_right hclosed
    obtain ⟨hlist, hmethod⟩ := Cursor.readWithin_of_open h hm hargs hopen
    rw [if_neg hclosed, if_neg hclosed, hmethod, hlist]
    exact ⟨rfl, iff_of_false (getLast?_missingParen_ne _) hclosed, rfl⟩

/-- A closed list with a method type and an unknown type in it, and an open one that ends in a
method type. -/
theorem arguments_joined_nested :
    let s := "x((J)Z?I)V;".toList
    let t := "(I(J)".toList
    (s[1]? = some '(' ∧ Cursor.read ⟨s, 1⟩ .methodType =
      ("void (boolean (long), <error: unknown type>, int)".toList, ⟨s, 10⟩)) ∧
      (t[0]? = some '(' ∧ Cursor.read ⟨t, 0⟩ .methodType =
        ("(int, <error: end of buffer reached> (long) <Method Signature Error: no ')'>".toList,
          ⟨t, 5⟩)) := by
  intro s t
  have hs : s[1]? = some '(' := rfl
  have ht : t[0]? = some '(' := rfl
  refine ⟨⟨hs, ?_⟩, ht, ?_⟩
  · obtain ⟨n, hleast, hlist, -, hmethod⟩ := arguments_joined maxNesting (c := ⟨s, 1⟩) hs
    have hbefore : ∀ m < 3, ¬(Cursor.behindFields maxNesting ⟨s, 2⟩ m).AtListEnd := by
      decide +kernel
    obtain rfl : n = 3 := hleast.unique
      ⟨by decide +kernel, fun m hm => Nat.le_of_not_lt fun hlt => hbefore m hlt hm⟩
    rw [if_pos (by decide +kernel)] at hlist hmethod
    rw [Cursor.read_eq_readWithin, hmethod, hlist]
    decide +kernel
  · obtain ⟨n, hleast, hlist, -, hmethod⟩ := arguments_joined maxNesting (c := ⟨t, 0⟩) ht
    have hbefore : ∀ m < 2, ¬(Cursor.behindFields maxNesting ⟨t, 1⟩ m).AtListEnd := by
      decide +kernel
    obtain rfl : n = 2 := hleast.unique
      ⟨by decide +kernel, fun m hm => Nat.le_of_not_lt fun hlt => hbefore m hlt hm⟩
    rw [if_neg (by decide +kernel)] at hlist hmethod
    rw [Cursor.read_eq_readWithin, hmethod, hlist]
    decide +kernel

end StackProfile.Descriptor
