import StackProfile.Descriptor.Cursor

/-! # Successive readings

A cursor is asked for one reading after the other; each goes on where the one before it stopped.

Main lemmas: a reading spells its piece of what is left of the text and moves the cursor behind it
(`Cursor.read_eq`), and what the piece leaves is a suffix of that (`Call.piece_suffix`). -/

namespace StackProfile.Descriptor

/-- What a cursor can be asked to read. -/
inductive Call where
  | fieldType
  | argumentList
  | methodType
deriving DecidableEq, Repr

namespace Call

/-- What the call reads from the front of a text. -/
def piece : Call → List Char → Piece
  | fieldType, s => (readField maxNesting s).toPiece
  | argumentList, s => readSignature (readField maxNesting) s
  | methodType, s => readMethod (readField maxNesting) s

end Call

/-- An argument list and a method type take at least their parenthesis. -/
theorem Call.piece_suffix_tail {k : Call} {s : List Char}
    (h : k = .fieldType ∨ s.head? = some '(') : (k.piece s).rest <:+ s.tail := by
  cases k with
  | fieldType => exact (readField maxNesting s).rest_suffix
  | argumentList =>
      obtain ⟨s, rfl⟩ := List.head?_eq_some_iff.1 (h.resolve_left Call.noConfusion)
      exact readSignature_suffix _ s
  | methodType =>
      obtain ⟨s, rfl⟩ := List.head?_eq_some_iff.1 (h.resolve_left Call.noConfusion)
      exact readMethod_suffix _ s

/-- Where no parenthesis stands, no argument list and no method type is read. -/
theorem Call.piece_of_head_ne {k : Call} {s : List Char} (hk : k ≠ .fieldType)
    (h : s.head? ≠ some '(') : k.piece s = ⟨[], s⟩ := by
  cases k with
  | fieldType => exact absurd rfl hk
  | argumentList => exact readSignature_of_head_ne _ h
  | methodType => exact readMethod_of_head_ne _ h

theorem Call.piece_suffix (k : Call) (s : List Char) : (k.piece s).rest <:+ s := by
  by_cases h : k = .fieldType ∨ s.head? = some '('
  · exact (Call.piece_suffix_tail h).trans (List.tail_suffix s)
  · obtain ⟨hk, hs⟩ := not_or.1 h
    simp [Call.piece_of_head_ne hk hs]

namespace Cursor

/-- Reads what the call asks for. -/
def read (c : Cursor) : Call → List Char × Cursor
  | .fieldType => c.readFieldType
  | .argumentList => c.readArgumentList
  | .methodType => c.readMethodType

/-- What successive readings spell, each with the cursor behind it. -/
def readAll (c : Cursor) : List Call → List (List Char × Cursor)
  | [] => []
  | k :: ks => c.read k :: (c.read k).2.readAll ks

/-- The cursor behind successive readings. -/
def after (c : Cursor) (ks : List Call) : Cursor := ks.foldl (fun c k => (c.read k).2) c

theorem read_eq (c : Cursor) (k : Call) :
    c.read k = ((k.piece c.rest).text, c.advance (k.piece c.rest).rest) := by
  cases k <;> rfl

end Cursor

end StackProfile.Descriptor
