import StackProfile.Descriptor.Reading

/-! # Reading at a position

A `Cursor` is a text and the position of the next character to read.  Each of its three readings
spells what it reads and moves the cursor behind it.  A cursor may lie beyond the end of its text;
it stays there, and there is nothing to read.

Main lemmas: a reading moves the cursor as far as the text it took is long (`advance_rest`), and
never beyond the end (`pos_advance_le`). -/

namespace StackProfile.Descriptor

/-- A text and a position in it. -/
structure Cursor where
  text : List Char
  pos : Nat
deriving DecidableEq, Repr

namespace Cursor

/-- The text from the position on. -/
def rest (c : Cursor) : List Char := c.text.drop c.pos

/-- Whether nothing is left to read. -/
def atEnd (c : Cursor) : Bool := c.text.length ≤ c.pos

/-- The cursor where `left` is what is left of the text. -/
def advance (c : Cursor) (left : List Char) : Cursor :=
  { c with pos := c.pos + (c.rest.length - left.length) }

/-- Reads one field type. -/
def readFieldType (c : Cursor) : List Char × Cursor :=
  let r := readField maxNesting c.rest
  (r.text, c.advance r.rest)

/-- Reads an argument list in parentheses. -/
def readArgumentList (c : Cursor) : List Char × Cursor :=
  let r := readSignature (readField maxNesting) c.rest
  (r.text, c.advance r.rest)

/-- Reads a method type with its result. -/
def readMethodType (c : Cursor) : List Char × Cursor :=
  let r := readMethod (readField maxNesting) c.rest
  (r.text, c.advance r.rest)

@[simp] theorem text_advance (c : Cursor) (left : List Char) : (c.advance left).text = c.text := rfl

/-- Behind a reading, the cursor stands before what the reading left. -/
theorem advance_rest (c : Cursor) {left : List Char} (h : left <:+ c.rest) :
    (c.advance left).rest = left := by
  have e : c.rest.drop (c.rest.length - left.length) = left := List.suffix_iff_eq_drop.1 h |>.symm
  change c.text.drop (c.pos + (c.rest.length - left.length)) = left
  rw [← List.drop_drop]
  exact e

theorem pos_le_advance (c : Cursor) (left : List Char) : c.pos ≤ (c.advance left).pos :=
  Nat.le_add_right _ _

theorem pos_advance_le (c : Cursor) (left : List Char) :
    (c.advance left).pos ≤ max c.pos c.text.length := by
  simp only [advance, rest, List.length_drop]
  omega

end Cursor

end StackProfile.Descriptor
