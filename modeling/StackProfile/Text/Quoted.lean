import StackProfile.Text.Printable

/-! # Quoted text

`quoted` shows a text in one line: in single quotes, or in double quotes if the text has a single
quote and no double one.  Inside, the backslash and the quote in use get a backslash, and every
character that is not printable is written as an escape of fixed width. -/

namespace StackProfile.Text

/-- The quote for a text. -/
def quoteFor (s : List Char) : Char :=
  if s.contains '\'' && !s.contains '"' then '"' else '\''

/-- A number in lower-case hexadecimal, filled up with zeros to a width. -/
def padHex (width n : Nat) : List Char := (Nat.toDigits 16 n).leftpad width '0'

/-- A character that is not printable, as the shortest of the three escapes that holds it. -/
def escapeCode (n : Nat) : List Char :=
  if n < 0x100 then '\\' :: 'x' :: padHex 2 n
  else if n < 0x10000 then '\\' :: 'u' :: padHex 4 n
  else '\\' :: 'U' :: padHex 8 n

/-- One character of a text in the quotes `q`. -/
def escape (q c : Char) : List Char :=
  if c = q ∨ c = '\\' then ['\\', c]
  else if c = '\t' then ['\\', 't']
  else if c = '\n' then ['\\', 'n']
  else if c = '\r' then ['\\', 'r']
  else if isPrintable c then [c]
  else escapeCode c.toNat

/-- A text in quotes. -/
def quoted (s : List Char) : List Char :=
  quoteFor s :: s.flatMap (escape (quoteFor s)) ++ [quoteFor s]

end StackProfile.Text
