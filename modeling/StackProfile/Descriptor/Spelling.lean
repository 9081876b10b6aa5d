import StackProfile.Descriptor.Reading

/-! # Source code spellings of whole descriptors

A class file separates packages by slashes, source code by dots.  `parameterList` spells the
arguments of a method descriptor, `fieldType` the type of a field descriptor.

Main lemma: text that does not begin with a parenthesis is no method descriptor and is kept
(`parameterList_of_head_ne`). -/

namespace StackProfile.Descriptor

/-- The text with dots for slashes. -/
def dotted (s : List Char) : List Char := s.map fun c => if c = '/' then '.' else c

/-- The argument list of a method descriptor, or any other text as it is. -/
def parameterList (s : List Char) : List Char :=
  if s.head? = some '(' then (readSignature (readField maxNesting) (dotted s)).text else s

/-- The type of a field descriptor. -/
def fieldType (s : List Char) : List Char := dotted (readField maxNesting s).text

/-- A method descriptor with its result, packages separated as the descriptor has them. -/
def methodType (s : List Char) : List Char := (readMethod (readField maxNesting) s).text

@[simp] theorem dotted_nil : dotted [] = [] := rfl

@[simp] theorem dotted_append (s t : List Char) : dotted (s ++ t) = dotted s ++ dotted t :=
  List.map_append

@[simp] theorem length_dotted (s : List Char) : (dotted s).length = s.length := List.length_map _

theorem parameterList_of_head_ne {s : List Char} (h : s.head? ≠ some '(') : parameterList s = s :=
  if_neg h

end StackProfile.Descriptor
