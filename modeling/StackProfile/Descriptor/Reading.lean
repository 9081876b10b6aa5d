import StackProfile.Descriptor.FieldType

/-! # Reading descriptors

`readField` reads one field type from the front of a text and spells it as source code does.  It
reads any text: what is malformed is spelled as a fault, and reading goes on.  Arrays and method
types may lie in each other up to `maxNesting` levels; what is deeper takes the rest of the text
with it.

Every reading of a nonempty text leaves a suffix of its tail (`Reading.rest_suffix`), which is why
reading a list of arguments ends.

Main lemmas: the equations of `readField` by the first character, with the cases of that character
(`first_cases`), where arguments end (`readArguments_cases`), and the suffix that the readers of
argument lists and method types leave (`readArguments_suffix`, `readMethod_suffix`). -/

namespace StackProfile.Descriptor

/-- What can be wrong in a descriptor. -/
inductive Fault where
  | endOfBuffer
  | endOfName
  | unknownType
  | missingParen
deriving DecidableEq, Repr

/-- How a fault is spelled in the place of a type or a closing parenthesis. -/
def Fault.text : Fault → List Char
  | endOfBuffer => "<error: end of buffer reached>".toList
  | endOfName => "<error: end of string reached>".toList
  | unknownType => "<error: unknown type>".toList
  | missingParen => " <Method Signature Error: no ')'>".toList

/-- How many arrays and method types may lie in each other. -/
def maxNesting : Nat := 100

/-- The spelling of what was read, and the text that is left. -/
structure Piece where
  text : List Char
  rest : List Char
deriving DecidableEq, Repr

/-- What reading a type from `s` gives. -/
structure Reading (s : List Char) extends Piece where
  rest_suffix : rest <:+ s.tail

namespace Reading

/-- Every reading of a nonempty text takes at least one character. -/
theorem length_rest_lt {s : List Char} (r : Reading s) (h : s ≠ []) :
    r.rest.length < s.length := by
  have h₁ := r.rest_suffix.length_le
  have h₂ := List.length_pos_iff.2 h
  rw [List.length_tail] at h₁
  omega

theorem rest_suffix_self {s : List Char} (r : Reading s) : r.rest <:+ s :=
  r.rest_suffix.trans (List.tail_suffix s)

end Reading

/-- Whether no further argument follows: at the end of the text and at a closing parenthesis. -/
def atArgumentsEnd (s : List Char) : Bool := s.head?.all (· == ')')

@[simp] theorem atArgumentsEnd_cons (c : Char) (s : List Char) :
    atArgumentsEnd (c :: s) = (c == ')') := rfl

theorem ne_nil_of_atArgumentsEnd {s : List Char} (h : ¬atArgumentsEnd s = true) : s ≠ [] :=
  fun e => h (by rw [e]; rfl)

/-- Reads arguments up to the end of the text or a closing parenthesis, which is left.  After each
argument it looks ahead for whether another one follows, and writes the comma if so. -/
def readArguments (field : (s : List Char) → Reading s) (s : List Char) : Piece :=
  if _h : atArgumentsEnd s then ⟨[], s⟩
  else
    let r := field s
    let more := readArguments field r.rest
    ⟨r.text ++ (if atArgumentsEnd r.rest then more.text else ", ".toList ++ more.text), more.rest⟩
termination_by s.length
decreasing_by exact (field s).length_rest_lt (ne_nil_of_atArgumentsEnd _h)

/-- Reads an argument list in parentheses; reads nothing where none begins. -/
def readSignature (field : (s : List Char) → Reading s) : List Char → Piece
  | '(' :: s =>
    match readArguments field s with
    | ⟨text, []⟩ => ⟨'(' :: text ++ Fault.missingParen.text, []⟩
    | ⟨text, _ :: rest⟩ => ⟨'(' :: text ++ [')'], rest⟩
  | s => ⟨[], s⟩

/-- Reads a method type: an argument list, and a result type if the list was closed, which its
last character shows. -/
def readMethod (field : (s : List Char) → Reading s) (s : List Char) : Piece :=
  let arguments := readSignature field s
  -- The note on a missing parenthesis ends in another character.
  if arguments.text.getLast? = some ')' then
    let result := field arguments.rest
    ⟨result.text ++ ' ' :: arguments.text, result.rest⟩
  else arguments

theorem readArguments_of_end (field : (s : List Char) → Reading s) {s : List Char}
    (h : atArgumentsEnd s = true) : readArguments field s = ⟨[], s⟩ := by
  rw [readArguments, dif_pos h]

theorem readArguments_of_not_end (field : (s : List Char) → Reading s) {s : List Char}
    (h : ¬atArgumentsEnd s = true) :
    readArguments field s =
      ⟨(field s).text ++ (if atArgumentsEnd (field s).rest then
          (readArguments field (field s).rest).text
        else ", ".toList ++ (readArguments field (field s).rest).text),
       (readArguments field (field s).rest).rest⟩ := by
  rw [readArguments, dif_neg h]

theorem readArguments_suffix (field : (s : List Char) → Reading s) (s : List Char) :
    (readArguments field s).rest <:+ s := by
  fun_induction readArguments field s with
  | case1 => exact List.suffix_refl _
  | case2 s _ r _ ih => exact ih.trans r.rest_suffix_self

/-- Where arguments end, no further argument follows. -/
theorem atArgumentsEnd_readArguments (field : (s : List Char) → Reading s) (s : List Char) :
    atArgumentsEnd (readArguments field s).rest = true := by
  fun_induction readArguments field s with
  | case1 s h => exact h
  | case2 s _ r _ ih => exact ih

/-- Arguments end with the text or at a closing parenthesis. -/
theorem readArguments_cases (field : (s : List Char) → Reading s) (s : List Char) :
    (∃ text, readArguments field s = ⟨text, []⟩) ∨
      ∃ text rest, readArguments field s = ⟨text, ')' :: rest⟩ := by
  have hend := atArgumentsEnd_readArguments field s
  cases h : readArguments field s with
  | mk text rest =>
      rw [h] at hend
      cases rest with
      | nil => exact .inl ⟨text, rfl⟩
      | cons c rest =>
          obtain rfl : c = ')' := by simpa using hend
          exact .inr ⟨text, rest, rfl⟩

theorem readSignature_of_head_ne (field : (s : List Char) → Reading s) {s : List Char}
    (h : s.head? ≠ some '(') : readSignature field s = ⟨[], s⟩ := by
  rw [readSignature]
  rintro t rfl
  exact h rfl

theorem readMethod_of_head_ne (field : (s : List Char) → Reading s) {s : List Char}
    (h : s.head? ≠ some '(') : readMethod field s = ⟨[], s⟩ := by
  unfold readMethod
  rw [readSignature_of_head_ne field h]
  rfl

theorem readMethod_of_getLast {field : (s : List Char) → Reading s} {s : List Char}
    (h : (readSignature field s).text.getLast? = some ')') :
    readMethod field s =
      ⟨(field (readSignature field s).rest).text ++ ' ' :: (readSignature field s).text,
        (field (readSignature field s).rest).rest⟩ :=
  if_pos h

theorem readMethod_of_not_getLast {field : (s : List Char) → Reading s} {s : List Char}
    (h : (readSignature field s).text.getLast? ≠ some ')') :
    readMethod field s = readSignature field s :=
  if_neg h

theorem readSignature_suffix (field : (s : List Char) → Reading s) (s : List Char) :
    (readSignature field ('(' :: s)).rest <:+ s := by
  have h := readArguments_suffix field s
  rw [readSignature]
  split
  · exact List.nil_suffix
  · rename_i e
    rw [e] at h
    exact (List.suffix_cons _ _).trans h

theorem readMethod_suffix (field : (s : List Char) → Reading s) (s : List Char) :
    (readMethod field ('(' :: s)).rest <:+ s := by
  have h := readSignature_suffix field s
  rw [readMethod]
  split
  · exact (field _).rest_suffix_self.trans h
  · exact h

/-- Reads a class name up to the semicolon that ends it. -/
def readName (s : List Char) : Piece :=
  match s.dropWhile (· ≠ ';') with
  | [] => ⟨Fault.endOfName.text, []⟩
  | _ :: rest => ⟨s.takeWhile (· ≠ ';'), rest⟩

theorem readName_suffix (s : List Char) : (readName s).rest <:+ s := by
  have h := List.dropWhile_suffix (· ≠ ';') (l := s)
  rw [readName]
  split
  · exact List.nil_suffix
  · rename_i e
    rw [e] at h
    exact (List.suffix_cons _ _).trans h

/-- Reads one type by its first character, and types within it by `inner`; there is no `inner`
where no further nesting is allowed. -/
def readTagged (inner : Option ((s : List Char) → Reading s)) : (s : List Char) → Reading s
  | [] => ⟨⟨Fault.endOfBuffer.text, []⟩, List.suffix_refl _⟩
  | c :: s =>
    match Primitive.ofLetter? c with
    | some p => ⟨⟨p.word, s⟩, List.suffix_refl _⟩
    | none =>
      if c = 'L' then ⟨readName s, readName_suffix s⟩
      else if c = '[' then
        match inner with
        | none => ⟨⟨Fault.unknownType.text, []⟩, List.nil_suffix⟩
        | some field =>
          ⟨⟨(field s).text ++ "[]".toList, (field s).rest⟩, (field s).rest_suffix_self⟩
      else if c = '(' then
        match inner with
        | none => ⟨⟨Fault.unknownType.text, []⟩, List.nil_suffix⟩
        -- A method type begins at its parenthesis, which has been looked at only.
        | some field => ⟨readMethod field ('(' :: s), readMethod_suffix field s⟩
      else ⟨⟨Fault.unknownType.text, s⟩, List.suffix_refl _⟩

/-- Reads one type in which `depth` arrays and method types may still lie in each other. -/
def readField : (depth : Nat) → (s : List Char) → Reading s
  | 0 => readTagged none
  | depth + 1 => readTagged (some (readField depth))

/-! ### Reading by the first character -/

theorem readField_nil (d : Nat) :
    (readField d []).toPiece = ⟨Fault.endOfBuffer.text, []⟩ := by
  cases d <;> rfl

theorem readField_letter (d : Nat) (p : Primitive) (s : List Char) :
    (readField d (p.letter :: s)).toPiece = ⟨p.word, s⟩ := by
  cases d <;> simp [readField, readTagged]

theorem readField_object (d : Nat) (s : List Char) :
    (readField d ('L' :: s)).toPiece = readName s := by
  cases d <;> rfl

theorem readField_array (d : Nat) (s : List Char) :
    (readField (d + 1) ('[' :: s)).toPiece =
      ⟨(readField d s).text ++ "[]".toList, (readField d s).rest⟩ := rfl

theorem readField_method (d : Nat) (s : List Char) :
    (readField (d + 1) ('(' :: s)).toPiece = readMethod (readField d) ('(' :: s) := rfl

/-- Where no further nesting is allowed, an array or a method type takes the rest of the text. -/
theorem readField_zero {c : Char} (h : c = '[' ∨ c = '(') (s : List Char) :
    (readField 0 (c :: s)).toPiece = ⟨Fault.unknownType.text, []⟩ := by
  rcases h with rfl | rfl <;> rfl

theorem readField_unknown (d : Nat) {c : Char} (hp : Primitive.ofLetter? c = none) (hL : c ≠ 'L')
    (ha : c ≠ '[') (hm : c ≠ '(') (s : List Char) :
    (readField d (c :: s)).toPiece = ⟨Fault.unknownType.text, s⟩ := by
  cases d <;> simp [readField, readTagged, hp, hL, ha, hm]

/-- A character begins a type of one of four forms, or none. -/
@[elab_as_elim]
theorem first_cases {motive : Char → Prop} (letter : ∀ p : Primitive, motive p.letter)
    (object : motive 'L') (array : motive '[') (method : motive '(')
    (unknown : ∀ c, Primitive.ofLetter? c = none → c ≠ 'L' → c ≠ '[' → c ≠ '(' → motive c)
    (c : Char) : motive c := by
  cases hp : Primitive.ofLetter? c with
  | some p =>
      obtain rfl := Primitive.ofLetter?_eq_some_iff.1 hp
      exact letter p
  | none =>
      by_cases hL : c = 'L'
      · exact hL ▸ object
      by_cases ha : c = '['
      · exact ha ▸ array
      by_cases hm : c = '('
      · exact hm ▸ method
      exact unknown c hp hL ha hm

/-- A class name ends at its first semicolon. -/
theorem readName_append {name : List Char} (h : ';' ∉ name) (s : List Char) :
    readName (name ++ ';' :: s) = ⟨name, s⟩ := by
  have hc : ∀ c ∈ name, decide (c ≠ ';') = true := fun c hc =>
    decide_eq_true (ne_of_mem_of_not_mem hc h)
  rw [readName, List.dropWhile_append_of_pos hc, List.takeWhile_append_of_pos hc]
  simp

theorem readName_of_not_mem {s : List Char} (h : ';' ∉ s) :
    readName s = ⟨Fault.endOfName.text, []⟩ := by
  have hc : ∀ c ∈ s, decide (c ≠ ';') = true := fun c hc =>
    decide_eq_true (ne_of_mem_of_not_mem hc h)
  rw [readName, ← s.append_nil, List.dropWhile_append_of_pos hc]
  rfl

end StackProfile.Descriptor
