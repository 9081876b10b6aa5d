import StackProfile.Descriptor.Call
import StackProfile.Proofs.Grammar

/-! # Dots for slashes before or after reading

Reading a text with dots for slashes spells what the text itself spells, with dots for slashes, and
takes as much of it.  No reading looks at either character: both begin no type, and neither ends a
name or a list of arguments.

Main lemmas: a reader of types that can be exchanged with the replacement makes readers of argument
lists and of method types that can (`Dotting.signature`, `Dotting.method`), so all readings can
(`dotting_readField`), on any text, and with them those of a cursor (`readings_dotted`). -/

namespace StackProfile.Descriptor

variable {c : Char} {s : List Char}

theorem dotted_slash (s : List Char) : dotted ('/' :: s) = '.' :: dotted s := rfl

theorem dotted_cons (h : c ≠ '/') (s : List Char) : dotted (c :: s) = c :: dotted s := by
  rw [dotted, List.map_cons, if_neg h, dotted]

theorem dotted_fault (e : Fault) : dotted e.text = e.text := by
  cases e <;> decide

/-- A character that is neither a slash nor a dot stands where it stood. -/
theorem ite_slash_eq_iff {d : Char} (hslash : d ≠ '/') (hdot : d ≠ '.') :
    (if c = '/' then '.' else c) = d ↔ c = d := by
  split
  · rename_i h
    rw [h]
    exact iff_of_false hdot.symm hslash.symm
  · rfl

theorem head?_dotted_eq_some_iff {d : Char} (hslash : d ≠ '/') (hdot : d ≠ '.') (s : List Char) :
    (dotted s).head? = some d ↔ s.head? = some d := by
  rw [dotted, List.head?_map, Option.map_eq_some_iff]
  simp [ite_slash_eq_iff hslash hdot]

theorem getLast?_dotted_eq_some_iff {d : Char} (hslash : d ≠ '/') (hdot : d ≠ '.')
    (s : List Char) : (dotted s).getLast? = some d ↔ s.getLast? = some d := by
  rw [dotted, List.getLast?_map, Option.map_eq_some_iff]
  simp [ite_slash_eq_iff hslash hdot]

theorem atArgumentsEnd_dotted (s : List Char) : atArgumentsEnd (dotted s) = atArgumentsEnd s := by
  cases s with
  | nil => rfl
  | cons c s =>
      have hc := ite_slash_eq_iff (c := c) (d := ')') (by decide) (by decide)
      rw [Bool.eq_iff_iff, dotted, List.map_cons, atArgumentsEnd_cons, atArgumentsEnd_cons,
        beq_iff_eq, beq_iff_eq, hc]

/-! ### Readers -/

/-- A piece with dots for slashes in what is spelled and in what is left. -/
def Piece.dotted (p : Piece) : Piece := ⟨Descriptor.dotted p.text, Descriptor.dotted p.rest⟩

/-- A class name ends at the same semicolon. -/
theorem readName_dotted (s : List Char) : readName (dotted s) = (readName s).dotted := by
  by_cases hs : ';' ∈ s
  · obtain ⟨name, rest, rfl, hname⟩ := List.eq_append_cons_of_mem hs
    rw [dotted_append, dotted_cons (by decide), readName_append hname,
      readName_append (FieldType.semicolon_not_mem_dotted hname), Piece.dotted]
  · have hs' : ';' ∉ dotted s := FieldType.semicolon_not_mem_dotted hs
    rw [readName_of_not_mem hs, readName_of_not_mem hs', Piece.dotted, dotted_fault, dotted_nil]

/-- A reader that can be exchanged with the replacement of slashes by dots. -/
def Dotting (field : (s : List Char) → Reading s) : Prop :=
  ∀ s, (field (dotted s)).toPiece = (field s).toPiece.dotted

section dotting

variable {field : (s : List Char) → Reading s}

theorem Dotting.arguments (h : Dotting field) (s : List Char) :
    readArguments field (dotted s) = (readArguments field s).dotted := by
  fun_induction readArguments field s with
  | case1 s hend =>
      rw [readArguments_of_end field (by rwa [atArgumentsEnd_dotted])]
      rfl
  | case2 s hend r more ih =>
      have hcomma : dotted ", ".toList = ", ".toList := by decide
      obtain ⟨htext, hrest⟩ := Piece.mk.inj (h s)
      have hend' : ¬atArgumentsEnd (dotted s) = true := by rwa [atArgumentsEnd_dotted]
      rw [readArguments_of_not_end field hend', htext, hrest, ih, atArgumentsEnd_dotted]
      simp only [Piece.dotted, dotted_append]
      by_cases hlast : atArgumentsEnd r.rest = true
      · rw [if_pos hlast, if_pos hlast]
      · rw [if_neg hlast, if_neg hlast, dotted_append, hcomma]

theorem Dotting.signature (h : Dotting field) (s : List Char) :
    readSignature field (dotted s) = (readSignature field s).dotted := by
  by_cases hs : s.head? = some '('
  · obtain ⟨s, rfl⟩ := List.head?_eq_some_iff.1 hs
    have hargs := h.arguments s
    rw [dotted_cons (by decide)]
    rcases readArguments_cases field s with ⟨text, ha⟩ | ⟨text, rest, ha⟩
    · have hopen : dotted ('(' :: text ++ Fault.missingParen.text) =
          '(' :: dotted text ++ Fault.missingParen.text := by
        rw [dotted_append, dotted_cons (by decide), dotted_fault]
      rw [ha, Piece.dotted, dotted_nil] at hargs
      rw [readSignature_of_open hargs, readSignature_of_open ha, Piece.dotted, hopen, dotted_nil]
    · have hclosed : dotted ('(' :: text ++ [')']) = '(' :: dotted text ++ [')'] := by
        rw [dotted_append, dotted_cons (by decide), dotted_cons (by decide), dotted_nil]
      rw [ha, Piece.dotted, dotted_cons (by decide)] at hargs
      rw [readSignature_of_closed hargs, readSignature_of_closed ha, Piece.dotted, hclosed]
  · have hs' : (dotted s).head? ≠ some '(' := by
      rwa [Ne, head?_dotted_eq_some_iff (by decide) (by decide)]
    rw [readSignature_of_head_ne field hs, readSignature_of_head_ne field hs', Piece.dotted,
      dotted_nil]

/-- Whether a result is read is shown by the last character of the arguments, which is the same. -/
theorem Dotting.method (h : Dotting field) (s : List Char) :
    readMethod field (dotted s) = (readMethod field s).dotted := by
  have hs := h.signature s
  have hlast : (readSignature field (dotted s)).text.getLast? = some ')' ↔
      (readSignature field s).text.getLast? = some ')' := by
    rw [hs]
    exact getLast?_dotted_eq_some_iff (by decide) (by decide) _
  by_cases hclosed : (readSignature field s).text.getLast? = some ')'
  · obtain ⟨htext, hrest⟩ := Piece.mk.inj (h (readSignature field s).rest)
    rw [readMethod_of_getLast hclosed, readMethod_of_getLast (hlast.2 hclosed), hs]
    simp only [Piece.dotted, htext, hrest, dotted_append, dotted_cons (show ' ' ≠ '/' by decide)]
  · rw [readMethod_of_not_getLast hclosed, readMethod_of_not_getLast (mt hlast.1 hclosed), hs]

end dotting

/-- A reader of types can be exchanged with the replacement if it can where an array or a method
type begins. -/
theorem dotting_of_nested {d : Nat}
    (h : ∀ c s, c = '[' ∨ c = '(' →
      (readField d (c :: dotted s)).toPiece = (readField d (c :: s)).toPiece.dotted) :
    Dotting (readField d) := by
  intro s
  cases s with
  | nil => rw [dotted_nil, readField_nil, Piece.dotted, dotted_fault, dotted_nil]
  | cons c s =>
      cases c using first_cases with
      | letter p =>
          have hslash : p.letter ≠ '/' := by cases p <;> decide
          rw [dotted_cons hslash, readField_letter, readField_letter, Piece.dotted,
            FieldType.dotted_word]
      | object => rw [dotted_cons (by decide), readField_object, readField_object, readName_dotted]
      | array =>
          rw [dotted_cons (by decide)]
          exact h '[' s (.inl rfl)
      | method =>
          rw [dotted_cons (by decide)]
          exact h '(' s (.inr rfl)
      | unknown c hp hL ha hm =>
          rw [readField_unknown d hp hL ha hm, Piece.dotted, dotted_fault]
          by_cases hslash : c = '/'
          · -- A slash begins no type, and neither does the dot in its place.
            rw [hslash, dotted_slash, readField_unknown d rfl (by decide) (by decide) (by decide)]
          · rw [dotted_cons hslash, readField_unknown d hp hL ha hm]

/-- By induction on the nesting that is still allowed. -/
theorem dotting_readField (d : Nat) : Dotting (readField d) := by
  induction d with
  | zero =>
      apply dotting_of_nested
      intro c s hc
      rw [readField_zero hc, readField_zero hc, Piece.dotted, dotted_fault, dotted_nil]
  | succ d ih =>
      apply dotting_of_nested
      rintro c s (rfl | rfl)
      · have hbrackets : dotted "[]".toList = "[]".toList := by decide
        obtain ⟨htext, hrest⟩ := Piece.mk.inj (ih s)
        rw [readField_array, readField_array, htext, hrest, Piece.dotted, dotted_append, hbrackets]
      · have hs : '(' :: dotted s = dotted ('(' :: s) := (dotted_cons (by decide) s).symm
        rw [readField_method, readField_method, hs, ih.method]

theorem Call.piece_dotted (k : Call) (s : List Char) : k.piece (dotted s) = (k.piece s).dotted := by
  cases k with
  | fieldType => exact dotting_readField maxNesting s
  | argumentList => exact (dotting_readField maxNesting).signature s
  | methodType => exact (dotting_readField maxNesting).method s

/-! ### Cursors -/

namespace Cursor

/-- The cursor at the same position of the text with dots for slashes. -/
def dotted (c : Cursor) : Cursor := ⟨Descriptor.dotted c.text, c.pos⟩

theorem rest_dotted (c : Cursor) : c.dotted.rest = Descriptor.dotted c.rest :=
  List.map_drop.symm

theorem advance_dotted (c : Cursor) (left : List Char) :
    c.dotted.advance (Descriptor.dotted left) = (c.advance left).dotted := by
  rw [advance, rest_dotted, length_dotted, length_dotted]
  rfl

theorem read_dotted (c : Cursor) (k : Call) :
    c.dotted.read k = (Descriptor.dotted (c.read k).1, (c.read k).2.dotted) := by
  rw [read_eq, read_eq, rest_dotted, k.piece_dotted, Piece.dotted, advance_dotted]

theorem readAll_dotted (c : Cursor) (ks : List Call) :
    c.dotted.readAll ks = (c.readAll ks).map fun r => (Descriptor.dotted r.1, r.2.dotted) := by
  induction ks generalizing c with
  | nil => rfl
  | cons k ks ih => rw [readAll, readAll, List.map_cons, read_dotted, ih]

end Cursor

/-- Readings of a text with dots for slashes spell what those of the text spell, with dots for
slashes, and each leaves the cursor at the same position.  So it is the same whether slashes are
replaced before or after reading, for an argument list and for the type of a field. -/
theorem readings_dotted :
    (∀ (c : Cursor) (ks : List Call),
      c.dotted.readAll ks = (c.readAll ks).map fun r => (dotted r.1, r.2.dotted)) ∧
    ∀ s : List Char,
      parameterList s =
          (if s.head? = some '(' then dotted (Cursor.readArgumentList ⟨s, 0⟩).1 else s) ∧
        fieldType s = (Cursor.readFieldType ⟨dotted s, 0⟩).1 := by
  refine ⟨Cursor.readAll_dotted, fun s => ⟨?_, ?_⟩⟩
  · exact congrArg (ite (s.head? = some '(') · s)
      (congrArg Piece.text (Call.piece_dotted .argumentList s))
  · exact (congrArg Piece.text (Call.piece_dotted .fieldType s)).symm

end StackProfile.Descriptor
