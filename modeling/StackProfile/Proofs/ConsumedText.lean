import StackProfile.Proofs.Grammar
import StackProfile.Proofs.OpenNestings

/-! # What a reading depends on

A reading that stops before the end of the text has seen nothing behind where it stopped, although
it searches for a semicolon as far as the text goes and looks ahead for a closing parenthesis.
Neither does it see what stands before it.

Main lemmas: a reader of types that sees only what it takes makes readers of argument lists and of
method types that do (`Local.signature`, `Local.method`), so all readings do (`local_readField`); a
cursor reads the same in every text with the characters that it took (`Cursor.read_of_agree`) and
behind any other beginning (`Cursor.read_behind`). -/

namespace StackProfile.Descriptor

variable {a r : List Char}

/-- The semicolon that ends a name was taken with it. -/
theorem readName_local (hr : r ≠ []) (hrest : (readName (a ++ r)).rest = r) (t : List Char) :
    readName (a ++ t) = ⟨(readName (a ++ r)).text, t⟩ := by
  by_cases hs : ';' ∈ a ++ r
  · obtain ⟨name, rest, hsplit, hname⟩ := List.eq_append_cons_of_mem hs
    rw [hsplit, readName_append hname] at hrest ⊢
    obtain rfl : rest = r := hrest
    have ha : a ++ rest = (name ++ [';']) ++ rest := by
      rw [hsplit, List.append_assoc, List.singleton_append]
    rw [List.append_cancel_right ha, List.append_assoc, List.singleton_append,
      readName_append hname]
  · rw [readName_of_not_mem hs] at hrest
    exact absurd hrest.symm hr

/-! ### Readers -/

/-- A reader of types that sees only what it takes: if it leaves some text, it reads the same with
any other text in that place. -/
def Local (field : (s : List Char) → Reading s) : Prop :=
  ∀ a r : List Char, r ≠ [] → (field (a ++ r)).rest = r →
    ∀ t, (field (a ++ t)).toPiece = ⟨(field (a ++ r)).text, t⟩

theorem atArgumentsEnd_append_paren (a r t : List Char) :
    atArgumentsEnd (a ++ ')' :: t) = atArgumentsEnd (a ++ ')' :: r) := by
  cases a <;> rfl

section readers

variable {field : (s : List Char) → Reading s}

/-- Arguments up to a parenthesis are read the same whatever stands behind it. -/
theorem Local.arguments (h : Local field)
    (hr : (readArguments field (a ++ ')' :: r)).rest = ')' :: r) (t : List Char) :
    readArguments field (a ++ ')' :: t) =
      ⟨(readArguments field (a ++ ')' :: r)).text, ')' :: t⟩ := by
  generalize hs : a ++ ')' :: r = s at hr ⊢
  fun_induction readArguments field s generalizing a with
  | case1 s hend =>
      obtain rfl : a = [] := List.append_left_eq_self.1 (hs.trans hr)
      exact readArguments_of_end field rfl
  | case2 s hend arg more =>
      rename_i ih
      obtain ⟨b, hb⟩ : ')' :: r <:+ arg.rest := hr ▸ readArguments_suffix field arg.rest
      obtain ⟨taken, htaken⟩ := arg.rest_suffix_self
      -- The first argument took the front of `a`, the arguments behind it took the rest.
      have ha : a = taken ++ b := by
        rw [← htaken, ← hb, ← List.append_assoc] at hs
        exact List.append_cancel_right hs
      have hleft : (field (taken ++ arg.rest)).rest = arg.rest := by rw [htaken]
      have harg := h taken arg.rest (by simp [← hb]) hleft (b ++ ')' :: t)
      rw [htaken] at harg
      have hgoes : ¬atArgumentsEnd (a ++ ')' :: t) = true := by
        rw [atArgumentsEnd_append_paren a r t, hs]
        exact hend
      have hlast : atArgumentsEnd (b ++ ')' :: t) = atArgumentsEnd arg.rest := by
        rw [atArgumentsEnd_append_paren b r t, hb]
      rw [readArguments_of_not_end field hgoes, ha, List.append_assoc, harg, hlast, ih hb hr]

/-- An argument list that leaves some text was closed. -/
theorem Local.signature (h : Local field) (hr : r ≠ [])
    (hrest : (readSignature field ('(' :: (a ++ r))).rest = r) (t : List Char) :
    readSignature field ('(' :: (a ++ t)) =
      ⟨(readSignature field ('(' :: (a ++ r))).text, t⟩ := by
  have hsuffix := readArguments_suffix field (a ++ r)
  rcases readArguments_cases field (a ++ r) with ⟨text, hargs⟩ | ⟨text, rest, hargs⟩
  · rw [readSignature_of_open hargs] at hrest
    exact absurd hrest.symm hr
  · rw [readSignature_of_closed hargs] at hrest ⊢
    obtain rfl : rest = r := hrest
    rw [hargs] at hsuffix
    obtain ⟨b, hb⟩ := hsuffix
    have ha : a ++ rest = (b ++ [')']) ++ rest := by
      rw [← hb, List.append_assoc, List.singleton_append]
    rw [← hb] at hargs
    have hlist := h.arguments (congrArg Piece.rest hargs) t
    rw [hargs] at hlist
    rw [List.append_cancel_right ha, List.append_assoc, List.singleton_append,
      readSignature_of_closed hlist]

/-- A method type that leaves some text has a closed argument list, and its result leaves that
text. -/
theorem Local.method (h : Local field) (hr : r ≠ [])
    (hrest : (readMethod field ('(' :: (a ++ r))).rest = r) (t : List Char) :
    readMethod field ('(' :: (a ++ t)) = ⟨(readMethod field ('(' :: (a ++ r))).text, t⟩ := by
  have hsuffix := readArguments_suffix field (a ++ r)
  rcases readArguments_cases field (a ++ r) with ⟨text, hargs⟩ | ⟨text, rest, hargs⟩
  · rw [readMethod_of_open hargs] at hrest
    exact absurd hrest.symm hr
  · rw [readMethod_of_closed hargs] at hrest ⊢
    have hleft : (field rest).rest = r := hrest
    rw [hargs] at hsuffix
    obtain ⟨b, hb⟩ := hsuffix
    obtain ⟨e, rfl⟩ : r <:+ rest := hleft ▸ (field rest).rest_suffix_self
    have ha : a ++ r = (b ++ ')' :: e) ++ r := by
      rw [← hb, List.append_assoc, List.cons_append]
    rw [← hb] at hargs
    have hlist := h.arguments (congrArg Piece.rest hargs) (e ++ t)
    rw [hargs] at hlist
    rw [List.append_cancel_right ha, List.append_assoc, List.cons_append,
      readMethod_of_closed hlist, h e r hr hleft t]

end readers

/-- A reader of types sees only what it takes, if it does so where an array or a method type
begins. -/
theorem local_of_nested {d : Nat}
    (h : ∀ (c : Char) (a r : List Char), c = '[' ∨ c = '(' → r ≠ [] →
      (readField d (c :: (a ++ r))).rest = r →
        ∀ t, (readField d (c :: (a ++ t))).toPiece = ⟨(readField d (c :: (a ++ r))).text, t⟩) :
    Local (readField d) := by
  intro a r hr hrest t
  cases a with
  | nil =>
      have hlt := (readField d r).length_rest_lt hr
      rw [List.nil_append] at hrest
      rw [hrest] at hlt
      exact absurd hlt (Nat.lt_irrefl _)
  | cons c a =>
      rw [List.cons_append] at hrest ⊢
      cases c using first_cases with
      | letter p =>
          rw [readField_letter] at hrest ⊢
          obtain rfl : a = [] := List.append_left_eq_self.1 hrest
          rw [List.cons_append, readField_letter, List.nil_append]
      | object =>
          rw [readField_object] at hrest ⊢
          rw [List.cons_append, readField_object, readName_local hr hrest]
      | array => exact h '[' a r (.inl rfl) hr hrest t
      | method => exact h '(' a r (.inr rfl) hr hrest t
      | unknown c hp hL ha hm =>
          rw [readField_unknown d hp hL ha hm] at hrest ⊢
          obtain rfl : a = [] := List.append_left_eq_self.1 hrest
          rw [List.cons_append, readField_unknown d hp hL ha hm, List.nil_append]

/-- By induction on the nesting that is still allowed. -/
theorem local_readField (d : Nat) : Local (readField d) := by
  induction d with
  | zero =>
      apply local_of_nested
      intro c a r hc hr hrest
      rw [readField_zero hc] at hrest
      exact absurd hrest.symm hr
  | succ d ih =>
      apply local_of_nested
      rintro c a r (rfl | rfl) hr hrest t
      · rw [readField_array] at hrest ⊢
        rw [readField_array, ih a r hr hrest t]
      · rw [readField_method] at hrest ⊢
        rw [readField_method, ih.method hr hrest t]

/-- A call sees only what it takes, where it reads a field type or stands at a parenthesis. -/
theorem Call.piece_local {k : Call} (hr : r ≠ [])
    (hk : k = .fieldType ∨ (a ++ r).head? = some '(') (hrest : (k.piece (a ++ r)).rest = r)
    (t : List Char) : k.piece (a ++ t) = ⟨(k.piece (a ++ r)).text, t⟩ := by
  have htaken := (k.piece_suffix_tail hk).length_le
  rw [hrest, List.length_tail] at htaken
  have hlen := List.length_pos_iff.2 hr
  cases a with
  | nil =>
      rw [List.nil_append] at htaken
      omega
  | cons c a =>
      cases k with
      | fieldType => exact local_readField maxNesting (c :: a) r hr hrest t
      | argumentList =>
          obtain rfl : c = '(' := by simpa using hk
          exact (local_readField maxNesting).signature hr hrest t
      | methodType =>
          obtain rfl : c = '(' := by simpa using hk
          exact (local_readField maxNesting).method hr hrest t

/-! ### Cursors -/

/-- Texts with the same characters from `p` to `q` have the same piece there. -/
theorem drop_eq_take_append {s t : List Char} {p q : Nat} (hpq : p ≤ q)
    (h : ∀ i, p ≤ i → i < q → t[i]? = s[i]?) :
    t.drop p = (s.drop p).take (q - p) ++ t.drop q := by
  have hpiece : (t.drop p).take (q - p) = (s.drop p).take (q - p) := by
    apply List.ext_getElem?
    intro i
    rw [List.getElem?_take, List.getElem?_take, List.getElem?_drop, List.getElem?_drop]
    split
    · exact h (p + i) (by omega) (by omega)
    · rfl
  have hrest : (t.drop p).drop (q - p) = t.drop q := by
    rw [List.drop_drop, Nat.add_sub_cancel' hpq]
  rw [← hpiece, ← hrest, List.take_append_drop]

namespace Cursor

variable {c : Cursor} {k : Call}

theorem rest_read (c : Cursor) (k : Call) : (c.read k).2.rest = (k.piece c.rest).rest := by
  rw [read_eq]
  exact c.advance_rest (k.piece_suffix c.rest)

/-- A reading that stops before the end is the same in every text with the characters that it
took. -/
theorem read_of_agree (hk : k = .fieldType ∨ c.text[c.pos]? = some '(')
    (hend : (c.read k).2.pos < c.text.length) {t : List Char}
    (h : ∀ i, c.pos ≤ i → i < (c.read k).2.pos → t[i]? = c.text[i]?) :
    read ⟨t, c.pos⟩ k = ((c.read k).1, ⟨t, (c.read k).2.pos⟩) := by
  have hle := c.pos_le_read k
  have hhead : k = .fieldType ∨ c.rest.head? = some '(' := by rwa [rest, List.head?_drop]
  have hlt := pos_lt_read (Nat.lt_of_le_of_lt hle hend) hhead
  have hrest := c.rest_read k
  have hfirst : (c.read k).1 = (k.piece c.rest).text := by rw [read_eq]
  rw [rest, text_read] at hrest
  rw [hfirst]
  generalize (c.read k).2.pos = q at hend h hle hlt hrest ⊢
  have hsplit : c.rest = c.rest.take (q - c.pos) ++ c.text.drop q :=
    drop_eq_take_append hle fun _ _ _ => rfl
  have hagree : t.drop c.pos = c.rest.take (q - c.pos) ++ t.drop q := drop_eq_take_append hle h
  have hleft : c.text.drop q ≠ [] := by
    rw [Ne, List.drop_eq_nil_iff]
    omega
  have hpiece : k.piece (t.drop c.pos) = ⟨(k.piece c.rest).text, t.drop q⟩ := by
    rw [hsplit] at hhead hrest
    have hlocal := Call.piece_local hleft hhead hrest.symm (t.drop q)
    rwa [← hsplit, ← hagree] at hlocal
  -- The last character that was taken stands in both texts.
  have hlast : t[q - 1]? = some c.text[q - 1] := by
    rw [h (q - 1) (by omega) (by omega), List.getElem?_eq_getElem]
  have hlen := (List.getElem?_eq_some_iff.1 hlast).1
  have hread : read ⟨t, c.pos⟩ k = ((k.piece (t.drop c.pos)).text,
      advance ⟨t, c.pos⟩ (k.piece (t.drop c.pos)).rest) := read_eq _ _
  rw [hread, hpiece]
  simp only [advance, rest, List.length_drop, Prod.mk.injEq, mk.injEq, true_and]
  omega

/-- The same place of a text that `u` was put before. -/
def behind (u : List Char) (c : Cursor) : Cursor := ⟨u ++ c.text, u.length + c.pos⟩

theorem rest_behind (u : List Char) (c : Cursor) : (c.behind u).rest = c.rest := by
  rw [rest, behind, List.drop_length_add_append, rest]

theorem advance_behind (u : List Char) (c : Cursor) (left : List Char) :
    (c.behind u).advance left = (c.advance left).behind u := by
  rw [advance, rest_behind, behind, behind, advance, Nat.add_assoc]

theorem read_behind (u : List Char) (c : Cursor) (k : Call) :
    (c.behind u).read k = ((c.read k).1, (c.read k).2.behind u) := by
  rw [read_eq, read_eq, rest_behind, advance_behind]

end Cursor

/-- A reading that stops before the end of its text, of a field type or at a parenthesis, spells the
same and stops at the same position in every text with the same characters from where it begins to
where it stops, whatever stands before and behind them.  In a text that is put behind another one,
every reading spells the same, and the cursor stops later by the length of that. -/
theorem read_of_consumed :
    (∀ (c : Cursor) (k : Call), k = .fieldType ∨ c.text[c.pos]? = some '(' →
      (c.read k).2.pos < c.text.length → ∀ t : List Char,
        (∀ i, c.pos ≤ i → i < (c.read k).2.pos → t[i]? = c.text[i]?) →
          Cursor.read ⟨t, c.pos⟩ k = ((c.read k).1, ⟨t, (c.read k).2.pos⟩)) ∧
      ∀ (u s : List Char) (pos : Nat) (k : Call),
        Cursor.read ⟨u ++ s, u.length + pos⟩ k =
          ((Cursor.read ⟨s, pos⟩ k).1,
            ⟨u ++ s, u.length + (Cursor.read ⟨s, pos⟩ k).2.pos⟩) := by
  refine ⟨fun c k hk hend t h => Cursor.read_of_agree hk hend h, fun u s pos k => ?_⟩
  have hread := Cursor.read_behind u ⟨s, pos⟩ k
  rw [Cursor.behind, Cursor.behind, Cursor.text_read] at hread
  exact hread

/-- A method type with two characters behind it, then with none and another one before it, and then
behind three more. -/
theorem read_of_consumed_method :
    let s := "x(Lp/Q;?[I)VZ;".toList
    let t := "y(Lp/Q;?[I)V".toList
    let u := "abc".toList
    let spelled := "void (p/Q, <error: unknown type>, int[])".toList
    Cursor.read ⟨s, 1⟩ .methodType = (spelled, ⟨s, 12⟩) ∧
      Cursor.read ⟨t, 1⟩ .methodType = (spelled, ⟨t, 12⟩) ∧
      Cursor.read ⟨u ++ s, 4⟩ .methodType = (spelled, ⟨u ++ s, 15⟩) := by
  intro s t u spelled
  obtain ⟨hconsumed, hbehind⟩ := read_of_consumed
  have hread : Cursor.read ⟨s, 1⟩ .methodType = (spelled, ⟨s, 12⟩) := by decide +kernel
  have hagree : ∀ i < 12, 1 ≤ i → t[i]? = s[i]? := by decide
  have hsame := hconsumed ⟨s, 1⟩ .methodType (.inr rfl) (by rw [hread]; decide) t
    (by rw [hread]; exact fun i hl hu => hagree i hu hl)
  have hlater := hbehind u s 1 .methodType
  rw [hread] at hsame hlater
  exact ⟨hread, hsame, hlater⟩

end StackProfile.Descriptor
