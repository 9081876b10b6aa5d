import StackProfile.Descriptor.Cursor
import StackProfile.Descriptor.Spelling

/-! # The grammar of descriptors

A descriptor spells a well-named type whose arrays and method types do not lie too deep in each
other.  Reading takes a descriptor from the front of a text and spells its type; where no descriptor
begins, it spells a fault.  All faults contain the character `<`, so in texts without it a fault can
be told from a type.

Main lemmas: a descriptor is read as its type (`readField_code`), a reading without a fault has read
a descriptor (`faithful_readField`), no descriptor begins another one (`code_append_inj`), and all
of this for a cursor and for argument lists (`grammar_readFieldType`). -/

namespace StackProfile.Descriptor

theorem Fault.lt_mem_text (e : Fault) : '<' ∈ e.text := by
  cases e <;> decide

namespace Primitive

theorem letter_injective {p q : Primitive} (h : p.letter = q.letter) : p = q := by
  have hp := ofLetter?_letter p
  rw [h, ofLetter?_letter] at hp
  exact (Option.some.inj hp).symm

/-- Letters are not the characters that begin or end the other descriptors. -/
theorem letter_ne (p : Primitive) :
    p.letter ≠ 'L' ∧ p.letter ≠ '[' ∧ p.letter ≠ '(' ∧ p.letter ≠ ')' := by
  cases p <;> decide

end Primitive

/-! ### Method types -/

theorem readSignature_of_closed {field : (s : List Char) → Reading s} {s text rest : List Char}
    (h : readArguments field s = ⟨text, ')' :: rest⟩) :
    readSignature field ('(' :: s) = ⟨'(' :: text ++ [')'], rest⟩ := by
  rw [readSignature, h]

/-- Behind a closed argument list the result is read. -/
theorem readMethod_of_closed {field : (s : List Char) → Reading s} {s text rest : List Char}
    (h : readArguments field s = ⟨text, ')' :: rest⟩) :
    readMethod field ('(' :: s) =
      ⟨(field rest).text ++ ' ' :: ('(' :: text ++ [')']), (field rest).rest⟩ := by
  have hlast : ('(' :: text ++ [')']).getLast? = some ')' := List.getLast?_concat
  unfold readMethod
  rw [readSignature_of_closed h]
  exact if_pos hlast

/-- An argument list that is not closed takes the rest of the text with a fault. -/
theorem readSignature_of_open {field : (s : List Char) → Reading s} {s text : List Char}
    (h : readArguments field s = ⟨text, []⟩) :
    readSignature field ('(' :: s) = ⟨'(' :: text ++ Fault.missingParen.text, []⟩ := by
  rw [readSignature, h]

theorem getLast?_missingParen_ne (s : List Char) :
    (s ++ Fault.missingParen.text).getLast? ≠ some ')' := by
  have hfault : Fault.missingParen.text.getLast? = some '>' := by decide
  rw [List.getLast?_append, hfault, Option.some_or]
  decide

/-- No result is read behind an argument list that is not closed. -/
theorem readMethod_of_open {field : (s : List Char) → Reading s} {s text : List Char}
    (h : readArguments field s = ⟨text, []⟩) :
    readMethod field ('(' :: s) = ⟨'(' :: text ++ Fault.missingParen.text, []⟩ := by
  have hlast := getLast?_missingParen_ne ('(' :: text)
  unfold readMethod
  rw [readSignature_of_open h]
  exact if_neg hlast

namespace FieldType

/-- A type that can be read: well named, and not nested too deeply. -/
def Readable (t : FieldType) : Prop := t.WellNamed ∧ t.nesting ≤ 100

theorem allWellNamed_iff (ts : List FieldType) : AllWellNamed ts ↔ ∀ t ∈ ts, t.WellNamed := by
  induction ts with
  | nil => simp [AllWellNamed]
  | cons t ts ih => simp [AllWellNamed, ih]

theorem nestings_le_iff (ts : List FieldType) (n : Nat) :
    nestings ts ≤ n ↔ ∀ t ∈ ts, t.nesting ≤ n := by
  induction ts with
  | nil => simp [nestings]
  | cons t ts ih => rw [nestings, Nat.max_le, ih, List.forall_mem_cons]

/-- A descriptor begins with a character that is no closing parenthesis. -/
theorem atArgumentsEnd_code_append (t : FieldType) (s : List Char) :
    atArgumentsEnd (t.code ++ s) = false := by
  cases t with
  | primitive p => simpa [code] using p.letter_ne.2.2.2
  | object name => simp [code]
  | array t => simp [code]
  | method as r => simp [code]

/-! ### Reading a descriptor -/

mutual

/-- A descriptor is read as its type, whatever follows it. -/
theorem readField_code : ∀ (t : FieldType) {d : Nat} (s : List Char), t.WellNamed →
    t.nesting ≤ d → (readField d (t.code ++ s)).toPiece = ⟨t.pretty, s⟩
  | primitive p, d, s, _, _ => by
      rw [code, List.singleton_append, readField_letter, pretty]
  | object name, d, s, hw, _ => by
      have hs : (object name).code ++ s = 'L' :: (name ++ ';' :: s) := by simp [code]
      rw [hs, readField_object, readName_append hw, pretty]
  | array t, d, s, hw, hd => by
      obtain ⟨d, rfl⟩ : ∃ n, d = n + 1 := ⟨d - 1, by rw [nesting] at hd; omega⟩
      have ht := readField_code t (d := d) s hw (by rw [nesting] at hd; omega)
      rw [code, List.cons_append, readField_array, ht, pretty]
  | method as r, d, s, hw, hd => by
      obtain ⟨d, rfl⟩ : ∃ n, d = n + 1 := ⟨d - 1, by rw [nesting] at hd; omega⟩
      have hdas : nestings as ≤ d := by rw [nesting] at hd; omega
      have hdr : r.nesting ≤ d := by rw [nesting] at hd; omega
      have has := readArguments_codes as (d := d) (')' :: (r.code ++ s)) hw.1 hdas rfl
      have hr := readField_code r (d := d) s hw.2 hdr
      have hs : (method as r).code ++ s = '(' :: (codes as ++ ')' :: (r.code ++ s)) := by
        simp [code]
      rw [hs, readField_method, readMethod_of_closed has, hr]
      simp [pretty]

/-- The descriptors of arguments are read one after the other. -/
theorem readArguments_codes : ∀ (ts : List FieldType) {d : Nat} (s : List Char), AllWellNamed ts →
    nestings ts ≤ d → atArgumentsEnd s = true →
      readArguments (readField d) (codes ts ++ s) =
        ⟨List.intercalate ", ".toList (pretties ts), s⟩
  | [], d, s, _, _, hs => by
      rw [codes, List.nil_append, readArguments_of_end _ hs]
      rfl
  | t :: ts, d, s, hw, hd, hs => by
      have hdt : t.nesting ≤ d := by rw [nestings] at hd; omega
      have hdts : nestings ts ≤ d := by rw [nestings] at hd; omega
      have ht := readField_code t (d := d) (codes ts ++ s) hw.1 hdt
      have hts := readArguments_codes ts (d := d) s hw.2 hdts hs
      have hend := atArgumentsEnd_code_append t (codes ts ++ s)
      rw [codes, List.append_assoc, readArguments_of_not_end _ (by simp [hend]), ht, hts]
      cases ts with
      | nil => simp [codes, hs, pretties]
      | cons u us =>
          have hnext := atArgumentsEnd_code_append u (codes us ++ s)
          simp [codes, hnext, pretties, List.intercalate_cons_cons]

end

end FieldType

/-! ### Readings without a fault -/

/-- A piece spells a type, nested `d` deep at most, whose descriptor was taken from the front of a
text. -/
def Spells (d : Nat) (s : List Char) (p : Piece) : Prop :=
  ∃ t : FieldType, t.WellNamed ∧ t.nesting ≤ d ∧ p.text = t.pretty ∧ s = t.code ++ p.rest

/-- A reader that spells types wherever it spells no fault. -/
def Faithful (d : Nat) (field : (s : List Char) → Reading s) : Prop :=
  ∀ s : List Char, '<' ∉ s → '<' ∉ (field s).text → Spells d s (field s).toPiece

section faithful

variable {d : Nat} {field : (s : List Char) → Reading s}

theorem Faithful.arguments (h : Faithful d field) (s : List Char) (hs : '<' ∉ s)
    (hr : '<' ∉ (readArguments field s).text) : ∃ ts : List FieldType,
      FieldType.AllWellNamed ts ∧ FieldType.nestings ts ≤ d ∧
        (readArguments field s).text = List.intercalate ", ".toList (FieldType.pretties ts) ∧
          s = FieldType.codes ts ++ (readArguments field s).rest := by
  fun_induction readArguments field s with
  | case1 s hend => exact ⟨[], trivial, Nat.zero_le d, rfl, rfl⟩
  | case2 s hend r more ih =>
      have hrest : '<' ∉ r.rest := fun hm => hs (r.rest_suffix_self.subset hm)
      obtain ⟨hrt, hmore⟩ := not_or.1 (mt List.mem_append.2 hr)
      obtain ⟨t, htw, htd, htext, hcode⟩ := h s hs hrt
      by_cases hlast : atArgumentsEnd r.rest = true
      · have hm : more = ⟨[], r.rest⟩ := readArguments_of_end field hlast
        refine ⟨[t], ⟨htw, trivial⟩, by simpa [FieldType.nestings] using htd, ?_, ?_⟩
        · simp [hlast, hm, FieldType.pretties, ← htext, r]
        · simpa [FieldType.codes, hm] using hcode
      · rw [if_neg hlast] at hmore
        have hmt : '<' ∉ more.text := fun hm => hmore (List.mem_append_right _ hm)
        obtain ⟨ts, htsw, htsd, htstext, htscode⟩ := ih hrest hmt
        cases ts with
        | nil =>
            -- Reading would have gone on to an end of the arguments, but stands before another one.
            have hend' : atArgumentsEnd more.rest = true :=
              atArgumentsEnd_readArguments field r.rest
            have hsame : r.rest = more.rest := htscode
            exact absurd (hsame ▸ hend') hlast
        | cons u us =>
            refine ⟨t :: u :: us, ⟨htw, htsw⟩, ?_, ?_, ?_⟩
            · rw [FieldType.nestings]
              omega
            · have hmoretext : more.text = List.intercalate ", ".toList
                  (FieldType.pretties (u :: us)) := htstext
              simp [hlast, hmoretext, FieldType.pretties, List.intercalate_cons_cons, ← htext, r]
            · rw [FieldType.codes, List.append_assoc, ← htscode]
              exact hcode

theorem Faithful.method (h : Faithful d field) {s : List Char} (hs : '<' ∉ s)
    (hr : '<' ∉ (readMethod field ('(' :: s)).text) :
    Spells (d + 1) ('(' :: s) (readMethod field ('(' :: s)) := by
  have hargs := h.arguments s hs
  have hsuffix := readArguments_suffix field s
  rcases readArguments_cases field s with ⟨text, ha⟩ | ⟨text, rest, ha⟩
  · rw [readMethod_of_open ha] at hr
    exact absurd (List.mem_append_right _ (Fault.lt_mem_text .missingParen)) hr
  · rw [ha] at hargs hsuffix
    rw [readMethod_of_closed ha] at hr ⊢
    have hrest : '<' ∉ rest := fun hm => hs (hsuffix.subset (List.mem_cons_of_mem _ hm))
    have htext : '<' ∉ text := fun hm => hr (by simp [hm])
    have hresult : '<' ∉ (field rest).text := fun hm => hr (by simp [hm])
    obtain ⟨ts, htsw, htsd, rfl, hts⟩ := hargs htext
    obtain ⟨t, htw, htd, ht, hcode⟩ := h rest hrest hresult
    refine ⟨.method ts t, ⟨htsw, htw⟩, ?_, ?_, ?_⟩
    · rw [FieldType.nesting]
      omega
    · simp [FieldType.pretty, ht]
    · simp [FieldType.code, hts, ← hcode]

end faithful

/-- A class name that is read without a fault ends at its first semicolon. -/
theorem spells_readName {s : List Char} (hr : '<' ∉ (readName s).text) (d : Nat) :
    Spells d ('L' :: s) (readName s) := by
  by_cases hs : ';' ∈ s
  · obtain ⟨name, rest, rfl, hname⟩ := List.eq_append_cons_of_mem hs
    rw [readName_append hname]
    exact ⟨.object name, hname, Nat.zero_le d, rfl, by simp [FieldType.code]⟩
  · rw [readName_of_not_mem hs] at hr
    exact absurd (Fault.lt_mem_text .endOfName) hr

/-- Reading is faithful if it is so where an array or a method type begins. -/
theorem faithful_of_nested {d : Nat}
    (h : ∀ c s, c = '[' ∨ c = '(' → '<' ∉ s → '<' ∉ (readField d (c :: s)).text →
      Spells d (c :: s) (readField d (c :: s)).toPiece) : Faithful d (readField d) := by
  intro s hs hr
  cases s with
  | nil =>
      rw [readField_nil] at hr
      exact absurd (Fault.lt_mem_text .endOfBuffer) hr
  | cons c s =>
      have hs' : '<' ∉ s := fun hm => hs (List.mem_cons_of_mem c hm)
      cases c using first_cases with
      | letter p =>
          rw [readField_letter]
          exact ⟨.primitive p, trivial, Nat.zero_le d, rfl, rfl⟩
      | object =>
          rw [readField_object] at hr ⊢
          exact spells_readName hr d
      | array => exact h '[' s (.inl rfl) hs' hr
      | method => exact h '(' s (.inr rfl) hs' hr
      | unknown c hp hL ha hm =>
          rw [readField_unknown d hp hL ha hm] at hr
          exact absurd (Fault.lt_mem_text .unknownType) hr

/-- Reading is faithful, by induction on the nesting that is still allowed. -/
theorem faithful_readField (d : Nat) : Faithful d (readField d) := by
  induction d with
  | zero =>
      apply faithful_of_nested
      intro c s hc _ hr
      rw [readField_zero hc] at hr
      exact absurd (Fault.lt_mem_text .unknownType) hr
  | succ d ih =>
      apply faithful_of_nested
      rintro c s (rfl | rfl) hs hr
      · rw [readField_array] at hr ⊢
        have hfield : '<' ∉ (readField d s).text := fun hm => hr (List.mem_append_left _ hm)
        obtain ⟨t, htw, htd, ht, hcode⟩ := ih s hs hfield
        refine ⟨.array t, htw, by rw [FieldType.nesting]; omega, ?_, ?_⟩
        · rw [FieldType.pretty, ← ht]
        · rw [FieldType.code, List.cons_append, ← hcode]
      · rw [readField_method] at hr ⊢
        exact ih.method hs hr

/-! ### Descriptors of different types -/

namespace FieldType

mutual

/-- No descriptor begins another one. -/
theorem code_append_inj : ∀ (t u : FieldType) {r s : List Char}, t.WellNamed → u.WellNamed →
    t.code ++ r = u.code ++ s → t = u ∧ r = s
  | primitive p, u, r, s, _, _, h => by
      obtain ⟨hL, ha, hm, -⟩ := p.letter_ne
      cases u with
      | primitive q =>
          obtain ⟨hpq, hrs⟩ : p.letter = q.letter ∧ r = s := by simpa [code] using h
          exact ⟨by rw [Primitive.letter_injective hpq], hrs⟩
      | object name => simp [code, hL] at h
      | array t => simp [code, ha] at h
      | method as t => simp [code, hm] at h
  | object name, u, r, s, ht, hu, h => by
      cases u with
      | primitive q => simp [code, q.letter_ne.1.symm] at h
      | object name' =>
          have hnames : name ++ ';' :: r = name' ++ ';' :: s := by simpa [code] using h
          have hread := readName_append ht r
          rw [hnames, readName_append hu] at hread
          obtain ⟨hname, hrs⟩ := Piece.mk.inj hread
          exact ⟨by rw [hname], hrs.symm⟩
      | array t => simp [code] at h
      | method as t => simp [code] at h
  | array t, u, r, s, ht, hu, h => by
      cases u with
      | primitive q => simp [code, q.letter_ne.2.1.symm] at h
      | object name => simp [code] at h
      | array u =>
          obtain ⟨htu, hrs⟩ := code_append_inj t u ht hu (by simpa [code] using h)
          exact ⟨by rw [htu], hrs⟩
      | method as t => simp [code] at h
  | method as t, u, r, s, ht, hu, h => by
      cases u with
      | primitive q => simp [code, q.letter_ne.2.2.1.symm] at h
      | object name => simp [code] at h
      | array t => simp [code] at h
      | method bs u =>
          have hargs : codes as ++ ')' :: (t.code ++ r) = codes bs ++ ')' :: (u.code ++ s) := by
            simpa [code] using h
          obtain ⟨has, hrest⟩ := codes_append_inj as bs ht.1 hu.1 hargs
          obtain ⟨htu, hrs⟩ := code_append_inj t u ht.2 hu.2 hrest
          exact ⟨by rw [has, htu], hrs⟩

/-- Behind the descriptors of arguments, a closing parenthesis shows their end. -/
theorem codes_append_inj : ∀ (ts us : List FieldType) {r s : List Char}, AllWellNamed ts →
    AllWellNamed us → codes ts ++ ')' :: r = codes us ++ ')' :: s → ts = us ∧ r = s
  | [], us, r, s, _, _, h => by
      cases us with
      | nil => exact ⟨rfl, by simpa [codes] using h⟩
      | cons u us =>
          have hend := atArgumentsEnd_code_append u (codes us ++ ')' :: s)
          rw [codes, codes, List.append_assoc, List.nil_append] at h
          rw [← h] at hend
          cases hend
  | t :: ts, us, r, s, ht, hu, h => by
      cases us with
      | nil =>
          have hend := atArgumentsEnd_code_append t (codes ts ++ ')' :: r)
          rw [codes, codes, List.append_assoc, List.nil_append] at h
          rw [h] at hend
          cases hend
      | cons u us =>
          rw [codes, codes, List.append_assoc, List.append_assoc] at h
          obtain ⟨htu, hrest⟩ := code_append_inj t u ht.1 hu.1 h
          obtain ⟨htsus, hrs⟩ := codes_append_inj ts us ht.2 hu.2 hrest
          exact ⟨by rw [htu, htsus], hrs⟩

end

/-! ### Dots for slashes -/

mutual

/-- The type with dots for slashes in its class names. -/
def dotted : FieldType → FieldType
  | primitive p => primitive p
  | object name => object (Descriptor.dotted name)
  | array t => array t.dotted
  | method as r => method (allDotted as) r.dotted

/-- Each type of a list with dots for slashes. -/
def allDotted : List FieldType → List FieldType
  | [] => []
  | t :: ts => t.dotted :: allDotted ts

end

theorem dotted_word (p : Primitive) : Descriptor.dotted p.word = p.word := by
  cases p <;> decide

theorem dotted_letter (p : Primitive) : Descriptor.dotted [p.letter] = [p.letter] := by
  cases p <;> decide

theorem semicolon_not_mem_dotted {s : List Char} (h : ';' ∉ s) : ';' ∉ Descriptor.dotted s := by
  intro hm
  obtain ⟨c, hc, he⟩ := List.mem_map.1 hm
  split at he
  · exact absurd he (by decide)
  · exact h (he ▸ hc)

mutual

@[simp] theorem code_dotted : ∀ t : FieldType, t.dotted.code = Descriptor.dotted t.code
  | primitive p => by rw [dotted, code, dotted_letter]
  | object name => by simp [dotted, code, Descriptor.dotted]
  | array t => by
      have ht := code_dotted t
      simp [dotted, code, ht, Descriptor.dotted]
  | method as r => by
      have has := codes_allDotted as
      have hr := code_dotted r
      simp [dotted, code, has, hr, Descriptor.dotted]

@[simp] theorem codes_allDotted : ∀ ts : List FieldType,
    codes (allDotted ts) = Descriptor.dotted (codes ts)
  | [] => rfl
  | t :: ts => by
      rw [allDotted, codes, codes, code_dotted t, codes_allDotted ts, dotted_append]

end

theorem dotted_intercalate (ps : List (List Char)) :
    Descriptor.dotted (List.intercalate ", ".toList ps) =
      List.intercalate ", ".toList (ps.map Descriptor.dotted) := by
  induction ps with
  | nil => rfl
  | cons p ps ih =>
      cases ps with
      | nil => simp
      | cons q qs =>
          have hcomma : Descriptor.dotted ", ".toList = ", ".toList := by decide
          simp only [List.map_cons] at ih ⊢
          rw [List.intercalate_cons_cons, dotted_append, dotted_append, ih, hcomma,
            List.intercalate_cons_cons]

mutual

@[simp] theorem pretty_dotted : ∀ t : FieldType, t.dotted.pretty = Descriptor.dotted t.pretty
  | primitive p => by rw [dotted, pretty, dotted_word]
  | object name => rfl
  | array t => by
      have hbrackets : Descriptor.dotted "[]".toList = "[]".toList := by decide
      rw [dotted, pretty, pretty, pretty_dotted t, dotted_append, hbrackets]
  | method as r => by
      have hopen : Descriptor.dotted " (".toList = " (".toList := by decide
      have hclose : Descriptor.dotted [')'] = [')'] := by decide
      rw [dotted, pretty, pretty, pretty_dotted r, pretties_allDotted as, ← dotted_intercalate,
        dotted_append, dotted_append, dotted_append, hopen, hclose]

@[simp] theorem pretties_allDotted : ∀ ts : List FieldType,
    pretties (allDotted ts) = (pretties ts).map Descriptor.dotted
  | [] => rfl
  | t :: ts => by
      rw [allDotted, pretties, pretties, pretty_dotted t, pretties_allDotted ts, List.map_cons]

end

mutual

@[simp] theorem nesting_dotted : ∀ t : FieldType, t.dotted.nesting = t.nesting
  | primitive p => rfl
  | object name => rfl
  | array t => by rw [dotted, nesting, nesting, nesting_dotted t]
  | method as r => by
      rw [dotted, nesting, nesting, nesting_dotted r, nestings_allDotted as]

@[simp] theorem nestings_allDotted : ∀ ts : List FieldType, nestings (allDotted ts) = nestings ts
  | [] => rfl
  | t :: ts => by rw [allDotted, nestings, nestings, nesting_dotted t, nestings_allDotted ts]

end

mutual

theorem wellNamed_dotted : ∀ t : FieldType, t.WellNamed → t.dotted.WellNamed
  | primitive _, _ => trivial
  | object _, h => semicolon_not_mem_dotted h
  | array t, h => wellNamed_dotted t h
  | method as r, h => ⟨allWellNamed_dotted as h.1, wellNamed_dotted r h.2⟩

theorem allWellNamed_dotted : ∀ ts : List FieldType, AllWellNamed ts → AllWellNamed (allDotted ts)
  | [], _ => trivial
  | t :: ts, h => ⟨wellNamed_dotted t h.1, allWellNamed_dotted ts h.2⟩

end

end FieldType

/-! ### Spellings without faults -/

theorem lt_mem_intercalate {ps : List (List Char)} (h : '<' ∈ List.intercalate ", ".toList ps) :
    ∃ p ∈ ps, '<' ∈ p := by
  induction ps with
  | nil => cases h
  | cons p ps ih =>
      cases ps with
      | nil => exact ⟨p, List.mem_singleton_self p, by simpa using h⟩
      | cons q qs =>
          rw [List.intercalate_cons_cons, List.mem_append, List.mem_append] at h
          rcases h with (hp | hcomma) | hqs
          · exact ⟨p, List.mem_cons_self, hp⟩
          · exact absurd hcomma (by decide)
          · obtain ⟨r, hr, hlt⟩ := ih hqs
            exact ⟨r, List.mem_cons_of_mem p hr, hlt⟩

namespace FieldType

mutual

/-- The spelling of a type has the character `<` only from its class names. -/
theorem lt_mem_code : ∀ {t : FieldType}, '<' ∈ t.pretty → '<' ∈ t.code
  | primitive p, h => absurd h (by cases p <;> decide)
  | object name, h => by
      have hname : '<' ∈ name := h
      simp [code, hname]
  | array t, h => by
      have ht : '<' ∈ t.pretty := by simpa [pretty] using h
      simp [code, lt_mem_code ht]
  | method as r, h => by
      have hparts : '<' ∈ r.pretty ∨ '<' ∈ List.intercalate ", ".toList (pretties as) := by
        simpa [pretty] using h
      rcases hparts with hr | has
      · simp [code, lt_mem_code hr]
      · simp [code, lt_mem_codes (lt_mem_intercalate has)]

theorem lt_mem_codes : ∀ {ts : List FieldType}, (∃ p ∈ pretties ts, '<' ∈ p) → '<' ∈ codes ts
  | [], h => by simp [pretties] at h
  | t :: ts, h => by
      have hparts : '<' ∈ t.pretty ∨ ∃ p ∈ pretties ts, '<' ∈ p := by simpa [pretties] using h
      rcases hparts with ht | hts
      · simp [codes, lt_mem_code ht]
      · simp [codes, lt_mem_codes hts]

end

end FieldType

/-! ### Cursors and argument lists -/

namespace Cursor

variable {c : Cursor} {t : FieldType}

/-- Behind the descriptor of a readable type, the cursor has moved on by its length. -/
theorem readFieldType_of_code (ht : t.Readable) (hc : t.code <+: c.rest) :
    c.readFieldType = (t.pretty, ⟨c.text, c.pos + t.code.length⟩) := by
  obtain ⟨s, hs⟩ := hc
  have hread := FieldType.readField_code t (d := maxNesting) s ht.1 ht.2
  rw [hs] at hread
  have hlen : c.rest.length - s.length = t.code.length := by
    rw [← hs, List.length_append]
    omega
  unfold readFieldType advance
  simp only [hread, hlen]

/-- A cursor that reads without a fault stands before the descriptor of a readable type. -/
theorem exists_code_of_readFieldType (hc : '<' ∉ c.text) (hr : '<' ∉ c.readFieldType.1) :
    ∃ t : FieldType, t.Readable ∧ t.code <+: c.rest := by
  have hrest : '<' ∉ c.rest := fun hm => hc ((List.drop_suffix _ _).subset hm)
  obtain ⟨t, htw, htd, -, hcode⟩ := faithful_readField maxNesting c.rest hrest hr
  exact ⟨t, ⟨htw, htd⟩, _, hcode.symm⟩

/-- What is spelled for the descriptor of a readable type contains no fault. -/
theorem lt_not_mem_readFieldType (hc : '<' ∉ c.text) (ht : t.Readable) (hcode : t.code <+: c.rest) :
    '<' ∉ c.readFieldType.1 := by
  intro hr
  rw [readFieldType_of_code ht hcode] at hr
  exact hc ((List.drop_suffix _ _).subset (hcode.subset (FieldType.lt_mem_code hr)))

end Cursor

/-- The descriptors of arguments in parentheses are spelled with dots, whatever follows them. -/
theorem parameterList_of_codes {ts : List FieldType} (hts : ∀ t ∈ ts, t.Readable)
    (tail : List Char) :
    parameterList ('(' :: FieldType.codes ts ++ ')' :: tail) =
      '(' :: dotted (List.intercalate ", ".toList (FieldType.pretties ts)) ++ [')'] := by
  have hw : FieldType.AllWellNamed ts :=
    (FieldType.allWellNamed_iff ts).2 fun t ht => (hts t ht).1
  have hd : FieldType.nestings (FieldType.allDotted ts) ≤ maxNesting := by
    rw [FieldType.nestings_allDotted]
    exact (FieldType.nestings_le_iff ts 100).2 fun t ht => (hts t ht).2
  have htext : dotted ('(' :: FieldType.codes ts ++ ')' :: tail) =
      '(' :: (FieldType.codes (FieldType.allDotted ts) ++ ')' :: dotted tail) := by
    rw [FieldType.codes_allDotted]
    simp [dotted]
  have hread := FieldType.readArguments_codes _ (')' :: dotted tail)
    (FieldType.allWellNamed_dotted ts hw) hd rfl
  unfold parameterList
  rw [if_pos (by rfl), htext, readSignature_of_closed hread, FieldType.pretties_allDotted,
    FieldType.dotted_intercalate]

/-- In a text without the character `<`, a field type is read without a fault exactly where the
descriptor of a readable type begins.  There is only one such type; it is spelled, and the cursor
moves behind its descriptor.  So the arguments of a method descriptor are spelled one by one. -/
theorem grammar_readFieldType :
    (∀ c : Cursor, '<' ∉ c.text →
      ('<' ∉ c.readFieldType.1 ↔ ∃ t : FieldType, t.Readable ∧ t.code <+: c.rest) ∧
        ∀ t : FieldType, t.Readable → t.code <+: c.rest →
          (∀ u : FieldType, u.Readable → u.code <+: c.rest → u = t) ∧
            c.readFieldType = (t.pretty, ⟨c.text, c.pos + t.code.length⟩)) ∧
      ∀ (ts : List FieldType) (tail : List Char), (∀ t ∈ ts, t.Readable) →
        parameterList ('(' :: FieldType.codes ts ++ ')' :: tail) =
          '(' :: dotted (List.intercalate ", ".toList (FieldType.pretties ts)) ++ [')'] := by
  refine ⟨?_, fun ts tail hts => parameterList_of_codes hts tail⟩
  intro c hc
  refine ⟨⟨Cursor.exists_code_of_readFieldType hc, ?_⟩, ?_⟩
  · rintro ⟨t, ht, hcode⟩
    exact Cursor.lt_not_mem_readFieldType hc ht hcode
  · intro t ht hcode
    refine ⟨?_, Cursor.readFieldType_of_code ht hcode⟩
    intro u hu hucode
    obtain ⟨r, hr⟩ := hcode
    obtain ⟨s, hs⟩ := hucode
    exact (FieldType.code_append_inj u t hu.1 ht.1 (hs.trans hr.symm)).1

/-- An array of a method type behind a blank, and an argument list with packages. -/
theorem grammar_readFieldType_nested :
    '<' ∉ " [(ILp/Q;)VZ".toList ∧
      Cursor.readFieldType ⟨" [(ILp/Q;)VZ".toList, 1⟩ =
        ("void (int, p/Q)[]".toList, ⟨" [(ILp/Q;)VZ".toList, 11⟩) ∧
      parameterList "([Lp/Q;J)V".toList = "(p.Q[], long)".toList := by
  obtain ⟨hread, hlist⟩ := grammar_readFieldType
  let q : FieldType := .object "p/Q".toList
  let t : FieldType := .array (.method [.primitive .int, q] (.primitive .void))
  have hq : q.WellNamed := by simp [q, FieldType.WellNamed]
  have ht : t.Readable := ⟨⟨⟨trivial, hq, trivial⟩, trivial⟩, by decide⟩
  have hlt : '<' ∉ " [(ILp/Q;)VZ".toList := by decide
  have hcode := (hread ⟨" [(ILp/Q;)VZ".toList, 1⟩ hlt).2 t ht (by decide)
  have hts : ∀ u ∈ [q.array, .primitive .long], u.Readable := by
    intro u hu
    rcases List.mem_cons.1 hu with rfl | hu
    · exact ⟨hq, by decide⟩
    · rw [List.mem_singleton.1 hu]
      exact ⟨trivial, by decide⟩
  exact ⟨hlt, hcode.2, hlist _ "V".toList hts⟩

end StackProfile.Descriptor
