import StackProfile.Descriptor.Call

/-! # Counting open nestings

`readField` is told how many arrays and method types may still lie in each other.  The readers here
are told nothing: they count the arrays and method types that are open, one up where one begins and
one down where it ends, and give up where the count has reached the limit.  What they read is as
long as the text allows, which is why they end.

Main lemmas: the readers that count read the same, close what they open, and leave nothing where the
limit has cut a type off (`counts`, `Counts.arguments`, `Counts.method`); a reading moves
the cursor on (`Cursor.pos_lt_read`); and all of this for successive readings of a cursor
(`counted_readings`). -/

namespace StackProfile.Descriptor

/-- The count of open arrays and method types: what it is, what it has been at most, and whether the
limit has cut a type off. -/
structure Meter where
  depth : Int
  highest : Int
  cut : Bool
deriving DecidableEq, Repr

namespace Meter

/-- An array or a method type begins. -/
def enter (m : Meter) : Meter :=
  { m with depth := m.depth + 1, highest := max m.highest (m.depth + 1) }

/-- An array or a method type ends. -/
def leave (m : Meter) : Meter := { m with depth := m.depth - 1 }

/-- The limit cuts a type off. -/
def cutOff (m : Meter) : Meter := { m with cut := true }

end Meter

/-! ### Readers that count -/

/-- What reading from `s` gives, and the count behind it. -/
structure Counted (s : List Char) extends Piece where
  meter : Meter
  rest_suffix : rest <:+ s

namespace Counted

variable {s : List Char}

theorem length_rest_le (r : Counted s) : r.rest.length ≤ s.length := r.rest_suffix.length_le

theorem length_rest_lt (r : Counted s.tail) (h : s ≠ []) : r.rest.length < s.length := by
  have hle := r.length_rest_le
  have hpos := List.length_pos_iff.2 h
  rw [List.length_tail] at hle
  omega

end Counted

mutual

/-- Reads one type. -/
def countField (s : List Char) (m : Meter) : Counted s.tail :=
  match s with
  | [] => ⟨⟨Fault.endOfBuffer.text, []⟩, m, List.suffix_refl _⟩
  | c :: s =>
    match Primitive.ofLetter? c with
    | some p => ⟨⟨p.word, s⟩, m, List.suffix_refl _⟩
    | none =>
      if c = 'L' then ⟨readName s, m, readName_suffix s⟩
      else if c = '[' ∨ c = '(' then
        if maxNesting ≤ m.depth then ⟨⟨Fault.unknownType.text, []⟩, m.cutOff, List.nil_suffix⟩
        else if c = '[' then
          let r := countField s m.enter
          ⟨⟨r.text ++ "[]".toList, r.rest⟩, r.meter.leave,
            r.rest_suffix.trans (List.tail_suffix s)⟩
        else
          let r := countMethod s m.enter
          ⟨r.toPiece, r.meter.leave, r.rest_suffix⟩
      else ⟨⟨Fault.unknownType.text, s⟩, m, List.suffix_refl _⟩
termination_by 4 * s.length

/-- Reads arguments up to the end of the text or a closing parenthesis. -/
def countArguments (s : List Char) (m : Meter) : Counted s :=
  if h : atArgumentsEnd s then ⟨⟨[], s⟩, m, List.suffix_refl _⟩
  else
    let r := countField s m
    have _hlt : r.rest.length < s.length := r.length_rest_lt (ne_nil_of_atArgumentsEnd h)
    let more := countArguments r.rest r.meter
    ⟨⟨r.text ++ (if atArgumentsEnd r.rest then more.text else ", ".toList ++ more.text), more.rest⟩,
      more.meter, more.rest_suffix.trans (r.rest_suffix.trans (List.tail_suffix s))⟩
termination_by 4 * s.length + 1

/-- Reads the argument list whose opening parenthesis stands before the text. -/
def countSignature (s : List Char) (m : Meter) : Counted s :=
  match countArguments s m with
  | ⟨⟨text, []⟩, m', _⟩ => ⟨⟨'(' :: text ++ Fault.missingParen.text, []⟩, m', List.nil_suffix⟩
  | ⟨⟨text, _ :: rest⟩, m', h⟩ =>
    ⟨⟨'(' :: text ++ [')'], rest⟩, m', (List.suffix_cons _ _).trans h⟩
termination_by 4 * s.length + 2

/-- Reads the method type whose opening parenthesis stands before the text. -/
def countMethod (s : List Char) (m : Meter) : Counted s :=
  let arguments := countSignature s m
  if arguments.text.getLast? = some ')' then
    have _hle : arguments.rest.length ≤ s.length := arguments.length_rest_le
    let result := countField arguments.rest arguments.meter
    ⟨⟨result.text ++ ' ' :: arguments.text, result.rest⟩, result.meter,
      (result.rest_suffix.trans (List.tail_suffix _)).trans arguments.rest_suffix⟩
  else arguments
termination_by 4 * s.length + 3
decreasing_by
  · omega
  · exact Nat.lt_of_le_of_lt (Nat.mul_le_mul_left 4 _hle) (by omega)

end

/-! ### Counting by the first character -/

section equations

variable {c : Char} {m : Meter}

theorem countField_nil (m : Meter) :
    (countField [] m).toPiece = ⟨Fault.endOfBuffer.text, []⟩ ∧ (countField [] m).meter = m := by
  rw [countField]
  exact ⟨rfl, rfl⟩

/-- Where neither an array nor a method type begins, nothing is counted. -/
theorem countField_flat (hc : ¬(c = '[' ∨ c = '(')) (d : Nat) (s : List Char) (m : Meter) :
    (countField (c :: s) m).toPiece = (readField d (c :: s)).toPiece ∧
      (countField (c :: s) m).meter = m := by
  cases c using first_cases with
  | letter p =>
      rw [readField_letter, countField]
      simp
  | object =>
      have hp : Primitive.ofLetter? 'L' = none := rfl
      rw [readField_object, countField]
      simp [hp]
  | array => exact absurd (.inl rfl) hc
  | method => exact absurd (.inr rfl) hc
  | unknown c hp hL ha hm =>
      rw [readField_unknown d hp hL ha hm, countField]
      simp [hp, hL, ha, hm]

/-- At the limit an array or a method type takes the rest of the text. -/
theorem countField_cut (hc : c = '[' ∨ c = '(') (hm : maxNesting ≤ m.depth) (s : List Char) :
    (countField (c :: s) m).toPiece = ⟨Fault.unknownType.text, []⟩ ∧
      (countField (c :: s) m).meter = m.cutOff := by
  have hp : Primitive.ofLetter? c = none := by rcases hc with rfl | rfl <;> rfl
  have hL : c ≠ 'L' := by rcases hc with rfl | rfl <;> decide
  rw [countField]
  simp [hp, hL, hc, hm]

theorem countField_array (hm : ¬maxNesting ≤ m.depth) (s : List Char) :
    (countField ('[' :: s) m).toPiece =
        ⟨(countField s m.enter).text ++ "[]".toList, (countField s m.enter).rest⟩ ∧
      (countField ('[' :: s) m).meter = (countField s m.enter).meter.leave := by
  have hp : Primitive.ofLetter? '[' = none := rfl
  rw [countField]
  simp [hp, hm]

theorem countField_method (hm : ¬maxNesting ≤ m.depth) (s : List Char) :
    (countField ('(' :: s) m).toPiece = (countMethod s m.enter).toPiece ∧
      (countField ('(' :: s) m).meter = (countMethod s m.enter).meter.leave := by
  have hp : Primitive.ofLetter? '(' = none := rfl
  rw [countField]
  simp [hp, hm]

end equations

/-! ### The same readings -/

/-- Reading that leaves `rest` closes what it opens, has no more open than the limit allows, and
cuts a type off only if it leaves nothing. -/
structure Closes (m m' : Meter) (rest : List Char) : Prop where
  depth_eq : m'.depth = m.depth
  highest_le : m'.highest ≤ max m.highest maxNesting
  rest_of_cut : m'.cut = true → m.cut = true ∨ rest = []

namespace Closes

variable {m m' m'' : Meter} {rest rest' : List Char}

theorem refl (m : Meter) (rest : List Char) : Closes m m rest :=
  ⟨rfl, Int.le_max_left _ _, .inl⟩

theorem of_suffix (h : Closes m m' rest) (hr : rest' <:+ rest) : Closes m m' rest' := by
  refine ⟨h.depth_eq, h.highest_le, fun hcut => (h.rest_of_cut hcut).imp_right ?_⟩
  rintro rfl
  exact List.suffix_nil.1 hr

theorem trans (h : Closes m m' rest) (h' : Closes m' m'' rest') (hr : rest' <:+ rest) :
    Closes m m'' rest' := by
  refine ⟨h'.depth_eq.trans h.depth_eq, ?_, fun hcut => ?_⟩
  · have hle := h.highest_le
    have hle' := h'.highest_le
    omega
  · rcases h'.rest_of_cut hcut with hcut | hrest
    · exact (h.of_suffix hr).rest_of_cut hcut
    · exact .inr hrest

/-- An array or a method type that is read in between. -/
theorem nested (hm : ¬maxNesting ≤ m.depth) (h : Closes m.enter m' rest) :
    Closes m m'.leave rest := by
  obtain ⟨hdepth, hhighest, hcut⟩ := h
  refine ⟨?_, ?_, hcut⟩
  · simp only [Meter.enter, Meter.leave] at hdepth ⊢
    omega
  · simp only [Meter.enter, Meter.leave] at hhighest ⊢
    omega

theorem cutOff (m : Meter) : Closes m m.cutOff [] :=
  ⟨rfl, Int.le_max_left _ _, fun _ => .inr rfl⟩

end Closes

/-- Where `d` nestings are left below the limit, the reader that counts reads what `readField` reads
with `d` nestings allowed. -/
def Counts (d : Nat) : Prop :=
  ∀ (s : List Char) (m : Meter), m.depth = maxNesting - d →
    (countField s m).toPiece = (readField d s).toPiece ∧
      Closes m (countField s m).meter (readField d s).rest

section counts

variable {d : Nat} {m : Meter}

theorem Counts.arguments (h : Counts d) (s : List Char) (hm : m.depth = maxNesting - d) :
    (countArguments s m).toPiece = readArguments (readField d) s ∧
      Closes m (countArguments s m).meter (readArguments (readField d) s).rest := by
  fun_induction readArguments (readField d) s generalizing m with
  | case1 s hend =>
      rw [countArguments, dif_pos hend]
      exact ⟨rfl, .refl m s⟩
  | case2 s hend r more =>
      rename_i ih
      obtain ⟨hpiece, hcloses⟩ := h s m hm
      have htext : (countField s m).text = r.text := congrArg Piece.text hpiece
      have hrest : (countField s m).rest = r.rest := congrArg Piece.rest hpiece
      obtain ⟨hmore, hmcloses⟩ := ih (hcloses.depth_eq.trans hm)
      have hsuffix := readArguments_suffix (readField d) r.rest
      rw [countArguments, dif_neg hend]
      dsimp only
      rw [htext, hrest, hmore]
      exact ⟨rfl, hcloses.trans hmcloses hsuffix⟩

theorem Counts.signature (h : Counts d) (s : List Char) (hm : m.depth = maxNesting - d) :
    (countSignature s m).toPiece = readSignature (readField d) ('(' :: s) ∧
      Closes m (countSignature s m).meter (readSignature (readField d) ('(' :: s)).rest := by
  obtain ⟨hpiece, hcloses⟩ := h.arguments s hm
  rw [← hpiece] at hcloses
  rw [countSignature, readSignature, ← hpiece]
  generalize countArguments s m = r at hcloses ⊢
  obtain ⟨⟨text, rest⟩, m', _⟩ := r
  cases rest with
  | nil => exact ⟨rfl, hcloses⟩
  | cons c rest => exact ⟨rfl, hcloses.of_suffix (List.suffix_cons c rest)⟩

theorem Counts.method (h : Counts d) (s : List Char) (hm : m.depth = maxNesting - d) :
    (countMethod s m).toPiece = readMethod (readField d) ('(' :: s) ∧
      Closes m (countMethod s m).meter (readMethod (readField d) ('(' :: s)).rest := by
  obtain ⟨hpiece, hcloses⟩ := h.signature s hm
  have htext := congrArg Piece.text hpiece
  have hrest := congrArg Piece.rest hpiece
  rw [countMethod]
  by_cases hlast : (readSignature (readField d) ('(' :: s)).text.getLast? = some ')'
  · obtain ⟨hresult, hrcloses⟩ := h (readSignature (readField d) ('(' :: s)).rest
      (countSignature s m).meter (hcloses.depth_eq.trans hm)
    have hrtext := congrArg Piece.text hresult
    have hrrest := congrArg Piece.rest hresult
    have hsuffix := (readField d (readSignature (readField d) ('(' :: s)).rest).rest_suffix_self
    rw [readMethod_of_getLast hlast]
    simp only [htext, hlast, if_true]
    rw [hrest, hrtext, hrrest]
    exact ⟨rfl, hcloses.trans hrcloses hsuffix⟩
  · rw [readMethod_of_not_getLast hlast]
    simp only [htext, hlast, if_false]
    exact ⟨hpiece, hcloses⟩

end counts

/-- The readers agree if they do where an array or a method type begins. -/
theorem counts_of_nested {d : Nat}
    (h : ∀ (c : Char) (s : List Char) (m : Meter), c = '[' ∨ c = '(' → m.depth = maxNesting - d →
      (countField (c :: s) m).toPiece = (readField d (c :: s)).toPiece ∧
        Closes m (countField (c :: s) m).meter (readField d (c :: s)).rest) : Counts d := by
  intro s m hm
  cases s with
  | nil =>
      obtain ⟨hpiece, hmeter⟩ := countField_nil m
      rw [hpiece, hmeter, readField_nil]
      exact ⟨rfl, .refl m _⟩
  | cons c s =>
      by_cases hc : c = '[' ∨ c = '('
      · exact h c s m hc hm
      · obtain ⟨hpiece, hmeter⟩ := countField_flat hc d s m
        rw [hpiece, hmeter]
        exact ⟨rfl, .refl m _⟩

/-- By induction on the nestings that are left below the limit. -/
theorem counts (d : Nat) : Counts d := by
  induction d with
  | zero =>
      apply counts_of_nested
      intro c s m hc hm
      have hlimit : maxNesting ≤ m.depth := by omega
      obtain ⟨hpiece, hmeter⟩ := countField_cut hc hlimit s
      rw [hpiece, hmeter, readField_zero hc]
      exact ⟨rfl, .cutOff m⟩
  | succ d ih =>
      apply counts_of_nested
      intro c s m hc hm
      have hbelow : ¬maxNesting ≤ m.depth := by omega
      have henter : m.enter.depth = maxNesting - d := by
        simp only [Meter.enter]
        omega
      rcases hc with rfl | rfl
      · obtain ⟨hpiece, hmeter⟩ := countField_array hbelow s
        obtain ⟨hinner, hcloses⟩ := ih s m.enter henter
        obtain ⟨htext, hrest⟩ := Piece.mk.inj hinner
        rw [hpiece, hmeter, readField_array, htext, hrest]
        exact ⟨rfl, hcloses.nested hbelow⟩
      · obtain ⟨hpiece, hmeter⟩ := countField_method hbelow s
        obtain ⟨hinner, hcloses⟩ := ih.method s henter
        rw [hpiece, hmeter, readField_method, hinner]
        exact ⟨rfl, hcloses.nested hbelow⟩

namespace Call

/-- What the call reads from the front of a text with a count, and the count behind it. -/
def count : Call → List Char → Meter → Piece × Meter
  | fieldType, s, m => ((countField s m).toPiece, (countField s m).meter)
  | argumentList, '(' :: s, m => ((countSignature s m).toPiece, (countSignature s m).meter)
  | methodType, '(' :: s, m => ((countMethod s m).toPiece, (countMethod s m).meter)
  | _, s, m => (⟨[], s⟩, m)

theorem count_of_head_ne {k : Call} {s : List Char} (hk : k ≠ .fieldType) (h : s.head? ≠ some '(')
    (m : Meter) : k.count s m = (⟨[], s⟩, m) := by
  cases s with
  | nil => cases k <;> first | rfl | exact absurd rfl hk
  | cons c s =>
      have hc : c ≠ '(' := by simpa using h
      cases k with
      | fieldType => exact absurd rfl hk
      | argumentList => simp [count, hc]
      | methodType => simp [count, hc]

theorem count_nil (k : Call) (m : Meter) : (k.count [] m).2 = m := by
  by_cases hk : k = .fieldType
  · subst hk
    exact (countField_nil m).2
  · rw [count_of_head_ne hk (by simp)]

/-- With nothing open, a call reads the same when it counts. -/
theorem count_spec (k : Call) (s : List Char) {m : Meter} (hm : m.depth = 0) :
    (k.count s m).1 = k.piece s ∧ Closes m (k.count s m).2 (k.piece s).rest := by
  have hlimit : m.depth = maxNesting - maxNesting := by omega
  by_cases hk : k = .fieldType
  · subst hk
    exact counts maxNesting s m hlimit
  by_cases hs : s.head? = some '('
  · obtain ⟨s, rfl⟩ := List.head?_eq_some_iff.1 hs
    cases k with
    | fieldType => exact absurd rfl hk
    | argumentList => exact (counts maxNesting).signature s hlimit
    | methodType => exact (counts maxNesting).method s hlimit
  · rw [count_of_head_ne hk hs, piece_of_head_ne hk hs]
    exact ⟨rfl, .refl m s⟩

end Call

/-! ### Progress -/

namespace Cursor

variable {c : Cursor} {k : Call}

theorem length_rest (c : Cursor) : c.rest.length = c.text.length - c.pos := List.length_drop

@[simp] theorem text_read (c : Cursor) (k : Call) : (c.read k).2.text = c.text := by
  rw [read_eq, text_advance]

theorem pos_le_read (c : Cursor) (k : Call) : c.pos ≤ (c.read k).2.pos := by
  rw [read_eq]
  exact c.pos_le_advance _

theorem pos_read_le (c : Cursor) (k : Call) : (c.read k).2.pos ≤ max c.pos c.text.length := by
  rw [read_eq]
  exact c.pos_advance_le _

/-- A field type takes a character wherever there is one; the others do at a parenthesis. -/
theorem pos_lt_read (hpos : c.pos < c.text.length) (h : k = .fieldType ∨ c.rest.head? = some '(') :
    c.pos < (c.read k).2.pos := by
  have hle := (Call.piece_suffix_tail h).length_le
  have hrest := c.length_rest
  rw [List.length_tail] at hle
  simp only [read_eq, advance]
  omega

theorem read_of_head_ne (hk : k ≠ .fieldType) (h : c.rest.head? ≠ some '(') :
    c.read k = ([], c) := by
  rw [read_eq, Call.piece_of_head_ne hk h]
  simp [advance]

@[simp] theorem text_after (c : Cursor) (ks : List Call) : (c.after ks).text = c.text := by
  induction ks generalizing c with
  | nil => rfl
  | cons k ks ih => exact (ih (c.read k).2).trans (c.text_read k)

theorem pos_after_le (c : Cursor) (ks : List Call) :
    (c.after ks).pos ≤ max c.pos c.text.length := by
  induction ks generalizing c with
  | nil => exact Nat.le_max_left _ _
  | cons k ks ih =>
      have hstep := c.pos_read_le k
      have hrest := ih (c.read k).2
      rw [text_read] at hrest
      exact Nat.le_trans hrest (Nat.max_le.2 ⟨hstep, Nat.le_max_right _ _⟩)

end Cursor

/-! ### Successive readings -/

/-- A cursor that keeps the count between readings. -/
structure CountingCursor extends Cursor where
  depth : Int

/-- What a reading that counts gives: the text it spells, the cursor behind it, the highest count
during it, and whether the limit has cut a type off. -/
structure Outcome where
  text : List Char
  cursor : CountingCursor
  highest : Int
  cut : Bool

namespace CountingCursor

/-- Reads what the call asks for. -/
def read (c : CountingCursor) (k : Call) : Outcome :=
  let r := k.count c.rest ⟨c.depth, c.depth, false⟩
  ⟨r.1.text, ⟨c.advance r.1.rest, r.2.depth⟩, r.2.highest, r.2.cut⟩

/-- The cursor behind successive readings. -/
def after (c : CountingCursor) (ks : List Call) : CountingCursor :=
  ks.foldl (fun c k => (c.read k).cursor) c

/-- One reading with nothing open. -/
theorem read_spec {c : CountingCursor} (h : c.depth = 0) (k : Call) :
    c.toCursor.read k = ((c.read k).text, (c.read k).cursor.toCursor) ∧
      (c.read k).cursor.depth = 0 ∧ (c.read k).highest ≤ 100 ∧
      ((c.read k).cut = true → (c.read k).cursor.pos = c.text.length) := by
  obtain ⟨hpiece, hcloses⟩ := k.count_spec c.rest (m := ⟨c.depth, c.depth, false⟩) h
  refine ⟨?_, hcloses.depth_eq.trans h, ?_, fun hcut => ?_⟩
  · rw [Cursor.read_eq, read, hpiece]
  · have hle : (c.read k).highest ≤ max c.depth 100 := hcloses.highest_le
    omega
  · have hrest : (k.piece c.rest).rest = [] := by simpa using hcloses.rest_of_cut hcut
    have hlen := c.length_rest
    have hpos : c.rest ≠ [] := by
      intro hnil
      have hnone : (c.read k).cut = false := by
        rw [read, hnil, k.count_nil]
      exact Bool.false_ne_true (hnone.symm.trans hcut)
    have hlt := List.length_pos_iff.2 hpos
    simp only [read, hpiece, hrest, Cursor.advance, List.length_nil]
    omega

theorem after_spec {c : CountingCursor} (h : c.depth = 0) (ks : List Call) :
    (c.after ks).depth = 0 ∧ (c.after ks).toCursor = c.toCursor.after ks := by
  induction ks generalizing c with
  | nil => exact ⟨h, rfl⟩
  | cons k ks ih =>
      obtain ⟨hread, hdepth, -⟩ := read_spec h k
      have hcursor : (c.read k).cursor.toCursor = (c.toCursor.read k).2 := by rw [hread]
      obtain ⟨hd, hc⟩ := ih hdepth
      refine ⟨hd, ?_⟩
      rw [hcursor] at hc
      exact hc

end CountingCursor

/-- Any reading, after any others on a cursor that began with nothing open: it reads what the cursor
reads that does not count; the cursor never goes back, and beyond the end only if it began there; a
field type moves it on before the end, the others at a parenthesis, and elsewhere they read nothing;
no more than a hundred arrays and method types are open at once, and none behind the reading; and
where the limit has cut a type off, the cursor is at the end. -/
theorem counted_readings (start : Cursor) (ks : List Call) (k : Call) :
    let c := CountingCursor.after ⟨start, 0⟩ ks
    let o := c.read k
    (c.toCursor = start.after ks ∧ (start.after ks).read k = (o.text, o.cursor.toCursor)) ∧
      (c.pos ≤ o.cursor.pos ∧ o.cursor.pos ≤ max start.pos start.text.length) ∧
      (k = .fieldType → c.pos < start.text.length → c.pos < o.cursor.pos) ∧
      (k ≠ .fieldType →
        (start.text[c.pos]? = some '(' → c.pos < o.cursor.pos) ∧
          (start.text[c.pos]? ≠ some '(' → o.cursor.pos = c.pos ∧ o.text = [])) ∧
      (o.highest ≤ 100 ∧ o.cursor.depth = 0) ∧
      (o.cut = true → o.cursor.pos = start.text.length) := by
  intro c o
  obtain ⟨hdepth, hcursor⟩ := CountingCursor.after_spec (c := ⟨start, 0⟩) rfl ks
  obtain ⟨hread, hclosed, hhighest, hcut⟩ := CountingCursor.read_spec hdepth k
  have htext : c.text = start.text := by
    rw [hcursor, Cursor.text_after]
  have hnext : o.cursor.toCursor = (c.toCursor.read k).2 := by rw [hread]
  have hhead : c.rest.head? = start.text[c.pos]? := by
    rw [← htext]
    exact List.head?_drop
  refine ⟨⟨hcursor, hcursor ▸ hread⟩, ⟨?_, ?_⟩, ?_, fun hk => ⟨?_, ?_⟩, ⟨hhighest, hclosed⟩, ?_⟩
  · rw [hnext]
    exact c.pos_le_read k
  · have hstart : c.pos ≤ max start.pos start.text.length := by
      rw [hcursor]
      exact start.pos_after_le ks
    have hle := c.pos_read_le k
    rw [htext] at hle
    rw [hnext]
    exact Nat.le_trans hle (Nat.max_le.2 ⟨hstart, Nat.le_max_right _ _⟩)
  · intro hk hpos
    rw [hnext]
    exact Cursor.pos_lt_read (htext ▸ hpos) (.inl hk)
  · intro hparen
    have hpos : c.pos < c.text.length := by
      rw [htext]
      exact (List.getElem?_eq_some_iff.1 hparen).1
    rw [hnext]
    exact Cursor.pos_lt_read hpos (.inr (hhead.trans hparen))
  · intro hother
    rw [Cursor.read_of_head_ne hk (hhead ▸ hother)] at hread
    obtain ⟨hspelled, hstays⟩ := Prod.mk.inj hread
    exact ⟨congrArg Cursor.pos hstays.symm, hspelled.symm⟩
  · rw [← htext]
    exact hcut

/-- Brackets that go beyond the limit are cut off. -/
theorem cut_of_brackets (n : Nat) (s : List Char) {m : Meter} (h : maxNesting ≤ m.depth + n) :
    (countField (List.replicate (n + 1) '[' ++ s) m).meter.cut = true := by
  induction n generalizing m with
  | zero =>
      have hlimit : maxNesting ≤ m.depth := by omega
      have hmeter := (countField_cut (.inl rfl) hlimit s).2
      exact congrArg Meter.cut hmeter
  | succ n ih =>
      rw [List.replicate_succ, List.cons_append]
      by_cases hlimit : maxNesting ≤ m.depth
      · exact congrArg Meter.cut (countField_cut (.inl rfl) hlimit _).2
      · have hcut := ih (m := m.enter) (by simp only [Meter.enter]; omega)
        rw [(countField_array hlimit _).2]
        exact hcut

/-- A hundred and one brackets, read where no method type was found. -/
theorem counted_readings_brackets :
    let start : Cursor := ⟨List.replicate 101 '[', 0⟩
    let o := (CountingCursor.after ⟨start, 0⟩ [.methodType]).read .fieldType
    o.cut = true ∧ o.cursor.pos = 101 ∧ o.cursor.depth = 0 := by
  intro start o
  obtain ⟨-, -, -, -, ⟨-, hdepth⟩, hcut⟩ := counted_readings start [.methodType] .fieldType
  have hstays : CountingCursor.after ⟨start, 0⟩ [.methodType] = ⟨start, 0⟩ := rfl
  have ho : o.cut = true := by
    change ((CountingCursor.after ⟨start, 0⟩ [.methodType]).read .fieldType).cut = true
    rw [hstays]
    exact cut_of_brackets 100 [] (Int.le_refl 100)
  exact ⟨ho, (hcut ho).trans List.length_replicate, hdepth⟩

end StackProfile.Descriptor
