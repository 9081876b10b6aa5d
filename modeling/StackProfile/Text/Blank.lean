/-! # Blank characters

The blanks of Unicode: the control characters that move the cursor or separate records, and every
space, line and paragraph separator.  `strip` removes them from both ends of a text, `fields?`
cuts a text into two words and a remainder.

Main lemmas: `strip` keeps a text that has no blank at either end (`strip_eq_self`), and `fields?`
finds three parts that were joined by single blanks (`fields?_append`). -/

namespace StackProfile.Text

/-- Characters that separate words. -/
def isBlank (c : Char) : Bool :=
  let n := c.toNat
  (0x09 ≤ n && n ≤ 0x0d) || (0x1c ≤ n && n ≤ 0x20) || n == 0x85 || n == 0xa0 || n == 0x1680 ||
    (0x2000 ≤ n && n ≤ 0x200a) || n == 0x2028 || n == 0x2029 || n == 0x202f || n == 0x205f ||
    n == 0x3000

/-- The text without the blanks that end it. -/
def stripEnd (s : List Char) : List Char := (s.reverse.dropWhile isBlank).reverse

/-- The text without the blanks at either end. -/
def strip (s : List Char) : List Char := stripEnd (s.dropWhile isBlank)

/-- A final blank goes, a final character that is no blank stays with all before it. -/
theorem stripEnd_concat (s : List Char) (c : Char) :
    stripEnd (s ++ [c]) = if isBlank c then stripEnd s else s ++ [c] := by
  by_cases h : isBlank c = true <;> simp [stripEnd, h]

/-- The word at the start of a text. -/
def firstWord (s : List Char) : List Char := s.takeWhile fun c => !isBlank c

/-- What follows the word at the start of a text and the blanks after it. -/
def afterWord (s : List Char) : List Char := (s.dropWhile fun c => !isBlank c).dropWhile isBlank

/-- Two words and the rest of a text that begins and ends with no blank; `none` if there are
fewer than three parts. -/
def fields? (s : List Char) : Option (List Char × List Char × List Char) :=
  let s₁ := afterWord s
  let s₂ := afterWord s₁
  if s₂.isEmpty then none else some (firstWord s, firstWord s₁, s₂)

/-- A text without a blank at either end is its own strip. -/
theorem strip_eq_self {s : List Char} (hh : ∀ c ∈ s.head?, isBlank c = false)
    (hl : ∀ c ∈ s.getLast?, isBlank c = false) : strip s = s := by
  have hd : s.dropWhile isBlank = s := by
    cases s with
    | nil => rfl
    | cons c s => simp [hh c rfl]
  rw [strip, hd]
  rcases List.eq_nil_or_concat s with rfl | ⟨t, c, rfl⟩
  · rfl
  · rw [List.concat_eq_append] at hl ⊢
    rw [stripEnd_concat, hl c (by simp)]
    simp

theorem firstWord_append {w : List Char} (hw : ∀ c ∈ w, isBlank c = false) {b : Char}
    (hb : isBlank b = true) (s : List Char) : firstWord (w ++ b :: s) = w := by
  have h : ∀ c ∈ w, (!isBlank c) = true := fun c hc => by simp [hw c hc]
  rw [firstWord, List.takeWhile_append_of_pos h]
  simp [hb]

theorem afterWord_append {w : List Char} (hw : ∀ c ∈ w, isBlank c = false) {b : Char}
    (hb : isBlank b = true) {s : List Char} (hs : ∀ c ∈ s.head?, isBlank c = false) :
    afterWord (w ++ b :: s) = s := by
  have h : ∀ c ∈ w, (!isBlank c) = true := fun c hc => by simp [hw c hc]
  have hd : s.dropWhile isBlank = s := by
    cases s with
    | nil => rfl
    | cons c s => simp [hs c rfl]
  rw [afterWord, List.dropWhile_append_of_pos h]
  simp [hb, hd]

/-- Three parts with one blank between them are found again. -/
theorem fields?_append {v w s : List Char} (hv : ∀ c ∈ v, isBlank c = false)
    (hw : ∀ c ∈ w, isBlank c = false) (hw₀ : w ≠ []) (hs : ∀ c ∈ s.head?, isBlank c = false)
    (hs₀ : s ≠ []) : fields? (v ++ ' ' :: (w ++ ' ' :: s)) = some (v, w, s) := by
  have hb : isBlank ' ' = true := by decide
  have hh : ∀ c ∈ (w ++ ' ' :: s).head?, isBlank c = false := by
    obtain ⟨a, r, rfl⟩ := List.exists_cons_of_ne_nil hw₀
    intro c hc
    exact hw c (by simp_all)
  simp only [fields?, afterWord_append hv hb hh, afterWord_append hw hb hs,
    firstWord_append hv hb, firstWord_append hw hb, List.isEmpty_eq_false_iff.2 hs₀]
  rfl

end StackProfile.Text
