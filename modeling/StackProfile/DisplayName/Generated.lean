import StackProfile.DisplayName.Counter

/-! # Display names of generated code

Classes and methods that a runtime generates have names that differ from run to run only in a
counter.  Their display name leaves the counter out, so that stacks of different runs compare
equal.  Three simplifications are applied in turn:

* `dropDynamicNumbers`: the marker `$$` loses the hexadecimal number after it, and a generator tag
  in front of a marker is folded into the marker before the tag (`foldTags`);
* `dropLambdaNumber`: the first lambda trigger loses the dotted number after it;
* `dropAccessorNumbers`: the prefixes of reflection accessors lose the number after them.

Main lemmas: the equations of `foldTags` and `dropLambdaNumber` at and away from their triggers. -/

namespace StackProfile.DisplayName

/-- Digits of the numbers in dynamic class names. -/
def isLowerHex (c : Char) : Bool := c.isDigit || ('a' ≤ c && c ≤ 'f')

/-! ### Dynamic classes -/

/-- Stands between a class name and what was generated from it. -/
def marker : List Char := ['$', '$']

/-- What the generators of dynamic classes write behind the marker. -/
def generatorTags : List (List Char) :=
  ["FastClassBy".toList, "EnhancerBy".toList, "EnhancedBy".toList]

/-- Whether a generator tag begins the text. -/
def startsWithTag (s : List Char) : Bool := generatorTags.any (·.isPrefixOf s)

/-- What follows the first marker of a text, if no dot comes before that marker. -/
def afterMarker? : List Char → Option (List Char)
  | [] => none
  | '$' :: '$' :: s => some s
  | c :: s => if c = '.' then none else afterMarker? s

theorem length_afterMarker? {s r : List Char} (h : afterMarker? s = some r) :
    r.length < s.length := by
  fun_induction afterMarker? s with
  | case1 => simp at h
  | case2 s =>
      obtain rfl := Option.some.inj h
      simp only [List.length_cons]
      omega
  | case3 => simp at h
  | case4 c s _ _ ih =>
      have := ih h
      simp only [List.length_cons]
      omega

/-- What follows a generator tag and the marker that closes it. -/
def afterTag? (s : List Char) : Option (List Char) :=
  if startsWithTag s then afterMarker? s else none

theorem length_afterTag? {s r : List Char} (h : afterTag? s = some r) : r.length < s.length := by
  rw [afterTag?] at h
  split at h
  · exact length_afterMarker? h
  · simp at h

/-- Folds each generator tag into the marker before it; the surviving marker is looked at again,
since another tag may follow it. -/
def foldTags : List Char → List Char
  | [] => []
  | '$' :: '$' :: s =>
    match _h : afterTag? s with
    | some r => foldTags ('$' :: '$' :: r)
    | none => '$' :: '$' :: foldTags s
  | c :: s => c :: foldTags s
termination_by s => s.length
decreasing_by
  · have := length_afterTag? _h
    simp only [List.length_cons]
    omega
  · simp only [List.length_cons]; omega
  · simp

/-- Leaves the number and the generator tags out of a dynamic class name. -/
def dropDynamicNumbers (s : List Char) : List Char := foldTags (dropAfter marker isLowerHex s)

@[simp] theorem foldTags_nil : foldTags [] = [] := by rw [foldTags]

theorem foldTags_tag {s r : List Char} (h : afterTag? s = some r) :
    foldTags ('$' :: '$' :: s) = foldTags ('$' :: '$' :: r) := by
  rw [foldTags]
  split
  · rename_i r' h'
    rw [h] at h'
    rw [Option.some.inj h']
  · rename_i h'
    rw [h] at h'
    simp at h'

theorem foldTags_marker {s : List Char} (h : afterTag? s = none) :
    foldTags ('$' :: '$' :: s) = '$' :: '$' :: foldTags s := by
  rw [foldTags]
  split
  · rename_i r h'
    rw [h] at h'
    simp at h'
  · rfl

theorem foldTags_cons {c : Char} {s : List Char} (h : ¬marker <+: c :: s) :
    foldTags (c :: s) = c :: foldTags s := by
  rw [foldTags]
  rintro t rfl rfl
  exact h ⟨t, rfl⟩

/-! ### Lambda classes -/

/-- Stands between a class name and the number of a lambda in it. -/
def lambdaTrigger : List Char := "$$Lambda$".toList

/-- Whether an ASCII digit begins the text. -/
def startsWithDigit (s : List Char) : Bool := s.head?.any Char.isDigit

/-- The text without the number it begins with: digits, a dot, digits.  Any other text is kept. -/
def dropDottedNumber (s : List Char) : List Char :=
  if startsWithDigit s then
    match s.dropWhile Char.isDigit with
    | '.' :: t => if startsWithDigit t then t.dropWhile Char.isDigit else s
    | _ => s
  else s

/-- Leaves the dotted number after the first lambda trigger out. -/
def dropLambdaNumber : List Char → List Char
  | [] => []
  | c :: s =>
    if lambdaTrigger <+: c :: s then
      lambdaTrigger ++ dropDottedNumber ((c :: s).drop lambdaTrigger.length)
    else c :: dropLambdaNumber s

theorem dropLambdaNumber_trigger (s : List Char) :
    dropLambdaNumber (lambdaTrigger ++ s) = lambdaTrigger ++ dropDottedNumber s := by
  have h : lambdaTrigger ++ s = '$' :: ("$Lambda$".toList ++ s) := rfl
  rw [h, dropLambdaNumber, ← h, if_pos (List.prefix_append _ _), List.drop_left]

theorem dropLambdaNumber_cons {c : Char} {s : List Char} (h : ¬lambdaTrigger <+: c :: s) :
    dropLambdaNumber (c :: s) = c :: dropLambdaNumber s := by
  rw [dropLambdaNumber, if_neg h]

/-! ### Reflection accessors -/

/-- Names of the accessor classes, each of which is followed by a number. -/
def accessorTriggers : List (List Char) :=
  ["sun.reflect.GeneratedConstructorAccessor".toList,
   "sun.reflect.GeneratedMethodAccessor".toList,
   "sun.reflect.GeneratedSerializationConstructorAccessor".toList]

/-- Leaves the numbers of reflection accessors out. -/
def dropAccessorNumbers (s : List Char) : List Char :=
  accessorTriggers.foldl (fun s t => dropAfter t Char.isDigit s) s

/-! ### All three -/

/-- The display name of a function, which is the same in every run. -/
def stable (s : List Char) : List Char :=
  dropAccessorNumbers (dropLambdaNumber (dropDynamicNumbers s))

/-- The display name of a function, as a string. -/
def ofString (name : String) : String := String.ofList (stable name.toList)

@[simp] theorem toList_ofString (name : String) :
    (ofString name).toList = stable name.toList := String.toList_ofList

end StackProfile.DisplayName
