/-! # Field types and their two spellings

A field type is a primitive, a class, an array, or a method type.  `code` is its descriptor, the
compact spelling of class files; `pretty` is its spelling in source code.

Main lemma: a primitive is found by its letter (`Primitive.ofLetter?_eq_some_iff`). -/

namespace StackProfile.Descriptor

/-- The types that are written as one letter. -/
inductive Primitive where
  | byte | char | double | float | int | long | short | boolean | void
deriving DecidableEq, Repr

namespace Primitive

/-- The letter of a descriptor. -/
def letter : Primitive → Char
  | byte => 'B'
  | char => 'C'
  | double => 'D'
  | float => 'F'
  | int => 'I'
  | long => 'J'
  | short => 'S'
  | boolean => 'Z'
  | void => 'V'

/-- The word of source code. -/
def word : Primitive → List Char
  | byte => "byte".toList
  | char => "char".toList
  | double => "double".toList
  | float => "float".toList
  | int => "int".toList
  | long => "long".toList
  | short => "short".toList
  | boolean => "boolean".toList
  | void => "void".toList

/-- All primitives. -/
def all : List Primitive := [byte, char, double, float, int, long, short, boolean, void]

/-- The primitive that a letter stands for. -/
def ofLetter? (c : Char) : Option Primitive := all.find? (·.letter == c)

@[simp] theorem ofLetter?_letter (p : Primitive) : ofLetter? p.letter = some p := by
  cases p <;> decide

theorem ofLetter?_eq_some_iff {c : Char} {p : Primitive} : ofLetter? c = some p ↔ p.letter = c := by
  constructor
  · intro h
    simpa using List.find?_some h
  · rintro rfl
    exact ofLetter?_letter p

end Primitive

/-- The types of fields, arguments and results. -/
inductive FieldType where
  | primitive (p : Primitive)
  | object (name : List Char)
  | array (element : FieldType)
  | method (arguments : List FieldType) (result : FieldType)

namespace FieldType

mutual

/-- The descriptor of a type. -/
def code : FieldType → List Char
  | primitive p => [p.letter]
  | object name => 'L' :: name ++ [';']
  | array t => '[' :: t.code
  | method as r => '(' :: codes as ++ ')' :: r.code

/-- The descriptors of a list of types, one after the other. -/
def codes : List FieldType → List Char
  | [] => []
  | t :: ts => t.code ++ codes ts

end

mutual

/-- The type as source code spells it. -/
def pretty : FieldType → List Char
  | primitive p => p.word
  | object name => name
  | array t => t.pretty ++ "[]".toList
  | method as r => r.pretty ++ " (".toList ++ List.intercalate ", ".toList (pretties as) ++ [')']

/-- Each type of a list as source code spells it. -/
def pretties : List FieldType → List (List Char)
  | [] => []
  | t :: ts => t.pretty :: pretties ts

end

mutual

/-- How deep arrays and method types lie in each other. -/
def nesting : FieldType → Nat
  | primitive _ => 0
  | object _ => 0
  | array t => t.nesting + 1
  | method as r => max (nestings as) r.nesting + 1

/-- The deepest nesting in a list of types. -/
def nestings : List FieldType → Nat
  | [] => 0
  | t :: ts => max t.nesting (nestings ts)

end

mutual

/-- Class names hold no semicolon, which ends them. -/
def WellNamed : FieldType → Prop
  | primitive _ => True
  | object name => ';' ∉ name
  | array t => t.WellNamed
  | method as r => AllWellNamed as ∧ r.WellNamed

/-- Every type of a list is well named. -/
def AllWellNamed : List FieldType → Prop
  | [] => True
  | t :: ts => t.WellNamed ∧ AllWellNamed ts

end

end FieldType

end StackProfile.Descriptor
