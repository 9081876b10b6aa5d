import StackProfile.Text.Quoted

/-! # Profiles

A profile holds samples, each a stack of locations with its values, and the tables of locations and
functions that they refer to.  Both tables are dense: the entry at position `i` has the identifier
`i + 1`.  Functions are interned by all their properties.

Main lemmas: what an insertion adds to a table (`locations_pushLocation`,
`functions_internFunction`). -/

namespace StackProfile

/-- What a column of values counts, and in which unit. -/
structure ValueType where
  kind : String := ""
  unit : String := ""
deriving DecidableEq, Repr

/-- How a value type is shown. -/
def ValueType.shown (t : ValueType) : String :=
  let kind := String.ofList (Text.quoted t.kind.toList)
  let unit := String.ofList (Text.quoted t.unit.toList)
  s!"ValueType({kind}, {unit})"

/-- What tells functions apart. -/
structure FunctionKey where
  name : String
  systemName : String := ""
  fileName : String := ""
  startLine : Int := 0
deriving DecidableEq, Repr

/-- An entry of the function table. -/
structure FunctionEntry where
  id : Int
  key : FunctionKey
deriving DecidableEq, Repr

/-- A line of a location: a function and a line number. -/
structure Line where
  functionId : Int
  line : Int
deriving DecidableEq, Repr

/-- An entry of the location table. -/
structure Location where
  id : Int
  lines : List Line
  address : Int
deriving DecidableEq, Repr

/-- A stack, the innermost location first, and its values, one for each sample type. -/
structure Sample where
  locationIds : List Int := []
  values : List Int := []
deriving DecidableEq, Repr

/-- The position that an index means in a list of some length; a negative index counts from the
end. -/
def position? (length : Nat) (index : Int) : Option Nat :=
  let i := if index < 0 then index + length else index
  if 0 ≤ i ∧ i < length then some i.toNat else none

namespace Sample

/-- The sample with one more location, outside the others. -/
def pushLocation (s : Sample) (id : Int) : Sample :=
  { s with locationIds := s.locationIds ++ [id] }

/-- The sample with one more value. -/
def pushValue (s : Sample) (value : Int) : Sample := { s with values := s.values ++ [value] }

/-- The value at an index. -/
def value? (s : Sample) (index : Int) : Option Int :=
  (position? s.values.length index).bind (s.values[·]?)

/-- The sample with a new value at an index. -/
def withValue? (s : Sample) (index value : Int) : Option Sample :=
  (position? s.values.length index).map fun i => { s with values := s.values.set i value }

/-- The first value; zero if there is none. -/
def count (s : Sample) : Int := s.values.getD 0 0

/-- The second value; zero if there is none. -/
def metric (s : Sample) : Int := s.values.getD 1 0

/-- The sample with a new first value. -/
def setCount (s : Sample) (count : Int) : Sample := { s with values := s.values.set 0 count }

/-- The sample with a new second value. -/
def setMetric (s : Sample) (metric : Int) : Sample := { s with values := s.values.set 1 metric }

/-- Adds to the first two values. -/
def accumulate (s : Sample) (count metric : Int) : Sample :=
  (s.setCount (s.count + count)).setMetric (s.metric + metric)

@[simp] theorem locationIds_setCount (s : Sample) (c : Int) :
    (s.setCount c).locationIds = s.locationIds := rfl

@[simp] theorem locationIds_setMetric (s : Sample) (m : Int) :
    (s.setMetric m).locationIds = s.locationIds := rfl

theorem setMetric_setCount_self (s : Sample) : (s.setCount s.count).setMetric s.metric = s := by
  obtain ⟨ids, values⟩ := s
  match values with
  | [] => rfl
  | [_] => rfl
  | _ :: _ :: _ => rfl

theorem values_accumulate (ids : List Int) (c m c' m' : Int) :
    (Sample.mk ids [c, m]).accumulate c' m' = ⟨ids, [c + c', m + m']⟩ := rfl

end Sample

/-- Samples with the tables they refer to. -/
structure Profile where
  sampleTypes : List ValueType := []
  periodType : ValueType := {}
  period : Int := 0
  samples : List Sample := []
  locations : List Location := []
  functions : List FunctionEntry := []
deriving DecidableEq, Repr

/-- The entry of a dense table with an identifier. -/
def entryAt? {α : Type} (table : List α) (id : Int) : Option α :=
  if 1 ≤ id then table[(id - 1).toNat]? else none

theorem entryAt?_eq_some {α : Type} {table : List α} {id : Int} {a : α}
    (h : entryAt? table id = some a) : 1 ≤ id ∧ id ≤ table.length ∧ a ∈ table := by
  rw [entryAt?] at h
  split at h
  · obtain ⟨hl, rfl⟩ := List.getElem?_eq_some_iff.1 h
    exact ⟨by assumption, by omega, List.getElem_mem _⟩
  · simp at h

theorem entryAt?_isSome_iff {α : Type} {table : List α} {id : Int} :
    (entryAt? table id).isSome ↔ 1 ≤ id ∧ id ≤ table.length := by
  rw [entryAt?]
  split
  · rw [isSome_getElem?]
    omega
  · simp
    omega

namespace Location

/-- The location with one more line. -/
def pushLine (l : Location) (functionId line : Int) : Location :=
  { l with lines := l.lines ++ [⟨functionId, line⟩] }

/-- The location at an address. -/
def withAddress (l : Location) (address : Int) : Location := { l with address := address }

end Location

namespace Profile

/-- Adds a sample type. -/
def pushSampleType (p : Profile) (t : ValueType) : Profile :=
  { p with sampleTypes := p.sampleTypes ++ [t] }

/-- Adds a sample. -/
def pushSample (p : Profile) (s : Sample) : Profile := { p with samples := p.samples ++ [s] }

/-- Changes the sample at a position. -/
def modifySample (p : Profile) (i : Nat) (f : Sample → Sample) : Profile :=
  { p with samples := p.samples.modify i f }

/-- Adds a location under the next identifier. -/
def pushLocation (p : Profile) (lines : List Line) (address : Int) : Location × Profile :=
  let location : Location := ⟨p.locations.length + 1, lines, address⟩
  (location, { p with locations := p.locations ++ [location] })

/-- The location with an identifier. -/
def location? (p : Profile) (id : Int) : Option Location := entryAt? p.locations id

/-- Changes the location with an identifier. -/
def modifyLocation (p : Profile) (id : Int) (f : Location → Location) : Profile :=
  if 1 ≤ id then { p with locations := p.locations.modify (id - 1).toNat f } else p

/-- The identifier of a function, which is added unless it is known. -/
def internFunction (p : Profile) (key : FunctionKey) : Int × Profile :=
  match p.functions.find? (·.key == key) with
  | some f => (f.id, p)
  | none =>
    let f : FunctionEntry := ⟨p.functions.length + 1, key⟩
    (f.id, { p with functions := p.functions ++ [f] })

/-- The function with an identifier. -/
def function? (p : Profile) (id : Int) : Option FunctionEntry := entryAt? p.functions id

/-- The name of the function of the first line of a location. -/
def locationName? (p : Profile) (locationId : Int) : Option String := do
  let location ← p.location? locationId
  let line ← location.lines.head?
  let f ← p.function? line.functionId
  return f.key.name

@[simp] theorem locations_pushLocation (p : Profile) (ls : List Line) (a : Int) :
    (p.pushLocation ls a).2.locations = p.locations ++ [(p.pushLocation ls a).1] := rfl

@[simp] theorem functions_pushLocation (p : Profile) (ls : List Line) (a : Int) :
    (p.pushLocation ls a).2.functions = p.functions := rfl

@[simp] theorem samples_pushLocation (p : Profile) (ls : List Line) (a : Int) :
    (p.pushLocation ls a).2.samples = p.samples := rfl

@[simp] theorem locations_internFunction (p : Profile) (k : FunctionKey) :
    (p.internFunction k).2.locations = p.locations := by
  rw [internFunction]
  split <;> rfl

@[simp] theorem samples_internFunction (p : Profile) (k : FunctionKey) :
    (p.internFunction k).2.samples = p.samples := by
  rw [internFunction]
  split <;> rfl

/-- A known function keeps the table, a fresh one goes to its end. -/
theorem functions_internFunction (p : Profile) (k : FunctionKey) :
    (p.internFunction k).2.functions =
      if p.functions.any (·.key == k) then p.functions
      else p.functions ++ [⟨p.functions.length + 1, k⟩] := by
  rw [internFunction]
  cases h : p.functions.find? (·.key == k) with
  | some f =>
      rw [if_pos (List.any_eq_true.2 ⟨f, List.mem_of_find?_eq_some h, List.find?_some h⟩)]
  | none =>
      rw [if_neg]
      rw [List.any_eq_true]
      rintro ⟨f, hf, e⟩
      exact absurd e (List.find?_eq_none.1 h f hf)

end Profile

end StackProfile
