import StackProfile.Profile.Basic

/-! # Settings of a profile

A profile is of one of three kinds.  Each kind has a preset: what its two columns count, how many
leading native frames of a trace belong to the capture itself, and whether finished profiles are
unsampled.  `Settings.make` checks the numbers it is given and takes what is not given from the
preset.  A `Plan` is all that a builder needs to know.

Main lemmas: which settings are refused, and for which of two causes (`make_eq_error_iff`), and a
kind is found by its name (`ofName?_name`). -/

namespace StackProfile

/-- What is profiled. -/
inductive ProfileKind where
  | heap
  | cpu
  | contention
deriving DecidableEq, Repr

/-- What a builder is made from. -/
structure Plan where
  rate : Int
  countType : ValueType
  metricType : ValueType
  skip : Int := 0
  unsample : Bool := false
deriving DecidableEq, Repr

/-- What is fixed for a kind of profile. -/
structure Preset where
  countType : ValueType
  metricType : ValueType
  skip : Int
  unsample : Bool
deriving DecidableEq, Repr

namespace ProfileKind

/-- The name of a kind. -/
def name : ProfileKind → String
  | heap => "heap"
  | cpu => "cpu"
  | contention => "contention"

/-- The kind with a name, in which case does not matter.  Only ASCII letters can match, since no
other character has a letter of these names as its lower case. -/
def ofName? (name : String) : Option ProfileKind :=
  [heap, cpu, contention].find? fun k => k.name.toList == name.toList.map Char.toLower

/-- The preset of a kind.  Traces of the heap are captured inside the allocation, whose two own
frames lie on every stack. -/
def preset : ProfileKind → Preset
  | heap => ⟨⟨"inuse_objects", "count"⟩, ⟨"inuse_space", "bytes"⟩, 2, true⟩
  | cpu => ⟨⟨"samples", "count"⟩, ⟨"cpu", "nanoseconds"⟩, 0, false⟩
  | contention => ⟨⟨"contentions", "count"⟩, ⟨"delay", "microseconds"⟩, 0, false⟩

@[simp] theorem ofName?_name (k : ProfileKind) : ofName? k.name = some k := by
  cases k <;> decide

end ProfileKind

/-- Settings that were checked. -/
structure Settings where
  kind : ProfileKind
  rate : Int
  skip : Int
  unsample : Bool
  rate_nonneg : 0 ≤ rate
  skip_nonneg : 0 ≤ skip
deriving DecidableEq, Repr

/-- Why settings are refused. -/
inductive SettingsError where
  | negativeRate (rate : Int)
  | negativeSkip (skip : Int)
  | unknownKind (name : String)
deriving DecidableEq, Repr

/-- The text of a settings error. -/
def SettingsError.message : SettingsError → String
  | negativeRate rate => s!"Sampling rate must not be negative: {rate}"
  | negativeSkip skip => s!"Native frames to skip must not be negative: {skip}"
  | unknownKind name => s!"Unknown profile type: {name}"

namespace Settings

/-- Settings for a kind of profile.  The rate is checked before the number of frames to skip. -/
def make (kind : ProfileKind) (rate : Int) (skip? : Option Int) (unsample? : Option Bool) :
    Except SettingsError Settings :=
  let skip := skip?.getD kind.preset.skip
  if hr : rate < 0 then .error (.negativeRate rate)
  else if hs : skip < 0 then .error (.negativeSkip skip)
  else
    .ok
      { kind, rate, skip
        unsample := unsample?.getD kind.preset.unsample
        rate_nonneg := Int.not_lt.1 hr
        skip_nonneg := Int.not_lt.1 hs }

/-- Settings for the kind of profile with a name. -/
def ofName (name : String) (rate : Int) : Except SettingsError Settings :=
  match ProfileKind.ofName? name with
  | some kind => make kind rate none none
  | none => .error (.unknownKind name)

/-- The plan of a builder with these settings. -/
def plan (s : Settings) : Plan :=
  { rate := s.rate
    countType := s.kind.preset.countType
    metricType := s.kind.preset.metricType
    skip := s.skip
    unsample := s.unsample }

theorem make_eq_error_iff {kind : ProfileKind} {rate : Int} {skip? : Option Int}
    {unsample? : Option Bool} {e : SettingsError} :
    make kind rate skip? unsample? = .error e ↔
      (rate < 0 ∧ e = .negativeRate rate) ∨
        (0 ≤ rate ∧ skip?.getD kind.preset.skip < 0 ∧
          e = .negativeSkip (skip?.getD kind.preset.skip)) := by
  simp only [make]
  split
  · rename_i hr
    have hr' : ¬0 ≤ rate := by omega
    simp [hr, hr', eq_comm]
  · rename_i hr
    have hr' : 0 ≤ rate := by omega
    split
    · rename_i hs
      simp [hr, hr', hs, eq_comm]
    · rename_i hs
      simp [hr, hs]

end Settings

end StackProfile
