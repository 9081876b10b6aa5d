import StackProfile.Profile.Basic

/-! # Editing a profile

The single changes of a profile, for building one by hand.  `Edit.apply` carries out one of them
and answers what it touched.  An edit that names a sample, a value or a location that is not there
fails and changes nothing.

Main lemma: a failed edit changes nothing (`apply_of_error`). -/

namespace StackProfile

/-- A single change of a profile, or a look at it.  Samples are named by their position, from the
end if it is negative. -/
inductive Edit where
  | pushSampleType (type : ValueType)
  | setPeriodType (type : ValueType)
  | setPeriod (period : Int)
  | pushSample
  | pushSampleLocation (sample : Int) (id : Int)
  | pushValue (sample : Int) (value : Int)
  | setValue (sample index value : Int)
  | getValue (sample index : Int)
  | pushLocation
  | pushLine (id functionId line : Int)
  | setAddress (id address : Int)
  | getLocation (id : Int)
  | internFunction (key : FunctionKey)
  | getFunction (id : Int)
  | getName (locationId : Int)
deriving DecidableEq, Repr

/-- Why an edit fails. -/
inductive EditError where
  | noSample
  | noValue
  | noLocation
deriving DecidableEq, Repr

/-- What an edit answers. -/
inductive EditAnswer where
  | size (n : Nat)
  | valueType (type : ValueType)
  | number (n : Int)
  | sample (s : Sample)
  | location (l? : Option Location)
  | function (f? : Option FunctionEntry)
  | name (name? : Option String)
deriving DecidableEq, Repr

namespace Edit

/-- Changes a sample. -/
def onSample (p : Profile) (sample : Int) (f : Sample → Option Sample) :
    Except EditError EditAnswer × Profile :=
  match position? p.samples.length sample with
  | none => (.error .noSample, p)
  | some i =>
    match (p.samples[i]?).bind f with
    | none => (.error .noValue, p)
    | some s => (.ok (.sample s), p.modifySample i fun _ => s)

/-- Changes a location. -/
def onLocation (p : Profile) (id : Int) (f : Location → Location) :
    Except EditError EditAnswer × Profile :=
  match p.location? id with
  | none => (.error .noLocation, p)
  | some l => (.ok (.location (some (f l))), p.modifyLocation id f)

/-- Carries out an edit. -/
def apply (p : Profile) : Edit → Except EditError EditAnswer × Profile
  | pushSampleType type =>
    let p := p.pushSampleType type
    (.ok (.size p.sampleTypes.length), p)
  | setPeriodType type => (.ok (.valueType type), { p with periodType := type })
  | setPeriod period => (.ok (.number period), { p with period })
  | .pushSample =>
    let p := p.pushSample {}
    (.ok (.size p.samples.length), p)
  | pushSampleLocation sample id => onSample p sample fun s => some (s.pushLocation id)
  | pushValue sample value => onSample p sample fun s => some (s.pushValue value)
  | setValue sample index value => onSample p sample fun s => s.withValue? index value
  | getValue sample index =>
    match position? p.samples.length sample with
    | none => (.error .noSample, p)
    | some i =>
      match (p.samples[i]?).bind fun s => s.value? index with
      | none => (.error .noValue, p)
      | some v => (.ok (.number v), p)
  | .pushLocation =>
    let (location, p) := p.pushLocation [] 0
    (.ok (.location (some location)), p)
  | pushLine id functionId line => onLocation p id fun l => l.pushLine functionId line
  | setAddress id address => onLocation p id fun l => l.withAddress address
  | getLocation id => (.ok (.location (p.location? id)), p)
  | internFunction key =>
    let (id, p) := p.internFunction key
    (.ok (.number id), p)
  | getFunction id => (.ok (.function (p.function? id)), p)
  | getName locationId => (.ok (.name (p.locationName? locationId)), p)

theorem onSample_of_error {p : Profile} {i : Int} {f : Sample → Option Sample} {e : EditError}
    (h : (onSample p i f).1 = .error e) : (onSample p i f).2 = p := by
  rw [onSample] at h ⊢
  split
  · rfl
  · rename_i j hj
    rw [hj] at h
    dsimp only at h
    split
    · rfl
    · rename_i s hs
      rw [hs] at h
      simp at h

theorem onLocation_of_error {p : Profile} {id : Int} {f : Location → Location} {e : EditError}
    (h : (onLocation p id f).1 = .error e) : (onLocation p id f).2 = p := by
  rw [onLocation] at h ⊢
  split
  · rfl
  · rename_i l hl
    rw [hl] at h
    simp at h

/-- A failed edit changes nothing. -/
theorem apply_of_error {p : Profile} {edit : Edit} {e : EditError}
    (h : (apply p edit).1 = .error e) : (apply p edit).2 = p := by
  cases edit with
  | pushSampleLocation | pushValue | setValue => exact onSample_of_error h
  | pushLine | setAddress => exact onLocation_of_error h
  | getValue i j =>
      simp only [apply] at h ⊢
      split
      · rfl
      · split <;> rfl
  | _ => simp [apply] at h

end Edit

end StackProfile
