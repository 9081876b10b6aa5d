import StackProfile.Builder.Rendering
import StackProfile.Settings

/-! # Builders

A builder aggregates captures into a profile.  Captures with equal trace keys share one sample,
whose values are the sums of the weights and of the metrics; only the first of them is rendered.
An artificial trace is a sample of its own with a single location.

Every operation answers the state it leaves, also when it fails.

Main lemmas: a capture with a known key only adds to its sample (`addCapture_of_known`), a frame has
a location if it has an address (`locateFrame_of_address`, `locateFrame_of_no_address`), a batch
with a wrong number of counts changes nothing (`addBatch_of_length_ne`), and folding captures in can
be cut anywhere (`addCaptures_append`). -/

namespace StackProfile

/-- The positions of samples by the keys of their traces. -/
abbrev SampleIndex := Registry TraceKey Nat

namespace SampleIndex

/-- The sample of a trace. -/
def sample? (i : SampleIndex) (t : Trace) : Option Nat := i.get? t.key

/-- Puts a sample under a trace. -/
def put (i : SampleIndex) (t : Trace) (sample : Nat) : SampleIndex := i.insert t.key sample

end SampleIndex

/-- A profile under construction.  The identifier tells builders apart that share a symbolizer. -/
structure Builder where
  id : Nat
  plan : Plan
  table : LocationTable
  index : SampleIndex := .empty
deriving DecidableEq, Repr

/-- Why a batch is refused. -/
inductive BatchError where
  | countMismatch (traces counts : Nat)
  | unresolved (cause : ResolveError)
deriving DecidableEq, Repr

/-- The text of a batch error, if it has one. -/
def BatchError.message? : BatchError → Option String
  | countMismatch traces counts => some s!"Expected {traces} counts, got {counts}"
  | unresolved _ => none

namespace Builder

/-- A builder without samples. -/
def ofPlan (id : Nat) (plan : Plan) : Builder :=
  { id, plan
    table :=
      { profile :=
          { sampleTypes := [plan.countType, plan.metricType]
            periodType := plan.metricType
            period := plan.rate } } }

/-- The profile as far as it is built. -/
def profile (b : Builder) : Profile := b.table.profile

/-- The builder with another profile. -/
def withProfile (b : Builder) (p : Profile) : Builder :=
  { b with table := { b.table with profile := p } }

/-- The samples as far as they are built. -/
def samples (b : Builder) : List Sample := b.profile.samples

/-- Folds one capture of some weight in. -/
def addCapture (methods : MethodTable) (s : Builder × Symbolizer) (c : Capture × Int) :
    Builder × Symbolizer :=
  let (b, symbolizer) := s
  let (capture, count) := c
  match b.index.sample? capture.trace with
  | some i =>
    (b.withProfile (b.profile.modifySample i fun s => s.accumulate count capture.metric),
      symbolizer)
  | none =>
    let r := Rendering.renderFrames b.id methods { table := b.table, symbolizer }
      (capture.trace.trim b.plan.skip.toNat)
    let sample : Sample := ⟨r.locationIds, [count, capture.metric]⟩
    ({ b with
        table := { r.table with profile := r.table.profile.pushSample sample }
        index := b.index.put capture.trace b.samples.length },
      r.symbolizer)

/-- Folds captures in one after the other. -/
def addCaptures (methods : MethodTable) (s : Builder × Symbolizer) (cs : List (Capture × Int)) :
    Builder × Symbolizer :=
  cs.foldl (addCapture methods) s

/-- Adds a batch of captures, each of weight one unless counts are given.  The symbolizer sees the
whole batch before a capture is folded in. -/
def addBatch (b : Builder) (symbolizer : Symbolizer) (methods : MethodTable)
    (batch : List Capture) (counts? : Option (List Int)) :
    Except BatchError Unit × Builder × Symbolizer :=
  let counts := counts?.getD (batch.map fun _ => 1)
  if counts.length ≠ batch.length then
    (.error (.countMismatch batch.length counts.length), b, symbolizer)
  else
    match symbolizer.resolveBatch batch with
    | (.error e, symbolizer) => (.error (.unresolved e), b, symbolizer)
    | (.ok (), symbolizer) => (.ok (), addCaptures methods (b, symbolizer) (batch.zip counts))

/-- Adds a sample of `count` events that were not captured, `rate` metric units each. -/
def addArtificial (b : Builder) (name : String) (count rate : Int) : Builder :=
  let (location, table) := b.table.intern ⟨name, name, "", -1⟩
  let sample : Sample := ⟨[location.id], [count, count * rate]⟩
  { b with table := { table with profile := table.profile.pushSample sample } }

/-- The location of a label. -/
def intern (b : Builder) (label : FrameLabel) : Location × Builder :=
  let (location, table) := b.table.intern label
  (location, { b with table })

/-- The location of a native address. -/
def locate (b : Builder) (symbolizer : Symbolizer) (address : Int) :
    Location × Builder × Symbolizer :=
  let (location, symbolizer, p) := symbolizer.locate b.id b.profile address
  (location, b.withProfile p, symbolizer)

/-- Adds a location with neither lines nor an address. -/
def pushLineless (b : Builder) : Builder := b.withProfile (b.profile.pushLocation [] 0).2

/-- The location of a frame by its address.  A frame without address is an error, but the symbolizer
belongs to the builder by then, and a location was added. -/
def locateFrame (b : Builder) (symbolizer : Symbolizer) (f : Frame) :
    Except ResolveError Location × Builder × Symbolizer :=
  match f.address? with
  | some address =>
    let (location, b, symbolizer) := b.locate symbolizer address
    (.ok location, b, symbolizer)
  | none => (.error .noAddress, b.pushLineless, symbolizer.ownedBy b.id)

/-- The function names of every stack. -/
def stackNames (b : Builder) : List (List (Option String)) :=
  b.samples.map fun s => s.locationIds.map b.profile.locationName?

theorem addCapture_of_known {b : Builder} {c : Capture} {i : Nat}
    (h : b.index.sample? c.trace = some i) (methods : MethodTable) (z : Symbolizer)
    (count : Int) :
    addCapture methods (b, z) (c, count) =
      (b.withProfile (b.profile.modifySample i fun s => s.accumulate count c.metric), z) := by
  simp only [addCapture, h]

theorem addCaptures_append (methods : MethodTable) (s : Builder × Symbolizer)
    (cs ds : List (Capture × Int)) :
    addCaptures methods s (cs ++ ds) = addCaptures methods (addCaptures methods s cs) ds :=
  List.foldl_append

theorem locateFrame_of_address {f : Frame} {a : Int} (h : f.address? = some a) (b : Builder)
    (z : Symbolizer) : b.locateFrame z f = (.ok (b.locate z a).1, (b.locate z a).2) := by
  rw [locateFrame, h]

theorem locateFrame_of_no_address {f : Frame} (h : f.address? = none) (b : Builder)
    (z : Symbolizer) : b.locateFrame z f = (.error .noAddress, b.pushLineless, z.ownedBy b.id) := by
  rw [locateFrame, h]

theorem addBatch_of_length_ne {batch : List Capture} {counts : List Int}
    (h : counts.length ≠ batch.length) (b : Builder) (z : Symbolizer) (methods : MethodTable) :
    b.addBatch z methods batch (some counts) =
      (.error (.countMismatch batch.length counts.length), b, z) :=
  if_pos h

end Builder

end StackProfile
