import StackProfile.Method.Table
import StackProfile.Native.Symbolizer
import StackProfile.Profile.LocationTable
import StackProfile.Trace.Walk

/-! # Rendering a trace

Rendering walks through the frames of a trace and turns them into locations of a profile.  A
managed frame becomes the location of its label; a native frame becomes the location of its
address, unless the walk finds it redundant. -/

namespace StackProfile

/-- The label of a managed frame.  Frames without a method share one label. -/
def frameLabel (methods : MethodTable) (f : Frame) : FrameLabel :=
  match f.method with
  | .unknown => ⟨"", "Unknown method", "", 0⟩
  | id =>
    let e := methods.resolve id f.line
    ⟨e.className, e.displayName, e.fileName, e.line⟩

/-- The state of a rendering: the walk, the locations found so far, and the tables in use. -/
structure Rendering where
  walk : Walk := .start
  locationIds : List Int := []
  table : LocationTable
  symbolizer : Symbolizer
deriving DecidableEq, Repr

namespace Rendering

/-- Renders a managed frame. -/
def managed (r : Rendering) (label : FrameLabel) : Rendering :=
  let (location, table) := r.table.intern label
  { r with
    walk := r.walk.step .managed
    locationIds := r.locationIds ++ [location.id]
    table }

/-- Renders the native frame at an address for the builder `owner`. -/
def native (r : Rendering) (owner : Nat) (address : Int) : Rendering :=
  let (name, symbolizer) := r.symbolizer.nameOf address
  let walk := r.walk.step (.native name)
  if walk.redundant then { r with walk, symbolizer }
  else
    let (location, symbolizer, profile) := symbolizer.locate owner r.table.profile address
    { walk, symbolizer
      locationIds := r.locationIds ++ [location.id]
      table := { r.table with profile } }

/-- Renders one frame.  Native frames have an address here: a batch that holds one without is
refused before rendering begins. -/
def renderFrame (owner : Nat) (methods : MethodTable) (r : Rendering) (f : Frame) : Rendering :=
  if f.isNative then
    match f.address? with
    | some address => r.native owner address
    | none => r
  else r.managed (frameLabel methods f)

/-- Renders frames one after the other. -/
def renderFrames (owner : Nat) (methods : MethodTable) (r : Rendering) (t : Trace) : Rendering :=
  t.foldl (renderFrame owner methods) r

end Rendering

end StackProfile
