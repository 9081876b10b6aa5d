import StackProfile.Profile.Basic
import StackProfile.Registry

/-! # Location tables

A location table interns managed frames in a profile: the first frame with a key gets a new
location, later frames with that key get the same one.

Main lemmas: a known key changes nothing (`intern_of_known`), and afterwards the key is known
with the location that was answered (`get?_intern`). -/

namespace StackProfile

/-- What tells managed frames apart. -/
structure FrameLabel where
  className : String
  functionName : String
  fileName : String
  line : Int
deriving DecidableEq, Repr

/-- A profile and the locations interned in it. -/
structure LocationTable where
  profile : Profile := {}
  interned : Registry FrameLabel Location := .empty
deriving DecidableEq, Repr

namespace LocationTable

/-- The location of a key: the interned one, or a new one with one line. -/
def intern (t : LocationTable) (k : FrameLabel) : Location × LocationTable :=
  match t.interned.get? k with
  | some location => (location, t)
  | none =>
    let (functionId, profile) :=
      t.profile.internFunction { name := k.functionName, fileName := k.fileName }
    let (location, profile) := profile.pushLocation [⟨functionId, k.line⟩] 0
    (location, { profile, interned := t.interned.insert k location })

theorem intern_of_known {t : LocationTable} {k : FrameLabel} {l : Location}
    (h : t.interned.get? k = some l) : t.intern k = (l, t) := by
  rw [intern, h]

theorem get?_intern (t : LocationTable) (k : FrameLabel) :
    (t.intern k).2.interned.get? k = some (t.intern k).1 := by
  rw [intern]
  split
  · assumption
  · exact Registry.get?_insert_self _ _ _

end LocationTable

end StackProfile
