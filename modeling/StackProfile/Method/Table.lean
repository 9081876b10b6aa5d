import StackProfile.Descriptor.Spelling
import StackProfile.DisplayName.Generated
import StackProfile.Method.LineTable
import StackProfile.Registry
import StackProfile.Trace.Basic

/-! # Method tables

A method table holds what is known about the methods that managed frames name.  `resolve` finds the
file, class, method, signature and source line of a frame; a method that the table does not know
resolves to nothing but empty texts.  `displayName` is the name under which a resolved frame appears
in a profile.

Main lemma: a frame of an unknown method resolves to empty texts (`resolve_of_unknown`). -/

namespace StackProfile

/-- What is known about a method. -/
structure Method where
  fileName : String
  className : String
  name : String
  signature : Option String
  lineTable : LineTable
deriving DecidableEq, Repr

/-- A resolved managed frame. -/
structure ResolvedFrame where
  fileName : String := ""
  className : String := ""
  name : String := ""
  signature : Option String := some ""
  line : Int := 0
deriving DecidableEq, Repr

namespace ResolvedFrame

/-- The argument list of the signature; a method without signature has none. -/
def parameters (e : ResolvedFrame) : List Char :=
  match e.signature with
  | some s => Descriptor.parameterList s.toList
  | none => []

/-- The name of the function of a resolved frame: class and method without the counters of
generated code, and the arguments. -/
def displayName (e : ResolvedFrame) : String :=
  String.ofList
    (DisplayName.stable (e.className.toList ++ '.' :: e.name.toList) ++ e.parameters)

end ResolvedFrame

/-- Methods by their identity. -/
abbrev MethodTable := Registry MethodId Method

namespace MethodTable

/-- The frame at a location in a method. -/
def resolve (t : MethodTable) (id : MethodId) (location : Int) : ResolvedFrame :=
  match t.get? id with
  | none => {}
  | some m =>
    { fileName := m.fileName
      className := String.ofList (Descriptor.dotted m.className.toList)
      name := m.name
      signature := m.signature
      line := m.lineTable.lineAt location }

theorem resolve_of_unknown {t : MethodTable} {id : MethodId} (h : t.get? id = none)
    (location : Int) : resolve t id location = {} := by
  rw [resolve, h]

end MethodTable

end StackProfile
