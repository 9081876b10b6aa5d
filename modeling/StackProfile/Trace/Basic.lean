import StackProfile.Text.Quoted

/-! # Captured traces

A trace is a list of frames, the innermost call first.  A frame is managed, with the identity of
its method and a location in it, or native, with an address; a native frame is marked by the line
number `nativeLine`.  A capture is a trace and the metric measured for it.

Main lemmas: traces are equal when their keys are (`key_injective`), and trimming leaves an end of
the trace (`trim_suffix`). -/

namespace StackProfile

/-- How a capture identifies a method. -/
inductive MethodId where
  | number (n : Int)
  | name (s : String)
  | unknown
deriving DecidableEq, Repr

/-- One frame of a captured stack. -/
structure Frame where
  line : Int
  method : MethodId
deriving DecidableEq, Repr

/-- Frames of a stack, the innermost call first. -/
abbrev Trace := List Frame

/-- What tells traces apart: the methods and lines of all their frames. -/
abbrev TraceKey := List (MethodId × Int)

/-- A trace together with the metric measured for it. -/
structure Capture where
  trace : Trace
  metric : Int
deriving DecidableEq, Repr

namespace MethodId

/-- How a method identity is shown. -/
def shown : MethodId → String
  | number n => toString n
  | name s => String.ofList (Text.quoted s.toList)
  | unknown => "None"

end MethodId

namespace Frame

/-- The line number that marks native frames. -/
def nativeLine : Int := -99

/-- The native frame at an address. -/
def native (address : Int) : Frame := ⟨nativeLine, .number address⟩

/-- Whether the method of the frame is an address. -/
def isNative (f : Frame) : Bool := f.line == nativeLine

/-- The address that the frame carries as its method, if it carries one. -/
def address? (f : Frame) : Option Int :=
  match f.method with
  | .number a => some a
  | _ => none

/-- How a frame is shown. -/
def shown (f : Frame) : String := s!"CallFrame({f.line}, {f.method.shown})"

end Frame

namespace Trace

/-- The key of a trace. -/
def key (t : Trace) : TraceKey := t.map fun f => (f.method, f.line)

theorem key_injective {t u : Trace} (h : key t = key u) : t = u := by
  induction t generalizing u with
  | nil => exact (List.map_eq_nil_iff.1 h.symm).symm
  | cons f t ih =>
      cases u with
      | nil => simp [key] at h
      | cons g u =>
          obtain ⟨h₁, h₂⟩ := List.cons.inj h
          obtain ⟨e₁, e₂⟩ := Prod.mk.inj h₁
          rw [ih h₂, show f = g by cases f; cases g; simp_all]

/-- The trace without its leading native frames, of which at most `n` are dropped. -/
def trim : Nat → Trace → Trace
  | n + 1, f :: t => if f.isNative then trim n t else f :: t
  | _, t => t

theorem trim_suffix (n : Nat) (t : Trace) : trim n t <:+ t := by
  fun_induction trim n t with
  | case1 n f t _ ih => exact ih.trans (List.suffix_cons _ _)
  | case2 => exact List.suffix_refl _
  | case3 => exact List.suffix_refl _

end Trace

end StackProfile
