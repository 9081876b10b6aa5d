/-! # Walking a trace

A walk goes through the frames of one trace and tells which native frames are redundant: those
that repeat the name of the native frame right before them.

Main lemma: a step is redundant exactly if it repeats a native step (`redundant_step`). -/

namespace StackProfile

/-- What a walk sees of a frame. -/
inductive WalkStep where
  | managed
  | native (name : String)
deriving DecidableEq, Repr

/-- The last step of a walk, and whether it was redundant. -/
structure Walk where
  last : Option WalkStep := none
  redundant : Bool := false
deriving DecidableEq, Repr

namespace Walk

/-- A walk before its first step. -/
def start : Walk := {}

/-- Takes one step. -/
def step (w : Walk) : WalkStep → Walk
  | .managed => ⟨some .managed, false⟩
  | .native name => ⟨some (.native name), w.last == some (.native name)⟩

/-- Where the last step led. -/
def place (w : Walk) : String :=
  match w.last with
  | none => "initial"
  | some .managed => "in_java_run"
  | some (.native _) => "in_native_run"

@[simp] theorem last_step (w : Walk) (s : WalkStep) : (w.step s).last = some s := by
  cases s <;> rfl

/-- A step is redundant exactly if it repeats a native step. -/
theorem redundant_step (w : Walk) (s : WalkStep) :
    (w.step s).redundant = true ↔ s ≠ .managed ∧ w.last = some s := by
  cases s <;> simp [step]

end Walk

end StackProfile
