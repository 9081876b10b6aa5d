import Mathlib.Data.List.Destutter
import StackProfile.Trace.Walk

/-! # Runs of native steps

The managed steps of a walk divide it into runs of native steps.  Of each run, a walk keeps a step
exactly if it does not repeat the name of the step right before it.

A walk remembers its last step.  A classifier has three registers instead: the place, the name of
the run it is in, which it sets at the first step under that name only, and the flag.

Main lemmas: a classifier follows a walk (`Follows.step`), a step is redundant exactly if it repeats
the step right before it (`redundant_after_concat`), what is kept of runs, behind any step
(`nativeRuns_kept`), and all of this for every sequence of steps (`repeats_are_redundant`). -/

namespace StackProfile

namespace WalkStep

/-- Whether the step is managed. -/
def isManaged : WalkStep → Bool
  | managed => true
  | native _ => false

/-- The name of a native step. -/
def name? : WalkStep → Option String
  | managed => none
  | native name => some name

end WalkStep

/-- The names in the runs of native steps, which are empty between managed steps that follow each
other. -/
def nativeRuns (steps : List WalkStep) : List (List String) :=
  (steps.splitOnP (·.isManaged)).map (·.filterMap WalkStep.name?)

theorem nativeRuns_managed (steps : List WalkStep) :
    nativeRuns (.managed :: steps) = [] :: nativeRuns steps := by
  rw [nativeRuns, List.splitOnP_cons_eq_if_modifyHead]
  rfl

theorem nativeRuns_native (name : String) (steps : List WalkStep) :
    nativeRuns (.native name :: steps) = (nativeRuns steps).modifyHead (name :: ·) := by
  have hnative : ¬(WalkStep.native name).isManaged = true := Bool.false_ne_true
  rw [nativeRuns, nativeRuns, List.splitOnP_cons_eq_if_modifyHead, if_neg hnative]
  cases steps.splitOnP (·.isManaged) <;> rfl

namespace Walk

/-- The walk behind some steps. -/
def after (steps : List WalkStep) : Walk := steps.foldl step start

/-- The steps that are not redundant, if the walk takes them one after the other. -/
def kept (w : Walk) : List WalkStep → List WalkStep
  | [] => []
  | s :: steps =>
    if (w.step s).redundant then (w.step s).kept steps else s :: (w.step s).kept steps

theorem after_concat (steps : List WalkStep) (s : WalkStep) :
    after (steps ++ [s]) = (after steps).step s := by
  rw [after, List.foldl_concat, after]

/-- A walk remembers its last step, redundant or not. -/
theorem last_after (steps : List WalkStep) : (after steps).last = steps.getLast? := by
  induction steps using List.reverseRecOn with
  | nil => rfl
  | append_singleton steps s => rw [after_concat, last_step, List.getLast?_concat]

theorem redundant_after_concat (steps : List WalkStep) (s : WalkStep) :
    (after (steps ++ [s])).redundant = true ↔ s ≠ .managed ∧ steps.getLast? = some s := by
  rw [after_concat, redundant_step, last_after]

/-- The step at position `i` of some steps. -/
theorem redundant_after_take {steps : List WalkStep} (i : Fin steps.length) :
    (after (steps.take (i + 1))).redundant = true ↔
      ∃ name j, (i : Nat) = j + 1 ∧ steps[i] = .native name ∧ steps[j]? = some (.native name) := by
  obtain ⟨i, hi⟩ := i
  have htake : steps.take (i + 1) = steps.take i ++ [steps[i]] :=
    List.take_succ_eq_append_getElem hi
  have hlast : (steps.take i).getLast? = if i = 0 then none else steps[i - 1]? := by
    rw [List.getLast?_take]
    split
    · rfl
    · rw [List.getElem?_eq_getElem (by omega : i - 1 < steps.length), Option.some_or]
  simp only [Fin.getElem_fin]
  rw [htake, redundant_after_concat, hlast]
  constructor
  · rintro ⟨hnative, hprev⟩
    cases hstep : steps[i] with
    | managed => exact absurd hstep hnative
    | native name =>
        split at hprev
        · cases hprev
        · exact ⟨name, i - 1, by omega, rfl, hprev.trans (congrArg some hstep)⟩
  · rintro ⟨name, j, rfl, hstep, hprev⟩
    rw [hstep, if_neg (Nat.succ_ne_zero j), Nat.add_sub_cancel]
    exact ⟨by simp, hprev⟩

/-! ### Three registers -/

/-- Where a classifier is. -/
inductive Place where
  | initial
  | nativeRun
  | managedRun
deriving DecidableEq, Repr

/-- How a place is shown. -/
def Place.shown : Place → String
  | initial => "initial"
  | nativeRun => "in_native_run"
  | managedRun => "in_java_run"

/-- The place, the name of the run, and whether the last step was redundant. -/
structure Classifier where
  place : Place := .initial
  runName : Option String := none
  redundant : Bool := false
deriving DecidableEq, Repr

namespace Classifier

/-- Takes one step. -/
def step (c : Classifier) : WalkStep → Classifier
  | .managed => ⟨.managedRun, none, false⟩
  | .native name =>
    if c.place = .nativeRun ∧ c.runName = some name then { c with redundant := true }
    else ⟨.nativeRun, some name, false⟩

/-- The classifier behind some steps. -/
def after (steps : List WalkStep) : Classifier := steps.foldl step {}

/-- The registers tell the last step of the walk. -/
structure Follows (c : Classifier) (w : Walk) : Prop where
  place : c.place.shown = w.place
  native : ∀ name, c.place = .nativeRun ∧ c.runName = some name ↔ w.last = some (.native name)
  redundant : c.redundant = w.redundant

theorem follows_start : Follows {} start := ⟨rfl, by simp [start], rfl⟩

theorem Follows.step {c : Classifier} {w : Walk} (h : c.Follows w) (s : WalkStep) :
    (c.step s).Follows (w.step s) := by
  cases s with
  | managed => exact ⟨rfl, by simp [Classifier.step, Walk.step], rfl⟩
  | native name =>
      have hlast := h.native name
      rw [Classifier.step]
      split
      · -- The register keeps the name of the run, which is the name of this step.
        rename_i hc
        have hw := hlast.1 hc
        refine ⟨?_, ?_, ?_⟩
        · rw [h.place, Walk.place, Walk.place, last_step, hw]
        · intro other
          rw [last_step, ← hw]
          exact h.native other
        · rw [Walk.step, hw]
          exact (beq_self_eq_true _).symm
      · rename_i hc
        refine ⟨rfl, by simp, ?_⟩
        rw [Walk.step]
        exact (beq_eq_false_iff_ne.2 (mt hlast.2 hc)).symm

theorem follows_after (steps : List WalkStep) : (after steps).Follows (Walk.after steps) := by
  induction steps using List.reverseRecOn with
  | nil => exact follows_start
  | append_singleton steps s ih =>
      rw [Walk.after_concat, after, List.foldl_concat]
      exact ih.step s

end Classifier

/-! ### What is kept of runs -/

/-- The names of a run that do not repeat the name before them, with `prev?` before the first. -/
def collapse (prev? : Option String) : List String → List String
  | [] => []
  | name :: names =>
    if prev? = some name then collapse prev? names else name :: collapse (some name) names

theorem cons_collapse (name : String) (names : List String) :
    name :: collapse (some name) names = names.destutter' (· ≠ ·) name := by
  induction names generalizing name with
  | nil => rfl
  | cons next names ih =>
      rw [collapse]
      by_cases h : name = next
      · rw [List.destutter'_cons_neg _ (not_not_intro h), if_pos (congrArg some h), ih]
      · rw [List.destutter'_cons_pos _ h, if_neg (by simpa using h), ih]

theorem collapse_none (names : List String) : collapse none names = names.destutter (· ≠ ·) := by
  cases names with
  | nil => rfl
  | cons name names => exact cons_collapse name names

/-- The first run goes on with the name of the last step, if that was native. -/
theorem nativeRuns_kept (w : Walk) (steps : List WalkStep) :
    ∃ run runs, nativeRuns steps = run :: runs ∧
      nativeRuns (w.kept steps) =
        collapse (w.last.bind WalkStep.name?) run :: runs.map (collapse none) := by
  induction steps generalizing w with
  | nil => exact ⟨[], [], rfl, rfl⟩
  | cons s steps ih =>
      obtain ⟨run, runs, hruns, hkept⟩ := ih (w.step s)
      rw [last_step, Option.bind_some] at hkept
      cases s with
      | managed =>
          refine ⟨[], run :: runs, ?_, ?_⟩
          · rw [nativeRuns_managed, hruns]
          · rw [kept, if_neg (by simp [step]), nativeRuns_managed, hkept]
            rfl
      | native name =>
          refine ⟨name :: run, runs, ?_, ?_⟩
          · rw [nativeRuns_native, hruns, List.modifyHead_cons]
          · have hname : w.last.bind WalkStep.name? = some name ↔ w.last = some (.native name) := by
              rcases w.last with - | - | other <;> simp [WalkStep.name?]
            have hredundant := w.redundant_step (.native name)
            rw [kept, collapse]
            by_cases hw : w.last = some (.native name)
            · rw [if_pos (hredundant.2 ⟨by simp, hw⟩), if_pos (hname.2 hw), hkept, hname.2 hw]
              rfl
            · rw [if_neg fun h => hw (hredundant.1 h).2, if_neg (mt hname.1 hw), nativeRuns_native,
                hkept, List.modifyHead_cons]
              rfl

end Walk

/-- A walk finds a step redundant exactly if it is native and the step right before it is native
with the same name; where the walk is, the last step alone tells; and of every run of native steps
it keeps the names that do not repeat the name right before them.  A classifier with three registers
shows the same place and finds the same steps redundant. -/
theorem repeats_are_redundant (steps : List WalkStep) :
    (∀ i : Fin steps.length, (Walk.after (steps.take (i + 1))).redundant = true ↔
      ∃ name j, (i : Nat) = j + 1 ∧ steps[i] = .native name ∧ steps[j]? = some (.native name)) ∧
      ((Walk.after steps).place =
        match steps.getLast? with
        | none => "initial"
        | some .managed => "in_java_run"
        | some (.native _) => "in_native_run") ∧
      nativeRuns (Walk.start.kept steps) = (nativeRuns steps).map (·.destutter (· ≠ ·)) ∧
      ((Walk.Classifier.after steps).place.shown = (Walk.after steps).place ∧
        (Walk.Classifier.after steps).redundant = (Walk.after steps).redundant) := by
  have hfollows := Walk.Classifier.follows_after steps
  refine ⟨Walk.redundant_after_take, ?_, ?_, hfollows.place, hfollows.redundant⟩
  · have hlast := Walk.last_after steps
    cases h : steps.getLast? with
    | none => rw [Walk.place, hlast, h]
    | some step => cases step <;> rw [Walk.place, hlast, h]
  · obtain ⟨run, runs, hruns, hkept⟩ := Walk.start.nativeRuns_kept steps
    have hcollapse : Walk.collapse none = (·.destutter (· ≠ ·)) := by
      funext names
      exact Walk.collapse_none names
    rw [hkept, hruns, ← hcollapse]
    rfl

example :
    nativeRuns (Walk.start.kept [.native "f", .native "f", .managed, .native "f", .native "g",
      .native "f"]) = [["f"], ["f", "g", "f"]] := by
  decide

end StackProfile
