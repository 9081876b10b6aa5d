import StackProfile.Builder.Basic
import StackProfile.Sampling.Ratio

/-! # Unsampling a profile

Unsampling multiplies the count and the metric of every sample by the sampling ratio of that
sample.  The ratios are computed from all samples before the first one changes; then the samples
change one after the other, the count before the metric.

Main lemmas: if a ratio cannot be computed nothing changes (`unsample_of_error`), and only values
change (`locationIds_rescale`). -/

namespace StackProfile

namespace Builder

open Sampling

/-- Multiplies the values of samples by their ratios, up to the first product that is infinite or
not a number. -/
def rescale : List Float → List Sample → Except RatioError Unit × List Sample
  | ratio :: ratios, s :: ss =>
    match scale s.count ratio with
    | .error e => (.error e, s :: ss)
    | .ok count =>
      match scale s.metric ratio with
      | .error e => (.error e, s.setCount count :: ss)
      | .ok metric =>
        let (outcome, ss) := rescale ratios ss
        (outcome, (s.setCount count).setMetric metric :: ss)
  | _, ss => (.ok (), ss)

/-- Unsamples the profile, with `exp` as the exponential function on doubles. -/
def unsample (exp : Float → Float) (b : Builder) : Except RatioError Unit × Builder :=
  match ratios exp b.plan.rate (b.samples.map (·.count)) (b.samples.map (·.metric)) with
  | .error e => (.error e, b)
  | .ok rs =>
    let (outcome, samples) := rescale rs b.samples
    (outcome, b.withProfile { b.profile with samples })

/-- Finishes the profile, which may be done again. -/
def finish (exp : Float → Float) (b : Builder) (unsampled : Bool) :
    Except RatioError Profile × Builder :=
  if unsampled then
    let (outcome, b) := b.unsample exp
    (outcome.map fun _ => b.profile, b)
  else (.ok b.profile, b)

/-- Finishes the profile as the plan says. -/
def finishDefault (exp : Float → Float) (b : Builder) : Except RatioError Profile × Builder :=
  b.finish exp b.plan.unsample

theorem unsample_of_error {exp : Float → Float} {b : Builder} {e : RatioError}
    (h : ratios exp b.plan.rate (b.samples.map (·.count)) (b.samples.map (·.metric)) = .error e) :
    b.unsample exp = (.error e, b) := by
  rw [unsample, h]

theorem locationIds_rescale (rs : List Float) (ss : List Sample) :
    (rescale rs ss).2.map (·.locationIds) = ss.map (·.locationIds) := by
  fun_induction rescale rs ss <;> simp_all

end Builder

end StackProfile
