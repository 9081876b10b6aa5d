/-! # Sampling ratios

Sampled events are a Poisson process with a mean spacing of `rate` metric units, so an event of
average size `s` is captured with probability `1 - exp (-s / rate)`.  The sampling ratio of a
sample is the inverse of this probability; multiplying by it corrects count and metric for the
events that were not captured.  A rate of at most one means that nothing is corrected.

`ratio` is the ratio of one sample, `ratios` those of a column of counts and a column of metrics;
the exponential function on doubles is a parameter of both.  `scale` multiplies an integer by a
ratio.

Main lemmas: where nothing is corrected the ratio is one (`ratio_of_rate_le`,
`ratios_of_rate_le`). -/

namespace StackProfile.Sampling

/-- Why a sampling ratio cannot be computed, or an integer not be multiplied by it. -/
inductive RatioError where
  /-- An integer lies beyond the largest double, or a product is infinite. -/
  | tooLarge
  /-- A product is not a number. -/
  | notNumber
  /-- The probability of capture is zero. -/
  | divisionByZero
  /-- One of two columns of different lengths has a single value, which the comparison repeats and
  the selection does not. -/
  | singleValue
  /-- Two columns have different lengths. -/
  | unequalLengths
deriving DecidableEq, Repr

/-- The double nearest to an integer, unless it is infinite. -/
def toDouble? (n : Int) : Option Float :=
  let x := Float.ofInt n
  if x.isFinite then some x else none

/-- The double nearest to an integer. -/
def toDouble (n : Int) : Except RatioError Float :=
  match toDouble? n with
  | some x => .ok x
  | none => .error .tooLarge

/-- The integer part of a double. -/
def truncate (x : Float) : Except RatioError Int :=
  if x.isNaN then .error .notNumber
  else if x.isInf then .error .tooLarge
  -- The two zeros stand for infinities and for what is not a number, which do not get here.
  else .ok (x.toModel.unpack.toInt 0 0)

/-- The integer part of the product of an integer and a ratio, computed in doubles. -/
def scale (n : Int) (ratio : Float) : Except RatioError Int := do
  truncate ((← toDouble n) * ratio)

/-- The probability that an event of average size `size` is captured. -/
def captureProbability (exp : Float → Float) (rate size : Float) : Float :=
  1.0 - exp (-size / rate)

/-- The ratio of one sample; one if its average size is not positive. -/
def ratio (exp : Float → Float) (rate count metric : Int) : Except RatioError Float :=
  if rate ≤ 1 ∨ count < 1 then .ok 1.0
  else do
    let metric ← toDouble metric
    let count ← toDouble count
    let size := metric / count
    if size ≤ 0.0 then return 1.0
    else
      let rate ← toDouble rate
      let probability := captureProbability exp rate size
      if probability == 0.0 then throw .divisionByZero else return 1.0 / probability

/-- The ratio of one entry of two columns; infinite if the probability of capture is zero. -/
def columnRatio (exp : Float → Float) (rate count metric : Float) : Float :=
  if 1.0 ≤ count ∧ 0.0 < metric then 1.0 / captureProbability exp rate (metric / count) else 1.0

/-- The ratios of a column of counts and a column of metrics. -/
def ratios (exp : Float → Float) (rate : Int) (counts metrics : List Int) :
    Except RatioError (List Float) := do
  let counts ← counts.mapM toDouble
  if rate ≤ 1 ∨ counts = [] then return counts.map fun _ => 1.0
  else
    let metrics ← metrics.mapM toDouble
    if counts.length ≠ metrics.length then
      throw (if counts.length = 1 ∨ metrics.length = 1 then .singleValue else .unequalLengths)
    else
      let rate ← toDouble rate
      return List.zipWith (columnRatio exp rate) counts metrics

theorem ratio_of_rate_le (exp : Float → Float) {rate : Int} (h : rate ≤ 1) (count metric : Int) :
    ratio exp rate count metric = .ok 1.0 := if_pos (.inl h)

theorem ratios_of_rate_le (exp : Float → Float) {rate : Int} (h : rate ≤ 1)
    (counts metrics : List Int) :
    ratios exp rate counts metrics =
      (counts.mapM toDouble).map fun cs => cs.map fun _ => (1.0 : Float) := by
  rw [ratios]
  cases counts.mapM toDouble with
  | error e => rfl
  | ok cs => simp [bind, Except.bind, h, pure, Except.pure, Except.map]

end StackProfile.Sampling
