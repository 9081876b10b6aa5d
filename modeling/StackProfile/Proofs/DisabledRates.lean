import StackProfile.Proofs.Conversions
import StackProfile.Proofs.Move

/-! # Unsampling at a disabled rate

A rate of at most one disables unsampling: all ratios are one.  Finishing a profile multiplies by
them nevertheless, in doubles, so a count or a metric stays as it is only if it is a double itself,
that is, if it has at most 53 significant bits.

Main lemmas: what a ratio of one does to an integer (`scale_one`), and when finishing keeps a
profile (`finish_disabled_iff`). -/

namespace StackProfile

namespace Sampling

open Float.Model.UnpackedFloat (Sign)

/-- A ratio of one sends an integer through a double. -/
theorem scale_one {n : ℤ} (h : Convertible n) : scale n 1.0 = .ok (throughDouble n) := by
  have hold := h.holds
  have hrep := hold.representable.nearest_eq
  have hmul := (rounds_mul hold holds_one).holds (by rw [mul_one, hrep]; exact hold.lt_overflow)
  rw [mul_one, hrep] at hmul
  have hsign : signOf n * Sign.positive = signOf n := by cases signOf n <;> rfl
  rw [hsign] at hmul
  rw [scale_of_convertible h]
  exact hmul.truncate_eq

end Sampling

open Sampling

/-- A sample after its values went through doubles. -/
def Sample.throughDoubles (s : Sample) : Sample :=
  (s.setCount (throughDouble s.count)).setMetric (throughDouble s.metric)

/-- Values that a sample does not have count as zero, which is exact. -/
theorem Sample.throughDoubles_eq_iff (s : Sample) :
    s.throughDoubles = s ↔ Exact s.count ∧ Exact s.metric := by
  have hzero : throughDouble 0 = 0 := (throughDouble_eq_iff 0).2 ⟨0, 0, by decide, rfl⟩
  obtain ⟨ids, values⟩ := s
  rw [← throughDouble_eq_iff, ← throughDouble_eq_iff]
  match values with
  | [] => simp [throughDoubles, setCount, setMetric, count, metric, hzero]
  | [c] => simp [throughDoubles, setCount, setMetric, count, metric, hzero]
  | c :: m :: vs => simp [throughDoubles, setCount, setMetric, count, metric]

theorem Sample.map_throughDoubles_eq_iff (ss : List Sample) :
    ss.map Sample.throughDoubles = ss ↔ ∀ s ∈ ss, Exact s.count ∧ Exact s.metric := by
  have hid : ss.map Sample.throughDoubles = ss.map id ↔ ∀ s ∈ ss, s.throughDoubles = id s :=
    List.map_inj_left
  simpa only [List.map_id, id, Sample.throughDoubles_eq_iff] using hid

namespace Builder

/-- All counts and metrics convert to doubles. -/
def ConvertibleSamples (b : Builder) : Prop :=
  ∀ s ∈ b.samples, Convertible s.count ∧ Convertible s.metric

instance (b : Builder) : Decidable b.ConvertibleSamples :=
  inferInstanceAs (Decidable (∀ s ∈ b.samples, _))

theorem rescale_one {ss : List Sample} (h : ∀ s ∈ ss, Convertible s.count ∧ Convertible s.metric) :
    rescale (ss.map fun _ => 1.0) ss = (.ok (), ss.map Sample.throughDoubles) := by
  induction ss with
  | nil => rfl
  | cons s ss ih =>
      obtain ⟨hc, hm⟩ := h s List.mem_cons_self
      rw [List.map_cons, rescale, scale_one hc]
      simp only [scale_one hm, ih fun t ht => h t (List.mem_cons_of_mem s ht)]
      rfl

/-- Finishing at a disabled rate sends all values through doubles. -/
theorem finish_disabled (exp : Float → Float) {b : Builder} (hrate : b.plan.rate ≤ 1)
    (h : b.ConvertibleSamples) :
    let p : Profile := { b.profile with samples := b.samples.map Sample.throughDoubles }
    b.finish exp true = (.ok p, b.withProfile p) := by
  have hcounts : ∀ n ∈ b.samples.map (·.count), Convertible n := by
    intro n hn
    obtain ⟨s, hs, rfl⟩ := List.mem_map.1 hn
    exact (h s hs).1
  have hratios : ratios exp b.plan.rate (b.samples.map (·.count)) (b.samples.map (·.metric)) =
      .ok (b.samples.map fun _ => 1.0) := by
    rw [ratios_of_rate_le exp hrate, mapM_toDouble hcounts]
    simp [Except.map, Function.comp_def]
  simp only [finish, unsample, hratios, rescale_one h, if_true]
  rfl

/-- Finishing at a disabled rate keeps the profile exactly if all counts and metrics have at most 53
significant bits. -/
theorem finish_disabled_iff (exp : Float → Float) {b : Builder} (hrate : b.plan.rate ≤ 1)
    (h : b.ConvertibleSamples) :
    b.finish exp true = (.ok b.profile, b) ↔ ∀ s ∈ b.samples, Exact s.count ∧ Exact s.metric := by
  rw [finish_disabled exp hrate h, ← Sample.map_throughDoubles_eq_iff]
  constructor
  · intro he
    have hb := congrArg (·.2.samples) he
    exact hb
  · intro he
    simp only [he]
    rfl

/-- A metric of 61 bits, of which one is significant. -/
theorem finish_disabled_power :
    let b := (ofPlan 0 ⟨1, {}, {}, 0, false⟩).addArtificial "g" 1 (2 ^ 60)
    b.plan.rate ≤ 1 ∧ b.ConvertibleSamples ∧ b.samples = [⟨[1], [1, 2 ^ 60]⟩] ∧
      b.finish (fun x => x) true = (.ok b.profile, b) := by
  intro b
  have hrate : b.plan.rate ≤ 1 := by decide
  have hconv : b.ConvertibleSamples := by decide +kernel
  have hsamples : b.samples = [⟨[1], [1, 2 ^ 60]⟩] := rfl
  have hexact : ∀ s ∈ b.samples, Exact s.count ∧ Exact s.metric := by
    intro s hs
    rw [hsamples, List.mem_singleton] at hs
    subst hs
    exact ⟨⟨1, 0, by decide, rfl⟩, ⟨1, 60, by decide, rfl⟩⟩
  exact ⟨hrate, hconv, hsamples, (finish_disabled_iff _ hrate hconv).2 hexact⟩

end Builder

namespace Session

/-- A metric of 54 significant bits loses the last one. -/
theorem finish_disabled_loses :
    let ops : List Op := [.openSymbolizer [], .openMethods [],
      .openPlanned ⟨1, {}, {}, 0, false⟩ 0 0, .addBatch 0 [⟨[⟨7, .unknown⟩], 2 ^ 53 + 1⟩] none]
    ∃ d d' : Desk, (after id ops).desks[0]? = some d ∧
      (after id (ops ++ [.finish 0 .unsampled])).desks[0]? = some d' ∧
      d.builder.plan.rate ≤ 1 ∧ d.builder.ConvertibleSamples ∧
      d.builder.samples = [⟨[1], [1, 9007199254740993]⟩] ∧
      d'.builder.samples = [⟨[1], [1, 9007199254740992]⟩] := by
  intro ops
  have hbefore : (after id ops).desks[0]?.map (fun d => (d.builder.plan.rate, d.builder.samples)) =
      some (1, [⟨[1], [1, 9007199254740993]⟩]) := by decide +kernel
  have hafter : (after id (ops ++ [.finish 0 .unsampled])).desks[0]?.map (·.builder.samples) =
      some [⟨[1], [1, 9007199254740992]⟩] := by decide +kernel
  obtain ⟨d, hd, he⟩ := Option.map_eq_some_iff.1 hbefore
  obtain ⟨d', hd', hs'⟩ := Option.map_eq_some_iff.1 hafter
  obtain ⟨hrate, hs⟩ := Prod.mk.inj he
  refine ⟨d, d', hd, hd', hrate.le, ?_, hs, hs'⟩
  unfold Builder.ConvertibleSamples
  rw [hs]
  decide +kernel

end Session

end StackProfile
