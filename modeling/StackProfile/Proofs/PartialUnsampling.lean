import StackProfile.Proofs.Coherence
import StackProfile.Proofs.UsableRatios

/-! # Unsampling that stops on its way

Unsampling needs the ratios of all samples before it changes the first one.  If they cannot be
computed, nothing changes.  After that the samples are changed where they are, one value after the
other, and a value without a finite product stops it: the values before it are replaced by then, and
nothing takes them back.

Main lemmas: when columns have ratios (`exists_ratios`, `ratios_of_not_allConvert`), what rescaling
answers and leaves behind, finished or not (`outcome_rescale`, `values_rescale`), why a product is
missing (`tooLarge_of_mem_products`), and the samples after unsampling has failed
(`finish_unsampled_error`). -/

namespace StackProfile

namespace Sampling

variable {exp : Float → Float} {rate : Int} {counts metrics : List Int}

/-! ### Columns that have no ratios -/

/-- The numbers convert that ratios are computed from: the counts, and the metrics and the rate if
the rate corrects and there is something to correct. -/
def AllConvert (rate : Int) (counts metrics : List Int) : Prop :=
  (∀ c ∈ counts, Convertible c) ∧
    (1 < rate → counts ≠ [] → (∀ m ∈ metrics, Convertible m) ∧ Convertible rate)

instance (rate : Int) (counts metrics : List Int) : Decidable (AllConvert rate counts metrics) :=
  inferInstanceAs (Decidable (_ ∧ _))

theorem mapM_toDouble_of_not_convertible {ns : List Int} (h : ¬ ∀ n ∈ ns, Convertible n) :
    ns.mapM toDouble = .error .tooLarge := by
  induction ns with
  | nil => exact absurd (by simp) h
  | cons n ns ih =>
      rw [List.mapM_cons]
      by_cases hn : Convertible n
      · have hns : ¬ ∀ m ∈ ns, Convertible m := fun hall => h (List.forall_mem_cons.2 ⟨hn, hall⟩)
        rw [toDouble_of_convertible hn, ih hns]
        rfl
      · rw [toDouble_of_not_convertible hn]
        rfl

/-- Columns of one length have ratios if their numbers convert. -/
theorem exists_ratios (exp : Float → Float) (h : AllConvert rate counts metrics)
    (hlen : counts.length = metrics.length) :
    ∃ rs, ratios exp rate counts metrics = .ok rs ∧ rs.length = counts.length := by
  obtain ⟨hcounts, hrest⟩ := h
  unfold ratios
  rw [mapM_toDouble hcounts]
  simp only [bind, Except.bind, pure, Except.pure, List.map_eq_nil_iff]
  by_cases hnone : rate ≤ 1 ∨ counts = []
  · rw [if_pos hnone]
    exact ⟨_, rfl, by simp⟩
  · obtain ⟨hrate, hne⟩ := not_or.1 hnone
    obtain ⟨hmetrics, hr⟩ := hrest (by omega) hne
    rw [if_neg hnone, mapM_toDouble hmetrics]
    simp only [List.length_map, if_neg (not_not_intro hlen), toDouble_of_convertible hr]
    exact ⟨_, rfl, by simp [hlen]⟩

/-- Otherwise they have none, and there is no other reason for that. -/
theorem ratios_of_not_allConvert (exp : Float → Float) (h : ¬ AllConvert rate counts metrics)
    (hlen : counts.length = metrics.length) :
    ratios exp rate counts metrics = .error .tooLarge := by
  unfold ratios
  by_cases hcounts : ∀ c ∈ counts, Convertible c
  · have hlate : ¬ (1 < rate → counts ≠ [] → (∀ m ∈ metrics, Convertible m) ∧ Convertible rate) :=
      fun hrest => h ⟨hcounts, hrest⟩
    simp only [Classical.not_imp] at hlate
    obtain ⟨hrate, hne, hbad⟩ := hlate
    rw [mapM_toDouble hcounts]
    simp only [bind, Except.bind, List.map_eq_nil_iff]
    rw [if_neg (not_or.2 ⟨by omega, hne⟩)]
    by_cases hmetrics : ∀ m ∈ metrics, Convertible m
    · have hr : ¬ Convertible rate := fun hr => hbad ⟨hmetrics, hr⟩
      rw [mapM_toDouble hmetrics]
      simp only [List.length_map, if_neg (not_not_intro hlen), toDouble_of_not_convertible hr]
    · rw [mapM_toDouble_of_not_convertible hmetrics]
  · rw [mapM_toDouble_of_not_convertible hcounts]
    rfl

end Sampling

open Sampling

/-! ### Values in the order in which they are written -/

/-- What is written of a sequence of results: those before the first error. -/
def written : List (Except RatioError Int) → List Int
  | .ok v :: vs => v :: written vs
  | _ => []

/-- The first error of a sequence of results. -/
def firstError : List (Except RatioError Int) → Except RatioError Unit
  | [] => .ok ()
  | .ok _ :: vs => firstError vs
  | .error e :: _ => .error e

theorem mem_of_firstError {vs : List (Except RatioError Int)} {e : RatioError}
    (h : firstError vs = .error e) : .error e ∈ vs := by
  fun_induction firstError vs with
  | case1 => nomatch h
  | case2 v vs ih => exact List.mem_cons_of_mem _ (ih h)
  | case3 e' vs =>
      obtain rfl := Except.error.inj h
      exact List.mem_cons_self

/-- The values after others were written over them from the front. -/
def overwrite (vs ws : List Int) : List Int := ws ++ vs.drop ws.length

@[simp] theorem overwrite_nil (vs : List Int) : overwrite vs [] = vs := rfl

@[simp] theorem overwrite_cons (v w : Int) (vs ws : List Int) :
    overwrite (v :: vs) (w :: ws) = w :: overwrite vs ws := rfl

theorem Sample.values_eq {s : Sample} (h : s.values.length = 2) :
    s.values = [s.count, s.metric] := by
  obtain ⟨ids, values⟩ := s
  obtain ⟨c, m, rfl⟩ := List.length_eq_two.1 h
  rfl

namespace Builder

/-- The products of all values with their ratios, sample by sample, the count before the metric. -/
def products (rs : List Float) (ss : List Sample) : List (Except RatioError Int) :=
  (rs.zip ss).flatMap fun p => [scale p.2.count p.1, scale p.2.metric p.1]

theorem products_cons (r : Float) (rs : List Float) (s : Sample) (ss : List Sample) :
    products (r :: rs) (s :: ss) = scale s.count r :: scale s.metric r :: products rs ss := rfl

theorem products_of_not_cons {rs : List Float} {ss : List Sample}
    (h : ∀ r rs' s ss', rs = r :: rs' → ss = s :: ss' → False) : products rs ss = [] := by
  match rs, ss with
  | [], _ => rfl
  | _ :: _, [] => rfl
  | r :: rs', s :: ss' => exact (h r rs' s ss' rfl rfl).elim

/-- Rescaling fails as the first missing product does. -/
theorem outcome_rescale (rs : List Float) (ss : List Sample) :
    (rescale rs ss).1 = firstError (products rs ss) := by
  fun_induction rescale rs ss with
  | case1 r rs s ss e hcount => simp [products_cons, hcount, firstError]
  | case2 r rs s ss c hcount e hmetric => simp [products_cons, hcount, hmetric, firstError]
  | case3 r rs s ss c hcount m hmetric outcome ss' hrest ih =>
      rw [hrest] at ih
      simpa [products_cons, hcount, hmetric, firstError] using ih
  | case4 rs ss h => simp [products_of_not_cons h, firstError]

/-- Finished or not, rescaling writes the products before the first missing one over the values
from the front, and no others. -/
theorem values_rescale (rs : List Float) (ss : List Sample) (h : ∀ s ∈ ss, s.values.length = 2) :
    (rescale rs ss).2.flatMap (·.values) =
      overwrite (ss.flatMap (·.values)) (written (products rs ss)) := by
  fun_induction rescale rs ss with
  | case1 r rs s ss e hcount => simp [products_cons, hcount, written]
  | case2 r rs s ss c hcount e hmetric =>
      have hs := Sample.values_eq (h s List.mem_cons_self)
      simp [products_cons, hcount, hmetric, written, Sample.setCount, hs]
  | case3 r rs s ss c hcount m hmetric outcome ss' hrest ih =>
      have hs := Sample.values_eq (h s List.mem_cons_self)
      have htail := ih fun t ht => h t (List.mem_cons_of_mem s ht)
      rw [hrest] at htail
      simp [products_cons, hcount, hmetric, written, Sample.setCount, Sample.setMetric, hs, htail]
  | case4 rs ss hnil => simp [products_of_not_cons hnil, written]

theorem mem_products {rs : List Float} {ss : List Sample} {v : Except RatioError Int}
    (h : v ∈ products rs ss) :
    ∃ (i : Nat) (r : Float) (s : Sample), rs[i]? = some r ∧ ss[i]? = some s ∧
      (v = scale s.count r ∨ v = scale s.metric r) := by
  obtain ⟨⟨r, s⟩, hp, hv⟩ := List.mem_flatMap.1 h
  obtain ⟨i, hi⟩ := List.mem_iff_getElem?.1 hp
  obtain ⟨hr, hs⟩ := List.getElem?_zip_eq_some.1 hi
  exact ⟨i, r, s, hr, hs, by simpa using hv⟩

/-- The ratios of all samples. -/
def sampleRatios (exp : Float → Float) (b : Builder) : Except RatioError (List Float) :=
  ratios exp b.plan.rate (b.samples.map (·.count)) (b.samples.map (·.metric))

/-- The numbers convert that the ratios of all samples are computed from. -/
def RatiosConvert (b : Builder) : Prop :=
  AllConvert b.plan.rate (b.samples.map (·.count)) (b.samples.map (·.metric))

instance (b : Builder) : Decidable b.RatiosConvert := inferInstanceAs (Decidable (AllConvert _ _ _))

theorem sampleRatios_cases (exp : Float → Float) (b : Builder) :
    ¬ b.RatiosConvert ∧ b.sampleRatios exp = .error .tooLarge ∨
      ∃ rs, b.sampleRatios exp = .ok rs ∧ rs.length = b.samples.length := by
  have hlen : (b.samples.map (·.count)).length = (b.samples.map (·.metric)).length := by simp
  by_cases h : b.RatiosConvert
  · obtain ⟨rs, hrs, hrslen⟩ := exists_ratios exp h hlen
    exact .inr ⟨rs, hrs, by simpa using hrslen⟩
  · exact .inl ⟨h, ratios_of_not_allConvert exp h hlen⟩

theorem fits_sampleRatios {exp : Float → Float} (hexp : ExpLike exp) {b : Builder}
    {rs : List Float} (hrs : b.sampleRatios exp = .ok rs) {i : Nat} {s : Sample}
    (hs : b.samples[i]? = some s) : ∃ r, rs[i]? = some r ∧ Fits b.plan.rate s.count s.metric r := by
  have hcount : (b.samples.map (·.count))[i]? = some s.count := by
    rw [List.getElem?_map, hs, Option.map_some]
  have hmetric : (b.samples.map (·.metric))[i]? = some s.metric := by
    rw [List.getElem?_map, hs, Option.map_some]
  exact fits_ratios hexp hrs hcount hmetric

/-- No product of a value of a sample and its ratio is something that is not a number. -/
theorem tooLarge_of_mem_products {exp : Float → Float} (hexp : ExpLike exp) {b : Builder}
    {rs : List Float} (hrs : b.sampleRatios exp = .ok rs) {e : RatioError}
    (h : .error e ∈ products rs b.samples) : e = .tooLarge := by
  obtain ⟨i, r, s, hr, hs, hv⟩ := mem_products h
  obtain ⟨r', hr', hfits⟩ := fits_sampleRatios hexp hrs hs
  obtain rfl := Option.some.inj (hr.symm.trans hr')
  rcases hv with hv | hv
  · exact hfits.scale_error (.inl rfl) hv.symm
  · exact hfits.scale_error (.inr rfl) hv.symm

theorem unsample_of_ratios {exp : Float → Float} {b : Builder} {rs : List Float}
    (h : b.sampleRatios exp = .ok rs) :
    b.unsample exp = ((rescale rs b.samples).1,
      b.withProfile { b.profile with samples := (rescale rs b.samples).2 }) := by
  unfold sampleRatios at h
  rw [unsample, h]

end Builder

namespace Session

open Builder Sampling

variable {i : Nat} {d : Desk} {e : OpError}

theorem finish_of_unsample_ok {exp : Float → Float} {b b' : Builder}
    (h : b.unsample exp = (.ok (), b')) :
    finish exp .unsampled b = (.ok (.profile b'.profile), b') := by
  simp only [finish, Builder.finish, if_true, h]
  rfl

theorem finish_of_unsample_error {exp : Float → Float} {b b' : Builder} {r : RatioError}
    (h : b.unsample exp = (.error r, b')) :
    finish exp .unsampled b = (.error (.ratio r), b') := by
  simp only [finish, Builder.finish, if_true, h]
  rfl

/-- Finishing fails as unsampling does, and leaves the builder that this leaves. -/
theorem step_unsampled_error {exp : Float → Float} {s : Session} (hd : s.desks[i]? = some d)
    (he : (s.step exp (.finish i .unsampled)).1 = .error e) :
    ∃ r, (d.builder.unsample exp).1 = .error r ∧ e = .ratio r ∧
      (s.step exp (.finish i .unsampled)).2 = s.setBuilder i (d.builder.unsample exp).2 := by
  have hstep : s.step exp (.finish i .unsampled) = ((finish exp .unsampled d.builder).1,
      s.setBuilder i (finish exp .unsampled d.builder).2) := by
    simp only [step, onBuilder, hd]
  rw [hstep] at he ⊢
  cases hu : d.builder.unsample exp with
  | mk outcome b =>
      cases outcome with
      | error r =>
          rw [finish_of_unsample_error hu] at he ⊢
          exact ⟨r, rfl, (Except.error.inj he).symm, rfl⟩
      | ok _ =>
          rw [finish_of_unsample_ok hu] at he
          cases he

/-- Unsampling fails because a number is too large.  If the ratios need that number, all is as
before.  Otherwise the values before the first one without a product are replaced by their products,
and the values from there on are as before. -/
theorem finish_unsampled_error {exp : Float → Float} (hexp : ExpLike exp) (ops : List Op)
    (hd : (after exp ops).desks[i]? = some d)
    (he : ((after exp ops).step exp (.finish i .unsampled)).1 = .error e) :
    e = .ratio .tooLarge ∧ ∃ ss : List Sample,
      ((after exp ops).step exp (.finish i .unsampled)).2 = (after exp ops).setBuilder i
        (d.builder.withProfile { d.builder.profile with samples := ss }) ∧
      ss.map (·.locationIds) = d.builder.samples.map (·.locationIds) ∧
      (∀ s ∈ ss, s.values.length = 2) ∧
      (¬ d.builder.RatiosConvert ∧ ss = d.builder.samples ∨
        ∃ rs, d.builder.sampleRatios exp = .ok rs ∧ rs.length = d.builder.samples.length ∧
          .error .tooLarge ∈ products rs d.builder.samples ∧
          (∀ f, .error f ∈ products rs d.builder.samples → f = .tooLarge) ∧
          ss.flatMap (·.values) = overwrite (d.builder.samples.flatMap (·.values))
            (written (products rs d.builder.samples))) := by
  have hb := (coherent_after_any exp ops).sound i d hd
  obtain ⟨r, hr, rfl, hs⟩ := step_unsampled_error hd he
  rw [hs]
  rcases sampleRatios_cases exp d.builder with ⟨hconv, herr⟩ | ⟨rs, hrs, hlen⟩
  · rw [unsample_of_error herr] at hr ⊢
    obtain rfl := Except.error.inj hr
    exact ⟨rfl, d.builder.samples, rfl, rfl, hb.values, .inl ⟨hconv, rfl⟩⟩
  · rw [unsample_of_ratios hrs] at hr ⊢
    rw [outcome_rescale] at hr
    have hmem := mem_of_firstError hr
    have hlarge : ∀ f, .error f ∈ products rs d.builder.samples → f = .tooLarge :=
      fun _ hf => tooLarge_of_mem_products hexp hrs hf
    obtain rfl := hlarge r hmem
    have hids := locationIds_rescale rs d.builder.samples
    have hsound := hb.setSamples hids (length_values_rescale rs d.builder.samples)
    exact ⟨rfl, _, rfl, hids, hsound.values,
      .inr ⟨rs, hrs, hlen, hmem, hlarge, values_rescale rs _ hb.values⟩⟩

/-- A metric becomes too large whose count was multiplied before. -/
theorem finish_unsampled_between :
    let exp : Float → Float := fun _ => 0.9999999999999998
    let ops : List Op := [.openSymbolizer [], .openMethods [],
      .openPlanned ⟨2 ^ 53, {}, {}, 0, true⟩ 0 0,
      .addBatch 0 [⟨[⟨7, .unknown⟩], 2 ^ 972⟩] (some [2 ^ 971])]
    ExpLike exp ∧ ∃ (d : Desk) (ss : List Sample), (after exp ops).desks[0]? = some d ∧
      ((after exp ops).step exp (.finish 0 .unsampled)).1 = .error (.ratio .tooLarge) ∧
      ((after exp ops).step exp (.finish 0 .unsampled)).2 = (after exp ops).setBuilder 0
        (d.builder.withProfile { d.builder.profile with samples := ss }) ∧
      d.builder.samples.flatMap (·.values) = [2 ^ 971, 2 ^ 972] ∧
      ss.flatMap (·.values) = [2 ^ 1023, 2 ^ 972] := by
  intro exp ops
  have hexp : ExpLike exp := fun _ _ => by decide +kernel
  have hbefore : (after exp ops).desks[0]?.map (fun d => (d.builder.plan.rate, d.builder.samples)) =
      some (2 ^ 53, [⟨[1], [2 ^ 971, 2 ^ 972]⟩]) := by decide +kernel
  have he : ((after exp ops).step exp (.finish 0 .unsampled)).1 = .error (.ratio .tooLarge) := by
    decide +kernel
  have hratios : ratios exp (2 ^ 53) [2 ^ 971] [2 ^ 972] = .ok [4503599627370496.0] := by
    decide +kernel
  obtain ⟨d, hd, hb⟩ := Option.map_eq_some_iff.1 hbefore
  obtain ⟨hrate, hsamples⟩ := Prod.mk.inj hb
  obtain ⟨-, ss, hs, -, -, hcase⟩ := finish_unsampled_error hexp ops hd he
  refine ⟨hexp, d, ss, hd, he, hs, by rw [hsamples]; rfl, ?_⟩
  rcases hcase with ⟨hconv, -⟩ | ⟨rs, hrs, -, -, -, hvalues⟩
  · unfold RatiosConvert at hconv
    rw [hrate, hsamples] at hconv
    exact absurd (by decide +kernel) hconv
  · unfold sampleRatios at hrs
    rw [hrate, hsamples] at hrs
    obtain rfl := Except.ok.inj (hratios.symm.trans hrs)
    rw [hvalues, hsamples]
    decide +kernel

/-- The count and the metric of the first sample are multiplied before the count of the second one
turns out too large. -/
theorem finish_unsampled_halfway :
    let exp : Float → Float := fun _ => 0.9048374180359595
    let ops : List Op := [.openSymbolizer [], .openMethods [],
      .openPlanned ⟨10, {}, {}, 0, true⟩ 0 0,
      .addBatch 0 [⟨[⟨7, .unknown⟩], 10⟩, ⟨[⟨8, .unknown⟩], 10 ^ 308⟩] (some [10, 10 ^ 308])]
    ((after exp ops).step exp (.finish 0 .unsampled)).1 = .error (.ratio .tooLarge) ∧
      ∃ d d' : Desk, (after exp ops).desks[0]? = some d ∧
        ((after exp ops).step exp (.finish 0 .unsampled)).2.desks[0]? = some d' ∧
        d.builder.samples = [⟨[1], [10, 10]⟩, ⟨[1], [10 ^ 308, 10 ^ 308]⟩] ∧
        d'.builder.samples = [⟨[1], [105, 105]⟩, ⟨[1], [10 ^ 308, 10 ^ 308]⟩] ∧
        d'.builder.samples ≠ d.builder.samples := by
  intro exp ops
  have hbefore : (after exp ops).desks[0]?.map (·.builder.samples) =
      some [⟨[1], [10, 10]⟩, ⟨[1], [10 ^ 308, 10 ^ 308]⟩] := by decide +kernel
  have hafter : ((after exp ops).step exp (.finish 0 .unsampled)).2.desks[0]?.map
      (·.builder.samples) = some [⟨[1], [105, 105]⟩, ⟨[1], [10 ^ 308, 10 ^ 308]⟩] := by
    decide +kernel
  obtain ⟨d, hd, hs⟩ := Option.map_eq_some_iff.1 hbefore
  obtain ⟨d', hd', hs'⟩ := Option.map_eq_some_iff.1 hafter
  refine ⟨by decide +kernel, d, d', hd, hd', hs, hs', ?_⟩
  rw [hs, hs']
  decide

end Session

end StackProfile
