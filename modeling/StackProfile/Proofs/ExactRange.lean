import StackProfile.Proofs.DisabledRates
import StackProfile.Proofs.PartialUnsampling
import StackProfile.Proofs.UsableRatios

/-! # Unsampling in the range of exact integers

Finishing a profile cuts the fraction off the product of a value and a ratio, and both the ratio and
the product are rounded.  None of this makes a value smaller that is at most `2 ^ 53` and so a
double itself.  A ratio other than one is for samples with a positive count and a positive metric
only.  It is at least one, so the exact product is not below the value, and rounding keeps it on
that side of a double.  The ratio may also be infinite, but then there is no product.

Main lemmas: products of positive integers (`le_scale`), those of a sample (`Fits.le_products`), and
what finishing does to samples (`finish_grows`). -/

namespace StackProfile

namespace Sampling

variable {rate n v : ℤ} {r : Float}

/-! ### Products -/

theorem exact_of_abs_le (h : |n| ≤ 2 ^ 53) : Exact n := by
  rw [← Int.natCast_natAbs] at h
  rcases h.lt_or_eq with hlt | heq
  · exact ⟨n.natAbs, 0, by omega, by rw [pow_zero, Nat.mul_one]⟩
  · exact ⟨1, 53, by decide, by omega⟩

theorem convertible_of_scale (h : scale n r = .ok v) : Convertible n := by
  by_contra hn
  rw [scale_of_not_convertible hn] at h
  nomatch h

/-- A ratio of one keeps an exact integer. -/
theorem eq_of_scale_one (hn : Exact n) (h : scale n 1.0 = .ok v) : v = n := by
  rw [scale_one (convertible_of_scale h), (throughDouble_eq_iff n).2 hn] at h
  exact (Except.ok.inj h).symm

/-- A ratio that is of use does not make an exact positive integer smaller. -/
theorem le_scale (hpos : 0 < n) (hn : Exact n) (hr : Usable r) (h : scale n r = .ok v) :
    n ≤ v := by
  obtain ⟨q, hq, hone⟩ := hr.holds
  have hconv := convertible_of_scale h
  have hrep := (representable_natAbs_iff n).2 hn
  have hsign : signOf n = .positive := if_neg hpos.not_gt
  have hround := rounds_mul hconv.holds hq
  rw [hrep.nearest_eq, hsign] at hround
  rw [scale_of_convertible hconv] at h
  rcases hround.truncate_cases with hok | herr
  · have hv : (⌊nearest (n.natAbs * q)⌋₊ : ℤ) = v := Except.ok.inj (hok.symm.trans h)
    have hprod : (n.natAbs : ℚ) ≤ n.natAbs * q := le_mul_of_one_le_right (Nat.cast_nonneg _) hone
    have hfloor : n.natAbs ≤ ⌊nearest (n.natAbs * q)⌋₊ :=
      Nat.le_floor (hrep.le_nearest (Nat.cast_nonneg _) hprod)
    omega
  · rw [herr] at h
    nomatch h

/-- What a ratio makes of exact values if there are products. -/
theorem Fits.le_products {c m c' m' : ℤ} (h : Fits rate c m r) (hc : Exact c) (hm : Exact m)
    (hcount : scale c r = .ok c') (hmetric : scale m r = .ok m') :
    c ≤ c' ∧ m ≤ m' ∧ (rate ≤ 1 ∨ c < 1 ∨ m ≤ 0 → c' = c ∧ m' = m) := by
  cases h with
  | one =>
      obtain rfl := eq_of_scale_one hc hcount
      obtain rfl := eq_of_scale_one hm hmetric
      exact ⟨le_rfl, le_rfl, fun _ => ⟨rfl, rfl⟩⟩
  | corrects hrate hpos hpos' hr =>
      rcases hr with hr | rfl
      · exact ⟨le_scale hpos hc hr hcount, le_scale hpos' hm hr hmetric, fun _ => by omega⟩
      · rw [scale_inf hpos] at hcount
        nomatch hcount

end Sampling

open Sampling

/-! ### Samples -/

namespace Sample

/-- Values that a sample does not have stay zero. -/
theorem le_setMetric_setCount (s : Sample) {c m : ℤ} (hc : s.count ≤ c) (hm : s.metric ≤ m) :
    s.count ≤ ((s.setCount c).setMetric m).count ∧
      s.metric ≤ ((s.setCount c).setMetric m).metric := by
  obtain ⟨ids, values⟩ := s
  match values with
  | [] => exact ⟨le_rfl, le_rfl⟩
  | [_] => exact ⟨hc, le_rfl⟩
  | _ :: _ :: _ => exact ⟨hc, hm⟩

end Sample

namespace Builder

variable {exp : Float → Float}

/-- A sample that was rescaled. -/
theorem getElem?_rescale {rs : List Float} {ss : List Sample} (h : (rescale rs ss).1 = .ok ())
    {i : ℕ} {r : Float} {s : Sample} (hr : rs[i]? = some r) (hs : ss[i]? = some s) :
    ∃ c m, scale s.count r = .ok c ∧ scale s.metric r = .ok m ∧
      (rescale rs ss).2[i]? = some ((s.setCount c).setMetric m) := by
  fun_induction rescale rs ss generalizing i with
  | case1 => cases h
  | case2 => cases h
  | case3 r' rs s' ss c hcount m hmetric outcome ss' hrest ih =>
      rw [hrest] at ih
      cases i with
      | zero =>
          obtain rfl := Option.some.inj hr
          obtain rfl := Option.some.inj hs
          exact ⟨c, m, hcount, hmetric, rfl⟩
      | succ i => exact ih h hr hs
  | case4 rs ss hnil =>
      have hrs := List.ne_nil_of_mem (List.mem_of_getElem? hr)
      have hss := List.ne_nil_of_mem (List.mem_of_getElem? hs)
      obtain ⟨r', rs', rfl⟩ := List.exists_cons_of_ne_nil hrs
      obtain ⟨s', ss', rfl⟩ := List.exists_cons_of_ne_nil hss
      exact (hnil r' rs' s' ss' rfl rfl).elim

/-- A profile that was finished has the samples that rescaling leaves. -/
theorem samples_of_finish {b b' : Builder} {p : Profile} (h : b.finish exp true = (.ok p, b')) :
    b'.profile = p ∧ ∃ rs, b.sampleRatios exp = .ok rs ∧ (rescale rs b.samples).1 = .ok () ∧
      p.samples = (rescale rs b.samples).2 := by
  simp only [finish, if_true] at h
  rcases sampleRatios_cases exp b with ⟨-, herr⟩ | ⟨rs, hrs, -⟩
  · rw [unsample_of_error herr] at h
    cases h
  · rw [unsample_of_ratios hrs] at h
    cases hok : (rescale rs b.samples).1 with
    | error e =>
        rw [hok] at h
        cases h
    | ok _ =>
        rw [hok] at h
        obtain ⟨hp, rfl⟩ := Prod.mk.inj h
        obtain rfl := Except.ok.inj hp
        exact ⟨rfl, rs, hrs, hok, rfl⟩

/-- Finishing does not make a sample smaller whose values are at most `2 ^ 53`, and keeps it if
there is nothing to correct. -/
theorem finish_grows (hexp : ExpLike exp) {b b' : Builder} {p : Profile}
    (h : b.finish exp true = (.ok p, b')) :
    b'.profile = p ∧ p.samples.map (·.locationIds) = b.samples.map (·.locationIds) ∧
      ∀ (i : ℕ) (s : Sample), b.samples[i]? = some s → |s.count| ≤ 2 ^ 53 → |s.metric| ≤ 2 ^ 53 →
        ∃ s', p.samples[i]? = some s' ∧ s.count ≤ s'.count ∧ s.metric ≤ s'.metric ∧
          (b.plan.rate ≤ 1 ∨ s.count < 1 ∨ s.metric ≤ 0 → s' = s) := by
  obtain ⟨hp, rs, hrs, hok, hsamples⟩ := samples_of_finish h
  refine ⟨hp, by rw [hsamples, locationIds_rescale], fun i s hs hc hm => ?_⟩
  obtain ⟨r, hr, hfits⟩ := fits_sampleRatios hexp hrs hs
  obtain ⟨c, m, hcount, hmetric, hs'⟩ := getElem?_rescale hok hr hs
  obtain ⟨hcle, hmle, hkept⟩ :=
    hfits.le_products (exact_of_abs_le hc) (exact_of_abs_le hm) hcount hmetric
  obtain ⟨hcle', hmle'⟩ := s.le_setMetric_setCount hcle hmle
  refine ⟨_, by rw [hsamples, hs'], hcle', hmle', fun hnone => ?_⟩
  obtain ⟨rfl, rfl⟩ := hkept hnone
  exact s.setMetric_setCount_self

/-- The first sample has the greatest values in the range and the second one a negative metric. -/
theorem finish_grows_last :
    let exp : Float → Float := fun _ => 0.9048374180359595
    let b := ((ofPlan 0 ⟨10, {}, {}, 0, true⟩).addArtificial "g" (2 ^ 53) 1).addArtificial
      "h" 3 (-7)
    ExpLike exp ∧ b.samples = [⟨[1], [2 ^ 53, 2 ^ 53]⟩, ⟨[2], [3, -21]⟩] ∧
      ∃ p b', b.finish exp true = (.ok p, b') ∧
        (∃ s, p.samples[0]? = some s ∧ s.values = [94650639661548736, 94650639661548736] ∧
          2 ^ 53 ≤ s.count ∧ 2 ^ 53 ≤ s.metric) ∧
        p.samples[1]? = some ⟨[2], [3, -21]⟩ := by
  intro exp b
  have hexp : ExpLike exp := fun _ _ => by decide +kernel
  have hb : b.samples = [⟨[1], [2 ^ 53, 2 ^ 53]⟩, ⟨[2], [3, -21]⟩] := rfl
  have hvalues : (b.finish exp true).1.map (·.samples.map (·.values)) =
      .ok [[94650639661548736, 94650639661548736], [3, -21]] := by decide +kernel
  cases hfinish : b.finish exp true with
  | mk outcome b' =>
      rw [hfinish] at hvalues
      cases outcome with
      | error e => nomatch hvalues
      | ok p =>
          have hlist := Except.ok.inj hvalues
          obtain ⟨-, -, hall⟩ := finish_grows hexp hfinish
          obtain ⟨s, hs, hcount, hmetric, -⟩ :=
            hall 0 ⟨[1], [2 ^ 53, 2 ^ 53]⟩ (by rw [hb]; rfl) (by decide) (by decide)
          obtain ⟨s', hs', -, -, hkept⟩ :=
            hall 1 ⟨[2], [3, -21]⟩ (by rw [hb]; rfl) (by decide) (by decide)
          have hfirst := congrArg (·[0]?) hlist
          simp only [List.getElem?_map, hs] at hfirst
          rw [hkept (.inr (.inr (by decide)))] at hs'
          exact ⟨hexp, hb, p, b', rfl, ⟨s, hs, Option.some.inj hfirst, hcount, hmetric⟩, hs'⟩

end Builder

end StackProfile
