import StackProfile.Proofs.ColumnRatios

/-! # Ratios that can be used

A ratio is of use if it is a number and at least one: a captured event stands for itself and some
that were missed.  The chance of missing an event is a power of `e` with an exponent that is not
positive, so a double between zero and one.  If it is not one, the probability of capture is at
least `2 ^ (-53)` and at most one, and its inverse is of use.  If it is one, there is no ratio.
That happens although the exact chance is below one, when the average size is so small a part of the
rate that the chance is rounded to one.  In a column such a sample has an infinite ratio instead.  A
product with any of these ratios may be too large, but it is never something that is not a number:
the infinite ones are for positive values only.

Main lemmas: doubles between zero and one are numbers (`exists_holds_of_unit`), inverses of
probabilities (`usable_one_div`), when a sample has a ratio (`ratio_usable_iff`, `missesAll_iff`),
the ratios of columns (`fits_ratios`) and why there may be no product with them
(`Fits.scale_error`). -/

namespace StackProfile.Sampling

open Float.Model.UnpackedFloat

/-- A ratio that is a number and at least one. -/
def Usable (r : Float) : Prop := r.isFinite = true ∧ 1.0 ≤ r

instance (r : Float) : Decidable (Usable r) := inferInstanceAs (Decidable (_ ∧ _))

/-- Between zero and one at exponents that are not positive, as powers of `e` are. -/
def ExpLike (exp : Float → Float) : Prop := ∀ x : Float, x ≤ 0.0 → 0.0 ≤ exp x ∧ exp x ≤ 1.0

/-- The chance of missing an event of average size is one as a double. -/
def MissesAll (exp : Float → Float) (rate count metric : ℤ) : Prop :=
  1 < rate ∧ 1 ≤ count ∧ 0 < metric ∧
    (exp (-(Float.ofInt metric / Float.ofInt count) / Float.ofInt rate) == 1.0) = true

instance (exp : Float → Float) (rate count metric : ℤ) :
    Decidable (MissesAll exp rate count metric) :=
  inferInstanceAs (Decidable (_ ∧ _))

/-- A ratio as samples get it: one, or that of a sample with something to correct. -/
inductive Fits (rate count metric : ℤ) : Float → Prop
  | one : Fits rate count metric 1.0
  | corrects {r : Float} (hrate : 1 < rate) (hcount : 1 ≤ count) (hmetric : 0 < metric)
      (hr : Usable r ∨ r = Float.inf) : Fits rate count metric r

variable {exp : Float → Float} {rate count metric n : ℤ} {x y r : Float} {s : Sign} {p w : ℚ}
  {e : RatioError}

/-! ### Doubles between zero and one -/

theorem exists_holds_of_unit (hzero : 0.0 ≤ y) (hone : y ≤ 1.0) :
    ∃ s p, Holds y s p ∧ 0 ≤ signed s p ∧ signed s p ≤ 1 := by
  have hlower := (le_iff_unpack _ _).1 hzero
  have hupper := (le_iff_unpack _ _).1 hone
  rw [holds_zero.unpack_eq_zero] at hlower
  rcases holds_or y with hy | ⟨s, hy⟩ | ⟨s, p, hy, -⟩
  · rw [hy] at hlower
    nomatch hlower
  · rw [hy] at hlower hupper
    cases s with
    | negative => nomatch hlower
    | positive =>
        rw [infinity_le_eq_false holds_one] at hupper
        nomatch hupper
  · have hnonneg := (le_iff holds_zero hy).1 hzero
    rw [signed_zero] at hnonneg
    exact ⟨s, p, hy, hnonneg, (le_iff hy holds_one).1 hone⟩

/-! ### Inverses of probabilities -/

theorem usable_one : Usable 1.0 := ⟨holds_one.isFinite, (le_iff holds_one holds_one).2 le_rfl⟩

/-- The inverse of a probability that is not too close to zero. -/
theorem usable_one_div (h : Holds x .positive w) (hw : (2 : ℚ) ^ (-53 : ℤ) ≤ w) (hle : w ≤ 1) :
    Usable (1.0 / x) := by
  have hpos : 0 < w := (two_zpow_pos _).trans_le hw
  have hfinite := isFinite_one_div h hw
  have hinv := (rounds_div holds_one h hpos.ne').holds_of_isFinite hfinite
  have hone : 1 ≤ nearest (1 / w) :=
    holds_one.representable.le_nearest zero_le_one ((one_le_div hpos).2 hle)
  exact ⟨hfinite, (le_iff holds_one hinv).2 hone⟩

/-- One less a chance other than one is a probability that is not too close to zero. -/
theorem one_sub_of_unit (hy : Holds y s p) (hzero : 0 ≤ signed s p) (hone : signed s p ≤ 1)
    (hne : signed s p ≠ 1) :
    ∃ w, Holds (1.0 - y) .positive w ∧ (2 : ℚ) ^ (-53 : ℤ) ≤ w ∧ w ≤ 1 := by
  have hdiff : 0 ≤ 1 - signed s p := sub_nonneg.2 hone
  have hfar := le_abs_one_sub hy.representable hy.nonneg hne
  have hsub := rounds_sub holds_one hy (Ne.symm hne)
  change Rounds _ (signOfRat (1 - signed s p)) (nearest |1 - signed s p|) at hsub
  rw [abs_of_nonneg hdiff, signOfRat, if_neg hdiff.not_gt] at hsub
  rw [abs_of_nonneg hdiff] at hfar
  have hle : nearest (1 - signed s p) ≤ 1 :=
    holds_one.representable.nearest_le hdiff (sub_le_self 1 hzero)
  refine ⟨_, hsub.holds (hle.trans_lt holds_one.lt_overflow), ?_, hle⟩
  exact (representable_zpow (by decide)).le_nearest (two_zpow_pos _).le hfar

/-- A chance between zero and one leaves a probability of zero or one whose inverse is of use. -/
theorem one_sub_spec (hzero : 0.0 ≤ y) (hone : y ≤ 1.0) :
    (y == 1.0) = true ∧ (1.0 - y == 0.0) = true ∨
      (y == 1.0) = false ∧ (1.0 - y == 0.0) = false ∧ Usable (1.0 / (1.0 - y)) := by
  obtain ⟨s, p, hy, hlower, hupper⟩ := exists_holds_of_unit hzero hone
  by_cases heq : signed s p = 1
  · have hdiff := holds_sub_self holds_one hy heq.symm one_ne_zero
    exact .inl ⟨(beq_iff hy holds_one).2 heq, (beq_iff hdiff holds_zero).2 rfl⟩
  · obtain ⟨w, hw, hfar, hle⟩ := one_sub_of_unit hy hlower hupper heq
    have hpos : 0 < w := (two_zpow_pos _).trans_le hfar
    refine .inr ⟨?_, ?_, usable_one_div hw hfar hle⟩
    · exact Bool.eq_false_iff.2 fun h => heq ((beq_iff hy holds_one).1 h)
    · exact Bool.eq_false_iff.2 fun h => hpos.ne' ((beq_iff hw holds_zero).1 h)

/-! ### Samples -/

/-- The exponent for a sample with a positive metric, and the part of the rate that it negates. -/
theorem holds_exponent (hrate : 1 < rate) (hr : Convertible rate) (hcount : 1 ≤ count)
    (hc : Convertible count) (hmetric : 0 < metric) (hm : Convertible metric) :
    ∃ w, Holds (-(Float.ofInt metric / Float.ofInt count) / Float.ofInt rate) .negative w ∧
      Holds (Float.ofInt metric / Float.ofInt count / Float.ofInt rate) .positive w := by
  have hsize := holds_div_ofInt hm hc hcount
  have hrate' := hr.holds
  rw [show signOf metric = .positive from if_neg hmetric.not_gt] at hsize
  rw [show signOf rate = .positive from if_neg (by omega)] at hrate'
  have hone := (signed_of_pos (by omega : 0 < rate)).2
  exact ⟨_, hsize.neg.div_of_one_le hrate' hone, hsize.div_of_one_le hrate' hone⟩

theorem ratio_of_missesAll (hexp : ExpLike exp) (hr : Convertible rate) (hc : Convertible count)
    (hm : Convertible metric) (h : MissesAll exp rate count metric) :
    ratio exp rate count metric = .error .divisionByZero := by
  obtain ⟨hrate, hcount, hmetric, hone⟩ := h
  obtain ⟨w, hw, -⟩ := holds_exponent hrate hr hcount hc hmetric hm
  obtain ⟨hlower, hupper⟩ := hexp _ hw.le_zero
  rw [ratio_eq hrate.not_ge hr hc hm, if_pos ⟨hcount, hmetric⟩]
  rcases one_sub_spec hlower hupper with ⟨-, hzero⟩ | ⟨hne, -, -⟩
  · exact if_pos hzero
  · rw [hone] at hne
    nomatch hne

theorem usable_of_not_missesAll (hexp : ExpLike exp) (hr : Convertible rate)
    (hc : Convertible count) (hm : Convertible metric) (h : ¬ MissesAll exp rate count metric) :
    ∃ r, ratio exp rate count metric = .ok r ∧ Usable r := by
  by_cases hrate : 1 < rate
  · rw [ratio_eq hrate.not_ge hr hc hm]
    by_cases hboth : 1 ≤ count ∧ 0 < metric
    · obtain ⟨w, hw, -⟩ := holds_exponent hrate hr hboth.1 hc hboth.2 hm
      obtain ⟨hlower, hupper⟩ := hexp _ hw.le_zero
      rw [if_pos hboth]
      rcases one_sub_spec hlower hupper with ⟨hone, -⟩ | ⟨-, hne, husable⟩
      · exact absurd ⟨hrate, hboth.1, hboth.2, hone⟩ h
      · exact ⟨_, if_neg (Bool.eq_false_iff.1 hne), husable⟩
    · exact ⟨_, if_neg hboth, usable_one⟩
  · exact ⟨_, ratio_of_rate_le exp (not_lt.1 hrate) count metric, usable_one⟩

/-- A sample has a ratio that is of use unless the chance of missing its events is one as a double,
and then it has none. -/
theorem ratio_usable_iff (hexp : ExpLike exp) (hr : Convertible rate) (hc : Convertible count)
    (hm : Convertible metric) :
    ((∃ r, ratio exp rate count metric = .ok r ∧ Usable r) ↔ ¬ MissesAll exp rate count metric) ∧
      (MissesAll exp rate count metric →
        ratio exp rate count metric = .error .divisionByZero) := by
  have herror := ratio_of_missesAll hexp hr hc hm
  refine ⟨⟨?_, usable_of_not_missesAll hexp hr hc hm⟩, herror⟩
  rintro ⟨r, hok, -⟩ h
  rw [herror h] at hok
  nomatch hok

/-- One event of a tenth of the rate, with the power of `e` at minus one tenth. -/
theorem ratio_usable_tenth :
    let exp : Float → Float := fun _ => 0.9048374180359595
    (ExpLike exp ∧ Convertible 10 ∧ Convertible 1) ∧ ¬ MissesAll exp 10 1 1 ∧
      ∃ r, ratio exp 10 1 1 = .ok r ∧ Usable r := by
  intro exp
  have hexp : ExpLike exp := fun _ _ => by decide +kernel
  have hten : Convertible 10 := by decide +kernel
  have hone : Convertible 1 := by decide +kernel
  have hmisses : ¬ MissesAll exp 10 1 1 := by decide +kernel
  exact ⟨⟨hexp, hten, hone⟩, hmisses, (ratio_usable_iff hexp hten hone hone).1.2 hmisses⟩

/-- One event of size one at a rate of `10 ^ 17`: the exponent is so close to zero that the power is
one as a double. -/
theorem ratio_of_small_event :
    let exp : Float → Float := fun _ => 1.0
    (ExpLike exp ∧ Convertible (10 ^ 17) ∧ Convertible 1) ∧
      ratio exp (10 ^ 17) 1 1 = .error .divisionByZero := by
  intro exp
  have hexp : ExpLike exp := fun _ _ => by decide +kernel
  exact ⟨⟨hexp, by decide +kernel, by decide +kernel⟩, by decide +kernel⟩

/-! ### Columns -/

theorem fits_columnRatio (hexp : ExpLike exp) (hrate : 1 < rate) (hr : Convertible rate)
    (hc : Convertible count) (hm : Convertible metric) :
    Fits rate count metric
      (columnRatio exp (Float.ofInt rate) (Float.ofInt count) (Float.ofInt metric)) := by
  rw [columnRatio_eq hc hm]
  by_cases hboth : 1 ≤ count ∧ 0 < metric
  · obtain ⟨w, hw, -⟩ := holds_exponent hrate hr hboth.1 hc hboth.2 hm
    obtain ⟨hlower, hupper⟩ := hexp _ hw.le_zero
    rw [if_pos hboth]
    refine .corrects hrate hboth.1 hboth.2 ?_
    rcases one_sub_spec hlower hupper with ⟨-, hzero⟩ | ⟨-, -, husable⟩
    · exact .inr ((one_div_eq_inf_iff _).2 hzero)
    · exact .inl husable
  · rw [if_neg hboth]
    exact .one

theorem fits_ratios {counts metrics : List ℤ} {rs : List Float} (hexp : ExpLike exp)
    (h : ratios exp rate counts metrics = .ok rs) {i : ℕ} (hc : counts[i]? = some count)
    (hm : metrics[i]? = some metric) : ∃ r, rs[i]? = some r ∧ Fits rate count metric r := by
  rcases getElem?_ratios h hc hm with ⟨-, hr⟩ | ⟨hrate, ⟨hr', hc', hm'⟩, hr⟩
  · exact ⟨_, hr, .one⟩
  · exact ⟨_, hr, fits_columnRatio hexp hrate hr' hc' hm'⟩

/-! ### Products -/

/-- A ratio that is of use is a positive number. -/
theorem Usable.holds (h : Usable r) : ∃ q, Holds r .positive q ∧ 1 ≤ q := by
  obtain ⟨hfinite, hone⟩ := h
  obtain ⟨s, q, hq, -⟩ := exists_holds hfinite
  have hle : 1 ≤ signed s q := (le_iff holds_one hq).1 hone
  cases s with
  | positive => exact ⟨q, hq, hle⟩
  | negative =>
      have hneg : signed .negative q ≤ 0 := neg_nonpos.2 hq.nonneg
      exact absurd (hle.trans hneg) one_pos.not_ge

theorem Usable.scale_error (hr : Usable r) (he : scale n r = .error e) : e = .tooLarge := by
  by_cases hn : Convertible n
  · obtain ⟨q, hq, -⟩ := hr.holds
    rw [scale_of_convertible hn] at he
    rcases (rounds_mul hn.holds hq).truncate_cases with hok | herr
    · rw [hok] at he
      nomatch he
    · exact (Except.error.inj (herr.symm.trans he)).symm
  · rw [scale_of_not_convertible hn] at he
    exact (Except.error.inj he).symm

/-- The product of a positive integer and an infinite ratio is infinite. -/
theorem scale_inf (hpos : 0 < n) : scale n Float.inf = .error .tooLarge := by
  by_cases hn : Convertible n
  · have hne := (one_pos.trans_le (signed_of_pos hpos).2).ne'
    rw [scale_of_convertible hn]
    exact (infinite_mul hn.holds hne infinite_inf).truncate_eq
  · exact scale_of_not_convertible hn _

/-- With the ratio of a sample, the product of its count or of its metric can only be too large. -/
theorem Fits.scale_error (h : Fits rate count metric r) (hn : n = count ∨ n = metric)
    (he : scale n r = .error e) : e = .tooLarge := by
  cases h with
  | one => exact usable_one.scale_error he
  | corrects _ hcount hmetric hr =>
      rcases hr with hr | rfl
      · exact hr.scale_error he
      · rw [scale_inf (by omega)] at he
        exact (Except.error.inj he).symm

/-! ### Small events -/

/-- Half the distance from one to the double below it. -/
def halfStep : Float := 5.551115123125783e-17

theorem holds_halfStep : Holds halfStep .positive (2 ^ (-54 : ℤ)) := by
  have hcan : Canonical (2 ^ 52) (-106) := ⟨by decide, by decide, by decide, by decide⟩
  have hhalf : halfStep = .ofModel (.pack (.finite .positive (2 ^ 52) (-106) (by decide))) := by
    decide +kernel
  have hvalue : ((2 ^ 52 : ℕ) : ℚ) * 2 ^ (-106 : ℤ) = 2 ^ (-54 : ℤ) := by norm_num
  rw [hhalf, ← hvalue]
  exact (rounds_pack (.finite .positive hcan)).holds (hcan.lt_overflow_iff.2 (by decide))

/-- If powers are rounded to the nearest double, the chance of missing an event is one where its
average size is at most `2 ^ (-54)` of the rate. -/
theorem missesAll_iff
    (hround : ∀ x : Float, x ≤ 0.0 → ((exp x == 1.0) = true ↔ -halfStep ≤ x))
    (hr : Convertible rate) (hc : Convertible count) (hm : Convertible metric) :
    MissesAll exp rate count metric ↔ 1 < rate ∧ 1 ≤ count ∧ 0 < metric ∧
      Float.ofInt metric / Float.ofInt count / Float.ofInt rate ≤ halfStep := by
  refine and_congr_right fun hrate => and_congr_right fun hcount =>
    and_congr_right fun hmetric => ?_
  obtain ⟨w, hexponent, hpart⟩ := holds_exponent hrate hr hcount hc hmetric hm
  rw [hround _ hexponent.le_zero, le_iff holds_halfStep.neg hexponent, le_iff hpart holds_halfStep]
  exact neg_le_neg_iff

end StackProfile.Sampling
