import StackProfile.Proofs.Conversions

/-! # Ratios of columns and of single samples

The ratio of one sample is one if the rounded quotient of metric and count is not positive; the
ratios of columns are one where the rounded count is below one or the rounded metric not positive.
Both tests say the same of the integers, because neither an integer nor a quotient of integers that
convert is rounded to zero or past one.  The probability of capture is never the negative zero, and
no other probability is so small that its inverse is infinite; so a column has an infinite ratio
just where a single sample has none.

Main lemmas: how converted integers compare (`one_le_ofInt_iff`, `zero_lt_ofInt_iff`), when a
quotient is positive (`div_ofInt_nonpos_iff`) and an inverse infinite (`one_div_eq_inf_iff`), and
the entries of a column (`ratios_agree`). -/

namespace StackProfile.Sampling

open Float.Model.UnpackedFloat

theorem inf_eq : Float.inf = 1.0 / 0.0 := by decide +kernel

theorem infinite_inf : Infinite Float.inf .positive := by
  rw [inf_eq]
  exact infinite_div_zero holds_one one_ne_zero holds_zero

theorem one_ne_inf : 1.0 ≠ Float.inf := by
  intro h
  have hfinite := holds_one.isFinite
  rw [h, infinite_inf.not_isFinite] at hfinite
  nomatch hfinite

/-! ### Converted integers -/

section integers

variable {n c m : ℤ}

/-- A positive integer is at least one as a double. -/
theorem signed_of_pos (h : 0 < n) :
    signed (signOf n) (nearest n.natAbs) = nearest n.natAbs ∧ 1 ≤ nearest n.natAbs := by
  have hsign : signOf n = .positive := if_neg h.not_gt
  have hle : (1 : ℚ) ≤ n.natAbs := by exact_mod_cast Int.natAbs_pos.2 h.ne'
  rw [hsign]
  exact ⟨rfl, holds_one.representable.le_nearest zero_le_one hle⟩

/-- Any other integer is not positive as a double. -/
theorem signed_of_nonpos (h : n ≤ 0) : signed (signOf n) (nearest n.natAbs) ≤ 0 := by
  rcases h.lt_or_eq with h | rfl
  · have hsign : signOf n = .negative := if_pos h
    rw [hsign]
    exact neg_nonpos.2 (nearest_nonneg _)
  · rw [Int.natAbs_zero, Nat.cast_zero, nearest_zero, signed_zero]

theorem one_le_ofInt_iff (h : Convertible n) : 1.0 ≤ Float.ofInt n ↔ 1 ≤ n := by
  rw [le_iff holds_one h.holds]
  change 1 ≤ _ ↔ _
  rcases lt_or_ge 0 n with hn | hn
  · obtain ⟨hs, hone⟩ := signed_of_pos hn
    rw [hs]
    exact iff_of_true hone hn
  · exact iff_of_false ((signed_of_nonpos hn).trans_lt one_pos).not_ge (by omega)

theorem zero_lt_ofInt_iff (h : Convertible n) : 0.0 < Float.ofInt n ↔ 0 < n := by
  rw [lt_iff holds_zero h.holds]
  change 0 < _ ↔ _
  rcases lt_or_ge 0 n with hn | hn
  · obtain ⟨hs, hone⟩ := signed_of_pos hn
    rw [hs]
    exact iff_of_true (one_pos.trans_le hone) hn
  · exact iff_of_false (signed_of_nonpos hn).not_gt hn.not_gt

/-- A quotient by a positive integer is a number. -/
theorem holds_div_ofInt (hm : Convertible m) (hc : Convertible c) (hpos : 1 ≤ c) :
    Holds (Float.ofInt m / Float.ofInt c) (signOf m)
      (nearest (nearest m.natAbs / nearest c.natAbs)) := by
  have hcount := hc.holds
  rw [show signOf c = .positive from if_neg (by omega)] at hcount
  exact hm.holds.div_of_one_le hcount (signed_of_pos hpos).2

/-- The quotient of a positive metric and a count does not vanish. -/
theorem nearest_div_pos {p q : ℚ} (hp : 1 ≤ p) (hq : 0 < q) (hlt : q < overflow) :
    0 < nearest (p / q) := by
  have hle : (2 : ℚ) ^ (-1074 : ℤ) ≤ p / q := by
    rw [le_div_iff₀ hq]
    calc (2 : ℚ) ^ (-1074 : ℤ) * q ≤ 2 ^ (-1074 : ℤ) * 2 ^ (1024 : ℤ) :=
          mul_le_mul_of_nonneg_left hlt.le (two_zpow_pos _).le
      _ = 2 ^ (-50 : ℤ) := (zpow_add₀ two_ne_zero _ _).symm
      _ ≤ 1 := zpow_le_one_of_nonpos₀ one_le_two (by decide)
      _ ≤ p := hp
  have hround := (representable_zpow le_rfl).le_nearest (two_zpow_pos _).le hle
  exact (two_zpow_pos _).trans_le hround

theorem div_ofInt_nonpos_iff (hm : Convertible m) (hc : Convertible c) (hpos : 1 ≤ c) :
    Float.ofInt m / Float.ofInt c ≤ 0.0 ↔ m ≤ 0 := by
  have hdiv := holds_div_ofInt hm hc hpos
  have hone := (signed_of_pos hpos).2
  rw [le_iff hdiv holds_zero, signed_zero]
  rcases lt_or_ge 0 m with h | h
  · have hsign : signOf m = .positive := if_neg h.not_gt
    rw [hsign]
    have hquot := nearest_div_pos (signed_of_pos h).2 (one_pos.trans_le hone) hc.holds.lt_overflow
    exact iff_of_false hquot.not_ge h.not_ge
  · refine iff_of_true ?_ h
    rcases h.lt_or_eq with h | rfl
    · have hsign : signOf m = .negative := if_pos h
      rw [hsign]
      exact neg_nonpos.2 hdiv.nonneg
    · rw [Int.natAbs_zero, Nat.cast_zero, nearest_zero, zero_div, nearest_zero, signed_zero]

end integers

/-! ### Inverses of probabilities -/

theorem zpow_le_abs {v : ℚ} (hv : v ≠ 0) {n k : ℤ} (h : v = n * 2 ^ k) : (2 : ℚ) ^ k ≤ |v| := by
  have hn : n ≠ 0 := by
    rintro rfl
    rw [Int.cast_zero, zero_mul] at h
    exact hv h
  have hone : (1 : ℚ) ≤ n.natAbs := by exact_mod_cast Int.natAbs_pos.2 hn
  rw [h, abs_mul_zpow]
  exact le_mul_of_one_le_left (two_zpow_pos k).le hone

/-- The last place of a double that is not below one half. -/
theorem exponent_of_half_le {m : ℕ} {e : ℤ} (hm : m < 2 ^ 53) (h : 2 ^ (-1 : ℤ) ≤ (m : ℚ) * 2 ^ e) :
    -53 ≤ e := by
  have hm' : (m : ℚ) < 2 ^ ((53 : ℕ) : ℤ) := by
    rw [zpow_natCast]
    exact_mod_cast hm
  have hlt : (2 : ℚ) ^ (-1 : ℤ) < 2 ^ (((53 : ℕ) : ℤ) + e) := by
    rw [zpow_add₀ two_ne_zero]
    exact h.trans_lt (mul_lt_mul_of_pos_right hm' (two_zpow_pos e))
  have := (zpow_lt_zpow_iff_right₀ one_lt_two).1 hlt
  omega

/-- A double other than one differs from one by `2 ^ (-53)` at least. -/
theorem le_abs_one_sub {s : Sign} {q : ℚ} (h : Representable q) (hq : 0 ≤ q)
    (hne : signed s q ≠ 1) : (2 : ℚ) ^ (-53 : ℤ) ≤ |1 - signed s q| := by
  have hsmall : (2 : ℚ) ^ (-53 : ℤ) ≤ 2 ^ (-1 : ℤ) := zpow_le_zpow_right₀ one_le_two (by decide)
  have hhalf : (2 : ℚ) ^ (-1 : ℤ) = 1 / 2 := by norm_num
  cases s with
  | negative =>
      change _ ≤ |1 - -q|
      rw [hhalf] at hsmall
      rw [abs_of_nonneg (by linarith)]
      exact hsmall.trans (by linarith)
  | positive =>
      change _ ≤ |1 - q|
      obtain ⟨m, e, hm, -, rfl⟩ := h
      rcases lt_or_ge ((m : ℚ) * 2 ^ e) (2 ^ (-1 : ℤ)) with hlt | hge
      · rw [hhalf] at hsmall hlt
        rw [abs_of_nonneg (by linarith)]
        exact hsmall.trans (by linarith)
      · -- The double and one are multiples of `2 ^ (-53)`, so their difference is.
        obtain ⟨k, hpow⟩ := exists_zpow_eq (exponent_of_half_le hm hge)
        obtain ⟨l, hone⟩ := exists_zpow_eq (show (-53 : ℤ) ≤ 0 by decide)
        rw [zpow_zero] at hone
        have hdiff : 1 - (m : ℚ) * 2 ^ e = ((2 ^ l : ℕ) - m * (2 ^ k : ℕ) : ℤ) * 2 ^ (-53 : ℤ) := by
          rw [hpow, Int.cast_sub, sub_mul, Int.cast_mul]
          simp only [Int.cast_natCast]
          rw [← hone, mul_assoc]
        exact zpow_le_abs (sub_ne_zero.2 (Ne.symm hne)) hdiff

/-- One less a double is the positive zero, a number that is not too close to zero, or no number. -/
theorem one_sub_cases (y : Float) :
    Holds (1.0 - y) .positive 0 ∨ (∃ t w, Holds (1.0 - y) t w ∧ (2 : ℚ) ^ (-53 : ℤ) ≤ w) ∨
      (1.0 - y).isFinite = false := by
  by_cases hf : (1.0 - y).isFinite = true
  · obtain ⟨s, q, hy, -⟩ := exists_holds (isFinite_of_isFinite_sub hf)
    by_cases hone : signed s q = 1
    · exact .inl (holds_sub_self holds_one hy hone.symm one_ne_zero)
    · have hle := le_abs_one_sub hy.representable hy.nonneg hone
      have hround := (representable_zpow (by decide)).le_nearest (two_zpow_pos _).le hle
      have hsub := (rounds_sub holds_one hy (Ne.symm hone)).holds_of_isFinite hf
      exact .inr (.inl ⟨_, _, hsub, hround⟩)
  · exact .inr (.inr (Bool.eq_false_iff.2 hf))

variable {p : Float}

theorem one_div_of_zero (h : Holds p .positive 0) : 1.0 / p = Float.inf := by
  have hdiv : ∀ x : Float, 1.0 / x =
      .ofModel (.pack (div .binary64 (1.0 : Float).toModel.unpack x.toModel.unpack)) := fun _ => rfl
  rw [inf_eq, hdiv, hdiv, h.unpack_eq_zero, holds_zero.unpack_eq_zero]

theorem isFinite_one_div {t : Sign} {w : ℚ} (h : Holds p t w) (hw : (2 : ℚ) ^ (-53 : ℤ) ≤ w) :
    (1.0 / p).isFinite = true := by
  have hpos : 0 < w := (two_zpow_pos _).trans_le hw
  have hle : 1 / w ≤ 2 ^ (53 : ℤ) := by
    rw [div_le_iff₀ hpos]
    calc (1 : ℚ) = 2 ^ (53 : ℤ) * 2 ^ (-53 : ℤ) := by norm_num
      _ ≤ 2 ^ (53 : ℤ) * w := mul_le_mul_of_nonneg_left hw (two_zpow_pos _).le
  have hround := (representable_zpow (by decide)).nearest_le (div_nonneg zero_le_one hpos.le) hle
  have hlt : nearest (1 / w) < overflow :=
    hround.trans_lt (zpow_lt_zpow_right₀ one_lt_two (by decide))
  exact ((rounds_div holds_one h hpos.ne').holds hlt).isFinite

theorem one_div_of_not_isFinite (hf : p.isFinite = false) :
    1.0 / p ≠ Float.inf ∧ (p == 0.0) = false := by
  have hdiv : (1.0 / p).toModel.unpack =
      unpack .binary64 (pack .binary64 (div .binary64 (1.0 : Float).toModel.unpack
        p.toModel.unpack)) := rfl
  have hbeq : (p == 0.0) = (Float.Model.UnpackedFloat.compare p.toModel.unpack
      (0.0 : Float).toModel.unpack == some Ordering.eq) := rfl
  have hinf := infinite_inf
  unfold Infinite at hinf
  rw [hbeq, holds_zero.unpack_eq_zero]
  rcases holds_or p with hp | ⟨s, hp⟩ | ⟨s, q, hp, -⟩
  · rw [hp] at hdiv ⊢
    refine ⟨?_, rfl⟩
    intro h
    rw [h, hinf, div_notANumber] at hdiv
    nomatch hdiv
  · rw [hp] at hdiv ⊢
    refine ⟨?_, by cases s <;> rfl⟩
    intro h
    rw [div_infinity_eq holds_one] at hdiv
    have hzero := hdiv.trans unpack_packedZero
    rw [h, hinf] at hzero
    nomatch hzero
  · rw [hp.isFinite] at hf
    nomatch hf

/-- An inverse of a probability is infinite exactly if the probability is zero. -/
theorem one_div_eq_inf_iff (y : Float) :
    1.0 / (1.0 - y) = Float.inf ↔ (1.0 - y == 0.0) = true := by
  rcases one_sub_cases y with hp | ⟨t, w, hp, hw⟩ | hf
  · refine iff_of_true (one_div_of_zero hp) ?_
    rw [beq_iff hp holds_zero]
  · have hpos : 0 < w := (two_zpow_pos _).trans_le hw
    refine iff_of_false ?_ ?_
    · intro h
      have hf := isFinite_one_div hp hw
      rw [h, infinite_inf.not_isFinite] at hf
      nomatch hf
    · rw [beq_iff hp holds_zero, signed_zero]
      intro h
      have habs := abs_signed hpos.le t
      rw [h, abs_zero] at habs
      exact hpos.ne habs
  · obtain ⟨hne, hbeq⟩ := one_div_of_not_isFinite hf
    rw [hbeq]
    exact iff_of_false hne (by decide)

/-! ### Columns -/

section columns

variable {exp : Float → Float} {rate : ℤ} {counts metrics : List ℤ} {rs : List Float}

/-- The ratio of a sample at a rate that corrects, if all numbers convert. -/
theorem ratio_eq {c m : ℤ} (hrate : ¬ rate ≤ 1) (hr : Convertible rate) (hc : Convertible c)
    (hm : Convertible m) :
    ratio exp rate c m =
      if 1 ≤ c ∧ 0 < m then
        if captureProbability exp (Float.ofInt rate) (Float.ofInt m / Float.ofInt c) == 0.0 then
          .error .divisionByZero
        else
          .ok (1.0 / captureProbability exp (Float.ofInt rate) (Float.ofInt m / Float.ofInt c))
      else .ok 1.0 := by
  unfold ratio
  by_cases hcount : c < 1
  · rw [if_pos (.inr hcount), if_neg (by omega)]
  · have hpos : 1 ≤ c := by omega
    rw [if_neg (by omega), toDouble_of_convertible hm, toDouble_of_convertible hc,
      toDouble_of_convertible hr]
    simp only [bind, Except.bind, pure, Except.pure, throw, throwThe, MonadExceptOf.throw,
      div_ofInt_nonpos_iff hm hc hpos]
    by_cases hmetric : m ≤ 0
    · rw [if_pos hmetric, if_neg (by omega)]
    · have hboth : 1 ≤ c ∧ 0 < m := ⟨hpos, by omega⟩
      simp only [if_neg hmetric, if_pos hboth]

/-- The entry of a column with the same tests. -/
theorem columnRatio_eq {c m : ℤ} (hc : Convertible c) (hm : Convertible m) :
    columnRatio exp (Float.ofInt rate) (Float.ofInt c) (Float.ofInt m) =
      if 1 ≤ c ∧ 0 < m then
        1.0 / captureProbability exp (Float.ofInt rate) (Float.ofInt m / Float.ofInt c)
      else 1.0 := by
  unfold columnRatio
  simp only [one_le_ofInt_iff hc, zero_lt_ofInt_iff hm]

/-- How the entry of a column tells the ratio of its sample. -/
inductive Tells : Except RatioError Float → Float → Prop
  | ratio {r : Float} (h : r ≠ Float.inf) : Tells (.ok r) r
  | divisionByZero : Tells (.error .divisionByZero) Float.inf

theorem tells_one : Tells (.ok 1.0) 1.0 := .ratio one_ne_inf

theorem tells_columnRatio {c m : ℤ} (hrate : ¬ rate ≤ 1) (hr : Convertible rate)
    (hc : Convertible c) (hm : Convertible m) :
    Tells (ratio exp rate c m)
      (columnRatio exp (Float.ofInt rate) (Float.ofInt c) (Float.ofInt m)) := by
  rw [ratio_eq hrate hr hc hm, columnRatio_eq hc hm]
  by_cases hboth : 1 ≤ c ∧ 0 < m
  · rw [if_pos hboth, if_pos hboth]
    have hiff : 1.0 / captureProbability exp (Float.ofInt rate) (Float.ofInt m / Float.ofInt c) =
        Float.inf ↔ _ := one_div_eq_inf_iff _
    by_cases hzero : captureProbability exp (Float.ofInt rate)
        (Float.ofInt m / Float.ofInt c) == 0.0
    · rw [if_pos hzero, hiff.2 hzero]
      exact .divisionByZero
    · rw [if_neg hzero]
      exact .ratio (mt hiff.1 hzero)
  · rw [if_neg hboth, if_neg hboth]
    exact tells_one

/-- Columns that have ratios at a rate that corrects; without counts nothing else is converted. -/
theorem ratios_eq_ok (hrate : ¬ rate ≤ 1) (h : ratios exp rate counts metrics = .ok rs) :
    (∀ c ∈ counts, ∀ m ∈ metrics, Convertible rate ∧ Convertible c ∧ Convertible m) ∧
      rs = List.zipWith (columnRatio exp (Float.ofInt rate)) (counts.map Float.ofInt)
        (metrics.map Float.ofInt) := by
  unfold ratios at h
  cases hcs : counts.mapM toDouble with
  | error e =>
      rw [hcs] at h
      nomatch h
  | ok cs =>
      obtain ⟨hcounts, rfl⟩ := mapM_toDouble_eq_ok.1 hcs
      rw [hcs] at h
      simp only [bind, Except.bind, pure, Except.pure, throw, throwThe, MonadExceptOf.throw, hrate,
        false_or, List.map_eq_nil_iff] at h
      split at h
      · rename_i hnil
        subst hnil
        cases h
        exact ⟨nofun, rfl⟩
      · cases hms : metrics.mapM toDouble with
        | error e =>
            rw [hms] at h
            nomatch h
        | ok ms =>
            obtain ⟨hmetrics, rfl⟩ := mapM_toDouble_eq_ok.1 hms
            rw [hms] at h
            simp only at h
            split at h
            · nomatch h
            · cases hr : toDouble rate with
              | error e =>
                  rw [hr] at h
                  nomatch h
              | ok x =>
                  have hconv := convertible_of_toDouble hr
                  rw [toDouble_of_convertible hconv] at h
                  exact ⟨fun c hc m hm => ⟨hconv, hcounts c hc, hmetrics m hm⟩,
                    (Except.ok.inj h).symm⟩

theorem ratios_of_rate_le_eq_ok (hrate : rate ≤ 1) (h : ratios exp rate counts metrics = .ok rs) :
    rs = counts.map fun _ => 1.0 := by
  rw [ratios_of_rate_le exp hrate] at h
  cases hcs : counts.mapM toDouble with
  | error e =>
      rw [hcs] at h
      nomatch h
  | ok cs =>
      obtain ⟨-, rfl⟩ := mapM_toDouble_eq_ok.1 hcs
      rw [hcs] at h
      exact (Except.ok.inj h).symm.trans (List.map_map ..)

/-- The entries of columns that have ratios. -/
theorem getElem?_ratios (h : ratios exp rate counts metrics = .ok rs) {i : ℕ} {c m : ℤ}
    (hc : counts[i]? = some c) (hm : metrics[i]? = some m) :
    rate ≤ 1 ∧ rs[i]? = some 1.0 ∨
      1 < rate ∧ (Convertible rate ∧ Convertible c ∧ Convertible m) ∧
        rs[i]? = some (columnRatio exp (Float.ofInt rate) (Float.ofInt c) (Float.ofInt m)) := by
  by_cases hrate : rate ≤ 1
  · obtain rfl := ratios_of_rate_le_eq_ok hrate h
    refine .inl ⟨hrate, ?_⟩
    rw [List.getElem?_map, hc, Option.map_some]
  · obtain ⟨hconv, rfl⟩ := ratios_eq_ok hrate h
    have hall := hconv c (List.mem_of_getElem? hc) m (List.mem_of_getElem? hm)
    refine .inr ⟨not_le.1 hrate, hall, ?_⟩
    rw [List.getElem?_zipWith, List.getElem?_map, List.getElem?_map, hc, hm]
    rfl

theorem length_ratios (h : ratios exp rate counts metrics = .ok rs)
    (hlen : counts.length = metrics.length) : rs.length = counts.length := by
  by_cases hrate : rate ≤ 1
  · obtain rfl := ratios_of_rate_le_eq_ok hrate h
    exact List.length_map ..
  · obtain ⟨-, rfl⟩ := ratios_eq_ok hrate h
    simp [hlen]

/-- Columns of the same length have one ratio for each sample. -/
theorem tells_ratios (h : ratios exp rate counts metrics = .ok rs)
    (hlen : counts.length = metrics.length) :
    rs.length = counts.length ∧
      ∀ (i : ℕ) (c m : ℤ), counts[i]? = some c → metrics[i]? = some m →
        ∃ r, rs[i]? = some r ∧ Tells (ratio exp rate c m) r := by
  refine ⟨length_ratios h hlen, fun i c m hc hm => ?_⟩
  rcases getElem?_ratios h hc hm with ⟨hrate, hr⟩ | ⟨hrate, ⟨hr', hc', hm'⟩, hr⟩
  · refine ⟨_, hr, ?_⟩
    rw [ratio_of_rate_le exp hrate]
    exact tells_one
  · exact ⟨_, hr, tells_columnRatio hrate.not_ge hr' hc' hm'⟩

/-- The entry of a column is the ratio of its sample if there is one, and infinite just where the
probability of capture is zero. -/
theorem ratios_agree (h : ratios exp rate counts metrics = .ok rs)
    (hlen : counts.length = metrics.length) :
    rs.length = counts.length ∧
      ∀ (i : ℕ) (c m : ℤ), counts[i]? = some c → metrics[i]? = some m →
        ∃ r, rs[i]? = some r ∧ (∀ x, ratio exp rate c m = .ok x → r = x) ∧
          (∀ e, ratio exp rate c m = .error e → e = .divisionByZero) ∧
          (r = Float.inf ↔ ratio exp rate c m = .error .divisionByZero) := by
  obtain ⟨hrs, hall⟩ := tells_ratios h hlen
  refine ⟨hrs, fun i c m hc hm => ?_⟩
  obtain ⟨r, hr, htells⟩ := hall i c m hc hm
  refine ⟨r, hr, ?_⟩
  generalize ratio exp rate c m = x at htells
  cases htells with
  | ratio hne => exact ⟨fun x hx => Except.ok.inj hx, nofun, iff_of_false hne nofun⟩
  | divisionByZero => exact ⟨nofun, fun e he => (Except.error.inj he).symm, iff_of_true rfl rfl⟩

/-- With the exponential function where it is zero or one: the first event is too small for its
rate, the second is much larger than the rate, and the last sample is empty. -/
theorem ratios_agree_extremes :
    let exp : Float → Float := fun x => if x ≤ -750.0 then 0.0 else 1.0
    ratios exp (2 ^ 60) [1, 1, 0] [1, 1000 * 2 ^ 60, 5] = .ok [Float.inf, 1.0, 1.0] ∧
      ratio exp (2 ^ 60) 1 1 = .error .divisionByZero ∧
      ratio exp (2 ^ 60) 1 (1000 * 2 ^ 60) ≠ .error .divisionByZero := by
  have hrs : ratios (fun x => if x ≤ -750.0 then 0.0 else 1.0) (2 ^ 60) [1, 1, 0]
      [1, 1000 * 2 ^ 60, 5] = .ok [Float.inf, 1.0, 1.0] := by
    decide +kernel
  obtain ⟨-, hall⟩ := ratios_agree hrs rfl
  obtain ⟨r, hr, -, -, hfirst⟩ := hall 0 1 1 rfl rfl
  obtain ⟨r', hr', -, -, hsecond⟩ := hall 1 1 (1000 * 2 ^ 60) rfl rfl
  cases hr
  cases hr'
  exact ⟨hrs, hfirst.1 rfl, mt hsecond.2 one_ne_inf⟩

end columns

end StackProfile.Sampling
