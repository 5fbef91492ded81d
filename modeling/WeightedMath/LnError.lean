/-
WeightedMath/LnError.lean

How far `lnVal` is from the real logarithm, in units of `2^-62`.

Write `m` for the mantissa, `b = |m - 1| / (m + 1)` for the exact ratio and
`a = |t|` for the truncated one, so `0 ≤ b - a < 1` unit and `|ln m|` is
`logRatio b`.  Three errors meet:

* `a` for `b` costs at most `2 / ((1 - b)(1 + a))` units, that is 2 units and
  a little that grows with `b` (`truncation_le`);
* the series — floors, rounded coefficients, the flooring of `u`, the tail —
  is off by at most 2.12 units, and enters multiplied by `2a`
  (`series_bounds`);
* the last shift floors: one unit, upward or downward with the sign of `t`.

`abs_lnVal_sub_le` puts them together for all inputs: `2.01 + 7·L` units,
where `L = -ln x` is the result itself.  Counted by the doublings `k` instead,
it is `4 + k/2` (`abs_lnVal_sub_le_shift`).
-/
import WeightedMath.Ln

namespace WeightedMath

open Machine Horner LogExp

/-! ### The series -/

/-- Past the first, exact one, every atanh constant is correctly rounded. -/
theorem atanh_rounded : List.Forall₂ (fun c d : ℝ => |c - d| ≤ 1 / 2)
    (toReals atanhCoeff_62.tail) ((oddSeries 13).tail.map (2 ^ 62 * ·)) := by
  simp only [atanhCoeff_62, oddSeries, toReals, List.range, List.range.loop, List.map, List.tail]
  repeat' constructor
  all_goals norm_num [abs_le]

theorem atanhCoeff_cons :
    toReals atanhCoeff_62 = (2 ^ 62 : ℝ) :: toReals atanhCoeff_62.tail := by
  simp only [atanhCoeff_62, toReals_cons, List.tail_cons]
  norm_num

theorem oddSeries_cons : oddSeries 13 = 1 :: (oddSeries 13).tail := by
  simp [oddSeries, List.range_succ_eq_map]

/-- Rounded against exact coefficients, at one argument. -/
theorem abs_atanh_sub_le {σ : ℝ} (h₀ : 0 ≤ σ) (h₁ : σ ≤ 0.0295) :
    |polyEval σ (toReals atanhCoeff_62) - 2 ^ 62 * polyEval σ (oddSeries 13)| ≤ 0.016 := by
  have htail := abs_polyEval_sub_le h₀ (by linarith) (by norm_num) atanh_rounded
  have hden : (1 / 2 : ℝ) / (1 - σ) ≤ 0.52 := by
    rw [div_le_iff₀ (by linarith)]; linarith
  have e : polyEval σ (toReals atanhCoeff_62) - 2 ^ 62 * polyEval σ (oddSeries 13)
      = σ * (polyEval σ (toReals atanhCoeff_62.tail)
          - polyEval σ ((oddSeries 13).tail.map (2 ^ 62 * ·))) := by
    rw [atanhCoeff_cons, oddSeries_cons, polyEval_map_mul]
    simp only [polyEval_cons, List.tail_cons]
    ring
  rw [e, abs_mul, abs_of_nonneg h₀]
  calc σ * _ ≤ 0.0295 * 0.52 :=
        mul_le_mul h₁ (htail.trans hden) (abs_nonneg _) (by norm_num)
    _ ≤ 0.016 := by norm_num

/-- The floored square: within one unit below the square. -/
theorem floor_sq_bounds {t : ℤ} (ht : |t| ≤ tMax) :
    (0 : ℝ) ≤ ((t * t / 2 ^ 62 : ℤ) : ℝ) / 2 ^ 62 ∧
      ((t * t / 2 ^ 62 : ℤ) : ℝ) / 2 ^ 62 ≤ ((t : ℝ) / 2 ^ 62) ^ 2 ∧
      ((t : ℝ) / 2 ^ 62) ^ 2 ≤ ((t * t / 2 ^ 62 : ℤ) : ℝ) / 2 ^ 62 + 1 / 2 ^ 62 ∧
      ((t : ℝ) / 2 ^ 62) ^ 2 ≤ 0.0295 := by
  obtain ⟨h₁, h₂⟩ := floor_quotient (t * t) 62
  have h₀ : (0 : ℝ) ≤ ((t * t / 2 ^ 62 : ℤ) : ℝ) := by exact_mod_cast (sq_ediv_bounds ht).1
  have htR : |(t : ℝ)| ≤ 791300000000000000 := by exact_mod_cast ht
  have hsq : (t : ℝ) * t ≤ 791300000000000000 ^ 2 := by
    rw [← abs_mul_abs_self (t : ℝ), ← sq]
    exact pow_le_pow_left₀ (abs_nonneg _) htR 2
  push_cast at h₁ h₂
  refine ⟨by positivity, ?_, ?_, ?_⟩
  · rw [div_pow, sq (2 ^ 62 : ℝ), ← div_div, sq]
    exact div_le_div_of_nonneg_right h₁ (by positivity)
  · rw [div_pow, sq (2 ^ 62 : ℝ), ← div_div, sq, ← add_div]
    exact div_le_div_of_nonneg_right h₂.le (by positivity)
  · rw [div_pow, div_le_iff₀ (by positivity), sq]
    refine hsq.trans ?_
    norm_num

/-- The computed series against the exact one at the exact square. -/
theorem lnP_bounds {t : ℤ} (ht : |t| ≤ tMax) :
    2 ^ 62 * polyEval (((t : ℝ) / 2 ^ 62) ^ 2) (oddSeries 13) - 2.12 ≤ lnP t ∧
      (lnP t : ℝ) ≤ 2 ^ 62 * polyEval (((t : ℝ) / 2 ^ 62) ^ 2) (oddSeries 13) + 0.016 := by
  obtain ⟨h₀, hle, hge, hmax⟩ := floor_sq_bounds ht
  have hu := (sq_ediv_bounds ht).1
  have hfl := floorHorner_le (L := 62) hu atanhCoeff_62
  have hfg := le_floorHorner (L := 62) hu (by linarith) atanhCoeff_62
  unfold lnP
  generalize ((t * t / 2 ^ 62 : ℤ) : ℝ) / 2 ^ 62 = σ at *
  generalize ((t : ℝ) / 2 ^ 62) ^ 2 = ρ at *
  obtain ⟨hc₁, hc₂⟩ := abs_le.mp (abs_atanh_sub_le h₀ (hle.trans hmax))
  have hmono := polyEval_mono h₀ hle fun c (hc : c ∈ oddSeries 13) => (mem_oddSeries hc).1
  have hlip := polyEval_sub_le h₀ hle (by linarith) zero_le_one
    fun c (hc : c ∈ oddSeries 13) => (mem_oddSeries hc).2
  have hloss : 1 / (1 - σ) ≤ 1.0305 := by
    rw [div_le_iff₀ (by linarith)]; linarith
  have hlip' : 1 * (ρ - σ) / (1 - ρ) ^ 2 ≤ 1.062 / 2 ^ 62 := by
    rw [div_le_div_iff₀ (by nlinarith) (by positivity)]
    nlinarith
  constructor <;> linarith

/-- **The series part**: `2·a·P` against `logRatio a`, with an error
proportional to `a`. -/
theorem series_bounds {t : ℤ} (h₀ : 0 ≤ t) (ht : |t| ≤ tMax) :
    2 ^ 62 * logRatio ((t : ℝ) / 2 ^ 62) - 4.4 * ((t : ℝ) / 2 ^ 62)
        ≤ 2 * ((t : ℝ) / 2 ^ 62 * lnP t) ∧
      2 * ((t : ℝ) / 2 ^ 62 * lnP t)
        ≤ 2 ^ 62 * logRatio ((t : ℝ) / 2 ^ 62) + 0.04 * ((t : ℝ) / 2 ^ 62) := by
  obtain ⟨hlo, hhi⟩ := lnP_bounds ht
  obtain ⟨-, -, -, hmax⟩ := floor_sq_bounds ht
  have ha₀ : (0 : ℝ) ≤ (t : ℝ) / 2 ^ 62 := by positivity
  generalize (t : ℝ) / 2 ^ 62 = a at *
  have ha₁ : a < 1 := by nlinarith
  have hser := polyEval_le_logRatio ha₀ ha₁ 13
  have htail := logRatio_le_polyEval ha₀ ha₁ 13
  have hpow : (a ^ 2) ^ 13 ≤ 0.0295 ^ 13 := pow_le_pow_left₀ (by positivity) hmax 13
  have htail' : 2 * (a ^ (2 * 13 + 1) / (1 - a ^ 2)) ≤ a * (0.16 / 2 ^ 62) := by
    have e : 2 * a ^ (2 * 13 + 1) = a * (2 * (a ^ 2) ^ 13) := by ring
    rw [mul_div_assoc', div_le_iff₀ (by linarith), e, mul_assoc a]
    refine mul_le_mul_of_nonneg_left ?_ ha₀
    refine (mul_le_mul_of_nonneg_left hpow zero_le_two).trans ?_
    calc (2 : ℝ) * 0.0295 ^ 13 ≤ 0.16 / 2 ^ 62 * 0.9705 := by norm_num
      _ ≤ 0.16 / 2 ^ 62 * (1 - a ^ 2) := by
          refine mul_le_mul_of_nonneg_left (by linarith) (by positivity)
  have h₁ := mul_le_mul_of_nonneg_left hlo ha₀
  have h₂ := mul_le_mul_of_nonneg_left hhi ha₀
  constructor <;> linarith

/-! ### The truncated division -/

/-- One unit of truncation in the ratio, `b` for `a`. -/
theorem truncation_le {a b : ℝ} (ha : 0 ≤ a) (hab : a ≤ b) (hb : b ≤ 0.1716)
    (hgap : b - a ≤ 1 / 2 ^ 62) :
    2 ^ 62 * logRatio b - 2 ^ 62 * logRatio a ≤ 2.001 + 0.4 * b := by
  have h := logRatio_sub_le ha hab (by linarith)
  have hden : 0 < (1 - b) * (1 + a) := mul_pos (by linarith) (by linarith)
  have hnum : 2 * (b - a) ≤ (2.001 + 0.4 * b) / 2 ^ 62 * ((1 - b) * (1 + a)) := by
    have hprod : 1 - 1 / 2 ^ 62 - 0.1716 * b ≤ (1 - b) * (1 + a) := by nlinarith
    have hbig : 2 ≤ (2.001 + 0.4 * b) * (1 - 1 / 2 ^ 62 - 0.1716 * b) := by
      norm_num
      nlinarith
    calc 2 * (b - a) ≤ 2 / 2 ^ 62 := by linarith
      _ ≤ (2.001 + 0.4 * b) * (1 - 1 / 2 ^ 62 - 0.1716 * b) / 2 ^ 62 :=
          div_le_div_of_nonneg_right hbig (by positivity)
      _ ≤ (2.001 + 0.4 * b) * ((1 - b) * (1 + a)) / 2 ^ 62 :=
          div_le_div_of_nonneg_right
            (mul_le_mul_of_nonneg_left hprod (by linarith)) (by positivity)
      _ = _ := by ring
  have := h.trans ((div_le_iff₀ hden).mpr hnum)
  linarith

/-! ### Mantissas -/

/-- `|m - 1| / (m + 1)`, the exact value `|t|` truncates. -/
noncomputable def ratio (m : ℤ) : ℝ := |(m : ℝ) - 2 ^ 62| / (m + 2 ^ 62)

/-- `ln m`. -/
noncomputable def logMant (m : ℤ) : ℝ := Real.log ((m : ℝ) / 2 ^ 62)

section Mantissa

variable {m : ℤ}

theorem IsMantissa.cast_bounds (h : IsMantissa m) :
    (3260954456333195553 : ℝ) ≤ m ∧ (m : ℝ) < 6521908912666391106 := by
  have hge := h.ge
  have hlt := h.lt
  unfold sqrt2Half_62 at hge hlt
  exact ⟨by exact_mod_cast hge, by exact_mod_cast hlt⟩

theorem IsMantissa.ratio_bounds (h : IsMantissa m) : 0 ≤ ratio m ∧ ratio m ≤ 0.1716 := by
  obtain ⟨hge, hlt⟩ := h.cast_bounds
  have hpos : (0 : ℝ) < m + 2 ^ 62 := by linarith
  refine ⟨div_nonneg (abs_nonneg _) hpos.le, ?_⟩
  rw [ratio, div_le_iff₀ hpos, abs_le]
  constructor <;> norm_num <;> linarith

/-- The magnitude of `ln m` is the log-ratio of `|m - 1| / (m + 1)`. -/
theorem IsMantissa.abs_logMant (h : IsMantissa m) : |logMant m| = logRatio (ratio m) := by
  obtain ⟨hge, hlt⟩ := h.cast_bounds
  have hpos : (0 : ℝ) < m + 2 ^ 62 := by linarith
  have hm : (0 : ℝ) < m := by linarith
  have hx : (0 : ℝ) < (m : ℝ) / 2 ^ 62 := by positivity
  have e : logMant m = logRatio (((m : ℝ) - 2 ^ 62) / (m + 2 ^ 62)) := by
    rw [logMant, ← logRatio_sub_div_add hx]
    congr 1
    field_simp
  rcases le_total ((2 : ℝ) ^ 62) m with h₁ | h₁
  · rw [ratio, abs_of_nonneg (sub_nonneg.mpr h₁), ← e, logMant,
      abs_of_nonneg (Real.log_nonneg ((one_le_div (by positivity)).mpr h₁))]
  · rw [ratio, abs_of_nonpos (sub_nonpos.mpr h₁), neg_div, logRatio_neg, ← e, logMant,
      abs_of_nonpos (Real.log_nonpos hx.le ((div_le_one (by positivity)).mpr h₁))]

theorem IsMantissa.two_mul_ratio_le (h : IsMantissa m) : 2 * ratio m ≤ |logMant m| := by
  obtain ⟨h₀, h₁⟩ := h.ratio_bounds
  rw [h.abs_logMant]
  exact two_mul_le_logRatio h₀ (by linarith)

/-- `|t|` is the ratio, truncated by less than a unit. -/
theorem IsMantissa.abs_lnT_ratio (h : IsMantissa m) :
    ((|lnT m| : ℤ) : ℝ) / 2 ^ 62 ≤ ratio m ∧
      ratio m - ((|lnT m| : ℤ) : ℝ) / 2 ^ 62 ≤ 1 / 2 ^ 62 := by
  have hpos := h.add_pos
  have e : |lnT m| = |(m - one62) * 2 ^ 62| / (m + one62) := abs_tdiv hpos
  obtain ⟨h₁, h₂⟩ := floor_div_bounds |(m - one62) * 2 ^ 62| hpos
  have er : ((|(m - one62) * 2 ^ 62| : ℤ) : ℝ) / ((m + one62 : ℤ) : ℝ) = ratio m * 2 ^ 62 := by
    rw [ratio, Int.cast_abs, Int.cast_mul, abs_mul, div_mul_eq_mul_div, one62]
    norm_num
  rw [← e, er] at h₁ h₂
  constructor
  · rw [div_le_iff₀ (by positivity)]; exact h₁
  · rw [sub_le_iff_le_add, ← add_div, le_div_iff₀ (by positivity)]
    linarith

/-- The unrounded product `2·|t|·P` against `|ln m|`. -/
theorem IsMantissa.series_near (h : IsMantissa m) :
    2 ^ 62 * |logMant m| - 2.001 - 4.8 * ratio m
        ≤ 2 * (((|lnT m| : ℤ) : ℝ) / 2 ^ 62 * lnP (lnT m)) ∧
      2 * (((|lnT m| : ℤ) : ℝ) / 2 ^ 62 * lnP (lnT m))
        ≤ 2 ^ 62 * |logMant m| + 0.04 * ratio m := by
  have eP : lnP |lnT m| = lnP (lnT m) := by rw [lnP, abs_mul_abs_self, lnP]
  have hs := series_bounds (abs_nonneg (lnT m)) ((abs_abs _).trans_le h.abs_lnT_le)
  rw [eP] at hs
  obtain ⟨hab, hgap⟩ := h.abs_lnT_ratio
  obtain ⟨-, hb⟩ := h.ratio_bounds
  have ha : (0 : ℝ) ≤ ((|lnT m| : ℤ) : ℝ) / 2 ^ 62 := by positivity
  have htr := truncation_le ha hab hb hgap
  have hmono := logRatio_mono (by linarith) hab (by linarith)
  rw [h.abs_logMant]
  constructor <;> linarith

/-- From one upward the computed logarithm errs downward. -/
theorem IsMantissa.lnMant_near_of_ge (h : IsMantissa m) (hm : one62 ≤ m) :
    2 ^ 62 * logMant m - 3.001 - 4.8 * ratio m ≤ lnMant m ∧
      (lnMant m : ℝ) ≤ 2 ^ 62 * logMant m + 0.04 * ratio m := by
  have ht : 0 ≤ lnT m := tdiv_nonneg (mul_nonneg (by omega) (by positivity)) h.add_pos
  have hlog : 0 ≤ logMant m := by
    refine Real.log_nonneg ((one_le_div (by positivity)).mpr ?_)
    unfold one62 at hm
    exact_mod_cast hm
  obtain ⟨h₁, h₂⟩ := h.series_near
  obtain ⟨h₃, h₄⟩ := floor_quotient (lnT m * lnP (lnT m)) 61
  rw [abs_of_nonneg ht, abs_of_nonneg hlog] at h₁ h₂
  have e : ((lnT m * lnP (lnT m) : ℤ) : ℝ) / 2 ^ 61
      = 2 * ((lnT m : ℝ) / 2 ^ 62 * lnP (lnT m)) := by push_cast; ring
  rw [e] at h₃ h₄
  unfold lnMant
  constructor <;> linarith

/-- Up to one the computed logarithm errs upward. -/
theorem IsMantissa.lnMant_near_of_le (h : IsMantissa m) (hm : m ≤ one62) :
    2 ^ 62 * logMant m - 1 - 0.04 * ratio m ≤ lnMant m ∧
      (lnMant m : ℝ) ≤ 2 ^ 62 * logMant m + 2.001 + 4.8 * ratio m := by
  have ht : lnT m ≤ 0 :=
    tdiv_nonpos (mul_nonpos_of_nonpos_of_nonneg (by omega) (by positivity)) h.add_pos
  have hmpos : (0 : ℝ) < m := by linarith [h.cast_bounds.1]
  have hlog : logMant m ≤ 0 := by
    refine Real.log_nonpos (by positivity) ((div_le_one (by positivity)).mpr ?_)
    unfold one62 at hm
    exact_mod_cast hm
  obtain ⟨h₁, h₂⟩ := h.series_near
  obtain ⟨h₃, h₄⟩ := floor_quotient (lnT m * lnP (lnT m)) 61
  rw [abs_of_nonpos ht, abs_of_nonpos hlog] at h₁ h₂
  have e : ((lnT m * lnP (lnT m) : ℤ) : ℝ) / 2 ^ 61
      = -(2 * (((-lnT m : ℤ) : ℝ) / 2 ^ 62 * lnP (lnT m))) := by push_cast; ring
  rw [e] at h₃ h₄
  unfold lnMant
  constructor <;> linarith

/-- The error of a mantissa's logarithm, on either side of one. -/
theorem IsMantissa.abs_lnMant_sub_le (h : IsMantissa m) :
    |(lnMant m : ℝ) - 2 ^ 62 * logMant m| ≤ 3.83 := by
  obtain ⟨hr₀, hr₁⟩ := h.ratio_bounds
  rcases le_total one62 m with hm | hm
  · obtain ⟨h₁, h₂⟩ := h.lnMant_near_of_ge hm
    exact abs_le.mpr ⟨by linarith, by linarith⟩
  · obtain ⟨h₁, h₂⟩ := h.lnMant_near_of_le hm
    exact abs_le.mpr ⟨by linarith, by linarith⟩

theorem IsMantissa.logMant_le (h : IsMantissa m) : logMant m ≤ 0.4143 := by
  obtain ⟨hge, hlt⟩ := h.cast_bounds
  have hpos : (0 : ℝ) < (m : ℝ) / 2 ^ 62 := by
    have : (0 : ℝ) < m := by linarith
    positivity
  refine (Real.log_le_sub_one_of_pos hpos).trans ?_
  rw [sub_le_iff_le_add, div_le_iff₀ (by positivity)]
  norm_num
  linarith

end Mantissa

/-! ### The logarithm -/

/-- `LN2_62` exceeds `2^62 · ln 2` by less than 0.06. -/
theorem ln2_62_near : (0 : ℝ) ≤ ln2_62 - 2 ^ 62 * Real.log 2 ∧
    (ln2_62 : ℝ) - 2 ^ 62 * Real.log 2 ≤ 0.06 := by
  obtain ⟨h₁, h₂⟩ := log_two_bounds
  unfold ln2_62
  push_cast
  constructor <;> linarith

/-- `-ln x`, the value `ln_inner` approximates. -/
noncomputable def negLog (S : ℕ) (x : ℤ) : ℝ := -Real.log ((x : ℝ) / 2 ^ S)

/-- The real power of two words at scale `S`, the value `pow` approximates. -/
noncomputable def truePow (S : ℕ) (b y : ℤ) : ℝ := ((b : ℝ) / 2 ^ S) ^ ((y : ℝ) / 2 ^ S)

section Log

variable {S : ℕ} {x : ℤ}

theorem negLog_nonneg (h₀ : 0 < x) (h₁ : x ≤ 2 ^ S) : 0 ≤ negLog S x := by
  have hx : (0 : ℝ) < x := by exact_mod_cast h₀
  have hx₁ : (x : ℝ) ≤ 2 ^ S := by exact_mod_cast h₁
  exact neg_nonneg.mpr (Real.log_nonpos (by positivity) ((div_le_one (by positivity)).mpr hx₁))

/-- `-ln x = k·ln 2 - ln m`. -/
theorem negLog_eq (hS : S ≤ 60) (h₀ : 0 < x) :
    negLog S x = lnShift S x * Real.log 2 - logMant (mantissa S x) := by
  have hx : (0 : ℝ) < x := by exact_mod_cast h₀
  have e : ((mantissa S x : ℤ) : ℝ) / 2 ^ 62 = (x : ℝ) / 2 ^ S * 2 ^ lnShift S x := by
    have hp : (2 : ℝ) ^ (62 - S) * 2 ^ S = 2 ^ 62 := pow_sub_mul_pow 2 (by omega)
    unfold mantissa
    push_cast
    rw [← hp]
    field_simp
  rw [logMant, e, Real.log_mul (by positivity) (by positivity), Real.log_pow, negLog]
  ring

/-- The error splits into `k` roundings of `ln 2` and the mantissa's error. -/
theorem lnVal_sub_eq (hS : S ≤ 60) (h₀ : 0 < x) :
    (lnVal S x : ℝ) - 2 ^ 62 * negLog S x
      = lnShift S x * (ln2_62 - 2 ^ 62 * Real.log 2)
        - (lnMant (mantissa S x) - 2 ^ 62 * logMant (mantissa S x)) := by
  rw [negLog_eq hS h₀, lnVal]
  push_cast
  ring

/-- The error by doublings: the mantissa costs at most four units, and each
rounding of `ln 2` far less than half a unit. -/
theorem abs_lnVal_sub_le_shift (hS : S ≤ 60) (h₀ : 0 < x) (h₁ : x ≤ 2 ^ S) :
    |(lnVal S x : ℝ) - 2 ^ 62 * negLog S x| ≤ 4 + (lnShift S x : ℝ) / 2 := by
  have hm := abs_le.mp (mantissa_isMantissa hS h₀ h₁).abs_lnMant_sub_le
  obtain ⟨hd₀, hd₁⟩ := ln2_62_near
  have hk : (0 : ℝ) ≤ lnShift S x := Nat.cast_nonneg _
  have hk₀ := mul_nonneg hk hd₀
  have hk₁ := mul_le_mul_of_nonneg_left hd₁ hk
  rw [lnVal_sub_eq hS h₀]
  exact abs_le.mpr ⟨by linarith, by linarith⟩

/-- **`ln_inner` meets its stated error at the working scale**: four units plus
half a unit for each doubling. -/
theorem lnInner_error (h₀ : 0 < x) (h₁ : x ≤ 2 ^ 52) :
    ∃ m k l : ℤ, (∀ P, LnRun (Build.kernel P) x m k l) ∧
      |(l : ℝ) - 2 ^ 62 * -Real.log ((x : ℝ) / 2 ^ 52)| ≤ 4 + (k : ℝ) / 2 := by
  refine ⟨mantissa 52 x, lnShift 52 x, lnVal 52 x, ?_, ?_⟩
  · intro P
    exact lnRun (Build.kernel P) h₀ h₁
  · exact abs_lnVal_sub_le_shift (by norm_num) h₀ h₁

/-- The smallest input, fifty-two doublings away from its mantissa. -/
theorem lnInner_error_one :
    ∃ m k l : ℤ, (∀ P, LnRun (Build.kernel P) 1 m k l) ∧
      |(l : ℝ) - 2 ^ 62 * -Real.log (((1 : ℤ) : ℝ) / 2 ^ 52)| ≤ 4 + (k : ℝ) / 2 :=
  lnInner_error one_pos (by norm_num)

/-- Each doubling is worth at least `0.27` of the result. -/
theorem shift_le_negLog (hS : S ≤ 60) (h₀ : 0 < x) (h₁ : x ≤ 2 ^ S) (hk : 0 < lnShift S x) :
    0.27 * (lnShift S x : ℝ) ≤ negLog S x := by
  have hk₁ : (1 : ℝ) ≤ lnShift S x := by exact_mod_cast hk
  have hle := (mantissa_isMantissa hS h₀ h₁).logMant_le
  have := mul_le_mul_of_nonneg_left log_two_bounds.1.le (zero_le_one.trans hk₁)
  rw [negLog_eq hS h₀]
  linarith

/-- **Accuracy of `ln_inner`**: the error is at most two units plus seven units
for each unit of `-ln x`. -/
theorem abs_lnVal_sub_le (hS : S ≤ 60) (h₀ : 0 < x) (h₁ : x ≤ 2 ^ S) :
    |(lnVal S x : ℝ) - 2 ^ 62 * negLog S x| ≤ 2.01 + 7 * negLog S x := by
  have hm := mantissa_isMantissa hS h₀ h₁
  obtain ⟨hr₀, hr₁⟩ := hm.ratio_bounds
  obtain ⟨hd₀, hd₁⟩ := ln2_62_near
  have hL := negLog_nonneg h₀ h₁
  have hlog := negLog_eq hS h₀
  rw [lnVal_sub_eq hS h₀]
  rcases Nat.eq_zero_or_pos (lnShift S x) with hk | hk
  · -- `k = 0`: the mantissa is the input, and its logarithm the result
    obtain ⟨h₂, h₃⟩ := hm.lnMant_near_of_le (mantissa_le_one hS h₀ h₁ hk)
    have hratio := hm.two_mul_ratio_le
    rw [hk, Nat.cast_zero, zero_mul, zero_sub] at hlog
    rw [← abs_neg, ← hlog, abs_of_nonneg hL] at hratio
    rw [hk, Nat.cast_zero, zero_mul, zero_sub, abs_neg]
    exact abs_le.mpr ⟨by linarith, by linarith⟩
  · -- `k ≥ 1`: the result is at least `0.27·k`, and absorbs the mantissa's error
    have hk₁ : (1 : ℝ) ≤ lnShift S x := by exact_mod_cast hk
    have hlarge := shift_le_negLog hS h₀ h₁ hk
    have hk₂ := mul_le_mul_of_nonneg_left hd₁ (zero_le_one.trans hk₁)
    have hk₃ := mul_nonneg (zero_le_one.trans hk₁) hd₀
    obtain ⟨hmant₀, hmant₁⟩ := abs_le.mp hm.abs_lnMant_sub_le
    exact abs_le.mpr ⟨by linarith, by linarith⟩

end Log

end WeightedMath
