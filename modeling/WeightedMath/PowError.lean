/-
WeightedMath/PowError.lean

How far the power kernel is from the real power.

With `L = -ln base` and `z = y·L` the pipeline forms an argument within
`200 + 7·z` units of `2^62·z`.  The error that grows with `z` is paid for by
the exponential, which shrinks with it: `z·exp(-z) ≤ 1`.  So the pipeline ends
within 213 units of 62 bits of the real power (`abs_powVal_sub_le`), for every
base, every exponent up to 99 and at every scale.  Both pads, 512 units at 62
bits and two ulps at scale 52, are larger than that.
-/
import WeightedMath.Pow

namespace WeightedMath

open Machine Horner LogExp

section Accuracy

variable {S : ℕ} {b y : ℤ}

theorem PowDomain.ratio_pos (h : PowDomain S b y) : (0 : ℝ) < (b : ℝ) / 2 ^ S :=
  div_pos (by exact_mod_cast h.base_pos) (by positivity)

theorem PowDomain.ratio_le_one (h : PowDomain S b y) : (b : ℝ) / 2 ^ S ≤ 1 := by
  rw [div_le_one (by positivity)]
  exact_mod_cast h.base_le

theorem PowDomain.quotient_bounds (h : PowDomain S b y) :
    (0 : ℝ) < (y : ℝ) / 2 ^ S ∧ (y : ℝ) / 2 ^ S ≤ 99 := by
  refine ⟨div_pos (by exact_mod_cast h.exponent_pos) (by positivity), ?_⟩
  rw [div_le_iff₀ (by positivity)]
  exact_mod_cast h.exponent_le

/-- The power as the exponential of a nonpositive argument. -/
theorem PowDomain.truePow_eq (h : PowDomain S b y) :
    truePow S b y = Real.exp (-((y : ℝ) / 2 ^ S * negLog S b)) := by
  rw [truePow, Real.rpow_def_of_pos h.ratio_pos, negLog]
  ring_nf

theorem PowDomain.truePow_pos (h : PowDomain S b y) : 0 < truePow S b y :=
  Real.rpow_pos_of_pos h.ratio_pos _

theorem PowDomain.truePow_le_one (h : PowDomain S b y) : truePow S b y ≤ 1 :=
  Real.rpow_le_one h.ratio_pos.le h.ratio_le_one h.quotient_bounds.1.le

/-- The argument the pipeline forms: two units of `ln`, 99 times, a relative
error of seven units, and one unit for the floor of the product. -/
theorem PowDomain.abs_argVal_sub_le (hS : S ≤ 60) (h : PowDomain S b y) :
    |(argVal S b y : ℝ) - 2 ^ 62 * ((y : ℝ) / 2 ^ S * negLog S b)|
      ≤ 200 + 7 * ((y : ℝ) / 2 ^ S * negLog S b) := by
  obtain ⟨hY₀, hY₁⟩ := h.quotient_bounds
  obtain ⟨hlo, hhi⟩ := abs_le.mp (abs_lnVal_sub_le hS h.base_pos h.base_le)
  obtain ⟨hf₁, hf₂⟩ := floor_quotient (y * lnVal S b) S
  have e : ((y * lnVal S b : ℤ) : ℝ) / 2 ^ S = (y : ℝ) / 2 ^ S * lnVal S b := by push_cast; ring
  rw [e] at hf₁ hf₂
  have hup := mul_le_mul_of_nonneg_left hhi hY₀.le
  have hdn := mul_le_mul_of_nonneg_left hlo hY₀.le
  unfold argVal
  generalize (y : ℝ) / 2 ^ S = Y at *
  exact abs_le.mpr ⟨by linarith, by linarith⟩

/-- **Accuracy of the pipeline**: 213 units of 62 bits. -/
theorem PowDomain.abs_powVal_sub_le (hS : S ≤ 60) (h : PowDomain S b y) :
    |(powVal S b y : ℝ) - 2 ^ 62 * truePow S b y| ≤ 213 := by
  have hz : 0 ≤ (y : ℝ) / 2 ^ S * negLog S b :=
    mul_nonneg h.quotient_bounds.1.le (negLog_nonneg h.base_pos h.base_le)
  obtain ⟨hlo, hhi⟩ := abs_le.mp (h.abs_argVal_sub_le hS)
  obtain ⟨he₁, he₂⟩ := abs_le.mp (abs_expVal_sub_le (h.argVal_nonneg hS))
  have ha₀ : (0 : ℝ) ≤ argVal S b y := by exact_mod_cast h.argVal_nonneg hS
  have ha₁ : (argVal S b y : ℝ) ≤ 2 ^ 75 := by exact_mod_cast (h.argVal_lt hS).le
  rw [h.truePow_eq]
  unfold powVal
  generalize (y : ℝ) / 2 ^ S * negLog S b = z at *
  generalize argVal S b y = a at *
  have hfall := exp_neg_sub_le ((a : ℝ) / 2 ^ 62) z
  have hrise := exp_neg_sub_le z ((a : ℝ) / 2 ^ 62)
  have hmul_z := mul_exp_neg_le_one z
  have hmul_a := mul_exp_neg_le_one ((a : ℝ) / 2 ^ 62)
  have hE_z : Real.exp (-z) ≤ 1 := Real.exp_le_one_iff.mpr (by linarith)
  have hE_a : Real.exp (-((a : ℝ) / 2 ^ 62)) ≤ 1 :=
    Real.exp_le_one_iff.mpr (neg_nonpos.mpr (by positivity))
  have hp_z := Real.exp_pos (-z)
  have hp_a := Real.exp_pos (-((a : ℝ) / 2 ^ 62))
  -- an argument below `2^75` puts `z` within `2^-40` of it
  have hza : z ≤ (a : ℝ) / 2 ^ 62 + 0.001 := by
    rw [← sub_le_iff_le_add, le_div_iff₀ (by positivity)]
    linarith
  have hrise' : Real.exp (-z) * ((a : ℝ) - 2 ^ 62 * z) ≤ Real.exp (-z) * (200 + 7 * z) :=
    mul_le_mul_of_nonneg_left hhi hp_z.le
  have hfall' : Real.exp (-((a : ℝ) / 2 ^ 62)) * (2 ^ 62 * z - a)
      ≤ Real.exp (-((a : ℝ) / 2 ^ 62)) * (200 + 7 * ((a : ℝ) / 2 ^ 62 + 0.001)) :=
    mul_le_mul_of_nonneg_left (by linarith) hp_a.le
  generalize Real.exp (-z) = E at *
  generalize Real.exp (-((a : ℝ) / 2 ^ 62)) = F at *
  exact abs_le.mpr ⟨by linarith, by linarith⟩

/-- Rounding to scale `S` loses half an ulp. -/
theorem abs_nearest_sub_le (hS : S ≤ 60) (v : ℤ) :
    |(nearest S v : ℝ) - v / 2 ^ (62 - S)| ≤ 1 / 2 := by
  obtain ⟨h₁, h₂⟩ := floor_quotient (v + 2 ^ (62 - S - 1)) (62 - S)
  have e : (((v + 2 ^ (62 - S - 1) : ℤ)) : ℝ) / 2 ^ (62 - S) = v / 2 ^ (62 - S) + 1 / 2 := by
    have hhalf : (2 : ℝ) * 2 ^ (62 - S - 1) = 2 ^ (62 - S) := mul_pow_sub_one (by omega) 2
    push_cast
    rw [← hhalf]
    field_simp
  rw [e] at h₁ h₂
  unfold nearest
  exact abs_le.mpr ⟨by linarith, by linarith⟩

/-- **Accuracy of `pow`** in ulps at scale `S`: half an ulp for the rounding,
and the 213 units of the pipeline. -/
theorem PowDomain.abs_powOut_sub_le (hS : S ≤ 60) (h : PowDomain S b y) :
    |(powOut S b y : ℝ) - 2 ^ S * truePow S b y| ≤ 1 / 2 + 213 / 2 ^ (62 - S) := by
  obtain ⟨h₁, h₂⟩ := abs_le.mp (abs_nearest_sub_le hS (powVal S b y))
  obtain ⟨h₃, h₄⟩ := abs_le.mp (h.abs_powVal_sub_le hS)
  have hpos : (0 : ℝ) < 2 ^ (62 - S) := by positivity
  have e : (powVal S b y : ℝ) / 2 ^ (62 - S) - 2 ^ S * truePow S b y
      = ((powVal S b y : ℝ) - 2 ^ 62 * truePow S b y) / 2 ^ (62 - S) := by
    have hsplit : (2 : ℝ) ^ S * 2 ^ (62 - S) = 2 ^ 62 := pow_mul_pow_sub 2 (by omega)
    rw [← hsplit]
    field_simp
  have h₅ := div_le_div_of_nonneg_right h₃ hpos.le
  have h₆ := div_le_div_of_nonneg_right h₄ hpos.le
  rw [← e] at h₅ h₆
  rw [neg_div] at h₅
  unfold powOut
  exact abs_le.mpr ⟨by linarith, by linarith⟩

end Accuracy

/-! ### The bracket -/

/-- At scale 52 the unpadded power is within three quarters of an ulp. -/
theorem PowDomain.abs_powOut_kernel {b y : ℤ} (h : PowDomain 52 b y) :
    |(powOut 52 b y : ℝ) - 2 ^ 52 * truePow 52 b y| ≤ 3 / 4 :=
  (h.abs_powOut_sub_le (by norm_num)).trans (by norm_num)

/-- **`pow_up` and `pow_down` bracket the true power.**  With
`T = 2^52 · base^exponent` in real numbers: `pow_down ≤ T ≤ pow_up`, neither
more than four ulps from `T` rounded to its own side, both on the unit
interval, and `pow` itself within one ulp.  In every profile. -/
theorem pow_bracket (P : Profile) (base exponent : Fixed)
    (h : PowDomain 52 base.repr exponent.repr) :
    ∃ r d u : ℤ,
      pow (Build.kernel P) base exponent = .ok ⟨r⟩ ∧
      powDown (Build.kernel P) base exponent = .ok ⟨d⟩ ∧
      powUp (Build.kernel P) base exponent = .ok ⟨u⟩ ∧
      (d : ℝ) ≤ 2 ^ 52 * truePow 52 base.repr exponent.repr ∧
      2 ^ 52 * truePow 52 base.repr exponent.repr ≤ u ∧
      ⌊2 ^ 52 * truePow 52 base.repr exponent.repr⌋ - d ≤ 4 ∧
      u - ⌈2 ^ 52 * truePow 52 base.repr exponent.repr⌉ ≤ 4 ∧
      0 ≤ d ∧ 1 ≤ u ∧ u ≤ (Build.kernel P).one.repr ∧
      |(r : ℝ) - 2 ^ 52 * truePow 52 base.repr exponent.repr| ≤ 1 := by
  obtain ⟨b⟩ := base
  obtain ⟨y⟩ := exponent
  have hB : PowDomain (Build.kernel P).scale b y := h
  refine ⟨_, _, _, pow_ok _ hB, powDown_ok _ hB, powUp_ok _ hB, ?_⟩
  rw [Build.one_repr, Build.kernel_scale]
  have habs := h.abs_powOut_kernel
  obtain ⟨hlo, hhi⟩ := abs_le.mp habs
  have hT₀ : (0 : ℝ) ≤ 2 ^ 52 * truePow 52 b y := mul_nonneg (by positivity) h.truePow_pos.le
  have hT₁ : 2 ^ 52 * truePow 52 b y ≤ (2 : ℝ) ^ 52 :=
    mul_le_of_le_one_right (by positivity) h.truePow_le_one
  have hr₀ := (powOut_bounds (show 52 ≤ 60 by norm_num) b y).1
  generalize 2 ^ 52 * truePow 52 b y = T at *
  generalize powOut 52 b y = r at *
  have hfloor := Int.floor_le T
  have hceil := Int.le_ceil T
  refine ⟨?_, ?_, ?_, ?_, ?_, ?_, ?_, ?_⟩
  · push_cast
    exact max_le (by linarith) hT₀
  · push_cast
    exact le_min (by linarith) (by linarith)
  · -- `⌊T⌋ ≤ T < r + 1`, and the pad takes two
    have : ⌊T⌋ < r + 2 := by
      have : ((⌊T⌋ : ℤ) : ℝ) < ((r + 2 : ℤ) : ℝ) := by push_cast; linarith
      exact_mod_cast this
    have := le_max_left (r - 2) 0
    omega
  · have : r - 1 < ⌈T⌉ := by
      have : ((r - 1 : ℤ) : ℝ) < ((⌈T⌉ : ℤ) : ℝ) := by push_cast; linarith
      exact_mod_cast this
    have := min_le_left (r + 2) (2 ^ 52)
    omega
  · exact le_max_right _ _
  · exact le_min (by omega) (by norm_num)
  · exact min_le_right _ _
  · exact habs.trans (by norm_num)

/-- The bracket around `0.5 ^ 99`, at the largest exponent. -/
theorem pow_bracket_half :
    ∃ r d u : ℤ,
      pow (Build.kernel Profile.debug) ⟨2 ^ 51⟩ ⟨99 * 2 ^ 52⟩ = .ok ⟨r⟩ ∧
      powDown (Build.kernel Profile.debug) ⟨2 ^ 51⟩ ⟨99 * 2 ^ 52⟩ = .ok ⟨d⟩ ∧
      powUp (Build.kernel Profile.debug) ⟨2 ^ 51⟩ ⟨99 * 2 ^ 52⟩ = .ok ⟨u⟩ ∧
      (d : ℝ) ≤ 2 ^ 52 * truePow 52 (2 ^ 51) (99 * 2 ^ 52) ∧
      2 ^ 52 * truePow 52 (2 ^ 51) (99 * 2 ^ 52) ≤ u ∧
      ⌊2 ^ 52 * truePow 52 (2 ^ 51) (99 * 2 ^ 52)⌋ - d ≤ 4 ∧
      u - ⌈2 ^ 52 * truePow 52 (2 ^ 51) (99 * 2 ^ 52)⌉ ≤ 4 ∧
      0 ≤ d ∧ 1 ≤ u ∧ u ≤ (Build.kernel Profile.debug).one.repr ∧
      |(r : ℝ) - 2 ^ 52 * truePow 52 (2 ^ 51) (99 * 2 ^ 52)| ≤ 1 :=
  pow_bracket Profile.debug ⟨2 ^ 51⟩ ⟨99 * 2 ^ 52⟩
    ⟨by norm_num, by norm_num, by norm_num, by norm_num⟩

/-! ### The pad of the swap path -/

/-- **The pad is twice the pipeline error.**  For every base in `(0, 1)` and
every exponent in `(0, 99]`, in every profile, `pow_62` is within 256 units of
the real power, half of `PAD_62`; so the padded fraction never exceeds the real
`1 - base^exponent`, nor the padded power the real one. -/
theorem pad_covers_pipeline (P : Profile) {b y : ℤ} (hb₀ : 0 < b) (hb₁ : b < 2 ^ 52)
    (hy₀ : 0 < y) (hy₁ : y ≤ 99 * 2 ^ 52) :
    ∃ p c d : ℤ,
      pow62 (Build.kernel P) ⟨b⟩ ⟨y⟩ = .ok p ∧
      oneMinusPow62 (Build.kernel P) ⟨b⟩ ⟨y⟩ = .ok c ∧
      pow62Down (Build.kernel P) ⟨b⟩ ⟨y⟩ = .ok d ∧
      |(p : ℝ) - 2 ^ 62 * ((b : ℝ) / 2 ^ 52) ^ ((y : ℝ) / 2 ^ 52)| ≤ 256 ∧ pad62 = 2 * 256 ∧
      (c : ℝ) / 2 ^ 62 ≤ 1 - ((b : ℝ) / 2 ^ 52) ^ ((y : ℝ) / 2 ^ 52) ∧
      (d : ℝ) / 2 ^ 62 ≤ ((b : ℝ) / 2 ^ 52) ^ ((y : ℝ) / 2 ^ 52) := by
  have h : PowDomain (Build.kernel P).scale b y := ⟨hb₀, hb₁.le, hy₀, hy₁⟩
  have habs := h.abs_powVal_sub_le (by simp)
  have hpos := h.truePow_pos
  have hone := h.truePow_le_one
  refine ⟨_, _, _, pow62_ok _ h hb₁, oneMinusPow62_ok _ h hb₁, pow62Down_ok _ h hb₁, ?_⟩
  simp only [Build.kernel_scale, truePow] at *
  generalize ((b : ℝ) / 2 ^ 52) ^ ((y : ℝ) / 2 ^ 52) = T at *
  generalize powVal 52 b y = p at *
  obtain ⟨hlo, hhi⟩ := abs_le.mp habs
  refine ⟨habs.trans (by norm_num), rfl, ?_, ?_⟩
  · rw [div_le_iff₀ (by positivity)]
    push_cast
    exact max_le (by linarith) (mul_nonneg (by linarith) (by positivity))
  · rw [div_le_iff₀ (by positivity)]
    push_cast
    exact max_le (by linarith) (by positivity)

/-- The largest exponent, next to one. -/
theorem pad_covers_pipeline_corner :
    ∃ p c d : ℤ,
      pow62 (Build.kernel Profile.checked) ⟨2 ^ 52 - 1⟩ ⟨99 * 2 ^ 52⟩ = .ok p ∧
      oneMinusPow62 (Build.kernel Profile.checked) ⟨2 ^ 52 - 1⟩ ⟨99 * 2 ^ 52⟩ = .ok c ∧
      pow62Down (Build.kernel Profile.checked) ⟨2 ^ 52 - 1⟩ ⟨99 * 2 ^ 52⟩ = .ok d ∧
      |(p : ℝ) - 2 ^ 62 * (((2 ^ 52 - 1 : ℤ) : ℝ) / 2 ^ 52) ^ (((99 * 2 ^ 52 : ℤ) : ℝ) / 2 ^ 52)|
        ≤ 256 ∧ pad62 = 2 * 256 ∧
      (c : ℝ) / 2 ^ 62
        ≤ 1 - (((2 ^ 52 - 1 : ℤ) : ℝ) / 2 ^ 52) ^ (((99 * 2 ^ 52 : ℤ) : ℝ) / 2 ^ 52) ∧
      (d : ℝ) / 2 ^ 62
        ≤ (((2 ^ 52 - 1 : ℤ) : ℝ) / 2 ^ 52) ^ (((99 * 2 ^ 52 : ℤ) : ℝ) / 2 ^ 52) :=
  pad_covers_pipeline Profile.checked (by norm_num) (by norm_num) (by norm_num) le_rfl

end WeightedMath
