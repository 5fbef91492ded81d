/-
WeightedMath/Accuracy.lean

The trades are accurate, not just safe.

A trade hands the kernel a base and an exponent that are each off by about a
unit of `2^-52`, on the side that favours the pool, and the kernel answers
within 725 units of 62 bits, error and pad together.  What this costs the
trader follows from how a power reacts to both errors.

For a sale the hypotheses of `Overstated` hold (`ExactIn.overstated`), and the
shortfall of the payout is `balance_out` times the overshoot of the power, the
725 units, and the final floor.  Where the base rounds up to one and nothing is
paid out, one itself is the overstated base (`ExactIn.overstated_one`).

For a purchase the hypotheses of `Understated` hold (`ExactOut.understated`).
The quote is a reciprocal, so an error of the power enters divided by its
square; at 30% and the exponent 99 the loss is a third of the power, and the
reciprocal is bounded with its curvature (`inv_one_sub_le`).

Last, a caller who stays below a quarter of the linearized limit pays at most
half of `balance_in`, rounded up, and meets no panic (`precheck_suffices`).
-/
import WeightedMath.Sensitivity
import WeightedMath.ExactIn
import WeightedMath.ExactOut

namespace WeightedMath

open Machine Sensitivity

/-! ### The shortfall of a payout -/

section Payout

variable {bi wi bo wo a : ℕ}

/-- Every base of a sale is at least `2^-128`. -/
theorem ExactIn.neg_log_le (h : ExactIn bi wi bo wo a) :
    -Real.log ((bi : ℝ) / (bi + a)) ≤ 89 := by
  have hbi : (1 : ℝ) ≤ bi := by exact_mod_cast h.in_pos
  have ha : (0 : ℝ) ≤ a := Nat.cast_nonneg a
  have htotal : (bi : ℝ) + a ≤ 2 ^ 128 := by exact_mod_cast h.total_lt.le
  have hinv : ((bi : ℝ) / (bi + a))⁻¹ ≤ 2 ^ 128 := by
    rw [inv_div]
    exact (div_le_self (by positivity) hbi).trans htotal
  rw [← Real.log_inv]
  calc Real.log ((bi : ℝ) / (bi + a))⁻¹ ≤ Real.log (2 ^ 128) :=
        Real.log_le_log (by positivity) hinv
    _ = 128 * Real.log 2 := by rw [Real.log_pow]; norm_num
    _ ≤ 89 := by linarith [Real.log_two_lt_d9]

/-- The unit of the division and the pre-shift, at the kernel's scale. -/
theorem ExactIn.base_near (h : ExactIn bi wi bo wo a) :
    (ratioUpVal 52 bi (bi + a) : ℝ) / 2 ^ 52 - (bi : ℝ) / (bi + a) ≤ 1.000001 * (1 / 2 ^ 52) := by
  have hlt := ratioUp_lt (S := 52) (by norm_num) (Nat.le_add_right bi a)
    (show 0 < bi + a by have := h.in_pos; omega) h.total_lt
  rw [Nat.cast_add, mul_div_right_comm] at hlt
  generalize (bi : ℝ) / (bi + a) = r at *
  rw [sub_le_iff_le_add, div_le_iff₀ (by positivity)]
  norm_num at hlt ⊢
  linarith

/-- **A sale hands the kernel an overstated power.** -/
theorem ExactIn.overstated (h : ExactIn bi wi bo wo a) :
    Overstated (1 / 2 ^ 52) ((bi : ℝ) / (bi + a)) ((ratioUpVal 52 bi (bi + a) : ℝ) / 2 ^ 52)
      ((wi : ℝ) / wo) ((exponentDown 52 wi wo : ℝ) / 2 ^ 52) where
  unit_pos := by positivity
  unit_le := by norm_num
  base_pos := h.real_base_bounds.1
  base_le_one := h.real_base_bounds.2
  base_le := h.real_base_le (by norm_num)
  base_near := h.base_near
  exponent_nonneg := by positivity
  exponent_le := (exponentDown_near 52 wi h.weights.out_pos).1
  exponent_near := (exponentDown_near 52 wi h.weights.out_pos).2
  exponent_max := h.real_exponent_bounds.2
  log_max := h.neg_log_le

/-- Where the base rounds up to one, one is close to it. -/
theorem ExactIn.overstated_one (h : ExactIn bi wi bo wo a)
    (hbase : 2 ^ 52 ≤ ratioUpVal 52 bi (bi + a)) :
    Overstated (1 / 2 ^ 52) ((bi : ℝ) / (bi + a)) 1 ((wi : ℝ) / wo)
      ((exponentDown 52 wi wo : ℝ) / 2 ^ 52) :=
  { h.overstated with
    base_le := h.real_base_bounds.2
    base_near := by
      have hone : (1 : ℝ) ≤ (ratioUpVal 52 bi (bi + a) : ℝ) / 2 ^ 52 := by
        rw [one_le_div₀ (by positivity)]
        exact_mod_cast hbase
      linarith [h.base_near] }

/-- What the kernel and the final floor take from a payout. -/
theorem ExactIn.outVal_gt (h : ExactIn bi wi bo wo a) (hbase : ratioUpVal 52 bi (bi + a) < 2 ^ 52) :
    (bo : ℝ) * (1 - ((ratioUpVal 52 bi (bi + a) : ℝ) / 2 ^ 52)
        ^ ((exponentDown 52 wi wo : ℝ) / 2 ^ 52)) - bo * (725 / 2 ^ 62) - 1
      < outVal 52 bi wi bo wo a := by
  have hdom := h.powDomain (S := 52) (by norm_num) (by norm_num) hbase
  have herr := (abs_le.mp (hdom.abs_powVal_sub_le (by norm_num))).2
  rw [truePow, Int.cast_natCast, Int.cast_natCast] at herr
  have hfraction : (2 : ℝ) ^ 62
      - powVal 52 (ratioUpVal 52 bi (bi + a)) (exponentDown 52 wi wo) - 512
      ≤ ((outFraction 52 bi wi wo a).toNat : ℝ) := by
    have hle : 2 ^ 62 - powVal 52 (ratioUpVal 52 bi (bi + a)) (exponentDown 52 wi wo) - 512
        ≤ ((outFraction 52 bi wi wo a).toNat : ℤ) :=
      (le_max_left _ _).trans (Int.self_le_toNat _)
    exact_mod_cast hle
  have hfloor := sub_one_lt_div (bo * (outFraction 52 bi wi wo a).toNat) (2 ^ 62)
  rw [outVal, if_neg (not_le.mpr hbase)]
  generalize ((ratioUpVal 52 bi (bi + a) : ℝ) / 2 ^ 52)
    ^ ((exponentDown 52 wi wo : ℝ) / 2 ^ 52) = p at *
  generalize (outFraction 52 bi wi wo a).toNat = n at *
  have hn : 1 - p - 725 / 2 ^ 62 ≤ (n : ℝ) / 2 ^ 62 := by
    rw [le_div_iff₀ (by positivity)]
    linarith
  have hscaled := mul_le_mul_of_nonneg_left hn (Nat.cast_nonneg (α := ℝ) bo)
  push_cast at hfloor ⊢
  rw [mul_div_assoc] at hfloor
  linarith

/-- **The payout is accurate.**  On the envelope the call returns, and falls
short of the real payout by at most twice the first-order effect of one ulp of
base and of exponent, four ulps of the reserve, and one unit.  In every
profile, the early return and the clamp included. -/
theorem payout_accurate (P : Profile) (hbo : bo < 2 ^ 128) (h : ExactIn bi wi bo wo a) {r y : ℝ}
    (hr : r = (bi : ℝ) / (bi + a)) (hy : y = (wi : ℝ) / wo) :
    ∃ out, calcOutGivenIn (Build.kernel P) bi wi bo wo a = .ok out ∧
      bo * (1 - r ^ y) - out
        ≤ 2 * (1 / 2 ^ 52) * bo * (y * r ^ (y - 1) + r ^ y * |Real.log r|)
          + 4 * (1 / 2 ^ 52) * bo + 1 := by
  subst hr hy
  refine ⟨_, calcOutGivenIn_ok _ hbo h, ?_⟩
  have hboR : (0 : ℝ) ≤ bo := Nat.cast_nonneg bo
  rw [Build.kernel_scale, abs_of_nonpos (neg_nonneg.mp h.overstated.log_nonneg)]
  by_cases hbase : 2 ^ 52 ≤ ratioUpVal 52 bi (bi + a)
  · -- nothing is paid out: the overshoot of one
    have hgap := mul_le_mul_of_nonneg_left (h.overstated_one hbase).gap_le hboR
    rw [Real.one_rpow] at hgap
    rw [outVal, if_pos hbase, Nat.cast_zero]
    generalize ((bi : ℝ) / (bi + a)) ^ ((wi : ℝ) / wo) = p at *
    linarith
  · have hout := h.outVal_gt (not_le.mp hbase)
    have hgap := mul_le_mul_of_nonneg_left h.overstated.gap_le hboR
    generalize ((bi : ℝ) / (bi + a)) ^ ((wi : ℝ) / wo) = p at *
    generalize ((ratioUpVal 52 bi (bi + a) : ℝ) / 2 ^ 52)
      ^ ((exponentDown 52 wi wo : ℝ) / 2 ^ 52) = q at *
    linarith

/-- A reserve of one unit against `2^127 - 1`: the base is far below an ulp, and
the exponent on the steep side. -/
theorem payout_accurate_tiny :
    ∃ out, calcOutGivenIn (Build.kernel Profile.debug) 1 1 (10 ^ 38) 2 (2 ^ 127 - 1) = .ok out ∧
      ((10 ^ 38 : ℕ) : ℝ) * (1 - (1 / 2 ^ 127 : ℝ) ^ (1 / 2 : ℝ)) - out
        ≤ 2 * (1 / 2 ^ 52) * ((10 ^ 38 : ℕ) : ℝ)
            * (1 / 2 * (1 / 2 ^ 127 : ℝ) ^ (1 / 2 - 1 : ℝ)
              + (1 / 2 ^ 127 : ℝ) ^ (1 / 2 : ℝ) * |Real.log (1 / 2 ^ 127)|)
          + 4 * (1 / 2 ^ 52) * ((10 ^ 38 : ℕ) : ℝ) + 1 :=
  payout_accurate Profile.debug (by norm_num)
    ⟨by norm_num, by norm_num, by norm_num, by norm_num, by norm_num, by norm_num, by norm_num,
      by norm_num, by norm_num⟩ (by norm_num) (by norm_num)

end Payout

/-! ### The overcharge of a payment -/

/-- A reciprocal with its curvature, for losses up to three eighths. -/
theorem inv_one_sub_le {w : ℝ} (h₀ : 0 ≤ w) (h : w ≤ 0.375) : (1 - w)⁻¹ ≤ 1 + 1.6 * w := by
  rw [inv_le_iff_one_le_mul₀ (by linarith)]
  have := mul_nonneg h₀ (sub_nonneg.mpr h)
  linarith

section Payment

variable {bi wi bo wo o : ℕ}

theorem ExactOut.base_near (h : ExactOut bi wi bo wo o) (hbo : bo < 2 ^ 128) :
    ((bo : ℝ) - o) / bo - (ratioDownVal 52 (bo - o) bo : ℝ) / 2 ^ 52
      ≤ 1.000001 * (1 / 2 ^ 52) := by
  have hgt := ratioDown_gt (S := 52) (by norm_num) (Nat.sub_le bo o) h.out_pos hbo
  rw [Nat.cast_sub h.amount_lt.le, mul_div_right_comm] at hgt
  generalize ((bo : ℝ) - o) / bo = r at *
  rw [sub_le_comm, le_div_iff₀ (by positivity)]
  norm_num at hgt ⊢
  linarith

/-- **A purchase hands the kernel an understated power.** -/
theorem ExactOut.understated (h : ExactOut bi wi bo wo o) (hbo : bo < 2 ^ 128) :
    Understated (1 / 2 ^ 52) (((bo : ℝ) - o) / bo) ((ratioDownVal 52 (bo - o) bo : ℝ) / 2 ^ 52)
      ((wo : ℝ) / wi) ((exponentUp 52 wi wo : ℝ) / 2 ^ 52) where
  unit_pos := by positivity
  unit_le := by norm_num
  base_ge := h.real_base_bounds.1
  base_le_one := h.real_base_bounds.2
  le_base := h.le_real_base
  base_near := h.base_near hbo
  exponent_ge := h.real_exponent_bounds.1
  le_exponent := (exponentUp_near 52 wo h.weights.in_pos).1
  exponent_near := (exponentUp_near 52 wo h.weights.in_pos).2

/-- The padded power is the real one, less its first-order share and the 725
units of the kernel. -/
theorem ExactOut.paddedPower_ge (h : ExactOut bi wi bo wo o) (hbo : bo < 2 ^ 128) {r y : ℝ}
    (hr : r = ((bo : ℝ) - o) / bo) (hy : y = (wo : ℝ) / wi) :
    r ^ y * (1 - 1.001 * (1 / 2 ^ 52) * (y / r + -Real.log r)) - 725 / 2 ^ 62
      ≤ (paddedPower 52 wi bo wo o : ℝ) / 2 ^ 62 := by
  subst hr hy
  have hle := (h.understated hbo).le
  have hdom := h.powDomain (S := 52) (by norm_num) (by norm_num) hbo
  have herr := (abs_le.mp (hdom.abs_powVal_sub_le (by norm_num))).1
  rw [truePow, Int.cast_natCast, Int.cast_natCast] at herr
  have hpadded : (powVal 52 (ratioDownVal 52 (bo - o) bo) (exponentUp 52 wi wo) : ℝ) - 512
      ≤ paddedPower 52 wi bo wo o := by
    have : powVal 52 (ratioDownVal 52 (bo - o) bo) (exponentUp 52 wi wo) - 512
        ≤ (paddedPower 52 wi bo wo o : ℤ) := by
      rw [paddedPower_cast]
      exact le_max_left _ _
    exact_mod_cast this
  refine (sub_le_sub_right hle _).trans ?_
  rw [le_div_iff₀ (by positivity)]
  linarith

/-- First-order sensitivities stay below 150. -/
theorem ExactOut.sensitivity_bounds (h : ExactOut bi wi bo wo o) {r y : ℝ}
    (hr : r = ((bo : ℝ) - o) / bo) (hy : y = (wo : ℝ) / wi) :
    0 ≤ -Real.log r ∧ 0 ≤ y / r + -Real.log r ∧ y / r + -Real.log r ≤ 150 := by
  subst hr hy
  obtain ⟨hr₀, hr₁⟩ := h.real_base_bounds
  obtain ⟨hy₀, hy₁⟩ := h.real_exponent_bounds
  generalize ((bo : ℝ) - o) / bo = r at *
  generalize (wo : ℝ) / wi = y at *
  have hpos : 0 < r := by linarith
  have hlog₀ : 0 ≤ -Real.log r := neg_nonneg.mpr (Real.log_nonpos hpos.le hr₁)
  have hlog₁ : -Real.log r ≤ 1 := by
    have := Real.one_sub_inv_le_log_of_pos hpos
    have : r⁻¹ ≤ 2 := by
      rw [inv_le_comm₀ hpos (by norm_num)]
      linarith
    linarith
  have hquot : y / r ≤ 149 := by
    rw [div_le_iff₀ hpos]
    linarith
  exact ⟨hlog₀, add_nonneg (div_nonneg (by linarith) hpos.le) hlog₀, by linarith⟩

/-- The smallest power of the envelope: 70% at the exponent 99. -/
theorem ExactOut.real_power_bounds (h : ExactOut bi wi bo wo o) {r y : ℝ}
    (hr : r = ((bo : ℝ) - o) / bo) (hy : y = (wo : ℝ) / wi) :
    (0.7 : ℝ) ^ 99 ≤ r ^ y ∧ r ^ y ≤ 1 := by
  subst hr hy
  obtain ⟨hr₀, hr₁⟩ := h.real_base_bounds
  obtain ⟨hy₀, hy₁⟩ := h.real_exponent_bounds
  generalize ((bo : ℝ) - o) / bo = r at *
  generalize (wo : ℝ) / wi = y at *
  have hpos : 0 < r := by linarith
  refine ⟨?_, Real.rpow_le_one hpos.le hr₁ (by linarith)⟩
  calc (0.7 : ℝ) ^ 99 ≤ r ^ 99 := pow_le_pow_left₀ (by norm_num) hr₀ 99
    _ = r ^ (99 : ℝ) := by rw [← Real.rpow_natCast]; norm_num
    _ ≤ r ^ y := Real.rpow_le_rpow_of_exponent_ge hpos hr₁ hy₁

/-- The reciprocal of the padded power, through the relative loss `w`. -/
theorem ExactOut.inv_paddedPower_le_mul (h : ExactOut bi wi bo wo o) (hbo : bo < 2 ^ 128)
    {r y p w : ℝ} (hr : r = ((bo : ℝ) - o) / bo) (hy : y = (wo : ℝ) / wi) (hp : p = r ^ y)
    (hw : w = 1.001 * (1 / 2 ^ 52) * (y / r + -Real.log r) + 725 / 2 ^ 62 * p⁻¹) (hw₁ : w < 1) :
    ((paddedPower 52 wi bo wo o : ℝ) / 2 ^ 62)⁻¹ ≤ p⁻¹ * (1 - w)⁻¹ := by
  have hge := h.paddedPower_ge hbo hr hy
  have hp₀ := (h.real_power_bounds hr hy).1
  rw [← hp] at hge hp₀
  have hpos : 0 < p := lt_of_lt_of_le (by norm_num) hp₀
  have hloss : p * (1 - w) ≤ (paddedPower 52 wi bo wo o : ℝ) / 2 ^ 62 := by
    refine le_trans (le_of_eq ?_) hge
    generalize y / r + -Real.log r = U at *
    rw [hw]
    field_simp
    ring
  calc ((paddedPower 52 wi bo wo o : ℝ) / 2 ^ 62)⁻¹ ≤ (p * (1 - w))⁻¹ :=
        inv_anti₀ (mul_pos hpos (by linarith)) hloss
    _ = p⁻¹ * (1 - w)⁻¹ := mul_inv _ _

/-- **The reciprocal of the padded power.**  The first-order share keeps its
factor, the pad is divided by the square of the power. -/
theorem ExactOut.inv_paddedPower_le (h : ExactOut bi wi bo wo o) (hbo : bo < 2 ^ 128) {r y p : ℝ}
    (hr : r = ((bo : ℝ) - o) / bo) (hy : y = (wo : ℝ) / wi) (hp : p = r ^ y) :
    ((paddedPower 52 wi bo wo o : ℝ) / 2 ^ 62)⁻¹
      ≤ p⁻¹ + 1 / 2 ^ 52 * (1.7 * ((y / r + -Real.log r) * p⁻¹) + 1.2 * (p⁻¹ * p⁻¹)) := by
  obtain ⟨-, hU₀, hU₁⟩ := h.sensitivity_bounds hr hy
  obtain ⟨hp₀, -⟩ := h.real_power_bounds hr hy
  have hloss := fun w => h.inv_paddedPower_le_mul (w := w) hbo hr hy hp
  rw [← hp] at hp₀
  generalize y / r + -Real.log r = U at *
  have hpos : 0 < p := lt_of_lt_of_le (by norm_num) hp₀
  have hinv : 0 < p⁻¹ := inv_pos.mpr hpos
  -- the relative loss: at the far corner the pad alone is a third of the power
  obtain ⟨w, hw⟩ : ∃ w, w = 1.001 * (1 / 2 ^ 52) * U + 725 / 2 ^ 62 * p⁻¹ := ⟨_, rfl⟩
  have hw₀ : 0 ≤ w := by
    rw [hw]
    positivity
  have hpad : 725 / 2 ^ 62 * p⁻¹ ≤ 0.35 := by
    rw [← div_eq_mul_inv, div_le_iff₀ hpos]
    refine le_trans ?_ (mul_le_mul_of_nonneg_left hp₀ (by norm_num))
    norm_num
  have hw₁ : w ≤ 0.375 := by
    norm_num at hU₁ hpad hw ⊢
    linarith
  calc ((paddedPower 52 wi bo wo o : ℝ) / 2 ^ 62)⁻¹ ≤ p⁻¹ * (1 - w)⁻¹ :=
        hloss w hw (by linarith)
    _ ≤ p⁻¹ * (1 + 1.6 * w) :=
        mul_le_mul_of_nonneg_left (inv_one_sub_le hw₀ hw₁) hinv.le
    _ = p⁻¹ + 1 / 2 ^ 52 * (1.6 * 1.001 * (U * p⁻¹) + 1.6 * 725 / 1024 * (p⁻¹ * p⁻¹)) := by
        rw [hw]
        ring
    _ ≤ p⁻¹ + 1 / 2 ^ 52 * (1.7 * (U * p⁻¹) + 1.2 * (p⁻¹ * p⁻¹)) := by
        have h₁ := mul_nonneg hU₀ hinv.le
        have h₂ := mul_nonneg hinv.le hinv.le
        gcongr
        · norm_num
        · norm_num

/-- The price, by the inverted base of the kernel. -/
theorem ExactOut.price_eq (h : ExactOut bi wi bo wo o) :
    Curve.price wi wo bi bo o = bi * (((((bo : ℝ) - o) / bo) ^ ((wo : ℝ) / wi))⁻¹ - 1) := by
  have hr₀ : (0 : ℝ) ≤ ((bo : ℝ) - o) / bo := by linarith [h.real_base_bounds.1]
  rw [Curve.price, ← inv_div ((bo : ℝ) - o), Real.inv_rpow hr₀]

/-- What a payment charges beyond the price, from what the reciprocal errs. -/
theorem ExactOut.overcharge_lt (h : ExactOut bi wi bo wo o) (hbo : bo < 2 ^ 128) {q e : ℝ}
    (he : ((paddedPower 52 wi bo wo o : ℝ) / 2 ^ 62)⁻¹ ≤ q + 1 / 2 ^ 52 * e) :
    (((bi * quote 52 wi bo wo o) ⌈/⌉ 2 ^ 62 : ℕ) : ℝ) - bi * (q - 1)
      < 1 / 2 ^ 52 * (bi * e) + bi / 2 ^ 62 + 1 := by
  have hbiR : (0 : ℝ) ≤ bi := Nat.cast_nonneg bi
  have hceil := ceilDiv_lt_add_one (bi * quote 52 wi bo wo o) (Nat.two_pow_pos 62)
  have hquote := (quote_near (h.paddedPower_pos hbo)).2.le
  have hscaled := mul_le_mul_of_nonneg_left (hquote.trans
    (add_le_add_left (sub_le_sub_right he 1) _)) hbiR
  push_cast at hceil
  rw [mul_div_assoc] at hceil
  generalize (((bi * quote 52 wi bo wo o) ⌈/⌉ 2 ^ 62 : ℕ) : ℝ) = c at *
  linarith

/-- What a payment may exceed the price by, for the base `r` and the exponent
`y`: twice the first-order effect of one ulp of either, four ulps of `balance_in`
over the square of the power, and one unit. -/
noncomputable def overchargeMax (bi : ℕ) (r y : ℝ) : ℝ :=
  bi * (y / r + |Real.log r|) / r ^ y / ((2 ^ 51 : ℕ) : ℝ)
    + bi / (r ^ y * r ^ y) / ((2 ^ 50 : ℕ) : ℝ) + 1

theorem ExactOut.overchargeMax_nonneg (h : ExactOut bi wi bo wo o) :
    0 ≤ overchargeMax bi (((bo : ℝ) - o) / bo) ((wo : ℝ) / wi) := by
  have hr₀ := h.real_base_bounds.1
  have hr : 0 ≤ ((bo : ℝ) - o) / bo := by linarith
  unfold overchargeMax
  positivity

/-- The most that a purchase can charge, from its inputs alone. -/
noncomputable def paymentMax (bi wi bo wo o : ℕ) : ℝ :=
  Curve.price wi wo bi bo o + overchargeMax bi (((bo : ℝ) - o) / bo) ((wo : ℝ) / wi)

/-- **The payment is at most the price and the largest overcharge.** -/
theorem ExactOut.payment_le (h : ExactOut bi wi bo wo o) (hbo : bo < 2 ^ 128) :
    (((bi * quote 52 wi bo wo o) ⌈/⌉ 2 ^ 62 : ℕ) : ℝ) ≤ paymentMax bi wi bo wo o := by
  have hlt := h.overcharge_lt hbo (h.inv_paddedPower_le hbo rfl rfl rfl)
  obtain ⟨hlog₀, hU₀, -⟩ := h.sensitivity_bounds rfl rfl
  obtain ⟨hp₀, hp₁⟩ := h.real_power_bounds rfl rfl
  rw [paymentMax, h.price_eq, overchargeMax, abs_of_nonpos (neg_nonneg.mp hlog₀)]
  generalize (wo : ℝ) / wi / (((bo : ℝ) - o) / bo) + -Real.log (((bo : ℝ) - o) / bo) = U at *
  generalize (((bo : ℝ) - o) / bo) ^ ((wo : ℝ) / wi) = p at *
  generalize (((bi * quote 52 wi bo wo o) ⌈/⌉ 2 ^ 62 : ℕ) : ℝ) = c at *
  have hpos : 0 < p := lt_of_lt_of_le (by norm_num) hp₀
  have hbiR : (0 : ℝ) ≤ bi := Nat.cast_nonneg bi
  have hinv : 1 ≤ p⁻¹ := (one_le_inv₀ hpos).mpr hp₁
  have hfirst₀ : 0 ≤ (bi : ℝ) * (U * p⁻¹) :=
    mul_nonneg hbiR (mul_nonneg hU₀ (zero_le_one.trans hinv))
  have hsecond₀ : (bi : ℝ) ≤ bi * (p⁻¹ * p⁻¹) :=
    le_mul_of_one_le_right hbiR (one_le_mul_of_one_le_of_one_le hinv hinv)
  have hfirst : (bi : ℝ) * U / p / ((2 ^ 51 : ℕ) : ℝ) = 2 * (1 / 2 ^ 52) * (bi * (U * p⁻¹)) := by
    push_cast
    ring
  have hsecond : (bi : ℝ) / (p * p) / ((2 ^ 50 : ℕ) : ℝ)
      = 4 * (1 / 2 ^ 52) * (bi * (p⁻¹ * p⁻¹)) := by
    rw [div_eq_mul_inv (bi : ℝ), mul_inv]
    push_cast
    ring
  rw [hfirst, hsecond]
  linarith

/-- **The overcharge is bounded.**  With overflow checks on, a returned payment
exceeds the real price by at most twice the first-order effect of one ulp of
base and of exponent, four ulps of `balance_in` over the square of the power,
and one unit. -/
theorem overcharge_bounded {P : Profile} {c : ℕ} (hP : P.overflowChecks = true)
    (hbi : bi < 2 ^ 128) (hbo : bo < 2 ^ 128)
    (hc : calcInGivenOut (Build.kernel P) bi wi bo wo o = .ok c) {r y p : ℝ}
    (hr : r = ((bo : ℝ) - o) / bo) (hy : y = (wo : ℝ) / wi) (hp : p = r ^ y) :
    c - bi * (1 - p) / p
      ≤ 2 * (1 / 2 ^ 52) * bi * (y / (p * r) + |Real.log r| / p)
        + 4 * (1 / 2 ^ 52) * bi / p ^ 2 + 1 := by
  have h := calcInGivenOut_envelope hbo hc
  obtain ⟨hp₀, hp₁⟩ := h.real_power_bounds hr hy
  rw [← hp] at hp₀ hp₁
  have hpos : 0 < p := lt_of_lt_of_le (by norm_num) hp₀
  have hprice : Curve.price wi wo bi bo o = bi * (1 - p) / p := by
    rw [h.price_eq, ← hr, ← hy, ← hp]
    field_simp
  have hmax : overchargeMax bi r y = 2 * (1 / 2 ^ 52) * bi * (y / (p * r) + |Real.log r| / p)
      + 4 * (1 / 2 ^ 52) * bi / p ^ 2 + 1 := by
    rw [overchargeMax, ← hp]
    push_cast
    ring
  rw [← hprice, ← hmax]
  rcases Nat.eq_zero_or_pos o with rfl | ho
  · -- nothing asked for: nothing is paid, and neither term is negative
    rw [calcInGivenOut_zero _ hbo h] at hc
    cases hc
    have hbiR : (0 : ℝ) ≤ bi := Nat.cast_nonneg bi
    have hprice₀ : 0 ≤ Curve.price wi wo bi bo (0 : ℕ) := by
      rw [hprice]
      exact div_nonneg (mul_nonneg hbiR (by linarith)) hpos.le
    have hmax₀ := h.overchargeMax_nonneg
    rw [← hr, ← hy] at hmax₀
    simp only [Nat.cast_zero] at hprice₀ ⊢
    linarith
  · have hle := h.payment_le hbo
    rw [← calcInGivenOut_payment hP hbi hbo ho hc, paymentMax, ← hr, ← hy] at hle
    linarith

/-- Three units out of ten against ten. -/
theorem overcharge_bounded_three :
    ((5 : ℕ) : ℝ) - ((10 : ℕ) : ℝ) * (1 - 7 / 10) / (7 / 10)
      ≤ 2 * (1 / 2 ^ 52) * ((10 : ℕ) : ℝ)
          * (1 / (7 / 10 * (7 / 10)) + |Real.log (7 / 10)| / (7 / 10))
        + 4 * (1 / 2 ^ 52) * ((10 : ℕ) : ℝ) / (7 / 10) ^ 2 + 1 :=
  overcharge_bounded (P := Profile.checked) rfl (by norm_num) (by norm_num)
    (show calcInGivenOut (Build.kernel Profile.checked) 10 1 10 1 3 = .ok 5 by decide +kernel)
    (r := 7 / 10) (y := 1) (p := 7 / 10) (by norm_num) (by norm_num) (by norm_num)

/-- The padded power keeps `2^-54` below the real one. -/
theorem ExactOut.paddedPower_add_le (h : ExactOut bi wi bo wo o) (hbo : bo < 2 ^ 128)
    {r y p : ℝ}
    (hr : r = ((bo : ℝ) - o) / bo) (hy : y = (wo : ℝ) / wi) (hp : p = r ^ y) :
    (paddedPower 52 wi bo wo o : ℝ) / 2 ^ 62 + 1 / 2 ^ 54 ≤ p := by
  subst hr hy hp
  have hpow := h.truePow_le (S := 52) (by norm_num) (by norm_num) hbo
  have hdom := h.powDomain (S := 52) (by norm_num) (by norm_num) hbo
  have herr := (abs_le.mp (hdom.abs_powVal_sub_le (by norm_num))).2
  have hpos : (0 : ℤ) < paddedPower 52 wi bo wo o := by exact_mod_cast h.paddedPower_pos hbo
  have hmax : (paddedPower 52 wi bo wo o : ℤ)
      = powVal 52 (ratioDownVal 52 (bo - o) bo) (exponentUp 52 wi wo) - 512 := by
    rw [paddedPower_cast] at hpos ⊢
    exact max_eq_left (by omega)
  have hcast : (paddedPower 52 wi bo wo o : ℝ)
      = powVal 52 (ratioDownVal 52 (bo - o) bo) (exponentUp 52 wi wo) - 512 := by
    exact_mod_cast hmax
  rw [← le_sub_iff_add_le, div_le_iff₀ (by positivity), hcast]
  norm_num at hpow herr ⊢
  linarith

/-- Below one a reciprocal is at least as steep as the identity. -/
theorem inv_add_le_inv {p q d : ℝ} (hq : 0 < q) (hd : 0 ≤ d) (h : q + d ≤ p) (hp : p ≤ 1) :
    p⁻¹ + d ≤ q⁻¹ := by
  have hpos : 0 < p := by linarith
  have hone : q ≤ p⁻¹ := by
    have := (one_le_inv₀ hpos).mpr hp
    linarith
  rw [← one_div q, le_div_iff₀ hq]
  calc (p⁻¹ + d) * q = p⁻¹ * q + d * q := add_mul _ _ _
    _ ≤ p⁻¹ * q + d * p⁻¹ := by gcongr
    _ = p⁻¹ * (q + d) := by ring
    _ ≤ p⁻¹ * p := mul_le_mul_of_nonneg_left h (by positivity)
    _ = 1 := inv_mul_cancel₀ hpos.ne'

/-- The product that the payment rounds up stays `2^-54` of the reserve above the
price. -/
theorem ExactOut.price_add_le_product (h : ExactOut bi wi bo wo o) (hbo : bo < 2 ^ 128) :
    Curve.price wi wo bi bo o + bi / 2 ^ 54 ≤ bi * (quote 52 wi bo wo o / 2 ^ 62) := by
  have hpadded := h.paddedPower_pos hbo
  have hqpos : (0 : ℝ) < (paddedPower 52 wi bo wo o : ℝ) / 2 ^ 62 :=
    div_pos (by exact_mod_cast hpadded) (by positivity)
  have hinv := inv_add_le_inv hqpos (by positivity) (h.paddedPower_add_le hbo rfl rfl rfl)
    (h.real_power_bounds rfl rfl).2
  have hquote := (sub_le_sub_right hinv 1).trans (quote_near hpadded).1
  rw [h.price_eq]
  generalize (((bo : ℝ) - o) / bo) ^ ((wo : ℝ) / wi) = p at *
  calc (bi : ℝ) * (p⁻¹ - 1) + bi / 2 ^ 54 = (bi : ℝ) * (p⁻¹ + 1 / 2 ^ 54 - 1) := by ring
    _ ≤ bi * ((quote 52 wi bo wo o : ℝ) / 2 ^ 62) :=
        mul_le_mul_of_nonneg_left hquote (Nat.cast_nonneg bi)

/-- So does the payment. -/
theorem ExactOut.price_add_le (h : ExactOut bi wi bo wo o) (hbo : bo < 2 ^ 128) :
    Curve.price wi wo bi bo o + bi / 2 ^ 54
      ≤ (((bi * quote 52 wi bo wo o) ⌈/⌉ 2 ^ 62 : ℕ) : ℝ) := by
  refine (h.price_add_le_product hbo).trans ?_
  have hle := le_mul_ceilDiv (bi * quote 52 wi bo wo o) (Nat.two_pow_pos 62)
  rw [mul_comm (2 ^ 62)] at hle
  rw [← mul_div_assoc, div_le_iff₀ (by positivity)]
  exact_mod_cast hle

/-! ### The pre-check of a caller that must not panic -/

/-- Below a quarter of the linearized limit the real power is above two
thirds. -/
theorem ExactOut.real_power_gt (h : ExactOut bi wi bo wo o)
    (hquarter : o * (4 * wo) ≤ bo * wi) :
    (0.67 : ℝ) ≤ (((bo : ℝ) - o) / bo) ^ ((wo : ℝ) / wi) := by
  have hbo : (0 : ℝ) < bo := by exact_mod_cast h.out_pos
  have hwi : (0 : ℝ) < wi := by exact_mod_cast h.weights.in_pos
  have hr₀ := h.real_base_bounds.1
  have hlinear : (wo : ℝ) / wi * (1 - ((bo : ℝ) - o) / bo) ≤ 1 / 4 := by
    have hcast : (o : ℝ) * (4 * wo) ≤ bo * wi := by exact_mod_cast hquarter
    rw [one_sub_div hbo.ne', sub_sub_cancel, div_mul_div_comm, div_le_div_iff₀ (by positivity)
      (by norm_num)]
    linarith
  have hy : (0 : ℝ) ≤ (wo : ℝ) / wi := by positivity
  generalize ((bo : ℝ) - o) / bo = r at *
  generalize (wo : ℝ) / wi = y at *
  have hpos : 0 < r := by linarith
  -- `-ln r` is below `(1 - r) / r`, hence the exponent of `exp` below `1 / 2.8`
  have hlog : y * -Real.log r ≤ 0.358 := by
    have htangent : -Real.log r ≤ (1 - r) / r := by
      rw [sub_div, div_self hpos.ne', one_div]
      linarith [Real.one_sub_inv_le_log_of_pos hpos]
    calc y * -Real.log r ≤ y * ((1 - r) / r) := mul_le_mul_of_nonneg_left htangent hy
      _ = y * (1 - r) / r := by ring
      _ ≤ 0.358 := by
          rw [div_le_iff₀ hpos]
          linarith
  have hhalf : (0.82 : ℝ) ≤ Real.exp (-(y * -Real.log r / 2)) := by
    have := Real.one_sub_le_exp_neg (y * -Real.log r / 2)
    linarith
  calc (0.67 : ℝ) ≤ 0.82 ^ 2 := by norm_num
    _ ≤ Real.exp (-(y * -Real.log r / 2)) ^ 2 := pow_le_pow_left₀ (by norm_num) hhalf 2
    _ = r ^ y := by
        rw [← Real.exp_nat_mul, Real.rpow_def_of_pos hpos]
        congr 1
        push_cast
        ring

/-- A real power above two thirds leaves a padded power above two thirds. -/
theorem ExactOut.two_thirds_le_of_real (h : ExactOut bi wi bo wo o) (hbo : bo < 2 ^ 128)
    (hp : (0.67 : ℝ) ≤ (((bo : ℝ) - o) / bo) ^ ((wo : ℝ) / wi)) :
    2 * 2 ^ 62 ≤ 3 * paddedPower 52 wi bo wo o := by
  have hge := h.paddedPower_ge hbo rfl rfl
  obtain ⟨-, hU₀, hU₁⟩ := h.sensitivity_bounds rfl rfl
  generalize (((bo : ℝ) - o) / bo) ^ ((wo : ℝ) / wi) = p at *
  generalize (wo : ℝ) / wi / (((bo : ℝ) - o) / bo) + -Real.log (((bo : ℝ) - o) / bo) = U at *
  have hloss : (0.999 : ℝ) ≤ 1 - 1.001 * (1 / 2 ^ 52) * U := by
    norm_num at hU₁ ⊢
    linarith
  have hreal : (0.67 : ℝ) * 0.999 - 725 / 2 ^ 62 ≤ (paddedPower 52 wi bo wo o : ℝ) / 2 ^ 62 :=
    (sub_le_sub_right (mul_le_mul hp hloss (by norm_num) (by linarith)) _).trans hge
  have hthird : (2 * 2 ^ 62 : ℝ) ≤ 3 * paddedPower 52 wi bo wo o := by
    generalize (paddedPower 52 wi bo wo o : ℝ) = q at *
    rw [le_div_iff₀ (by positivity)] at hreal
    norm_num at hreal ⊢
    linarith
  exact_mod_cast hthird

/-- Below a quarter of the linearized limit it is. -/
theorem ExactOut.two_thirds_le_paddedPower (h : ExactOut bi wi bo wo o) (hbo : bo < 2 ^ 128)
    (hquarter : o * (4 * wo) ≤ bo * wi) : 2 * 2 ^ 62 ≤ 3 * paddedPower 52 wi bo wo o :=
  h.two_thirds_le_of_real hbo (h.real_power_gt hquarter)

/-- A quote of at most one half charges at most half of `balance_in`. -/
theorem quote_le_half {S : ℕ} (hp : 2 * 2 ^ 62 ≤ 3 * paddedPower S wi bo wo o) :
    (bi * quote S wi bo wo o) ⌈/⌉ 2 ^ 62 ≤ bi ⌈/⌉ 2 := by
  have hpos : 0 < paddedPower S wi bo wo o := by omega
  have hquote : quote S wi bo wo o ≤ 2 ^ 61 := by
    unfold quote
    generalize paddedPower S wi bo wo o = p at *
    have hle : 2 * (2 ^ 62 - p) ≤ p := by omega
    rw [ceilDiv_le_iff_le_mul hpos]
    calc (2 ^ 62 - p) * 2 ^ 62 = 2 * (2 ^ 62 - p) * 2 ^ 61 := by ring
      _ ≤ p * 2 ^ 61 := Nat.mul_le_mul_right _ hle
  have hhalf := le_mul_ceilDiv bi (show 0 < 2 by norm_num)
  rw [ceilDiv_le_iff_le_mul (Nat.two_pow_pos 62)]
  calc bi * quote S wi bo wo o ≤ 2 * (bi ⌈/⌉ 2) * 2 ^ 61 := Nat.mul_le_mul hhalf hquote
    _ = 2 ^ 62 * (bi ⌈/⌉ 2) := by ring

/-- **The documented pre-check is sufficient.**  A caller that asks for at most
the cap and at most `floor(balance_out / (4 · weight_out)) · weight_in` meets
no panic in any profile, and pays at most half of `balance_in`, rounded up. -/
theorem precheck_suffices (P : Profile) (hbi : bi < 2 ^ 128) (hbo : bo < 2 ^ 128)
    (hin : 1 ≤ bi) (hout : 1 ≤ bo) (hw : Weights wi wo)
    (ho : o ≤ min (3 * bo / 10) (bo / (4 * wo) * wi)) :
    ∃ c, calcInGivenOut (Build.kernel P) bi wi bo wo o = .ok c ∧ c ≤ bi ⌈/⌉ 2 := by
  have h : ExactOut bi wi bo wo o := ⟨hin, hout, hw, ho.trans (min_le_left _ _)⟩
  rcases Nat.eq_zero_or_pos o with rfl | hpos
  · exact ⟨0, calcInGivenOut_zero _ hbo h, Nat.zero_le _⟩
  · have hquarter : o * (4 * wo) ≤ bo * wi := by
      calc o * (4 * wo) ≤ bo / (4 * wo) * wi * (4 * wo) :=
            Nat.mul_le_mul_right _ (ho.trans (min_le_right _ _))
        _ = bo / (4 * wo) * (4 * wo) * wi := by ring
        _ ≤ bo * wi := Nat.mul_le_mul_right _ (Nat.div_mul_le_self _ _)
    have hle : (bi * quote 52 wi bo wo o) ⌈/⌉ 2 ^ 62 ≤ bi ⌈/⌉ 2 :=
      quote_le_half (h.two_thirds_le_paddedPower hbo hquarter)
    have hfit := (hle.trans (ceilDiv_le_self bi two_pos)).trans_lt hbi
    exact ⟨_, calcInGivenOut_ok P hbi hbo h hpos hfit, hle⟩

/-- A full `balance_in`, heavy weights, and an amount exactly at the limit. -/
theorem precheck_suffices_edge :
    ∃ c, calcInGivenOut (Build.kernel Profile.wrapping) (2 ^ 128 - 1) (2 ^ 60) (2 ^ 127) (2 ^ 64)
        (2 ^ 121) = .ok c ∧ c ≤ (2 ^ 128 - 1) ⌈/⌉ 2 :=
  precheck_suffices Profile.wrapping (by norm_num) (by norm_num) (by norm_num) (by norm_num)
    ⟨by norm_num, by norm_num, by norm_num, by norm_num, by norm_num, by norm_num⟩ (by norm_num)

end Payment

end WeightedMath
