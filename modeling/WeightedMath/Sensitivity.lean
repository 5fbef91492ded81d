/-
WeightedMath/Sensitivity.lean

How far a real power moves when its base and its exponent are off.

The power wanted is `r ^ y` with `r` in `(0, 1]`; the one at hand is `b ^ z`.
Upward, with `r ≤ b` and `z ≤ y`, the two errors are taken one after the other:

    b ^ z - r ^ y = (b ^ z - r ^ z) + (r ^ z - r ^ y).

The second is exact, `r ^ z = r ^ y · exp ((y - z) · -log r)`.  The first is a
tangent, at `r` where the power is concave and at `b` where it is convex.
Downward, with `b ≤ r` and `y ≤ z`, one inequality serves all exponents, since
a logarithm is below its tangent (`mul_one_sub_le_rpow`).

The last two sections put a unit `δ` on both errors.  Upward the first-order
effect is exceeded by less than its double and a unit more, also where `r`
itself is below the unit and the tangent means nothing (`Overstated.gap_le`).
Downward the base is bounded away from zero, and a thousandth covers what is
not of first order (`Understated.le`).
-/
import Mathlib

namespace Sensitivity

/-- A factor `exp t` adds at most `t` of itself. -/
theorem exp_sub_one_le (t : ℝ) : Real.exp t - 1 ≤ t * Real.exp t := by
  have h := mul_le_mul_of_nonneg_right (Real.one_sub_le_exp_neg t) (Real.exp_pos t).le
  rw [← Real.exp_add, neg_add_cancel, Real.exp_zero] at h
  linarith

theorem exp_le_inv_one_sub {t : ℝ} (h : t < 1) : Real.exp t ≤ 1 / (1 - t) := by
  rw [le_div_iff₀ (by linarith)]
  have := exp_sub_one_le t
  linarith

section Power

variable {r b y z : ℝ}

/-! ### Upward -/

/-- What a smaller exponent does to a power. -/
theorem rpow_eq_mul_exp (hr : 0 < r) (y z : ℝ) :
    r ^ z = r ^ y * Real.exp ((y - z) * -Real.log r) := by
  rw [Real.rpow_def_of_pos hr, Real.rpow_def_of_pos hr, ← Real.exp_add]
  congr 1
  ring

/-- What a larger base does to a power: at most `z` times the relative error,
in the exponent of `exp`. -/
theorem rpow_le_mul_exp (hr : 0 < r) (hb : r ≤ b) (hz : 0 ≤ z) :
    b ^ z ≤ r ^ z * Real.exp (z * ((b - r) / r)) := by
  have hb₀ : 0 < b := hr.trans_le hb
  have hlog : Real.log b ≤ Real.log r + (b - r) / r := by
    have h := Real.log_le_sub_one_of_pos (div_pos hb₀ hr)
    rw [Real.log_div hb₀.ne' hr.ne'] at h
    rw [sub_div, div_self hr.ne']
    linarith
  rw [Real.rpow_def_of_pos hb₀, Real.rpow_def_of_pos hr, ← Real.exp_add]
  apply Real.exp_le_exp.mpr
  have := mul_le_mul_of_nonneg_right hlog hz
  linarith

/-- Up to the exponent one a power is below its tangent. -/
theorem rpow_sub_le_of_le_one (hr : 0 < r) (hb : r ≤ b) (hz : 0 ≤ z) (hz₁ : z ≤ 1) :
    b ^ z - r ^ z ≤ z * r ^ (z - 1) * (b - r) := by
  have hstep : 0 ≤ (b - r) / r := div_nonneg (by linarith) hr.le
  have hbern := rpow_one_add_le_one_add_mul_self (show -1 ≤ (b - r) / r by linarith) hz hz₁
  have hsplit : b = r * (1 + (b - r) / r) := by field_simp; ring
  have hpow : b ^ z = r ^ z * (1 + (b - r) / r) ^ z := by
    conv_lhs => rw [hsplit]
    exact Real.mul_rpow hr.le (by linarith)
  have hle := mul_le_mul_of_nonneg_left hbern (Real.rpow_nonneg hr.le z)
  rw [← hpow] at hle
  rw [Real.rpow_sub_one hr.ne']
  calc b ^ z - r ^ z ≤ r ^ z * (1 + z * ((b - r) / r)) - r ^ z := sub_le_sub_right hle _
    _ = z * (r ^ z / r) * (b - r) := by ring

/-- From the exponent one on it is above it. -/
theorem rpow_sub_le_of_one_le (hr : 0 < r) (hb : r ≤ b) (hz : 1 ≤ z) :
    b ^ z - r ^ z ≤ z * b ^ (z - 1) * (b - r) := by
  have hb₀ : 0 < b := hr.trans_le hb
  have hstep : -1 ≤ (r - b) / b := by
    rw [le_div_iff₀ hb₀]
    linarith
  have hbern := one_add_mul_self_le_rpow_one_add hstep hz
  have hsplit : r = b * (1 + (r - b) / b) := by field_simp; ring
  have hpow : r ^ z = b ^ z * (1 + (r - b) / b) ^ z := by
    conv_lhs => rw [hsplit]
    exact Real.mul_rpow hb₀.le (by linarith)
  have hle := mul_le_mul_of_nonneg_left hbern (Real.rpow_nonneg hb₀.le z)
  rw [← hpow] at hle
  rw [Real.rpow_sub_one hb₀.ne']
  calc b ^ z - r ^ z ≤ b ^ z - b ^ z * (1 + z * ((r - b) / b)) := sub_le_sub_left hle _
    _ = z * (b ^ z / b) * (b - r) := by ring

/-! ### Downward -/

/-- **A base and an exponent that err downward lose at most their first-order
share**, for every exponent. -/
theorem mul_one_sub_le_rpow (hb : 0 < b) (hr : b ≤ r) (hz : 0 ≤ z) (y : ℝ) :
    r ^ y * (1 - (z * ((r - b) / b) + (z - y) * -Real.log r)) ≤ b ^ z := by
  have hr₀ : 0 < r := hb.trans_le hr
  have hlog : Real.log r - (r - b) / b ≤ Real.log b := by
    have h := Real.log_le_sub_one_of_pos (div_pos hr₀ hb)
    rw [Real.log_div hr₀.ne' hb.ne'] at h
    rw [sub_div, div_self hb.ne']
    linarith
  have hexp : Real.exp (Real.log r * y) *
      Real.exp (-(z * ((r - b) / b) + (z - y) * -Real.log r)) ≤ Real.exp (Real.log b * z) := by
    rw [← Real.exp_add]
    apply Real.exp_le_exp.mpr
    have := mul_le_mul_of_nonneg_right hlog hz
    linarith
  rw [Real.rpow_def_of_pos hr₀, Real.rpow_def_of_pos hb]
  refine le_trans (mul_le_mul_of_nonneg_left ?_ (Real.exp_pos _).le) hexp
  exact Real.one_sub_le_exp_neg _

end Power

/-! ### Both errors within a unit, upward -/

/-- `b ^ z` for `r ^ y`: the base too large by a unit `δ` and a millionth, the
exponent too small by a unit, and logarithm and exponent of moderate size. -/
structure Overstated (δ r b y z : ℝ) : Prop where
  unit_pos : 0 < δ
  unit_le : δ ≤ 1 / 2 ^ 20
  base_pos : 0 < r
  base_le_one : r ≤ 1
  base_le : r ≤ b
  base_near : b - r ≤ 1.000001 * δ
  exponent_nonneg : 0 ≤ z
  exponent_le : z ≤ y
  exponent_near : y - z ≤ δ
  exponent_max : y ≤ 99
  log_max : -Real.log r ≤ 89

section Overstated

variable {δ r b y z : ℝ}

theorem Overstated.log_nonneg (h : Overstated δ r b y z) : 0 ≤ -Real.log r :=
  neg_nonneg.mpr (Real.log_nonpos h.base_pos.le h.base_le_one)

theorem Overstated.slope_nonneg (h : Overstated δ r b y z) : 0 ≤ y * r ^ (y - 1) :=
  mul_nonneg (h.exponent_nonneg.trans h.exponent_le) (Real.rpow_nonneg h.base_pos.le _)

/-- The missing exponent is a factor close to one. -/
theorem Overstated.exp_le (h : Overstated δ r b y z) :
    Real.exp ((y - z) * -Real.log r) ≤ 1.001 := by
  have hprod : (y - z) * -Real.log r ≤ 1 / 2 ^ 20 * 89 :=
    mul_le_mul (h.exponent_near.trans h.unit_le) h.log_max h.log_nonneg (by positivity)
  have hsmall : (y - z) * -Real.log r ≤ 0.0001 := hprod.trans (by norm_num)
  refine (exp_le_inv_one_sub (by linarith)).trans ?_
  rw [div_le_iff₀ (by linarith)]
  linarith

/-- The share of the exponent. -/
theorem Overstated.exponent_share (h : Overstated δ r b y z) :
    r ^ z - r ^ y ≤ 1.001 * δ * (r ^ y * -Real.log r) := by
  have hr := Real.rpow_nonneg h.base_pos.le y
  have hL := h.log_nonneg
  have hτ : (y - z) * -Real.log r ≤ δ * -Real.log r := mul_le_mul_of_nonneg_right h.exponent_near hL
  have hexp := (exp_sub_one_le ((y - z) * -Real.log r)).trans
    (mul_le_mul hτ h.exp_le (Real.exp_pos _).le (mul_nonneg h.unit_pos.le hL))
  rw [rpow_eq_mul_exp h.base_pos y z]
  calc r ^ y * Real.exp ((y - z) * -Real.log r) - r ^ y
      = r ^ y * (Real.exp ((y - z) * -Real.log r) - 1) := by ring
    _ ≤ r ^ y * (δ * -Real.log r * 1.001) := mul_le_mul_of_nonneg_left hexp hr
    _ = 1.001 * δ * (r ^ y * -Real.log r) := by ring

/-- A derivative at the smaller exponent is hardly more than at the larger. -/
theorem Overstated.slope_le (h : Overstated δ r b y z) :
    z * r ^ (z - 1) ≤ 1.001 * (y * r ^ (y - 1)) := by
  have hpow : r ^ (z - 1) ≤ r ^ (y - 1) * 1.001 := by
    rw [rpow_eq_mul_exp h.base_pos (y - 1) (z - 1), sub_sub_sub_cancel_right]
    exact mul_le_mul_of_nonneg_left h.exp_le (Real.rpow_nonneg h.base_pos.le _)
  calc z * r ^ (z - 1) ≤ y * (r ^ (y - 1) * 1.001) :=
        mul_le_mul h.exponent_le hpow (Real.rpow_nonneg h.base_pos.le _)
          (h.exponent_nonneg.trans h.exponent_le)
    _ = 1.001 * (y * r ^ (y - 1)) := by ring

/-- A tangent at `r`, over the distance to `b`. -/
theorem Overstated.tangent_le (h : Overstated δ r b y z) :
    z * r ^ (z - 1) * (b - r) ≤ 1.0011 * δ * (y * r ^ (y - 1)) := by
  have hδ := mul_nonneg h.unit_pos.le h.slope_nonneg
  calc z * r ^ (z - 1) * (b - r) ≤ 1.001 * (y * r ^ (y - 1)) * (1.000001 * δ) :=
        mul_le_mul h.slope_le h.base_near (by linarith [h.base_le])
          (mul_nonneg (by norm_num) h.slope_nonneg)
    _ ≤ 1.0011 * δ * (y * r ^ (y - 1)) := by linarith

/-- Far above the unit the convex case is a tangent at `r` after all, up to the
factor by which the power grows on the way to `b`. -/
theorem Overstated.base_share_of_ge (h : Overstated δ r b y z) (hr : 400 * δ ≤ r) :
    b ^ z - r ^ z ≤ 1.4 * δ * (y * r ^ (y - 1)) := by
  have hslope₀ := mul_nonneg h.unit_pos.le h.slope_nonneg
  have hstep : 0 ≤ (b - r) / r := div_nonneg (by linarith [h.base_le]) h.base_pos.le
  have hstep' : (b - r) / r ≤ 0.00251 := by
    rw [div_le_iff₀ h.base_pos]
    linarith [h.base_near, h.base_pos]
  have ht : z * ((b - r) / r) ≤ 0.25 :=
    (mul_le_mul (h.exponent_le.trans h.exponent_max) hstep' hstep (by norm_num)).trans
      (by norm_num)
  have hexp : Real.exp (z * ((b - r) / r)) ≤ 4 / 3 := by
    refine (exp_le_inv_one_sub (by linarith)).trans ?_
    rw [div_le_iff₀ (by linarith)]
    linarith
  have htan : r ^ z * (z * ((b - r) / r)) = z * r ^ (z - 1) * (b - r) := by
    rw [Real.rpow_sub_one h.base_pos.ne']
    ring
  have htan₀ : 0 ≤ r ^ z * (z * ((b - r) / r)) :=
    mul_nonneg (Real.rpow_nonneg h.base_pos.le z) (mul_nonneg h.exponent_nonneg hstep)
  calc b ^ z - r ^ z ≤ r ^ z * Real.exp (z * ((b - r) / r)) - r ^ z :=
        sub_le_sub_right (rpow_le_mul_exp h.base_pos h.base_le h.exponent_nonneg) _
    _ = r ^ z * (Real.exp (z * ((b - r) / r)) - 1) := by ring
    _ ≤ r ^ z * (z * ((b - r) / r) * Real.exp (z * ((b - r) / r))) :=
        mul_le_mul_of_nonneg_left (exp_sub_one_le _) (Real.rpow_nonneg h.base_pos.le z)
    _ = r ^ z * (z * ((b - r) / r)) * Real.exp (z * ((b - r) / r)) := by ring
    _ ≤ 1.0011 * δ * (y * r ^ (y - 1)) * (4 / 3) := by
        refine mul_le_mul ?_ hexp (Real.exp_pos _).le (by linarith)
        rw [htan]
        exact h.tangent_le
    _ ≤ 1.4 * δ * (y * r ^ (y - 1)) := by linarith

/-- Near the unit the convex power is flatter than the identity. -/
theorem Overstated.base_share_of_lt (h : Overstated δ r b y z) (hr : r < 400 * δ) (hz : 1 ≤ z) :
    b ^ z - r ^ z ≤ 1.01 * δ := by
  have hb₀ : 0 < b := h.base_pos.trans_le h.base_le
  have hb : b ≤ 0.0004 := by
    have := h.unit_le
    norm_num at this
    linarith [h.base_near]
  have hlog : Real.log b ≤ -1 := by
    rw [Real.log_le_iff_le_exp hb₀]
    linarith [Real.exp_neg_one_gt_d9]
  -- `z` is below `exp (z - 1)`, and `b ^ (z - 1)` below its reciprocal
  have hslope : z * b ^ (z - 1) ≤ 1 := by
    have hz' : z ≤ Real.exp (z - 1) := by linarith [Real.add_one_le_exp (z - 1)]
    have hpow : b ^ (z - 1) ≤ Real.exp (-(z - 1)) := by
      rw [Real.rpow_def_of_pos hb₀, Real.exp_le_exp]
      have := mul_le_mul_of_nonneg_right hlog (sub_nonneg.mpr hz)
      linarith
    calc z * b ^ (z - 1) ≤ Real.exp (z - 1) * Real.exp (-(z - 1)) :=
          mul_le_mul hz' hpow (Real.rpow_nonneg hb₀.le _) (Real.exp_pos _).le
      _ = 1 := by rw [← Real.exp_add, add_neg_cancel, Real.exp_zero]
  have hgap : 0 ≤ b - r := by linarith [h.base_le]
  calc b ^ z - r ^ z ≤ z * b ^ (z - 1) * (b - r) := rpow_sub_le_of_one_le h.base_pos h.base_le hz
    _ ≤ 1 * (1.000001 * δ) := mul_le_mul hslope h.base_near hgap zero_le_one
    _ ≤ 1.01 * δ := by linarith [h.unit_pos]

/-- The share of the base, in both regimes of the exponent. -/
theorem Overstated.base_share (h : Overstated δ r b y z) :
    b ^ z - r ^ z ≤ 1.4 * δ * (y * r ^ (y - 1)) + 1.01 * δ := by
  have hδ := h.unit_pos
  have hslope₀ := mul_nonneg hδ.le h.slope_nonneg
  rcases le_total z 1 with hz | hz
  · -- concave: the tangent at `r`
    have := rpow_sub_le_of_le_one h.base_pos h.base_le h.exponent_nonneg hz
    linarith [h.tangent_le]
  · rcases le_or_gt (400 * δ) r with hr | hr
    · linarith [h.base_share_of_ge hr]
    · linarith [h.base_share_of_lt hr hz]

/-- **The overshoot** is at most twice the first-order effect of one unit of
each error, and a unit more. -/
theorem Overstated.gap_le (h : Overstated δ r b y z) :
    b ^ z - r ^ y ≤ 2 * δ * (y * r ^ (y - 1) + r ^ y * -Real.log r) + 1.01 * δ := by
  have hslope₀ := mul_nonneg h.unit_pos.le h.slope_nonneg
  have hlog₀ : 0 ≤ δ * (r ^ y * -Real.log r) :=
    mul_nonneg h.unit_pos.le (mul_nonneg (Real.rpow_nonneg h.base_pos.le _) h.log_nonneg)
  linarith [h.base_share, h.exponent_share]

end Overstated

/-! ### Both errors within a unit, downward -/

/-- `b ^ z` for `r ^ y`, erring the other way, with a base bounded away from
zero and an exponent that is not too small. -/
structure Understated (δ r b y z : ℝ) : Prop where
  unit_pos : 0 < δ
  unit_le : δ ≤ 1 / 2 ^ 20
  base_ge : 0.7 ≤ r
  base_le_one : r ≤ 1
  le_base : b ≤ r
  base_near : r - b ≤ 1.000001 * δ
  exponent_ge : 1 / 99 ≤ y
  le_exponent : y ≤ z
  exponent_near : z - y ≤ δ

section Understated

variable {δ r b y z : ℝ}

theorem Understated.base_pos (h : Understated δ r b y z) : 0 < r := by linarith [h.base_ge]

theorem Understated.exponent_pos (h : Understated δ r b y z) : 0 < y := by linarith [h.exponent_ge]

theorem Understated.log_nonneg (h : Understated δ r b y z) : 0 ≤ -Real.log r :=
  neg_nonneg.mpr (Real.log_nonpos h.base_pos.le h.base_le_one)

/-- The relative error of the base, times the exponent. -/
theorem Understated.share_le (h : Understated δ r b y z) :
    z * ((r - b) / b) ≤ 1.001 * δ * (y / r) := by
  have hδ := h.unit_pos
  have hunit := h.unit_le
  have hr := h.base_ge
  have hy := h.exponent_ge
  norm_num at hunit
  have hb : r ≤ 1.0001 * b := by linarith [h.base_near]
  have hz : z ≤ 1.0001 * y := by linarith [h.exponent_near]
  have hb₀ : 0 < b := by linarith
  have hrel : (r - b) / b ≤ 1.0002 * (δ / r) := by
    rw [mul_div_assoc', div_le_div_iff₀ hb₀ h.base_pos]
    calc (r - b) * r ≤ 1.000001 * δ * (1.0001 * b) :=
          mul_le_mul h.base_near hb h.base_pos.le (by linarith)
      _ ≤ 1.0002 * δ * b := by linarith [mul_pos hδ hb₀]
  calc z * ((r - b) / b) ≤ 1.0001 * y * (1.0002 * (δ / r)) :=
        mul_le_mul hz hrel (div_nonneg (by linarith [h.le_base]) hb₀.le) (by linarith)
    _ = 1.0001 * 1.0002 * (δ * (y / r)) := by ring
    _ ≤ 1.001 * (δ * (y / r)) :=
        mul_le_mul_of_nonneg_right (by norm_num)
          (mul_nonneg hδ.le (div_nonneg (by linarith) h.base_pos.le))
    _ = 1.001 * δ * (y / r) := by ring

/-- **The undershoot**, relative to the power, is the first-order effect of one
unit of each error and a thousandth of it. -/
theorem Understated.le (h : Understated δ r b y z) :
    r ^ y * (1 - 1.001 * δ * (y / r + -Real.log r)) ≤ b ^ z := by
  have hunit := h.unit_le
  have hb₀ : 0 < b := by
    norm_num at hunit
    linarith [h.base_near, h.base_ge]
  have hlog : (z - y) * -Real.log r ≤ δ * -Real.log r :=
    mul_le_mul_of_nonneg_right h.exponent_near h.log_nonneg
  have hlog₀ := mul_nonneg h.unit_pos.le h.log_nonneg
  refine le_trans (mul_le_mul_of_nonneg_left ?_ (Real.rpow_nonneg h.base_pos.le y))
    (mul_one_sub_le_rpow hb₀ h.le_base (h.exponent_pos.le.trans h.le_exponent) y)
  linarith [h.share_le]

end Understated

end Sensitivity
