/-
WeightedMath/Curve.lean

The weighted constant-product curve, over the reals and free of any rounding.

A pool with reserves `x`, `y` and natural weights `m`, `n` sits at the height
`x^m · y^n`.  Two quantities belong to a trade from that point: the payout that
keeps the height when `dx` is paid in, and the price that keeps it when `dy` is
taken out.  Their defining property, proved here, is that a trade does not
lower the curve exactly when it pays out at most the one, or charges at least
the other.

A market is then a step relation whose steps do not lower a height, and the
height never falls along a run (`le_of_run`).  Since the height is strictly
increasing in each reserve, no run ends with one reserve lower and neither
higher (`eq_of_height_le`).
-/
import Mathlib

namespace Curve

/-- The height of a point under weights `m` and `n`. -/
def height {R : Type*} [CommSemiring R] (m n : ℕ) (x y : R) : R := x ^ m * y ^ n

/-- What may be paid out of `y` for `dx` paid into `x`. -/
noncomputable def payout (m n : ℕ) (x y dx : ℝ) : ℝ := y * (1 - (x / (x + dx)) ^ ((m : ℝ) / n))

/-- What must be paid into `x` for `dy` taken out of `y`. -/
noncomputable def price (m n : ℕ) (x y dy : ℝ) : ℝ := x * ((y / (y - dy)) ^ ((n : ℝ) / m) - 1)

section Trade

variable {m n : ℕ} {x y x' y' : ℝ}

/-- Comparing powers with natural exponents is comparing one side to a real
power of the other. -/
theorem pow_le_pow_iff_rpow_le {a b : ℝ} (ha : 0 ≤ a) (hb : 0 ≤ b) (hn : 0 < n) :
    a ^ m ≤ b ^ n ↔ a ^ ((m : ℝ) / n) ≤ b := by
  have hn' : (0 : ℝ) < n := by exact_mod_cast hn
  have e : (a ^ ((m : ℝ) / n)) ^ (n : ℝ) = a ^ m := by
    rw [← Real.rpow_mul ha, div_mul_cancel₀ _ hn'.ne', Real.rpow_natCast]
  rw [← Real.rpow_le_rpow_iff (Real.rpow_nonneg ha _) hb hn', e, Real.rpow_natCast]

/-- The height does not fall iff the loss in `x` is made up for in `y`. -/
theorem height_le_iff (hx' : 0 < x') (hy : 0 < y) :
    height m n x y ≤ height m n x' y' ↔ (x / x') ^ m ≤ (y' / y) ^ n := by
  rw [height, height, div_pow, div_pow, div_le_div_iff₀ (pow_pos hx' m) (pow_pos hy n),
    mul_comm (y' ^ n)]

/-- **Exact in**: a payout keeps the height iff it is at most `payout`. -/
theorem height_le_iff_le_payout {dx out : ℝ} (hn : 0 < n) (hx : 0 < x) (hdx : 0 ≤ dx) (hy : 0 < y)
    (hout : out ≤ y) :
    height m n x y ≤ height m n (x + dx) (y - out) ↔ out ≤ payout m n x y dx := by
  have hx' : 0 < x + dx := by linarith
  rw [height_le_iff hx' hy,
    pow_le_pow_iff_rpow_le (by positivity) (div_nonneg (by linarith) hy.le) hn,
    le_div_iff₀ hy, payout]
  constructor <;> intro h <;> linarith

/-- **Exact out**: a charge keeps the height iff it is at least `price`. -/
theorem height_le_iff_price_le {dy c : ℝ} (hm : 0 < m) (hx : 0 < x) (hdy : dy < y) (hy : 0 < y)
    (hc : 0 ≤ c) :
    height m n x y ≤ height m n (x + c) (y - dy) ↔ price m n x y dy ≤ c := by
  have hx' : 0 < x + c := by linarith
  have hy' : 0 < y - dy := by linarith
  have hswap : (x / (x + c)) ^ m ≤ ((y - dy) / y) ^ n ↔ (y / (y - dy)) ^ n ≤ ((x + c) / x) ^ m := by
    rw [← inv_div (x + c) x, ← inv_div y (y - dy), inv_pow, inv_pow,
      inv_le_inv₀ (by positivity) (by positivity)]
  rw [height_le_iff hx' hy, hswap,
    pow_le_pow_iff_rpow_le (by positivity) (by positivity) hm, le_div_iff₀ hx, price]
  constructor <;> intro h <;> linarith

/-- A payout never empties the reserve. -/
theorem payout_le_reserve {dx : ℝ} (hx : 0 ≤ x) (hdx : 0 ≤ dx) (hy : 0 ≤ y) :
    payout m n x y dx ≤ y := by
  have hpow : 0 ≤ (x / (x + dx)) ^ ((m : ℝ) / n) :=
    Real.rpow_nonneg (div_nonneg hx (add_nonneg hx hdx)) _
  have := mul_nonneg hy hpow
  rw [payout]
  linarith

/-- **What leaves `y` on the way to a point that is no lower**, by whatever
route, is at most the payout for what has come into `x`. -/
theorem sub_le_payout (hn : 0 < n) (hx : 0 < x) (hxx' : x ≤ x') (hy : 0 < y) (hy' : 0 ≤ y')
    (h : height m n x y ≤ height m n x' y') : y - y' ≤ payout m n x y (x' - x) := by
  rw [← height_le_iff_le_payout hn hx (sub_nonneg.mpr hxx') hy (sub_le_self y hy'),
    add_sub_cancel, sub_sub_cancel]
  exact h

/-- And what has come into `x` is at least the price of what has left `y`. -/
theorem price_le_sub (hm : 0 < m) (hx : 0 < x) (hxx' : x ≤ x') (hy : 0 < y) (hy' : 0 < y')
    (h : height m n x y ≤ height m n x' y') : price m n x y (y - y') ≤ x' - x := by
  rw [← height_le_iff_price_le hm hx (sub_lt_self y hy') hy (sub_nonneg.mpr hxx'),
    add_sub_cancel, sub_sub_cancel]
  exact h

end Trade

/-! ### Runs -/

/-- What no step lowers no run lowers. -/
theorem le_of_run {σ α : Type*} [Preorder α] {R : σ → σ → Prop} {f : σ → α}
    (hstep : ∀ s t, R s t → f s ≤ f t) {s t : σ} (h : Relation.ReflTransGen R s t) :
    f s ≤ f t := by
  induction h with
  | refl => exact le_rfl
  | tail _ hst ih => exact ih.trans (hstep _ _ hst)

/-- **The height separates points that are ordered**: with neither reserve
higher, a height that is no lower is the same point. -/
theorem eq_of_height_le {m n a b a' b' : ℕ} (hm : 0 < m) (hn : 0 < n) (ha : 0 < a) (hb : 0 < b)
    (ha' : a' ≤ a) (hb' : b' ≤ b) (h : height m n a b ≤ height m n a' b') : a' = a ∧ b' = b := by
  have hpa := Nat.pow_le_pow_left ha' m
  have hpb := Nat.pow_le_pow_left hb' n
  unfold height at h
  constructor
  · refine ha'.eq_or_lt.resolve_right fun hlt => h.not_gt ?_
    calc a' ^ m * b' ^ n ≤ a' ^ m * b ^ n := Nat.mul_le_mul_left _ hpb
      _ < a ^ m * b ^ n :=
          Nat.mul_lt_mul_of_pos_right (Nat.pow_lt_pow_left hlt hm.ne') (Nat.pow_pos hb)
  · refine hb'.eq_or_lt.resolve_right fun hlt => h.not_gt ?_
    calc a' ^ m * b' ^ n ≤ a ^ m * b' ^ n := Nat.mul_le_mul_right _ hpa
      _ < a ^ m * b ^ n :=
          Nat.mul_lt_mul_of_pos_left (Nat.pow_lt_pow_left hlt hn.ne') (Nat.pow_pos ha)

/-- The two tokens play the same part. -/
theorem height_comm {R : Type*} [CommSemiring R] (m n : ℕ) (x y : R) :
    height m n x y = height n m y x :=
  mul_comm _ _

/-- A height of naturals as a height of reals. -/
theorem cast_height (m n a b : ℕ) : ((height m n a b : ℕ) : ℝ) = height m n (a : ℝ) (b : ℝ) := by
  unfold height
  push_cast
  rfl

end Curve
