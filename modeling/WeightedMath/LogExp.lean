/-
WeightedMath/LogExp.lean

The real analysis behind a table-free `ln` and `exp`.

* `logRatio a = log ((1 + a) / (1 - a))` is the function an atanh series
  computes.  `logRatio_sub_le` bounds the effect of a small error in `a` by
  `log z ≤ z - 1`, with no derivative; `polyEval_le_logRatio` and
  `logRatio_le_polyEval` enclose it between its odd Taylor polynomials.
* `abs_exp_neg_sub_polyEval_le` is the truncation error of the alternating
  series of `exp (-σ)`.
* `log_two_bounds` gives `log 2` to 22 digits, from the atanh series at `1 / 3`.

The Taylor polynomials are stated as `polyEval` of coefficient lists, the form
the Horner lemmas compare against.
-/
import WeightedMath.Horner

namespace LogExp

open Horner

/-! ### Coefficient lists as finite sums -/

theorem polyEval_range (f : ℕ → ℝ) (σ : ℝ) (n : ℕ) :
    polyEval σ ((List.range n).map f) = ∑ i ∈ Finset.range n, f i * σ ^ i := by
  induction n generalizing f with
  | zero => simp
  | succ n ih =>
      rw [List.range_succ_eq_map, List.map_cons, List.map_map, polyEval_cons, ih,
        Finset.sum_range_succ', Finset.mul_sum]
      simp only [Function.comp_apply, Nat.succ_eq_add_one, pow_zero, mul_one]
      rw [add_comm]
      congr 1
      exact Finset.sum_congr rfl fun i _ => by ring

/-- `1, 1/3, 1/5, …`: the coefficients of `atanh a / a` in powers of `a²`. -/
noncomputable def oddSeries (n : ℕ) : List ℝ :=
  (List.range n).map fun i => 1 / ((2 * i + 1 : ℕ) : ℝ)

/-- `1, -1, 1/2!, -1/3!, …`: the coefficients of `exp (-σ)`. -/
noncomputable def expSeries (n : ℕ) : List ℝ :=
  (List.range n).map fun i => (-1) ^ i / (i.factorial : ℝ)

theorem mul_polyEval_oddSeries (a : ℝ) (n : ℕ) :
    a * polyEval (a ^ 2) (oddSeries n)
      = ∑ i ∈ Finset.range n, a ^ (2 * i + 1) / (2 * i + 1) := by
  rw [oddSeries, polyEval_range, Finset.mul_sum]
  refine Finset.sum_congr rfl fun i _ => ?_
  rw [pow_succ a (2 * i), pow_mul]
  push_cast
  ring

theorem mem_oddSeries {n : ℕ} {c : ℝ} (h : c ∈ oddSeries n) : 0 ≤ c ∧ c ≤ 1 := by
  obtain ⟨i, -, rfl⟩ := List.mem_map.mp h
  have hi : (1 : ℝ) ≤ ((2 * i + 1 : ℕ) : ℝ) := by exact_mod_cast Nat.le_add_left 1 (2 * i)
  exact ⟨by positivity, (div_le_one (by linarith)).mpr hi⟩

/-! ### The logarithm of a ratio -/

noncomputable def logRatio (a : ℝ) : ℝ := Real.log ((1 + a) / (1 - a))

theorem logRatio_mono {a b : ℝ} (ha : -1 < a) (hab : a ≤ b) (hb : b < 1) :
    logRatio a ≤ logRatio b := by
  have h₁ : 0 < 1 - b := by linarith
  have h₂ : 0 < 1 - a := by linarith
  refine Real.log_le_log (div_pos (by linarith) h₂) ?_
  rw [div_le_div_iff₀ h₂ h₁]
  nlinarith

theorem logRatio_neg (a : ℝ) : logRatio (-a) = -logRatio a := by
  rw [logRatio, logRatio, ← Real.log_inv, inv_div]
  congr 2
  ring

/-- The atanh form of a logarithm. -/
theorem logRatio_sub_div_add {x : ℝ} (hx : 0 < x) : logRatio ((x - 1) / (x + 1)) = Real.log x := by
  have h : x + 1 ≠ 0 := by linarith
  have h₁ : 1 + (x - 1) / (x + 1) = 2 * x / (x + 1) := by field_simp; ring
  have h₂ : 1 - (x - 1) / (x + 1) = 2 / (x + 1) := by field_simp; ring
  rw [logRatio, h₁, h₂, div_div_div_cancel_right₀ h, mul_div_cancel_left₀ x two_ne_zero]

/-- The effect of an error `b - a` in the argument. -/
theorem logRatio_sub_le {a b : ℝ} (ha : 0 ≤ a) (hab : a ≤ b) (hb : b < 1) :
    logRatio b - logRatio a ≤ 2 * (b - a) / ((1 - b) * (1 + a)) := by
  have h₁ : 0 < 1 - b := by linarith
  have h₂ : 0 < 1 - a := by linarith
  have h₃ : 0 < 1 + a := by linarith
  have h₄ : 0 < 1 + b := by linarith
  have hx : 0 < (1 + b) / (1 - b) := div_pos h₄ h₁
  have hy : 0 < (1 + a) / (1 - a) := div_pos h₃ h₂
  calc logRatio b - logRatio a
      = Real.log ((1 + b) / (1 - b) / ((1 + a) / (1 - a))) :=
        (Real.log_div hx.ne' hy.ne').symm
    _ ≤ (1 + b) / (1 - b) / ((1 + a) / (1 - a)) - 1 :=
        Real.log_le_sub_one_of_pos (div_pos hx hy)
    _ = 2 * (b - a) / ((1 - b) * (1 + a)) := by field_simp; ring

theorem polyEval_le_logRatio {a : ℝ} (h₀ : 0 ≤ a) (h₁ : a < 1) (n : ℕ) :
    2 * (a * polyEval (a ^ 2) (oddSeries n)) ≤ logRatio a := by
  have := Real.sum_range_le_log_div h₀ h₁ n
  rw [mul_polyEval_oddSeries, logRatio]
  linarith

theorem logRatio_le_polyEval {a : ℝ} (h₀ : 0 ≤ a) (h₁ : a < 1) (n : ℕ) :
    logRatio a ≤ 2 * (a * polyEval (a ^ 2) (oddSeries n))
      + 2 * (a ^ (2 * n + 1) / (1 - a ^ 2)) := by
  have := Real.log_div_le_sum_range_add h₀ h₁ n
  rw [mul_polyEval_oddSeries, logRatio]
  linarith

theorem two_mul_le_logRatio {a : ℝ} (h₀ : 0 ≤ a) (h₁ : a < 1) : 2 * a ≤ logRatio a := by
  simpa [oddSeries, polyEval] using polyEval_le_logRatio h₀ h₁ 1

/-- `log 2`, from the atanh series at `1 / 3`. -/
theorem log_two_bounds :
    (0.6931471805599453094172 : ℝ) < Real.log 2 ∧
      Real.log 2 < 0.6931471805599453094173 := by
  have h2 : logRatio (1 / 3) = Real.log 2 := by norm_num [logRatio]
  have hlo := polyEval_le_logRatio (a := 1 / 3) (by norm_num) (by norm_num) 24
  have hhi := logRatio_le_polyEval (a := 1 / 3) (by norm_num) (by norm_num) 24
  rw [h2, mul_polyEval_oddSeries] at hlo hhi
  norm_num [Finset.sum_range_succ] at hlo hhi
  exact ⟨lt_of_lt_of_le (by norm_num) hlo, lt_of_le_of_lt hhi (by norm_num)⟩

/-! ### The exponential -/

theorem polyEval_expSeries (σ : ℝ) (n : ℕ) :
    polyEval σ (expSeries n) = ∑ i ∈ Finset.range n, (-σ) ^ i / (i.factorial : ℝ) := by
  rw [expSeries, polyEval_range]
  refine Finset.sum_congr rfl fun i _ => ?_
  rw [neg_pow σ]
  ring

/-- Truncation error of the alternating series. -/
theorem abs_exp_neg_sub_polyEval_le {σ : ℝ} (h₀ : 0 ≤ σ) (h₁ : σ ≤ 1) {n : ℕ} (hn : 0 < n) :
    |Real.exp (-σ) - polyEval σ (expSeries n)|
      ≤ σ ^ n * ((n + 1 : ℝ) / (n.factorial * n)) := by
  have habs : |-σ| = σ := by rw [abs_neg, abs_of_nonneg h₀]
  have h := Real.exp_bound (habs.trans_le h₁) hn
  rw [habs] at h
  rw [polyEval_expSeries]
  simpa using h

/-- `exp` over a gap: the tangent at the far end. -/
theorem exp_neg_sub_ge (a b : ℝ) :
    Real.exp (-b) * (b - a) ≤ Real.exp (-a) - Real.exp (-b) := by
  have h := Real.add_one_le_exp (b - a)
  have e : Real.exp (-a) = Real.exp (-b) * Real.exp (b - a) := by
    rw [← Real.exp_add]; ring_nf
  rw [e]
  nlinarith [Real.exp_pos (-b)]

/-- `exp` over a gap: the tangent at the near end. -/
theorem exp_neg_sub_le (a b : ℝ) :
    Real.exp (-a) - Real.exp (-b) ≤ Real.exp (-a) * (b - a) := by
  have := exp_neg_sub_ge b a
  linarith

theorem mul_exp_neg_le_one (z : ℝ) : z * Real.exp (-z) ≤ 1 := by
  have h : z ≤ Real.exp z := by linarith [Real.add_one_le_exp z]
  calc z * Real.exp (-z) ≤ Real.exp z * Real.exp (-z) :=
        mul_le_mul_of_nonneg_right h (Real.exp_pos _).le
    _ = 1 := by rw [← Real.exp_add, add_neg_cancel, Real.exp_zero]

end LogExp
