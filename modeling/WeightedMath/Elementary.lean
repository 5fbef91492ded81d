/-
WeightedMath/Elementary.lean

`ln`, `exp` and `expm1` on their own, at the kernel's scale.

`exp` and `expm1` are total on the nonpositive line (`exp_ok`, `expm1_ok`).
Both round the one series value `v` at 62 bits, `exp` as `v` and `expm1` as
`2^62 - v`, so their results differ from one another by `2^52` or by one more:

    nearest v + nearest (2^62 - v) - 2^52 ∈ {0, 1}.

Below the saturation point both return their limits, and there the real
exponential is far less than a unit (`exp_saturated`).

Monotonicity needs nothing about the seams beyond what the gap lemmas say.  Two
arguments of `exp` one grid step apart are 1024 units of 62 bits apart, a
hundred times what `expVal_anti` asks for, and two arguments of `ln` are
separated by `lnVal_gap`.
-/
import WeightedMath.Monotone

namespace WeightedMath

open Machine

section Elementary

variable {x x' : ℤ}

/-! ### Accuracy -/

/-- At scale 52 a unit is 1024 units of 62 bits. -/
theorem nearest_kernel (v : ℤ) : nearest 52 v = (v + 512) / 1024 := by
  unfold nearest
  norm_num

/-- The scaled argument stands for the argument. -/
theorem scaled_div (x : ℤ) : (((-x * 2 ^ (62 - 52) : ℤ) : ℝ)) / 2 ^ 62 = -((x : ℝ) / 2 ^ 52) := by
  push_cast
  norm_num
  ring

/-- At the saturation point the real value is below a unit of 64 bits. -/
theorem exp_saturated (hx : x ≤ -(64 * 2 ^ 52)) :
    2 ^ 52 * Real.exp ((x : ℝ) / 2 ^ 52) ≤ 1 / 2 ^ 12 := by
  have hle : (x : ℝ) / 2 ^ 52 ≤ -64 := by
    rw [div_le_iff₀ (by positivity)]
    exact_mod_cast (show x ≤ -64 * 2 ^ 52 by omega)
  have htwo : (2 : ℝ) ^ 64 ≤ Real.exp 64 := by
    have hone : (2 : ℝ) ≤ Real.exp 1 := by
      have := Real.add_one_le_exp (1 : ℝ)
      linarith
    calc (2 : ℝ) ^ 64 ≤ Real.exp 1 ^ 64 := pow_le_pow_left₀ (by norm_num) hone 64
      _ = Real.exp 64 := by rw [← Real.exp_nat_mul]; norm_num
  have hinv : Real.exp (-64) ≤ 1 / 2 ^ 64 := by
    rw [Real.exp_neg, ← one_div]
    exact one_div_le_one_div_of_le (by positivity) htwo
  calc 2 ^ 52 * Real.exp ((x : ℝ) / 2 ^ 52) ≤ 2 ^ 52 * (1 / 2 ^ 64) :=
        mul_le_mul_of_nonneg_left ((Real.exp_le_exp.mpr hle).trans hinv) (by positivity)
    _ = 1 / 2 ^ 12 := by norm_num

/-- The unrounded value, in units of scale 52: five units of 62 bits are less
than a two-hundredth. -/
theorem abs_expVal_scaled_le (h : x ≤ 0) :
    |(expVal (-x * 2 ^ (62 - 52)) : ℝ) / 2 ^ (62 - 52) - 2 ^ 52 * Real.exp ((x : ℝ) / 2 ^ 52)|
      ≤ 1 / 200 := by
  have habs := abs_expVal_sub_le (a := -x * 2 ^ (62 - 52)) (by omega)
  rw [scaled_div, neg_neg] at habs
  obtain ⟨hlo, hhi⟩ := abs_le.mp habs
  generalize expVal (-x * 2 ^ (62 - 52)) = v at *
  norm_num at hlo hhi ⊢
  exact abs_le.mpr ⟨by linarith, by linarith⟩

theorem abs_expOut_sub_lt (h : x ≤ 0) :
    |(expOut 52 x : ℝ) - 2 ^ 52 * Real.exp ((x : ℝ) / 2 ^ 52)| < 1 := by
  unfold expOut
  split_ifs with hx
  · have hpos := Real.exp_pos ((x : ℝ) / 2 ^ 52)
    have hsat := exp_saturated hx
    rw [Int.cast_zero, zero_sub, abs_neg, abs_of_pos (by positivity)]
    exact hsat.trans_lt (by norm_num)
  · obtain ⟨h₁, h₂⟩ := abs_le.mp (abs_expVal_scaled_le h)
    obtain ⟨h₃, h₄⟩ :=
      abs_le.mp (abs_nearest_sub_le (S := 52) (by norm_num) (expVal (-x * 2 ^ (62 - 52))))
    exact abs_lt.mpr ⟨by linarith, by linarith⟩

theorem abs_expm1Out_sub_lt (h : x ≤ 0) :
    |(expm1Out 52 x : ℝ) - 2 ^ 52 * (Real.exp ((x : ℝ) / 2 ^ 52) - 1)| < 1 := by
  unfold expm1Out
  split_ifs with hx
  · have hpos := Real.exp_pos ((x : ℝ) / 2 ^ 52)
    have hsat := exp_saturated hx
    push_cast
    exact abs_lt.mpr ⟨by linarith, by linarith⟩
  · obtain ⟨h₁, h₂⟩ := abs_le.mp (abs_expVal_scaled_le h)
    obtain ⟨h₃, h₄⟩ :=
      abs_le.mp (abs_nearest_sub_le (S := 52) (by norm_num) (2 ^ 62 - expVal (-x * 2 ^ (62 - 52))))
    -- the complement is exact at 62 bits
    have hcompl : ((2 ^ 62 - expVal (-x * 2 ^ (62 - 52)) : ℤ) : ℝ) / 2 ^ (62 - 52)
        = 2 ^ 52 - (expVal (-x * 2 ^ (62 - 52)) : ℝ) / 2 ^ (62 - 52) := by
      push_cast
      ring
    rw [hcompl] at h₃ h₄
    push_cast at h₃ h₄ ⊢
    exact abs_lt.mpr ⟨by linarith, by linarith⟩

/-! ### Range and consistency -/

theorem expOut_bounds (x : ℤ) : 0 ≤ expOut 52 x ∧ expOut 52 x ≤ 2 ^ 52 := by
  obtain ⟨h₀, h₁⟩ := expVal_bounds (-x * 2 ^ (62 - 52))
  unfold expOut
  split_ifs
  · norm_num
  · exact ⟨nearest_nonneg h₀, nearest_le (by norm_num) h₁⟩

theorem expm1Out_bounds (x : ℤ) : -2 ^ 52 ≤ expm1Out 52 x ∧ expm1Out 52 x ≤ 0 := by
  obtain ⟨h₀, h₁⟩ := expVal_bounds (-x * 2 ^ (62 - 52))
  unfold expm1Out
  split_ifs
  · norm_num
  · have hlo := nearest_nonneg (S := 52) (sub_nonneg.mpr h₁)
    have hhi := nearest_le (S := 52) (by norm_num)
      (show 2 ^ 62 - expVal (-x * 2 ^ (62 - 52)) ≤ 2 ^ 62 by omega)
    exact ⟨by omega, by omega⟩

/-- **The two roundings of one value** agree up to the tie. -/
theorem nearest_complement (v : ℤ) :
    nearest 52 v + nearest 52 (2 ^ 62 - v) - 2 ^ 52 = 0 ∨
      nearest 52 v + nearest 52 (2 ^ 62 - v) - 2 ^ 52 = 1 := by
  rw [nearest_kernel, nearest_kernel]
  omega

theorem expOut_consistent (x : ℤ) :
    expOut 52 x - (expm1Out 52 x + 2 ^ 52) = 0 ∨ expOut 52 x - (expm1Out 52 x + 2 ^ 52) = 1 := by
  unfold expOut expm1Out
  split_ifs
  · left
    norm_num
  · have := nearest_complement (expVal (-x * 2 ^ (62 - 52)))
    omega

/-- **`exp` and `expm1` are total, accurate and consistent** on the whole
nonpositive line.  In every profile both return, one and the same value each:
less than a unit from the real one, in `[0, ONE]` and `[-ONE, 0]`, and
`exp(x) - (expm1(x) + ONE)` is zero or one. -/
theorem exp_expm1_total (h : x ≤ 0) :
    ∃ v w : ℤ,
      (∀ P, exp (Build.kernel P) ⟨x⟩ = .ok ⟨v⟩ ∧ expm1 (Build.kernel P) ⟨x⟩ = .ok ⟨w⟩) ∧
      |(v : ℝ) - 2 ^ 52 * Real.exp ((x : ℝ) / 2 ^ 52)| < 1 ∧
      |(w : ℝ) - 2 ^ 52 * (Real.exp ((x : ℝ) / 2 ^ 52) - 1)| < 1 ∧
      (0 ≤ v ∧ v ≤ 2 ^ 52) ∧ (-2 ^ 52 ≤ w ∧ w ≤ 0) ∧
      (v - (w + 2 ^ 52) = 0 ∨ v - (w + 2 ^ 52) = 1) :=
  ⟨expOut 52 x, expm1Out 52 x, fun P => ⟨exp_ok (Build.kernel P) h, expm1_ok (Build.kernel P) h⟩,
    abs_expOut_sub_lt h, abs_expm1Out_sub_lt h, expOut_bounds x, expm1Out_bounds x,
    expOut_consistent x⟩

/-- The most negative word. -/
theorem exp_expm1_total_min :
    ∃ v w : ℤ,
      (∀ P, exp (Build.kernel P) ⟨-2 ^ 127⟩ = .ok ⟨v⟩ ∧
        expm1 (Build.kernel P) ⟨-2 ^ 127⟩ = .ok ⟨w⟩) ∧
      |(v : ℝ) - 2 ^ 52 * Real.exp (((-2 ^ 127 : ℤ) : ℝ) / 2 ^ 52)| < 1 ∧
      |(w : ℝ) - 2 ^ 52 * (Real.exp (((-2 ^ 127 : ℤ) : ℝ) / 2 ^ 52) - 1)| < 1 ∧
      (0 ≤ v ∧ v ≤ 2 ^ 52) ∧ (-2 ^ 52 ≤ w ∧ w ≤ 0) ∧
      (v - (w + 2 ^ 52) = 0 ∨ v - (w + 2 ^ 52) = 1) :=
  exp_expm1_total (by norm_num)

/-! ### Monotonicity -/

/-- A grid step of the argument is 1024 units of 62 bits. -/
theorem expVal_scaled_mono (h : x ≤ x') (h' : x' ≤ 0) :
    expVal (-x * 2 ^ (62 - 52)) ≤ expVal (-x' * 2 ^ (62 - 52)) := by
  rcases h.eq_or_lt with rfl | hlt
  · rfl
  · apply expVal_anti
    · omega
    · omega

theorem expOut_mono (h : x ≤ x') (h' : x' ≤ 0) : expOut 52 x ≤ expOut 52 x' := by
  have hnn := (expOut_bounds x').1
  unfold expOut at *
  split_ifs at * with hx hx'
  · exact le_rfl
  · exact hnn
  · omega
  · exact nearest_mono 52 (expVal_scaled_mono h h')

theorem expm1Out_mono (h : x ≤ x') (h' : x' ≤ 0) : expm1Out 52 x ≤ expm1Out 52 x' := by
  have hlo := (expm1Out_bounds x').1
  unfold expm1Out at *
  split_ifs at * with hx hx'
  · exact le_rfl
  · exact hlo
  · omega
  · exact neg_le_neg (nearest_mono 52 (sub_le_sub_left (expVal_scaled_mono h h') _))

theorem lnVal_strictAnti (h₀ : 0 < x) (h : x < x') (h₁ : x' ≤ 2 ^ 52) :
    lnVal 52 x' < lnVal 52 x := by
  have := lnVal_gap h₀ h h₁
  omega

theorem lnOut_mono (h₀ : 0 < x) (h : x ≤ x') (h₁ : x' ≤ 2 ^ 52) : lnOut 52 x ≤ lnOut 52 x' := by
  rcases h.eq_or_lt with rfl | hlt
  · rfl
  · exact neg_le_neg (nearest_mono 52 (lnVal_strictAnti h₀ hlt h₁).le)

/-- **`ln`, `exp` and `expm1` are exactly monotone**, and `ln_inner` is strictly
so, across every seam and in every profile. -/
theorem elementary_monotone (P : Profile) (h : x ≤ x') :
    (0 < x → x' ≤ 2 ^ 52 →
        (∃ u v : ℤ, ln (Build.kernel P) ⟨x⟩ = .ok ⟨u⟩ ∧ ln (Build.kernel P) ⟨x'⟩ = .ok ⟨v⟩ ∧
          u ≤ v) ∧
          ∃ l l' : ℤ, lnInner (Build.kernel P) x = .ok l ∧ lnInner (Build.kernel P) x' = .ok l' ∧
            (x < x' → l' < l)) ∧
      (x' ≤ 0 →
        (∃ u v : ℤ, exp (Build.kernel P) ⟨x⟩ = .ok ⟨u⟩ ∧ exp (Build.kernel P) ⟨x'⟩ = .ok ⟨v⟩ ∧
          u ≤ v) ∧
          ∃ u v : ℤ, expm1 (Build.kernel P) ⟨x⟩ = .ok ⟨u⟩ ∧
            expm1 (Build.kernel P) ⟨x'⟩ = .ok ⟨v⟩ ∧ u ≤ v) := by
  constructor
  · intro h₀ h₁
    have hx₁ : x ≤ 2 ^ (Build.kernel P).scale := h.trans h₁
    have hx₀' : 0 < x' := h₀.trans_le h
    constructor
    · exact ⟨_, _, ln_ok _ h₀ hx₁, ln_ok _ hx₀' h₁, lnOut_mono h₀ h h₁⟩
    · exact ⟨_, _, lnInner_ok _ h₀ hx₁, lnInner_ok _ hx₀' h₁,
        fun hlt => lnVal_strictAnti h₀ hlt h₁⟩
  · intro h₁
    constructor
    · exact ⟨_, _, exp_ok _ (h.trans h₁), exp_ok _ h₁, expOut_mono h h₁⟩
    · exact ⟨_, _, expm1_ok _ (h.trans h₁), expm1_ok _ h₁, expm1Out_mono h h₁⟩

/-- Across an octave of the logarithm, and across the saturation point of the
exponential. -/
theorem elementary_monotone_seams :
    ((∃ u v : ℤ, ln (Build.kernel Profile.wrapping) ⟨2 ^ 51 - 1⟩ = .ok ⟨u⟩ ∧
        ln (Build.kernel Profile.wrapping) ⟨2 ^ 51⟩ = .ok ⟨v⟩ ∧ u ≤ v) ∧
      ∃ l l' : ℤ, lnInner (Build.kernel Profile.wrapping) (2 ^ 51 - 1) = .ok l ∧
        lnInner (Build.kernel Profile.wrapping) (2 ^ 51) = .ok l' ∧
        ((2 ^ 51 - 1 : ℤ) < 2 ^ 51 → l' < l)) ∧
    (∃ u v : ℤ, exp (Build.kernel Profile.wrapping) ⟨-2 ^ 58⟩ = .ok ⟨u⟩ ∧
        exp (Build.kernel Profile.wrapping) ⟨-2 ^ 58 + 1⟩ = .ok ⟨v⟩ ∧ u ≤ v) ∧
      ∃ u v : ℤ, expm1 (Build.kernel Profile.wrapping) ⟨-2 ^ 58⟩ = .ok ⟨u⟩ ∧
        expm1 (Build.kernel Profile.wrapping) ⟨-2 ^ 58 + 1⟩ = .ok ⟨v⟩ ∧ u ≤ v :=
  ⟨(elementary_monotone Profile.wrapping (by norm_num)).1 (by norm_num) (by norm_num),
    (elementary_monotone Profile.wrapping (by norm_num)).2 (by norm_num)⟩

end Elementary

end WeightedMath
