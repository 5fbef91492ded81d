/-
WeightedMath/ExpError.lean

How far `expVal` is from the real exponential, in units of `2^-62`, and why it
is monotone over gaps of ten units although it is not monotone unit by unit.

On a remainder `s` the Horner loop stays in the band

    2^62·exp(-s) - 3.81 ≤ expRem s ≤ 2^62·exp(-s) + 0.55      (`expRem_near`)

which is 4.36 units wide: one geometric series of floors with ratio `ln 2`, and
coefficients rounded from the fourth on.  The band gives the accuracy of
`expVal` (`abs_expVal_sub_le`) and, since `exp` falls by at least half a unit
for each unit of the argument, also its monotonicity over gaps of ten
(`expVal_anti`).  Across a reduction seam the lower band is doubled, and it is
the slope on *both* sides of the seam that pays for it.
-/
import WeightedMath.Exp
import WeightedMath.LnError

namespace WeightedMath

open Machine Horner LogExp

/-! ### The remainder series -/

/-- From the fourth on, every Taylor constant is correctly rounded. -/
theorem exp_rounded : List.Forall₂ (fun c d : ℝ => |c - d| ≤ 1 / 2)
    (toReals (expCoeff_62.drop 3)) (((expSeries 20).drop 3).map (2 ^ 62 * ·)) := by
  simp only [expCoeff_62, expSeries, toReals, List.range, List.range.loop, List.map, List.drop]
  repeat' constructor
  all_goals norm_num [abs_le, Nat.factorial]

/-- The first three constants are exact. -/
theorem expCoeff_cons : toReals expCoeff_62
    = (2 ^ 62 : ℝ) :: (-2 ^ 62) :: (2 ^ 62 / 2) :: toReals (expCoeff_62.drop 3) := by
  simp only [expCoeff_62, toReals_cons, List.drop_succ_cons, List.drop_zero]
  norm_num

theorem expSeries_cons : expSeries 20 = 1 :: (-1) :: (1 / 2) :: (expSeries 20).drop 3 := by
  simp [expSeries, List.range_succ_eq_map]

theorem abs_exp_coeff_sub_le {σ : ℝ} (h₀ : 0 ≤ σ) (h₁ : σ ≤ 0.6932) :
    |polyEval σ (toReals expCoeff_62) - 2 ^ 62 * polyEval σ (expSeries 20)| ≤ 0.544 := by
  have htail := abs_polyEval_sub_le h₀ (by linarith) (by norm_num) exp_rounded
  have hden : (1 / 2 : ℝ) / (1 - σ) ≤ 1.63 := by
    rw [div_le_iff₀ (by linarith)]; linarith
  have hcube : σ ^ 3 ≤ 0.6932 ^ 3 := pow_le_pow_left₀ h₀ h₁ 3
  have e : polyEval σ (toReals expCoeff_62) - 2 ^ 62 * polyEval σ (expSeries 20)
      = σ ^ 3 * (polyEval σ (toReals (expCoeff_62.drop 3))
          - polyEval σ (((expSeries 20).drop 3).map (2 ^ 62 * ·))) := by
    rw [expCoeff_cons, expSeries_cons, polyEval_map_mul]
    simp only [polyEval_cons, List.drop_succ_cons, List.drop_zero]
    ring
  rw [e, abs_mul, abs_of_nonneg (by positivity)]
  calc σ ^ 3 * _ ≤ 0.6932 ^ 3 * 1.63 :=
        mul_le_mul hcube (htail.trans hden) (abs_nonneg _) (by norm_num)
    _ ≤ 0.544 := by norm_num

theorem abs_exp_tail_le {σ : ℝ} (h₀ : 0 ≤ σ) (h₁ : σ ≤ 0.6932) :
    |2 ^ 62 * polyEval σ (expSeries 20) - 2 ^ 62 * Real.exp (-σ)| ≤ 0.002 := by
  have htail := abs_exp_neg_sub_polyEval_le h₀ (by linarith) (show 0 < 20 by norm_num)
  have hpow : σ ^ 20 ≤ 0.6932 ^ 20 := pow_le_pow_left₀ h₀ h₁ 20
  have hfac : (0 : ℝ) ≤ ((20 : ℕ) + 1 : ℝ) / ((Nat.factorial 20 : ℕ) * (20 : ℕ)) := by positivity
  rw [← mul_sub, abs_mul, abs_of_pos (by positivity), abs_sub_comm]
  calc (2 : ℝ) ^ 62 * |Real.exp (-σ) - polyEval σ (expSeries 20)|
      ≤ 2 ^ 62 * (0.6932 ^ 20 * (((20 : ℕ) + 1 : ℝ) / ((Nat.factorial 20 : ℕ) * (20 : ℕ)))) :=
        mul_le_mul_of_nonneg_left
          (htail.trans (mul_le_mul_of_nonneg_right hpow hfac)) (by positivity)
    _ ≤ 0.002 := by norm_num [Nat.factorial]

section Remainder

variable {s : ℤ}

theorem remainder_cast (h₀ : 0 ≤ s) (h₁ : s < ln2_62) :
    (0 : ℝ) ≤ s / 2 ^ 62 ∧ (s : ℝ) / 2 ^ 62 ≤ 0.6932 := by
  have h₀' : (0 : ℝ) ≤ s := by exact_mod_cast h₀
  have h₁' : (s : ℝ) ≤ 3196577161300663915 := by exact_mod_cast h₁.le
  refine ⟨by positivity, ?_⟩
  rw [div_le_iff₀ (by positivity)]
  exact h₁'.trans (by norm_num)

/-- **The band of the remainder series.** -/
theorem expRem_near (h₀ : 0 ≤ s) (h₁ : s < ln2_62) :
    2 ^ 62 * Real.exp (-(s / 2 ^ 62)) - 3.81 ≤ expRem s ∧
      (expRem s : ℝ) ≤ 2 ^ 62 * Real.exp (-(s / 2 ^ 62)) + 0.55 := by
  obtain ⟨hσ₀, hσ₁⟩ := remainder_cast h₀ h₁
  have hfl := floorHorner_le (L := 62) h₀ expCoeff_62
  have hfg := le_floorHorner (L := 62) h₀ (by linarith) expCoeff_62
  unfold expRem
  generalize (s : ℝ) / 2 ^ 62 = σ at *
  have hloss : 1 / (1 - σ) ≤ 3.2595 := by
    rw [div_le_iff₀ (by linarith)]; linarith
  obtain ⟨hc₁, hc₂⟩ := abs_le.mp (abs_exp_coeff_sub_le hσ₀ hσ₁)
  obtain ⟨ht₁, ht₂⟩ := abs_le.mp (abs_exp_tail_le hσ₀ hσ₁)
  constructor <;> linarith

theorem exp_neg_le_one (h₀ : 0 ≤ s) : Real.exp (-((s : ℝ) / 2 ^ 62)) ≤ 1 := by
  have : (0 : ℝ) ≤ s := by exact_mod_cast h₀
  exact Real.exp_le_one_iff.mpr (neg_nonpos.mpr (by positivity))

/-- On remainders `exp` stays above one half. -/
theorem exp_remainder_ge (h₁ : s < ln2_62) :
    (0.4999 : ℝ) ≤ Real.exp (-(s / 2 ^ 62)) ∧
      (2 : ℝ) ^ 61 - 0.06 ≤ 2 ^ 62 * Real.exp (-(s / 2 ^ 62)) := by
  have hs : (s : ℝ) ≤ ln2_62 := by exact_mod_cast h₁.le
  have hle : (s : ℝ) / 2 ^ 62 - Real.log 2 ≤ 0.06 / 2 ^ 62 := by
    have := ln2_62_near.2
    rw [sub_le_iff_le_add, div_le_iff₀ (by positivity)]
    linarith
  have hgap := exp_neg_sub_le (Real.log 2) ((s : ℝ) / 2 ^ 62)
  rw [Real.exp_neg, Real.exp_log two_pos] at hgap
  constructor
  · norm_num at hle ⊢
    linarith
  · linarith

/-- The remainder series as an integer: between one half and one. -/
theorem expRem_bounds (h₀ : 0 ≤ s) (h₁ : s < ln2_62) :
    2 ^ 61 - 4 ≤ expRem s ∧ expRem s ≤ 2 ^ 62 := by
  obtain ⟨hlo, hhi⟩ := expRem_near h₀ h₁
  obtain ⟨-, hge⟩ := exp_remainder_ge h₁
  have hle := exp_neg_le_one h₀
  constructor
  · have : ((2 ^ 61 - 4 - 1 : ℤ) : ℝ) < expRem s := by push_cast; linarith
    have := Int.cast_lt.mp this
    omega
  · have : (expRem s : ℝ) < ((2 ^ 62 + 1 : ℤ) : ℝ) := by push_cast; linarith
    have := Int.cast_lt.mp this
    omega

end Remainder

/-! ### The exponential -/

section Exp

variable {a : ℤ}

theorem expShift_nonneg (h₀ : 0 ≤ a) : 0 ≤ expShift a := Int.ediv_nonneg h₀ ln2_62_pos.le

/-- The value lies on the unit interval. -/
theorem expVal_bounds (a : ℤ) : 0 ≤ expVal a ∧ expVal a ≤ 2 ^ 62 := by
  obtain ⟨hs₀, hs₁⟩ := emod_ln2_bounds a
  obtain ⟨hlo, hhi⟩ := expRem_bounds hs₀ hs₁
  unfold expVal
  split_ifs
  · norm_num
  · have hnn : 0 ≤ expRem (a % ln2_62) := by omega
    exact ⟨Int.ediv_nonneg hnn (by positivity),
      (Int.ediv_le_self _ hnn).trans hhi⟩

/-- `exp(-a) = 2^-k · exp(-s)`, up to the rounding of `ln 2`. -/
theorem exp_split (h₀ : 0 ≤ a) :
    Real.exp (-(a / 2 ^ 62)) * 2 ^ (expShift a).toNat
        ≤ Real.exp (-((a % ln2_62 : ℤ) / 2 ^ 62)) ∧
      Real.exp (-((a % ln2_62 : ℤ) / 2 ^ 62)) * (1 - (expShift a).toNat * (0.06 / 2 ^ 62))
        ≤ Real.exp (-(a / 2 ^ 62)) * 2 ^ (expShift a).toNat := by
  obtain ⟨k, hk⟩ := Int.eq_ofNat_of_zero_le (expShift_nonneg h₀)
  obtain ⟨hd₀, hd₁⟩ := ln2_62_near
  have ha : (a : ℝ) = k * ln2_62 + (a % ln2_62 : ℤ) := by
    have := Int.mul_ediv_add_emod a ln2_62
    unfold expShift at hk
    rw [hk, mul_comm] at this
    exact_mod_cast this.symm
  rw [hk, Int.toNat_natCast]
  generalize ((a % ln2_62 : ℤ) : ℝ) = s at *
  generalize (ln2_62 : ℝ) = l at *
  have e : Real.exp (-((a : ℝ) / 2 ^ 62)) * 2 ^ k
      = Real.exp (-(s / 2 ^ 62)) * Real.exp (-(k * ((l - 2 ^ 62 * Real.log 2) / 2 ^ 62))) := by
    have h2 : (2 : ℝ) ^ k = Real.exp (k * Real.log 2) := by
      rw [Real.exp_nat_mul, Real.exp_log two_pos]
    rw [h2, ← Real.exp_add, ← Real.exp_add, ha]
    congr 1
    ring
  have hk₀ : (0 : ℝ) ≤ k := Nat.cast_nonneg k
  have hδ : (0 : ℝ) ≤ k * ((l - 2 ^ 62 * Real.log 2) / 2 ^ 62) :=
    mul_nonneg hk₀ (div_nonneg hd₀ (by positivity))
  have hδ' : k * ((l - 2 ^ 62 * Real.log 2) / 2 ^ 62) ≤ k * (0.06 / 2 ^ 62) :=
    mul_le_mul_of_nonneg_left (div_le_div_of_nonneg_right hd₁ (by positivity)) hk₀
  have hpos := Real.exp_pos (-(s / 2 ^ 62))
  rw [e]
  constructor
  · exact mul_le_of_le_one_right hpos.le (Real.exp_le_one_iff.mpr (neg_nonpos.mpr hδ))
  · refine mul_le_mul_of_nonneg_left ?_ hpos.le
    have := Real.one_sub_le_exp_neg (k * ((l - 2 ^ 62 * Real.log 2) / 2 ^ 62))
    linarith

/-- Underflow: past 62 halvings the true value is below one unit. -/
theorem exp_lt_of_shift_gt (h₀ : 0 ≤ a) (h : expShift a > lnScale) :
    2 ^ 62 * Real.exp (-((a : ℝ) / 2 ^ 62)) ≤ 1 := by
  have hle := (exp_split h₀).1
  have h₁ := exp_neg_le_one (emod_ln2_bounds a).1
  have hpow : (2 : ℝ) ^ 62 ≤ 2 ^ (expShift a).toNat :=
    pow_le_pow_right₀ one_le_two (by push_cast at h; omega)
  have := mul_le_mul_of_nonneg_left hpow (Real.exp_pos (-((a : ℝ) / 2 ^ 62))).le
  linarith

/-- **Accuracy of `exp_inner`**: five units, the underflow included. -/
theorem abs_expVal_sub_le (h₀ : 0 ≤ a) :
    |(expVal a : ℝ) - 2 ^ 62 * Real.exp (-(a / 2 ^ 62))| ≤ 5 := by
  unfold expVal
  split_ifs with h
  · have h₁ := exp_lt_of_shift_gt h₀ h
    have h₂ := Real.exp_pos (-((a : ℝ) / 2 ^ 62))
    rw [Int.cast_zero, zero_sub, abs_neg, abs_of_pos (by positivity)]
    linarith
  · obtain ⟨hs₀, hs₁⟩ := emod_ln2_bounds a
    obtain ⟨hlo, hhi⟩ := expRem_near hs₀ hs₁
    obtain ⟨hle, hge⟩ := exp_split h₀
    have hE₁ := exp_neg_le_one hs₀
    have hE₀ := Real.exp_pos (-(((a % ln2_62 : ℤ) : ℝ) / 2 ^ 62))
    have hk : ((expShift a).toNat : ℝ) ≤ 62 := by
      have : (expShift a).toNat ≤ 62 := by push_cast at h; omega
      exact_mod_cast this
    generalize (expShift a).toNat = k at *
    obtain ⟨h₁, h₂⟩ := floor_quotient (expRem (a % ln2_62)) k
    have hK : (1 : ℝ) ≤ 2 ^ k := one_le_pow₀ one_le_two
    have hKk : (k : ℝ) ≤ 2 ^ k := by exact_mod_cast k.lt_two_pow_self.le
    rw [div_lt_iff₀ (by positivity)] at h₂
    rw [le_div_iff₀ (by positivity)] at h₁
    generalize Real.exp (-(((a % ln2_62 : ℤ) : ℝ) / 2 ^ 62)) = E at *
    generalize Real.exp (-((a : ℝ) / 2 ^ 62)) = F at *
    generalize (2 : ℝ) ^ k = K at *
    -- the rounding of `ln 2`, `k` times, is a twentieth of a unit of `2^k`
    have hslack : 2 ^ 62 * E - 0.06 * K ≤ 2 ^ 62 * (F * K) := by
      have : E * (k * (0.06 / 2 ^ 62)) ≤ 1 * (K * (0.06 / 2 ^ 62)) :=
        mul_le_mul hE₁ (mul_le_mul_of_nonneg_right hKk (by positivity)) (by positivity)
          zero_le_one
      linarith
    have hup : ((expRem (a % ln2_62) / 2 ^ k : ℤ) - 2 ^ 62 * F) * K ≤ 1 * K := by linarith
    have hdn : -5 * K ≤ ((expRem (a % ln2_62) / 2 ^ k : ℤ) - 2 ^ 62 * F) * K := by linarith
    have hKpos : 0 < K := by linarith
    have := le_of_mul_le_mul_right hup hKpos
    have := le_of_mul_le_mul_right hdn hKpos
    exact abs_le.mpr ⟨by linarith, by linarith⟩

/-- **`exp_inner` meets its stated error on its whole envelope**: twenty units,
with the same result in every profile. -/
theorem expInner_error (h₀ : 0 ≤ a) (h₁ : a < 2 ^ 76) :
    ∃ v : ℤ, (∀ P, expInner P a = .ok v) ∧
      |(v : ℝ) - 2 ^ 62 * Real.exp (-((a : ℝ) / 2 ^ 62))| ≤ 20 := by
  refine ⟨expVal a, fun P => expInner_ok h₀ h₁, ?_⟩
  exact (abs_expVal_sub_le h₀).trans (by norm_num)

/-- The top of the envelope, where the result is 0. -/
theorem expInner_error_top :
    expInner Profile.debug (2 ^ 76 - 1) = .ok 0 ∧
      ∃ v : ℤ, (∀ P, expInner P (2 ^ 76 - 1) = .ok v) ∧
        |(v : ℝ) - 2 ^ 62 * Real.exp (-(((2 ^ 76 - 1 : ℤ) : ℝ) / 2 ^ 62))| ≤ 20 :=
  ⟨by decide +kernel, expInner_error (a := 2 ^ 76 - 1) (by norm_num) (by norm_num)⟩

end Exp

/-! ### Monotonicity over gaps -/

section Gap

variable {a b : ℤ}

/-- Within one reduction interval. -/
theorem expRem_anti_same (ha₀ : 0 ≤ a) (hb₁ : b < ln2_62) (h : a + 10 ≤ b) :
    expRem b ≤ expRem a := by
  have ha := expRem_near ha₀ (by omega)
  have hb := expRem_near (by omega) hb₁
  have hhalf := (exp_remainder_ge hb₁).1
  have hgap := exp_neg_sub_ge ((a : ℝ) / 2 ^ 62) ((b : ℝ) / 2 ^ 62)
  have hab : (10 : ℝ) ≤ b - a := by
    have : ((a + 10 : ℤ) : ℝ) ≤ b := by exact_mod_cast h
    push_cast at this
    linarith
  have hfall : (0.4999 : ℝ) * 10
      ≤ 2 ^ 62 * (Real.exp (-((b : ℝ) / 2 ^ 62)) * ((b : ℝ) / 2 ^ 62 - (a : ℝ) / 2 ^ 62)) := by
    calc (0.4999 : ℝ) * 10 ≤ Real.exp (-((b : ℝ) / 2 ^ 62)) * (b - a) :=
          mul_le_mul hhalf hab (by norm_num) (Real.exp_pos _).le
      _ = _ := by ring
  have : (expRem b : ℝ) ≤ expRem a := by linarith
  exact_mod_cast this

/-- Across one seam: `a` in one interval, `b` in the next, ten units apart. -/
theorem expRem_anti_next (ha₀ : 0 ≤ a) (ha₁ : a < ln2_62) (hb₀ : 0 ≤ b) (hb₁ : b < ln2_62)
    (h : a + 10 ≤ b + ln2_62) : expRem b ≤ 2 * expRem a := by
  have ha := expRem_near ha₀ ha₁
  have hb := expRem_near hb₀ hb₁
  have hln := ln2_62_near.2
  have hE := Real.exp_pos (-((b : ℝ) / 2 ^ 62))
  have hgap := exp_neg_sub_ge ((a : ℝ) / 2 ^ 62 - Real.log 2) ((b : ℝ) / 2 ^ 62)
  have htwo : Real.exp (-((a : ℝ) / 2 ^ 62 - Real.log 2)) = 2 * Real.exp (-((a : ℝ) / 2 ^ 62)) := by
    rw [neg_sub, sub_eq_add_neg, Real.exp_add, Real.exp_log two_pos]
  have hgapR : (10 : ℝ) ≤ b + ln2_62 - a := by
    have : ((a + 10 : ℤ) : ℝ) ≤ ((b + ln2_62 : ℤ) : ℝ) := by exact_mod_cast h
    push_cast at this
    linarith
  have haR : (a : ℝ) ≤ ln2_62 := by exact_mod_cast ha₁.le
  -- the fall across the seam, in units, is at least `8.2`
  have hfall : (8.2 : ℝ) ≤ Real.exp (-((b : ℝ) / 2 ^ 62)) * (b + 2 ^ 62 * Real.log 2 - a) := by
    rcases le_total (b : ℝ) (2 ^ 62 / 10) with hsmall | hlarge
    · have hnear : (0.9 : ℝ) ≤ Real.exp (-((b : ℝ) / 2 ^ 62)) := by
        have := Real.one_sub_le_exp_neg ((b : ℝ) / 2 ^ 62)
        have : (b : ℝ) / 2 ^ 62 ≤ 0.1 := by rw [div_le_iff₀ (by positivity)]; linarith
        linarith
      calc (8.2 : ℝ) ≤ 0.9 * 9.94 := by norm_num
        _ ≤ _ := mul_le_mul hnear (by linarith) (by norm_num) hE.le
    · have hhalf := (exp_remainder_ge hb₁).1
      calc (8.2 : ℝ) ≤ 0.4999 * 100 := by norm_num
        _ ≤ _ := mul_le_mul hhalf (by norm_num at hlarge; linarith) (by norm_num) hE.le
  have hscaled : Real.exp (-((b : ℝ) / 2 ^ 62)) * (b + 2 ^ 62 * Real.log 2 - a)
      = 2 ^ 62 * (Real.exp (-((b : ℝ) / 2 ^ 62))
          * ((b : ℝ) / 2 ^ 62 - ((a : ℝ) / 2 ^ 62 - Real.log 2))) := by ring
  rw [htwo] at hgap
  have : (expRem b : ℝ) ≤ 2 * expRem a := by linarith
  exact_mod_cast this

/-- **`exp_inner` is monotone over gaps of ten units**, across every seam. -/
theorem expVal_anti (h₀ : 0 ≤ a) (h : a + 10 ≤ b) : expVal b ≤ expVal a := by
  have hb₀ : 0 ≤ b := by omega
  by_cases hk : expShift b > lnScale
  · rw [expVal, if_pos hk]
    exact (expVal_bounds a).1
  obtain ⟨ha₁, ha₂⟩ := emod_ln2_bounds a
  obtain ⟨hb₁, hb₂⟩ := emod_ln2_bounds b
  have hea := Int.mul_ediv_add_emod a ln2_62
  have heb := Int.mul_ediv_add_emod b ln2_62
  have hmono : expShift a ≤ expShift b := Int.ediv_le_ediv ln2_62_pos (by omega)
  obtain ⟨i, hi⟩ := Int.eq_ofNat_of_zero_le (expShift_nonneg h₀)
  obtain ⟨j, hj⟩ := Int.eq_ofNat_of_zero_le (sub_nonneg.mpr hmono)
  have hij : expShift b = (i + j : ℕ) := by push_cast; omega
  -- comparing `expRem b / 2^(i+j)` with `expRem a / 2^i`
  have key : expRem (b % ln2_62) ≤ expRem (a % ln2_62) * 2 ^ j := by
    unfold expShift at hi hij
    rw [hi] at hea
    rw [hij] at heb
    rcases j with - | - | j
    · rw [pow_zero, mul_one]
      refine expRem_anti_same ha₁ hb₂ ?_
      rw [Nat.add_zero] at heb
      linarith
    · rw [zero_add, pow_one, mul_comm]
      refine expRem_anti_next ha₁ ha₂ hb₁ hb₂ ?_
      push_cast at heb
      linarith
    · have hA := (expRem_bounds ha₁ ha₂).1
      have hB := (expRem_bounds hb₁ hb₂).2
      have h4 : (4 : ℤ) ≤ 2 ^ (j + 1 + 1) := by
        calc (4 : ℤ) = 2 ^ 2 := by norm_num
          _ ≤ 2 ^ (j + 1 + 1) := pow_le_pow_right₀ (by norm_num) (by omega)
      nlinarith
  rw [expVal, expVal, if_neg hk, if_neg (by omega), hi, hij, Int.toNat_natCast,
    Int.toNat_natCast, pow_add]
  calc expRem (b % ln2_62) / (2 ^ i * 2 ^ j)
      ≤ expRem (a % ln2_62) * 2 ^ j / (2 ^ i * 2 ^ j) := Int.ediv_le_ediv (by positivity) key
    _ = expRem (a % ln2_62) / 2 ^ i := Int.mul_ediv_mul_of_pos_left _ _ (by positivity)

end Gap

end WeightedMath
