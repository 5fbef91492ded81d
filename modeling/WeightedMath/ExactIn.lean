/-
WeightedMath/ExactIn.lean

The exact-in trade, `calc_out_given_in`.

It returns exactly on its envelope, with the same value in every profile
(`calcOutGivenIn_returns_iff`): after the five input checks nothing downstream
can fail.  And the payout never exceeds the real one (`outVal_le_payout`), so
the trade does not lower the weighted curve (`exactIn_keeps_curve`): base and
exponent both err toward an overstated power, and the pad of 512 units covers
the 213 of the pipeline.
-/
import WeightedMath.Weighted
import WeightedMath.Curve

namespace WeightedMath

open Machine

/-- The envelope of `calcOutGivenIn`: reserves of at least one unit, a total
deposit below `2^128`, weights in range. -/
structure ExactIn (balanceIn weightIn balanceOut weightOut amountIn : ℕ) : Prop where
  in_pos : 1 ≤ balanceIn
  out_pos : 1 ≤ balanceOut
  total_lt : balanceIn + amountIn < 2 ^ 128
  weights : Weights weightIn weightOut

/-- `1 - power` at 62 bits, padded down. -/
def outFraction (S bi wi wo a : ℕ) : ℤ :=
  max (2 ^ 62 - powVal S (ratioUpVal S bi (bi + a)) (exponentDown S wi wo) - 512) 0

def outVal (S bi wi bo wo a : ℕ) : ℕ :=
  if 2 ^ S ≤ ratioUpVal S bi (bi + a) then 0 else bo * (outFraction S bi wi wo a).toNat / 2 ^ 62

section ExactIn

variable {S bi wi bo wo a : ℕ}

theorem outFraction_bounds (S bi wi wo a : ℕ) :
    0 ≤ outFraction S bi wi wo a ∧ outFraction S bi wi wo a ≤ 2 ^ 62 - 512 := by
  have h := (powVal_bounds S (ratioUpVal S bi (bi + a)) (exponentDown S wi wo)).1
  refine ⟨le_max_right _ _, max_le (by omega) (by norm_num)⟩

/-- A base below one lies in the domain of the power. -/
theorem ExactIn.powDomain (h : ExactIn bi wi bo wo a) (h7 : 7 ≤ S) (hS : S ≤ 60)
    (hbase : ratioUpVal S bi (bi + a) < 2 ^ S) :
    PowDomain S (ratioUpVal S bi (bi + a)) (exponentDown S wi wo) := by
  obtain ⟨hy₀, hy₁⟩ := h.weights.exponentDown_bounds h7
  have hpos : 0 < bi := h.in_pos
  have hge := ratioUp_ge bi hS (show 0 < bi + a by omega) h.total_lt
  have hb : 0 < ratioUpVal S bi (bi + a) :=
    Nat.pos_of_mul_pos_right ((Nat.mul_pos hpos (Nat.two_pow_pos S)).trans_le hge)
  exact ⟨by exact_mod_cast hb, by exact_mod_cast hbase.le, by exact_mod_cast hy₀,
    by exact_mod_cast hy₁⟩

/-- **Ledger of `calc_out_given_in`**: on the envelope it returns `outVal`, in
every profile and at every scale. -/
theorem calcOutGivenIn_ok (B : Build) (hbo : bo < 2 ^ 128) (h : ExactIn bi wi bo wo a) :
    calcOutGivenIn B bi wi bo wo a = .ok (outVal B.scale bi wi bo wo a) := by
  have hS := B.scale_le_sixty
  obtain ⟨hw, hy, hexp⟩ := exponentDown_ok B h.weights
  have hratio := ratioUp_ok B (show bi ≤ bi + a from Nat.le_add_right bi a)
    (by have := h.in_pos; omega) h.total_lt
  unfold calcOutGivenIn outVal
  rw [assert_ok ⟨h.in_pos, h.out_pos⟩, ok_bind, checkedAdd_expect h.total_lt, ok_bind,
    checkWeights_ok h.weights, ok_bind, hw, ok_bind, hy, ok_bind, hexp, ok_bind, hratio, ok_bind,
    Build.one_repr]
  simp only [ge_iff_le]
  by_cases hbase : 2 ^ B.scale ≤ ratioUpVal B.scale bi (bi + a)
  · rw [if_pos hbase, if_pos (by exact_mod_cast hbase), pure_eq_ok]
  · have hlt := not_le.mp hbase
    have hdom := h.powDomain B.seven_le_scale hS hlt
    have homp := oneMinusPow62_ok B hdom (by exact_mod_cast hlt)
    obtain ⟨ho₀, ho₁⟩ := outFraction_bounds B.scale bi wi wo a
    rw [if_neg hbase, if_neg (by exact_mod_cast hbase), homp, ok_bind, ← outFraction.eq_1]
    generalize outFraction B.scale bi wi wo a = o at *
    obtain ⟨n, rfl⟩ := Int.eq_ofNat_of_zero_le ho₀
    have hn : n < 2 ^ 62 := by norm_num at ho₁ ⊢; omega
    have hfit : bo * n < 2 ^ (128 + 62) := by
      rw [pow_add]
      exact Nat.mul_lt_mul'' hbo hn
    unfold one62
    rw [Profile.debugAssert_ok ⟨ho₀, by omega⟩, ok_bind,
      Profile.asUnsigned_ok ho₀ (by norm_num at ho₁ ⊢; omega), ok_bind, Int.toNat_natCast,
      mulShr_ok hbo (hn.trans (by norm_num)) (by norm_num) (by norm_num) hfit]

/-- A call that returns was made on the envelope. -/
theorem calcOutGivenIn_envelope {B : Build} {out : ℕ}
    (h : calcOutGivenIn B bi wi bo wo a = .ok out) : ExactIn bi wi bo wo a := by
  unfold calcOutGivenIn at h
  obtain ⟨_, h₁, h⟩ := bind_eq_ok.mp h
  obtain ⟨_, h₂, h⟩ := bind_eq_ok.mp h
  obtain ⟨_, h₃, h⟩ := bind_eq_ok.mp h
  obtain ⟨hbi, hbo⟩ := assert_eq_ok.mp h₁
  exact ⟨hbi, hbo, (checkedAdd_expect_eq_ok.mp h₂).1, checkWeights_eq_ok.mp h₃⟩

/-- What a call returned is `outVal`. -/
theorem calcOutGivenIn_eq {B : Build} {out : ℕ} (hbo : bo < 2 ^ 128)
    (h : calcOutGivenIn B bi wi bo wo a = .ok out) : out = outVal B.scale bi wi bo wo a := by
  rw [calcOutGivenIn_ok B hbo (calcOutGivenIn_envelope h)] at h
  exact (Except.ok.inj h).symm

/-- **`calc_out_given_in` halts exactly on its envelope.**  It returns one and
the same value in all profiles — assertions and overflow checks on or off,
lossy shifts and casts trapped or not — iff the reserves are not empty, the
total deposit fits and the weights are in range; and no single profile returns
on any other input. -/
theorem calcOutGivenIn_returns_iff (hbo : bo < 2 ^ 128) :
    ((∃ out, ∀ P, calcOutGivenIn (Build.kernel P) bi wi bo wo a = .ok out) ↔
        ExactIn bi wi bo wo a) ∧
      ∀ P, (∃ out, calcOutGivenIn (Build.kernel P) bi wi bo wo a = .ok out) ↔
        ExactIn bi wi bo wo a := by
  have hret : ExactIn bi wi bo wo a →
      ∀ P, calcOutGivenIn (Build.kernel P) bi wi bo wo a = .ok (outVal 52 bi wi bo wo a) :=
    fun h P => calcOutGivenIn_ok (Build.kernel P) hbo h
  refine ⟨⟨?_, fun h => ⟨_, hret h⟩⟩, fun P => ⟨?_, fun h => ⟨_, hret h P⟩⟩⟩
  · rintro ⟨out, h⟩
    exact calcOutGivenIn_envelope (h Profile.checked)
  · rintro ⟨out, h⟩
    exact calcOutGivenIn_envelope h

/-- On either side of the edge: a total deposit of `2^128 - 1` is taken in every
profile, one of `2^128` in none. -/
theorem calcOutGivenIn_returns_iff_edge :
    (∃ out, ∀ P, calcOutGivenIn (Build.kernel P) (2 ^ 127) 1 1 1 (2 ^ 127 - 1) = .ok out) ∧
      ∀ P, ¬ ∃ out, calcOutGivenIn (Build.kernel P) (2 ^ 127) 1 1 1 (2 ^ 127) = .ok out := by
  constructor
  · exact (calcOutGivenIn_returns_iff (by norm_num)).1.mpr ⟨by norm_num, by norm_num, by norm_num,
      by norm_num, by norm_num, by norm_num, by norm_num, by norm_num, by norm_num⟩
  · intro P hret
    have htotal := (((calcOutGivenIn_returns_iff (by norm_num)).2 P).mp hret).total_lt
    norm_num at htotal

/-! ### The curve -/

theorem ExactIn.real_base_bounds (h : ExactIn bi wi bo wo a) :
    (0 : ℝ) < (bi : ℝ) / (bi + a) ∧ (bi : ℝ) / (bi + a) ≤ 1 := by
  have hbi : (0 : ℝ) < bi := by exact_mod_cast h.in_pos
  have ha : (0 : ℝ) ≤ a := Nat.cast_nonneg a
  refine ⟨by positivity, ?_⟩
  rw [div_le_one (by positivity)]
  linarith

theorem ExactIn.real_exponent_bounds (h : ExactIn bi wi bo wo a) :
    (0 : ℝ) ≤ (wi : ℝ) / wo ∧ (wi : ℝ) / wo ≤ 99 := by
  have hwo : (0 : ℝ) < wo := by exact_mod_cast h.weights.out_pos
  refine ⟨by positivity, ?_⟩
  rw [div_le_iff₀ hwo]
  exact_mod_cast h.weights.in_ratio

theorem ExactIn.real_base_le (h : ExactIn bi wi bo wo a) (hS : S ≤ 60) :
    (bi : ℝ) / (bi + a) ≤ (ratioUpVal S bi (bi + a) : ℝ) / 2 ^ S := by
  have hle := div_le_ratioUp bi hS (show 0 < bi + a by have := h.in_pos; omega) h.total_lt
  rwa [Nat.cast_add] at hle

/-- Base up and exponent down overstate the power. -/
theorem ExactIn.real_power_le (h : ExactIn bi wi bo wo a) (hS : S ≤ 60) :
    ((bi : ℝ) / (bi + a)) ^ ((wi : ℝ) / wo)
      ≤ truePow S (ratioUpVal S bi (bi + a)) (exponentDown S wi wo) := by
  obtain ⟨hr₀, hr₁⟩ := h.real_base_bounds
  have hbase := h.real_base_le hS
  have hexp := (exponentDown_near S wi (show 0 < wo from h.weights.out_pos)).1
  rw [truePow, Int.cast_natCast, Int.cast_natCast]
  calc ((bi : ℝ) / (bi + a)) ^ ((wi : ℝ) / wo)
      ≤ ((bi : ℝ) / (bi + a)) ^ ((exponentDown S wi wo : ℝ) / 2 ^ S) :=
        Real.rpow_le_rpow_of_exponent_ge hr₀ hr₁ hexp
    _ ≤ ((ratioUpVal S bi (bi + a) : ℝ) / 2 ^ S) ^ ((exponentDown S wi wo : ℝ) / 2 ^ S) :=
        Real.rpow_le_rpow hr₀.le hbase (by positivity)

/-- The padded fraction understates `1 - power`. -/
theorem ExactIn.outFraction_le (h : ExactIn bi wi bo wo a) (h7 : 7 ≤ S) (hS : S ≤ 60)
    (hbase : ratioUpVal S bi (bi + a) < 2 ^ S) :
    (outFraction S bi wi wo a : ℝ) / 2 ^ 62
      ≤ 1 - ((bi : ℝ) / (bi + a)) ^ ((wi : ℝ) / wo) := by
  have hdom := h.powDomain h7 hS hbase
  have hpow := h.real_power_le hS
  have herr := (abs_le.mp (hdom.abs_powVal_sub_le hS)).1
  have hone := hdom.truePow_le_one
  rw [div_le_iff₀ (by positivity), outFraction]
  push_cast
  refine max_le (by linarith) (mul_nonneg (by linarith) (by positivity))

/-- **The payout never exceeds the real one**, at any scale. -/
theorem ExactIn.outVal_le_payout (h : ExactIn bi wi bo wo a) (h7 : 7 ≤ S) (hS : S ≤ 60) :
    (outVal S bi wi bo wo a : ℝ) ≤ Curve.payout wi wo bi bo a := by
  have hbi : (0 : ℝ) < bi := by exact_mod_cast h.in_pos
  unfold outVal Curve.payout
  split_ifs with hbase
  · obtain ⟨hr₀, hr₁⟩ := h.real_base_bounds
    have := Real.rpow_le_one hr₀.le hr₁ h.real_exponent_bounds.1
    rw [Nat.cast_zero]
    exact mul_nonneg (Nat.cast_nonneg bo) (by linarith)
  · have hle := h.outFraction_le h7 hS (not_le.mp hbase)
    obtain ⟨ho₀, -⟩ := outFraction_bounds S bi wi wo a
    generalize outFraction S bi wi wo a = o at *
    obtain ⟨n, rfl⟩ := Int.eq_ofNat_of_zero_le ho₀
    rw [Int.toNat_natCast]
    rw [Int.cast_natCast] at hle
    calc ((bo * n / 2 ^ 62 : ℕ) : ℝ) ≤ ((bo * n : ℕ) : ℝ) / (2 ^ 62 : ℕ) := Nat.cast_div_le
      _ = bo * (n / 2 ^ 62) := by push_cast; ring
      _ ≤ _ := mul_le_mul_of_nonneg_left hle (Nat.cast_nonneg bo)

/-- The pad keeps a payout strictly below the reserve. -/
theorem outVal_lt (S bi wi wo a : ℕ) (h : 1 ≤ bo) : outVal S bi wi bo wo a < bo := by
  unfold outVal
  split_ifs
  · omega
  · obtain ⟨ho₀, ho₁⟩ := outFraction_bounds S bi wi wo a
    rw [Nat.div_lt_iff_lt_mul (by positivity)]
    exact Nat.mul_lt_mul_of_pos_left (by norm_num at ho₁ ⊢; omega) (by omega)

/-- A payout leaves something in the reserve. -/
theorem calcOutGivenIn_lt {B : Build} {out : ℕ} (hbo : bo < 2 ^ 128)
    (h : calcOutGivenIn B bi wi bo wo a = .ok out) : out < bo := by
  rw [calcOutGivenIn_eq hbo h]
  exact outVal_lt _ _ _ _ _ (calcOutGivenIn_envelope h).out_pos

/-- The trade keeps the height of the pool on its curve. -/
theorem ExactIn.height_le (h : ExactIn bi wi bo wo a) (h7 : 7 ≤ S) (hS : S ≤ 60) :
    Curve.height wi wo bi bo
      ≤ Curve.height wi wo (bi + a) (bo - outVal S bi wi bo wo a) := by
  have hlt := outVal_lt S bi wi wo a h.out_pos
  have hcurve := (Curve.height_le_iff_le_payout (m := wi) h.weights.out_pos
    (show (0 : ℝ) < bi by exact_mod_cast h.in_pos) (Nat.cast_nonneg a)
    (show (0 : ℝ) < bo by exact_mod_cast h.out_pos) (by exact_mod_cast hlt.le)).mpr
    (h.outVal_le_payout h7 hS)
  rw [← Nat.cast_sub hlt.le, ← Nat.cast_add, ← Curve.cast_height, ← Curve.cast_height] at hcurve
  exact Nat.cast_le.mp hcurve

/-- **Exact-in trades never lower the curve**: on the envelope the call returns
a payout within the reserve, and over exact integers the weighted product of
the new reserves is at least that of the old ones. -/
theorem exactIn_keeps_curve (P : Profile) (hbo : bo < 2 ^ 128) (h : ExactIn bi wi bo wo a) :
    ∃ out, calcOutGivenIn (Build.kernel P) bi wi bo wo a = .ok out ∧ out ≤ bo ∧
      bi ^ wi * bo ^ wo ≤ (bi + a) ^ wi * (bo - out) ^ wo :=
  ⟨outVal 52 bi wi bo wo a, calcOutGivenIn_ok (Build.kernel P) hbo h,
    (outVal_lt 52 bi wi wo a h.out_pos).le, h.height_le (by norm_num) (by norm_num)⟩

/-- A hundredfold sale into a 99/1 pool. -/
theorem exactIn_keeps_curve_sale :
    ∃ out, calcOutGivenIn (Build.kernel Profile.wrapping) 100 99 500 1 10000 = .ok out ∧
      out ≤ 500 ∧ 100 ^ 99 * 500 ^ 1 ≤ (100 + 10000) ^ 99 * (500 - out) ^ 1 :=
  exactIn_keeps_curve Profile.wrapping (by norm_num)
    ⟨by norm_num, by norm_num, by norm_num, by norm_num, by norm_num, by norm_num, by norm_num,
      by norm_num, by norm_num⟩

end ExactIn

end WeightedMath
