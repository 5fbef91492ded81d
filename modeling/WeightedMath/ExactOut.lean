/-
WeightedMath/ExactOut.lean

The exact-out trade, `calc_in_given_out`.

`(b/(b-a))^y - 1 = (1-p)/p` turns the base-above-one formula into the kernel's
domain.  The quote `r62` of a purchase, `(1-p)/p` rounded up, does not depend
on `balance_in`; the payment is its product with `balance_in`, rounded up.
With the 30% cap `p` stays above the pad (`ExactOut.paddedPower_pos`), so on
the envelope everything up to the quote is closed in every profile, and the
call *is* its last multiplication (`calcInGivenOut_eq`).

Three things follow.  With overflow checks the call halts only where the
payment does not fit (`calcInGivenOut_halts_only_on_payment`).  A returned
payment is at least the real price, so the curve does not fall
(`exactOut_keeps_curve`).  Without overflow checks there is one window, of
width `2^62` under the fit bound, in which the rounding carry of `mul_shr_up`
wraps the payment to zero (`wrapped_payment_iff`).
-/
import WeightedMath.Weighted
import WeightedMath.Curve

namespace WeightedMath

open Machine

/-- The envelope of `calcInGivenOut`: reserves of at least one unit, weights in
range, and at most 30% of the reserve asked for. -/
structure ExactOut (balanceIn weightIn balanceOut weightOut amountOut : ℕ) : Prop where
  in_pos : 1 ≤ balanceIn
  out_pos : 1 ≤ balanceOut
  weights : Weights weightIn weightOut
  amount_le : amountOut ≤ 3 * balanceOut / 10

/-- `p62`: the power at 62 bits, padded down. -/
def paddedPower (S wi bo wo o : ℕ) : ℕ :=
  (max (powVal S (ratioDownVal S (bo - o) bo) (exponentUp S wi wo) - 512) 0).toNat

/-- `r62`: `(1 - p) / p` at 62 bits, rounded up. -/
def quote (S wi bo wo o : ℕ) : ℕ :=
  ((2 ^ 62 - paddedPower S wi bo wo o) * 2 ^ 62) ⌈/⌉ paddedPower S wi bo wo o

section ExactOut

variable {S bi wi bo wo o : ℕ}

theorem ExactOut.amount_lt (h : ExactOut bi wi bo wo o) : o < bo := by
  have := h.amount_le
  have := h.out_pos
  omega

/-- At most 30% is taken, so at least 70% remains. -/
theorem ExactOut.real_base_bounds (h : ExactOut bi wi bo wo o) :
    0.7 ≤ ((bo : ℝ) - o) / bo ∧ ((bo : ℝ) - o) / bo ≤ 1 := by
  have hbo : (0 : ℝ) < bo := by exact_mod_cast h.out_pos
  have hcap : (10 : ℝ) * o ≤ 3 * bo := by
    have : 10 * o ≤ 3 * bo := by have := h.amount_le; omega
    exact_mod_cast this
  constructor
  · rw [le_div_iff₀ hbo]
    linarith
  · rw [div_le_one hbo]
    linarith [Nat.cast_nonneg (α := ℝ) o]

theorem ExactOut.real_exponent_bounds (h : ExactOut bi wi bo wo o) :
    (1 : ℝ) / 99 ≤ (wo : ℝ) / wi ∧ (wo : ℝ) / wi ≤ 99 := by
  have hwi : (0 : ℝ) < wi := by exact_mod_cast h.weights.in_pos
  have hin : (wi : ℝ) ≤ 99 * wo := by exact_mod_cast h.weights.in_ratio
  constructor
  · rw [div_le_div_iff₀ (by norm_num) hwi]
    linarith
  · rw [div_le_iff₀ hwi]
    exact_mod_cast h.weights.out_ratio

/-- The base stays within a unit and a half of those 70%. -/
theorem ExactOut.base_gt (h : ExactOut bi wi bo wo o) (hS : S ≤ 60) (hbo : bo < 2 ^ 128) :
    (7 : ℝ) / 10 * 2 ^ S - 1 - 2 ^ (2 * S) / 2 ^ 124 < ratioDownVal S (bo - o) bo := by
  have hgt := ratioDown_gt hS (show bo - o ≤ bo from Nat.sub_le bo o) h.out_pos hbo
  have hrest := mul_le_mul_of_nonneg_right h.real_base_bounds.1
    (show (0 : ℝ) ≤ 2 ^ S by positivity)
  rw [Nat.cast_sub h.amount_lt.le, mul_div_right_comm] at hgt
  linarith

theorem ExactOut.powDomain (h : ExactOut bi wi bo wo o) (h7 : 7 ≤ S) (hS : S ≤ 60)
    (hbo : bo < 2 ^ 128) :
    PowDomain S (ratioDownVal S (bo - o) bo) (exponentUp S wi wo) := by
  obtain ⟨hy₀, hy₁⟩ := h.weights.exponentUp_bounds (S := S)
  have hgt := h.base_gt hS hbo
  have hb : 0 < ratioDownVal S (bo - o) bo := by
    have h128 : (2 : ℝ) ^ 7 ≤ 2 ^ S := pow_le_pow_right₀ one_le_two h7
    have hloss : (2 : ℝ) ^ (2 * S) / 2 ^ 124 ≤ 1 := by
      rw [div_le_one (by positivity)]
      exact pow_le_pow_right₀ one_le_two (by omega)
    have : (0 : ℝ) < ratioDownVal S (bo - o) bo := by linarith
    exact_mod_cast this
  have hlt : ratioDownVal S (bo - o) bo ≤ 2 ^ S := by
    refine Nat.le_of_mul_le_mul_right ((ratioDown_le S (bo - o) bo).trans ?_) h.out_pos
    rw [mul_comm]
    exact Nat.mul_le_mul_left _ (Nat.sub_le bo o)
  exact ⟨by exact_mod_cast hb, by exact_mod_cast hlt, by exact_mod_cast hy₀,
    by exact_mod_cast hy₁⟩

theorem paddedPower_cast (S wi bo wo o : ℕ) :
    (paddedPower S wi bo wo o : ℤ)
      = max (powVal S (ratioDownVal S (bo - o) bo) (exponentUp S wi wo) - 512) 0 :=
  Int.toNat_of_nonneg (le_max_right _ _)

theorem paddedPower_le (S wi bo wo o : ℕ) : paddedPower S wi bo wo o ≤ 2 ^ 62 - 512 := by
  have h := (powVal_bounds S (ratioDownVal S (bo - o) bo) (exponentUp S wi wo)).2
  have hc := paddedPower_cast S wi bo wo o
  have : (paddedPower S wi bo wo o : ℤ) ≤ 2 ^ 62 - 512 := by
    rw [hc]
    exact max_le (by omega) (by norm_num)
  omega

/-- **The 30% cap keeps the padded power positive**: `0.7^99` is some 2100
units of 62 bits, the base has lost a hundred-thousandth of itself by then, and
error and pad take 725. -/
theorem ExactOut.paddedPower_pos (h : ExactOut bi wi bo wo o) (hbo : bo < 2 ^ 128) :
    0 < paddedPower 52 wi bo wo o := by
  have hdom := h.powDomain (S := 52) (by norm_num) (by norm_num) hbo
  obtain ⟨hY₀, hY₁⟩ := hdom.quotient_bounds
  have hbase : (0.69999 : ℝ) ≤ (ratioDownVal 52 (bo - o) bo : ℝ) / 2 ^ 52 := by
    have := h.base_gt (S := 52) (by norm_num) hbo
    rw [le_div_iff₀ (by positivity)]
    norm_num at this ⊢
    linarith
  have htrue : (0.69999 : ℝ) ^ 99
      ≤ truePow 52 (ratioDownVal 52 (bo - o) bo) (exponentUp 52 wi wo) := by
    have hle := hdom.ratio_le_one
    rw [truePow]
    rw [Int.cast_natCast] at *
    calc (0.69999 : ℝ) ^ 99 ≤ ((ratioDownVal 52 (bo - o) bo : ℝ) / 2 ^ 52) ^ 99 :=
          pow_le_pow_left₀ (by norm_num) hbase 99
      _ = ((ratioDownVal 52 (bo - o) bo : ℝ) / 2 ^ 52) ^ (99 : ℝ) := by
          rw [← Real.rpow_natCast]; norm_num
      _ ≤ _ := Real.rpow_le_rpow_of_exponent_ge (by linarith) hle hY₁
  have herr := (abs_le.mp (hdom.abs_powVal_sub_le (by norm_num))).1
  have hlarge : (1000 : ℝ) < 2 ^ 62 * (0.69999 : ℝ) ^ 99 := by norm_num
  have hreal : (512 : ℝ) < powVal 52 (ratioDownVal 52 (bo - o) bo) (exponentUp 52 wi wo) := by
    linarith
  have hint : 512 < powVal 52 (ratioDownVal 52 (bo - o) bo) (exponentUp 52 wi wo) := by
    exact_mod_cast hreal
  have hc := paddedPower_cast 52 wi bo wo o
  rw [max_eq_left (by omega)] at hc
  omega

/-! ### The overflow ledger -/

/-- `floor(0.3 · balance_out)` without overflowing `3 · balance_out`. -/
theorem cap_eq (n : ℕ) : n / 10 * 3 + n % 10 * 3 / 10 = 3 * n / 10 := by omega

theorem cap_ok {P : Profile} (hbo : bo < 2 ^ 128) :
    P.umul 128 (bo / 10) 3 = .ok (bo / 10 * 3) ∧ P.umul 128 (bo % 10) 3 = .ok (bo % 10 * 3) ∧
      P.uadd 128 (bo / 10 * 3) (bo % 10 * 3 / 10) = .ok (3 * bo / 10) := by
  refine ⟨Profile.umul_ok (by omega), Profile.umul_ok (by omega), ?_⟩
  rw [Profile.uadd_ok (by rw [cap_eq]; omega), cap_eq]

theorem quote_le (h : 0 < paddedPower S wi bo wo o) : quote S wi bo wo o ≤ 2 ^ 124 := by
  refine (ceilDiv_le_self _ h).trans ?_
  calc (2 ^ 62 - paddedPower S wi bo wo o) * 2 ^ 62 ≤ 2 ^ 62 * 2 ^ 62 :=
        Nat.mul_le_mul_right _ (Nat.sub_le _ _)
    _ = 2 ^ 124 := by norm_num

theorem ExactOut.quote_lt (h : ExactOut bi wi bo wo o) (hbo : bo < 2 ^ 128) :
    quote 52 wi bo wo o < 2 ^ 128 :=
  (quote_le (h.paddedPower_pos hbo)).trans_lt (by norm_num)

/-- **Ledger of `calc_in_given_out`**: where the padded power is positive, the
call is the final multiplication of `balance_in` by the quote. -/
theorem calcInGivenOut_eq (B : Build) (hbo : bo < 2 ^ 128) (h : ExactOut bi wi bo wo o)
    (ho : 1 ≤ o) (hp : 0 < paddedPower B.scale wi bo wo o) :
    calcInGivenOut B bi wi bo wo o
      = mulShrUp B.toProfile bi (quote B.scale wi bo wo o) 62 := by
  have hS := B.scale_le_sixty
  have hrest : bo - o < bo := Nat.sub_lt h.out_pos ho
  obtain ⟨hc₁, hc₂, hc₃⟩ := cap_ok (P := B.toProfile) hbo
  obtain ⟨hw, hy, hexp⟩ := exponentUp_ok B h.weights
  have hdom := h.powDomain B.seven_le_scale hS hbo
  have hpow := pow62Down_ok B hdom (by exact_mod_cast ratioDown_lt hrest)
  have hple := paddedPower_le B.scale wi bo wo o
  have hr := quote_le hp
  unfold calcInGivenOut
  rw [assert_ok ⟨h.in_pos, h.out_pos⟩, ok_bind, checkWeights_ok h.weights, ok_bind, hc₁, ok_bind,
    hc₂, ok_bind, hc₃, ok_bind, assert_ok h.amount_le, ok_bind, if_neg (show ¬ o = 0 by omega), hw,
    ok_bind, hy, ok_bind, hexp, ok_bind, Profile.usub_ok h.amount_lt.le, ok_bind,
    ratioDown_ok B hrest hbo, ok_bind, hpow, ok_bind, ← paddedPower_cast]
  unfold quote at *
  generalize paddedPower B.scale wi bo wo o = p at *
  have hcast : ((2 ^ 62 - p : ℕ) : ℤ) = 2 ^ 62 - p := by omega
  have hshl : (2 ^ 62 - p) <<< 62 < 2 ^ 128 := by rw [Nat.shiftLeft_eq]; omega
  unfold one62
  simp only [lnScale]
  rw [assert_ok (by exact_mod_cast hp), ok_bind, Profile.debugAssert_ok (by omega), ok_bind,
    Profile.isub_ok (fitsI_128.mpr (by omega)), ok_bind, ← hcast,
    Profile.asUnsigned_ok (by omega) (by omega), ok_bind, Int.toNat_natCast,
    Profile.ushl_ok (by norm_num) hshl, ok_bind, Profile.asUnsigned_ok (by omega) (by omega),
    ok_bind, Int.toNat_natCast, divCeil_ok hp, ok_bind, Nat.shiftLeft_eq,
    Profile.debugAssert_ok hr, ok_bind]

/-- At scale 52 the cap makes the padded power positive. -/
theorem calcInGivenOut_kernel (P : Profile) (hbo : bo < 2 ^ 128) (h : ExactOut bi wi bo wo o)
    (ho : 1 ≤ o) :
    calcInGivenOut (Build.kernel P) bi wi bo wo o = mulShrUp P bi (quote 52 wi bo wo o) 62 :=
  calcInGivenOut_eq (Build.kernel P) hbo h ho (h.paddedPower_pos hbo)

/-- A payment that fits is returned, in every profile. -/
theorem calcInGivenOut_ok (P : Profile) (hbi : bi < 2 ^ 128) (hbo : bo < 2 ^ 128)
    (h : ExactOut bi wi bo wo o) (ho : 1 ≤ o)
    (hfit : (bi * quote 52 wi bo wo o) ⌈/⌉ 2 ^ 62 < 2 ^ 128) :
    calcInGivenOut (Build.kernel P) bi wi bo wo o
      = .ok ((bi * quote 52 wi bo wo o) ⌈/⌉ 2 ^ 62) := by
  rw [calcInGivenOut_kernel P hbo h ho]
  exact mulShrUp_ok hbi (h.quote_lt hbo) (by norm_num) (by norm_num) hfit

/-- With overflow checks no other payment is. -/
theorem calcInGivenOut_eq_ok {P : Profile} {c : ℕ} (hP : P.overflowChecks = true)
    (hbi : bi < 2 ^ 128) (hbo : bo < 2 ^ 128) (h : ExactOut bi wi bo wo o) (ho : 1 ≤ o) :
    calcInGivenOut (Build.kernel P) bi wi bo wo o = .ok c ↔
      (bi * quote 52 wi bo wo o) ⌈/⌉ 2 ^ 62 < 2 ^ 128 ∧
        c = (bi * quote 52 wi bo wo o) ⌈/⌉ 2 ^ 62 := by
  rw [calcInGivenOut_kernel P hbo h ho]
  exact mulShrUp_eq_ok hbi (h.quote_lt hbo) (by norm_num) (by norm_num) hP

/-- Nothing asked for, nothing charged. -/
theorem calcInGivenOut_zero (B : Build) (hbo : bo < 2 ^ 128) (h : ExactOut bi wi bo wo 0) :
    calcInGivenOut B bi wi bo wo 0 = .ok 0 := by
  obtain ⟨hc₁, hc₂, hc₃⟩ := cap_ok (P := B.toProfile) hbo
  unfold calcInGivenOut
  rw [assert_ok ⟨h.in_pos, h.out_pos⟩, ok_bind, checkWeights_ok h.weights, ok_bind, hc₁, ok_bind,
    hc₂, ok_bind, hc₃, ok_bind, assert_ok h.amount_le, ok_bind, if_pos rfl, pure_eq_ok]

/-- A call that returns was made on the envelope. -/
theorem calcInGivenOut_envelope {B : Build} {c : ℕ} (hbo : bo < 2 ^ 128)
    (h : calcInGivenOut B bi wi bo wo o = .ok c) : ExactOut bi wi bo wo o := by
  obtain ⟨hc₁, hc₂, hc₃⟩ := cap_ok (P := B.toProfile) hbo
  unfold calcInGivenOut at h
  obtain ⟨_, h₁, h⟩ := bind_eq_ok.mp h
  obtain ⟨_, h₂, h⟩ := bind_eq_ok.mp h
  rw [hc₁, ok_bind, hc₂, ok_bind, hc₃, ok_bind] at h
  obtain ⟨_, h₃, -⟩ := bind_eq_ok.mp h
  obtain ⟨hi, ho⟩ := assert_eq_ok.mp h₁
  exact ⟨hi, ho, checkWeights_eq_ok.mp h₂, assert_eq_ok.mp h₃⟩

/-- **With overflow checks on, the call halts only because the payment does not
fit.**  On the envelope: the ratio is a base in `(0, 1)` and the weights are an
exponent in `(0, 99]`, so both domain assertions of `pow_62` hold; the padded
power is positive; everything up to and including `r62` is closed in every
profile, so that the call equals its last multiplication, and returns whatever
the profile where that cannot fail, at `balance_in = 1`; and with checks it
returns iff the payment `ceil(balance_in · r62 / 2^62)` is below `2^128`. -/
theorem calcInGivenOut_halts_only_on_payment (hbi : bi < 2 ^ 128) (hbo : bo < 2 ^ 128)
    (h : ExactOut bi wi bo wo o) (ho : 1 ≤ o) :
    ∃ (base exponent : Fixed) (p62 r62 : ℕ),
      (∀ P, ratioDown (Build.kernel P) (bo - o) bo = .ok base) ∧
      0 < base.repr ∧ base.repr < 2 ^ 52 ∧
      exponent.repr = exponentUp 52 wi wo ∧ 0 < exponent.repr ∧ exponent.repr ≤ 99 * 2 ^ 52 ∧
      (∀ P, pow62Down (Build.kernel P) base exponent = .ok (p62 : ℤ)) ∧ 0 < p62 ∧
      r62 = ((2 ^ 62 - p62) * 2 ^ 62) ⌈/⌉ p62 ∧
      (∀ P, calcInGivenOut (Build.kernel P) bi wi bo wo o = mulShrUp P bi r62 62) ∧
      (∀ P, calcInGivenOut (Build.kernel P) 1 wi bo wo o = .ok (r62 ⌈/⌉ 2 ^ 62)) ∧
      ∀ P, P.overflowChecks = true →
        ((∃ c, calcInGivenOut (Build.kernel P) bi wi bo wo o = .ok c) ↔
          (bi * r62) ⌈/⌉ 2 ^ 62 < 2 ^ 128) := by
  have hrest : bo - o < bo := Nat.sub_lt h.out_pos ho
  have hlt : ((ratioDownVal 52 (bo - o) bo : ℕ) : ℤ) < 2 ^ 52 := by
    exact_mod_cast ratioDown_lt hrest
  have hdom := h.powDomain (S := 52) (by norm_num) (by norm_num) hbo
  have hpos := h.paddedPower_pos hbo
  refine ⟨⟨ratioDownVal 52 (bo - o) bo⟩, ⟨exponentUp 52 wi wo⟩, paddedPower 52 wi bo wo o,
    quote 52 wi bo wo o, ?_, hdom.base_pos, hlt, rfl, hdom.exponent_pos, hdom.exponent_le, ?_,
    hpos, rfl, ?_, ?_, ?_⟩
  · intro P
    exact ratioDown_ok (Build.kernel P) hrest hbo
  · intro P
    rw [pow62Down_ok (Build.kernel P) hdom hlt, paddedPower_cast]
    rfl
  · intro P
    exact calcInGivenOut_kernel P hbo h ho
  · intro P
    have hone : (1 * quote 52 wi bo wo o) ⌈/⌉ 2 ^ 62 < 2 ^ 128 := by
      rw [one_mul]
      exact (ceilDiv_le_self _ (Nat.two_pow_pos 62)).trans_lt (h.quote_lt hbo)
    rw [calcInGivenOut_ok P (by norm_num) hbo ⟨le_rfl, h.out_pos, h.weights, h.amount_le⟩ ho hone,
      one_mul]
  · intro P hP
    constructor
    · rintro ⟨c, hc⟩
      exact ((calcInGivenOut_eq_ok hP hbi hbo h ho).mp hc).1
    · intro hfit
      exact ⟨_, calcInGivenOut_ok P hbi hbo h ho hfit⟩

/-- The tightest corner: 30% of a reserve near `2^128` at the weight ratio 99. -/
theorem calcInGivenOut_halts_only_on_payment_corner :
    ∃ (base exponent : Fixed) (p62 r62 : ℕ),
      (∀ P, ratioDown (Build.kernel P) (10 ^ 38 - 3 * 10 ^ 37) (10 ^ 38) = .ok base) ∧
      0 < base.repr ∧ base.repr < 2 ^ 52 ∧
      exponent.repr = exponentUp 52 1 99 ∧ 0 < exponent.repr ∧ exponent.repr ≤ 99 * 2 ^ 52 ∧
      (∀ P, pow62Down (Build.kernel P) base exponent = .ok (p62 : ℤ)) ∧ 0 < p62 ∧
      r62 = ((2 ^ 62 - p62) * 2 ^ 62) ⌈/⌉ p62 ∧
      (∀ P, calcInGivenOut (Build.kernel P) 1 1 (10 ^ 38) 99 (3 * 10 ^ 37)
        = mulShrUp P 1 r62 62) ∧
      (∀ P, calcInGivenOut (Build.kernel P) 1 1 (10 ^ 38) 99 (3 * 10 ^ 37)
        = .ok (r62 ⌈/⌉ 2 ^ 62)) ∧
      ∀ P, P.overflowChecks = true →
        ((∃ c, calcInGivenOut (Build.kernel P) 1 1 (10 ^ 38) 99 (3 * 10 ^ 37) = .ok c) ↔
          (1 * r62) ⌈/⌉ 2 ^ 62 < 2 ^ 128) :=
  calcInGivenOut_halts_only_on_payment (by norm_num) (by norm_num)
    ⟨by norm_num, by norm_num, ⟨by norm_num, by norm_num, by norm_num, by norm_num, by norm_num,
      by norm_num⟩, by norm_num⟩ (by norm_num)

/-- What a returned payment is: the quote times `balance_in`, rounded up. -/
theorem calcInGivenOut_payment {P : Profile} {c : ℕ} (hP : P.overflowChecks = true)
    (hbi : bi < 2 ^ 128) (hbo : bo < 2 ^ 128) (ho : 1 ≤ o)
    (hc : calcInGivenOut (Build.kernel P) bi wi bo wo o = .ok c) :
    c = (bi * quote 52 wi bo wo o) ⌈/⌉ 2 ^ 62 :=
  ((calcInGivenOut_eq_ok hP hbi hbo (calcInGivenOut_envelope hbo hc) ho).mp hc).2

/-- A returned payment is a word. -/
theorem calcInGivenOut_lt {P : Profile} {c : ℕ} (hP : P.overflowChecks = true)
    (hbi : bi < 2 ^ 128) (hbo : bo < 2 ^ 128)
    (hc : calcInGivenOut (Build.kernel P) bi wi bo wo o = .ok c) : c < 2 ^ 128 := by
  have h := calcInGivenOut_envelope hbo hc
  rcases Nat.eq_zero_or_pos o with rfl | ho
  · rw [calcInGivenOut_zero _ hbo h] at hc
    cases hc
    norm_num
  · obtain ⟨hfit, rfl⟩ := (calcInGivenOut_eq_ok hP hbi hbo h ho).mp hc
    exact hfit

/-! ### The curve -/

theorem ExactOut.le_real_base (h : ExactOut bi wi bo wo o) :
    (ratioDownVal S (bo - o) bo : ℝ) / 2 ^ S ≤ ((bo : ℝ) - o) / bo := by
  have hle := ratioDown_le_div S (bo - o) (show 0 < bo from h.out_pos)
  rwa [Nat.cast_sub h.amount_lt.le] at hle

/-- Base down and exponent up understate the power. -/
theorem ExactOut.truePow_le (h : ExactOut bi wi bo wo o) (h7 : 7 ≤ S) (hS : S ≤ 60)
    (hbo : bo < 2 ^ 128) :
    truePow S (ratioDownVal S (bo - o) bo) (exponentUp S wi wo)
      ≤ (((bo : ℝ) - o) / bo) ^ ((wo : ℝ) / wi) := by
  have hdom := h.powDomain h7 hS hbo
  have hpos := hdom.ratio_pos
  have hle := hdom.ratio_le_one
  rw [Int.cast_natCast] at hpos hle
  have hbase := h.le_real_base (S := S)
  have hexp := (exponentUp_near S wo (show 0 < wi from h.weights.in_pos)).1
  rw [truePow, Int.cast_natCast, Int.cast_natCast]
  calc ((ratioDownVal S (bo - o) bo : ℝ) / 2 ^ S) ^ ((exponentUp S wi wo : ℝ) / 2 ^ S)
      ≤ ((ratioDownVal S (bo - o) bo : ℝ) / 2 ^ S) ^ ((wo : ℝ) / wi) :=
        Real.rpow_le_rpow_of_exponent_ge hpos hle hexp
    _ ≤ (((bo : ℝ) - o) / bo) ^ ((wo : ℝ) / wi) :=
        Real.rpow_le_rpow hpos.le hbase (by positivity)

/-- The padded power understates the real one. -/
theorem ExactOut.paddedPower_le_real (h : ExactOut bi wi bo wo o) (h7 : 7 ≤ S) (hS : S ≤ 60)
    (hbo : bo < 2 ^ 128) :
    (paddedPower S wi bo wo o : ℝ) / 2 ^ 62 ≤ (((bo : ℝ) - o) / bo) ^ ((wo : ℝ) / wi) := by
  have hpow := h.truePow_le h7 hS hbo
  have hdom := h.powDomain h7 hS hbo
  have herr := (abs_le.mp (hdom.abs_powVal_sub_le hS)).2
  have hc : ((paddedPower S wi bo wo o : ℕ) : ℝ) = ((paddedPower S wi bo wo o : ℤ) : ℝ) := by
    push_cast; rfl
  rw [div_le_iff₀ (by positivity), hc, paddedPower_cast]
  push_cast
  exact max_le (by linarith) (mul_nonneg (hdom.truePow_pos.le.trans hpow) (by positivity))

/-- The quote rounds a reciprocal up, by less than one unit. -/
theorem quote_near (hp : 0 < paddedPower S wi bo wo o) :
    ((paddedPower S wi bo wo o : ℝ) / 2 ^ 62)⁻¹ - 1 ≤ (quote S wi bo wo o : ℝ) / 2 ^ 62 ∧
      (quote S wi bo wo o : ℝ) / 2 ^ 62
        < ((paddedPower S wi bo wo o : ℝ) / 2 ^ 62)⁻¹ - 1 + 1 / 2 ^ 62 := by
  have hple := paddedPower_le S wi bo wo o
  have hge := le_mul_ceilDiv ((2 ^ 62 - paddedPower S wi bo wo o) * 2 ^ 62) hp
  have hlt := ceilDiv_lt_add_one ((2 ^ 62 - paddedPower S wi bo wo o) * 2 ^ 62) hp
  unfold quote
  generalize paddedPower S wi bo wo o = p at *
  generalize ((2 ^ 62 - p) * 2 ^ 62) ⌈/⌉ p = q at *
  have hpR : (0 : ℝ) < p := by exact_mod_cast hp
  have hcast : (((2 ^ 62 - p) * 2 ^ 62 : ℕ) : ℝ) = (2 ^ 62 - p) * 2 ^ 62 := by
    rw [Nat.cast_mul, Nat.cast_sub (by omega), Nat.cast_pow, Nat.cast_ofNat]
  have e : ((p : ℝ) / 2 ^ 62)⁻¹ - 1 = ((2 : ℝ) ^ 62 - p) * 2 ^ 62 / p / 2 ^ 62 := by field_simp
  rw [e, ← hcast]
  constructor
  · refine div_le_div_of_nonneg_right ?_ (by positivity)
    rw [div_le_iff₀ hpR, mul_comm (q : ℝ)]
    exact_mod_cast hge
  · rw [← add_div]
    exact div_lt_div_of_pos_right hlt (by positivity)

/-- **The quote is at least the real premium** `(b/(b-a))^y - 1`. -/
theorem ExactOut.premium_le_quote (h : ExactOut bi wi bo wo o) (h7 : 7 ≤ S) (hS : S ≤ 60)
    (hbo : bo < 2 ^ 128) (hp : 0 < paddedPower S wi bo wo o) :
    ((bo : ℝ) / (bo - o)) ^ ((wo : ℝ) / wi) - 1 ≤ (quote S wi bo wo o : ℝ) / 2 ^ 62 := by
  have hreal := h.paddedPower_le_real h7 hS hbo
  have hbase : (0 : ℝ) ≤ ((bo : ℝ) - o) / bo := by linarith [h.real_base_bounds.1]
  have hpR : (0 : ℝ) < paddedPower S wi bo wo o := by exact_mod_cast hp
  rw [← inv_div ((bo : ℝ) - o), Real.inv_rpow hbase]
  calc (((((bo : ℝ) - o) / bo) ^ ((wo : ℝ) / wi))⁻¹) - 1
      ≤ ((paddedPower S wi bo wo o : ℝ) / 2 ^ 62)⁻¹ - 1 :=
        sub_le_sub_right (inv_anti₀ (div_pos hpR (by positivity)) hreal) 1
    _ ≤ (quote S wi bo wo o : ℝ) / 2 ^ 62 := (quote_near hp).1

/-- The quote is never zero: the pad keeps the power below one. -/
theorem quote_pos (hp : 0 < paddedPower S wi bo wo o) : 0 < quote S wi bo wo o := by
  have hple := paddedPower_le S wi bo wo o
  exact ceilDiv_pos (Nat.mul_pos (by omega) (by norm_num)) hp

/-- The trade keeps the height of the pool on its curve. -/
theorem calcInGivenOut_height_le {P : Profile} {c : ℕ} (hP : P.overflowChecks = true)
    (hbi : bi < 2 ^ 128) (hbo : bo < 2 ^ 128)
    (hc : calcInGivenOut (Build.kernel P) bi wi bo wo o = .ok c) :
    Curve.height wi wo bi bo ≤ Curve.height wi wo (bi + c) (bo - o) := by
  have h := calcInGivenOut_envelope hbo hc
  have hbiR : (0 : ℝ) < bi := by exact_mod_cast h.in_pos
  rcases Nat.eq_zero_or_pos o with rfl | ho
  · rw [calcInGivenOut_zero _ hbo h] at hc
    cases hc
    exact le_rfl
  · have hpay := calcInGivenOut_payment hP hbi hbo ho hc
    have hquote := h.premium_le_quote (S := 52) (by norm_num) (by norm_num) hbo
      (h.paddedPower_pos hbo)
    have hle := le_mul_ceilDiv (bi * quote 52 wi bo wo o) (Nat.two_pow_pos 62)
    rw [← hpay] at hle
    have hleR : (bi : ℝ) * (quote 52 wi bo wo o / 2 ^ 62) ≤ c := by
      rw [← mul_div_assoc, div_le_iff₀ (by positivity), mul_comm (c : ℝ)]
      exact_mod_cast hle
    have hprice : Curve.price wi wo bi bo o ≤ c :=
      (mul_le_mul_of_nonneg_left hquote hbiR.le).trans hleR
    have hcurve := (Curve.height_le_iff_price_le (n := wo) h.weights.in_pos hbiR
      (show (o : ℝ) < bo by exact_mod_cast h.amount_lt)
      (show (0 : ℝ) < bo by exact_mod_cast h.out_pos) (Nat.cast_nonneg c)).mpr hprice
    rw [← Nat.cast_sub h.amount_lt.le, ← Nat.cast_add, ← Curve.cast_height,
      ← Curve.cast_height] at hcurve
    exact Nat.cast_le.mp hcurve

/-- **Exact-out trades never lower the curve**: with overflow checks on, a
payment that is returned keeps the weighted product of the reserves over exact
integers, and is not zero unless nothing was asked for. -/
theorem exactOut_keeps_curve {P : Profile} {c : ℕ} (hP : P.overflowChecks = true)
    (hbi : bi < 2 ^ 128) (hbo : bo < 2 ^ 128)
    (hc : calcInGivenOut (Build.kernel P) bi wi bo wo o = .ok c) :
    bi ^ wi * bo ^ wo ≤ (bi + c) ^ wi * (bo - o) ^ wo ∧ (1 ≤ o → 1 ≤ c) := by
  refine ⟨calcInGivenOut_height_le hP hbi hbo hc, fun ho => ?_⟩
  have h := calcInGivenOut_envelope hbo hc
  rw [calcInGivenOut_payment hP hbi hbo ho hc]
  exact ceilDiv_pos (Nat.mul_pos h.in_pos (quote_pos (h.paddedPower_pos hbo))) (by norm_num)

/-- Three units out of ten against ten: the real price is `30 / 7`. -/
theorem exactOut_keeps_curve_three :
    10 ^ 1 * 10 ^ 1 ≤ (10 + 5) ^ 1 * (10 - 3) ^ 1 ∧ (1 ≤ 3 → 1 ≤ 5) :=
  exactOut_keeps_curve (P := Profile.checked) rfl (by norm_num) (by norm_num)
    (show calcInGivenOut (Build.kernel Profile.checked) 10 1 10 1 3 = .ok 5 by decide +kernel)

/-! ### The carry of the last addition

The fit assertion of `mul_shr_up` looks at the floor.  A product that is not a
multiple of `2^62` and lies within `2^62` of the bound passes it with the floor
`2^128 - 1`, and then the rounding carry has nowhere to go. -/

/-- A product in the open window of width `2^62` under the fit bound. -/
def InCarryWindow (n : ℕ) : Prop := 2 ^ 190 - 2 ^ 62 < n ∧ n < 2 ^ 190

/-- Below the fit bound the ceiling leaves the word exactly in the window. -/
theorem ceil_fits_iff {n : ℕ} (h : n < 2 ^ 190) :
    n ⌈/⌉ 2 ^ 62 < 2 ^ 128 ↔ ¬ InCarryWindow n := by
  have hle : n ⌈/⌉ 2 ^ 62 ≤ 2 ^ 128 - 1 ↔ n ≤ 2 ^ 62 * (2 ^ 128 - 1) := by
    rw [ceilDiv_le_iff_le_mul (Nat.two_pow_pos 62)]
  unfold InCarryWindow
  omega

/-- Only a payment larger than the reserve it is added to reaches the window. -/
theorem InCarryWindow.lt_quote {q b : ℕ} (hb : b < 2 ^ 128) (h : InCarryWindow (b * q)) :
    2 ^ 62 < q := by
  by_contra hq
  have : b * q ≤ (2 ^ 128 - 1) * 2 ^ 62 := Nat.mul_le_mul (by omega) (by omega)
  have := h.1
  omega

/-- For given weights, `balance_out` and `amount_out` at most one `balance_in`
is in the window. -/
theorem carryWindow_unique {q b b' : ℕ} (hb : b < 2 ^ 128) (h : InCarryWindow (b * q))
    (h' : InCarryWindow (b' * q)) : b' ≤ b := by
  by_contra hlt
  have hq := h.lt_quote hb
  have hstep : (b + 1) * q ≤ b' * q := Nat.mul_le_mul_right _ (by omega)
  rw [Nat.succ_mul] at hstep
  have := h.1
  have := h'.2
  omega

/-- **When the last addition wraps.**  In a build that wraps, the call
is its last multiplication by the quote `r62`, and it stops at an assertion or
returns the exact ceiling `ceil(balance_in · r62 / 2^62)` iff the product of
`balance_in` and the quote is outside the carry window. -/
theorem wrapped_payment_iff {P : Profile} (hP : P.overflowChecks = false) (hbi : bi < 2 ^ 128)
    (hbo : bo < 2 ^ 128) (h : ExactOut bi wi bo wo o) (ho : 1 ≤ o) :
    calcInGivenOut (Build.kernel P) bi wi bo wo o = mulShrUp P bi (quote 52 wi bo wo o) 62 ∧
      (((∃ msg, calcInGivenOut (Build.kernel P) bi wi bo wo o = .error (.assert msg)) ∨
          calcInGivenOut (Build.kernel P) bi wi bo wo o
            = .ok ((bi * quote 52 wi bo wo o) ⌈/⌉ 2 ^ 62)) ↔
        ¬ InCarryWindow (bi * quote 52 wi bo wo o)) := by
  have heq := calcInGivenOut_kernel P hbo h ho
  refine ⟨heq, ?_⟩
  rw [heq, mulShrUp_eq hbi (h.quote_lt hbo) (by norm_num) (by norm_num)]
  generalize bi * quote 52 wi bo wo o = n
  by_cases hfit : n < 2 ^ (128 + 62)
  · rw [if_pos hfit, Profile.settleU_wrap hP, ← ceil_fits_iff hfit]
    constructor
    · rintro (⟨msg, hmsg⟩ | hok)
      · cases hmsg
      · rw [← Except.ok.inj hok]
        exact Nat.mod_lt _ (by norm_num)
    · intro hlt
      exact Or.inr (congrArg _ (Nat.mod_eq_of_lt hlt))
  · rw [if_neg hfit]
    exact ⟨fun _ hw => hfit hw.2, fun _ => Or.inl ⟨_, rfl⟩⟩

end ExactOut

end WeightedMath
