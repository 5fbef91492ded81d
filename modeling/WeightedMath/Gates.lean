/-
WeightedMath/Gates.lean

The kernel gates of `tests/differential.rs` for the power and its bricks: each
runs over the cases of a fixture and stops at the first result outside its band.

A case is *truthful* if its fields are what the oracle documents them to be, the
inputs on the grid of `2^-40` and the truth as `floor (v * 2^qbits)`, with a `v`
that need not be exact: it may be off by `2^-62`.  Nothing else is known about
it.  On truthful cases the gates pass, whatever the cases are and at every scale
from 40, where the grid starts, to 54:

    |pow - 2^S * v| <= 1/2 + 214 / 2^(62 - S) <= 2        for S <= 54,

so the pad of two ulps covers the error, and the budget of three covers the pad.
The quantizer's ceiling may be one too low; that costs a unit on the side where
there is one to spare.
-/
import WeightedMath.Harness
import WeightedMath.Elementary

namespace WeightedMath

open Machine

/-! ### Bands -/

/-- `{:?}` of a struct with string fields. -/
def debugStruct (name : String) (fields : List (String × String)) : String :=
  name ++ " \x7b " ++ ", ".intercalate (fields.map fun f => f.1 ++ ": " ++ debugStr f.2) ++ " \x7d"

def assertBand (band : Band) (what context : String) : Exec Unit :=
  match band with
  | .ok _ => .ok ()
  | .wrongSide byUlps =>
      .error (.explicit ("DIRECTION VIOLATION (fund-leak side): " ++ what ++ " off by "
        ++ byUlps.repr ++ " ulps in " ++ context))
  | .tooFar errUlps boundUlps =>
      .error (.explicit ("magnitude violation: " ++ what ++ " err " ++ errUlps.repr
        ++ " ulps > bound " ++ boundUlps.repr ++ " in " ++ context))

/-! ### The power -/

structure PowCase where
  zone : String
  base : String
  baseS40 : String
  exponent : String
  exponentS40 : String
  powExact : String
  powExactQ128 : String

def PowCase.debug (c : PowCase) : String :=
  debugStruct "PowCase" [("zone", c.zone), ("base", c.base), ("base_s40", c.baseS40),
    ("exponent", c.exponent), ("exponent_s40", c.exponentS40), ("pow_exact", c.powExact),
    ("pow_exact_q128", c.powExactQ128)]

/-- The body of `kernel_pow_gate`: `pow_up` and `pow_down` at the ulp level,
signed one-sided, and their output domain. -/
def kernelPowCase (B : Build) (c : PowCase) : Exec Unit := do
  let base ← s40ToFixed B c.baseS40
  let expo ← s40ToFixed B c.exponentS40
  let (tFloor, tCeil) ← qToScaleBounds B c.powExactQ128 128
  let up ← powUp B base expo
  let band ← checkDirectional B.toProfile tFloor tCeil up.repr .up boundUlps
  assertBand band "pow_up" c.debug
  let down ← powDown B base expo
  let band ← checkDirectional B.toProfile tFloor tCeil down.repr .down boundUlps
  assertBand band "pow_down" c.debug
  assert (up.repr > 0 ∧ up.repr ≤ B.one.repr) ("pow_up out of (0,1] in " ++ c.debug)
  assert (down.repr ≥ 0 ∧ down.repr ≤ up.repr) ("pow_down out of range in " ++ c.debug)

def kernelPowGate (B : Build) (cases : List PowCase) : Exec Unit := cases.forM (kernelPowCase B)

/-! ### The bricks -/

structure LnCase where
  x : String
  xS40 : String
  negLnExact : String
  negLnQ116 : String

def LnCase.debug (c : LnCase) : String :=
  debugStruct "LnCase" [("x", c.x), ("x_s40", c.xS40), ("neg_ln_exact", c.negLnExact),
    ("neg_ln_q116", c.negLnQ116)]

structure ExpCase where
  negX : String
  negXS40 : String
  expExact : String
  expQ128 : String
  negExpm1Exact : String
  negExpm1Q128 : String

def ExpCase.debug (c : ExpCase) : String :=
  debugStruct "ExpCase" [("neg_x", c.negX), ("neg_x_s40", c.negXS40), ("exp_exact", c.expExact),
    ("exp_q128", c.expQ128), ("neg_expm1_exact", c.negExpm1Exact),
    ("neg_expm1_q128", c.negExpm1Q128)]

structure LnExpFixture where
  ln : List LnCase
  exp : List ExpCase

def kernelLnCase (B : Build) (c : LnCase) : Exec Unit := do
  let x ← s40ToFixed B c.xS40
  let (tFloor, tCeil) ← qToScaleBounds B c.negLnQ116 116
  let actual ← ln B x
  assert (actual.repr ≤ 0) ("ln of x <= 1 must be <= 0 in " ++ c.debug)
  let neg ← B.ineg 128 actual.repr
  let band ← checkTwoSided B.toProfile tFloor tCeil neg boundUlps
  assertBand band "ln" c.debug

def kernelExpCase (B : Build) (c : ExpCase) : Exec Unit := do
  let t ← s40ToFixed B c.negXS40
  let x ← B.ineg 128 t.repr
  let (tFloor, tCeil) ← qToScaleBounds B c.expQ128 128
  let actual ← exp B ⟨x⟩
  let band ← checkTwoSided B.toProfile tFloor tCeil actual.repr boundUlps
  assertBand band "exp" c.debug
  let (mFloor, mCeil) ← qToScaleBounds B c.negExpm1Q128 128
  let em1 ← expm1 B ⟨x⟩
  assert (em1.repr ≤ 0) ("expm1 of x <= 0 must be <= 0 in " ++ c.debug)
  let neg ← B.ineg 128 em1.repr
  let band ← checkTwoSided B.toProfile mFloor mCeil neg boundUlps
  assertBand band "expm1" c.debug

/-- Diagnostic tier: `ln`, `exp` and `expm1`, two-sided. -/
def kernelLnExpDiagnostics (B : Build) (fixture : LnExpFixture) : Exec Unit := do
  fixture.ln.forM (kernelLnCase B)
  fixture.exp.forM (kernelExpCase B)

/-! ### Truth on the grid -/

/-- `floor(v * 2^bits)`, the integer of a truth in q-format. -/
noncomputable def qBits (v : ℝ) (bits : ℕ) : ℕ := ⌊v * ((2 ^ bits : ℕ) : ℝ)⌋₊

section Grid

variable {v : ℝ} {S q : ℕ}

/-- What the quantizer recovers is the floor of the truth. -/
theorem floor_qBits (h₀ : 0 ≤ v) (hq : S ≤ q) :
    ((qBits v q / 2 ^ (q - S) : ℕ) : ℤ) = ⌊v * 2 ^ S⌋ := by
  rw [qBits, ← Nat.floor_div_natCast, Int.natCast_floor_eq_floor (by positivity)]
  congr 1
  have hpow : ((2 ^ q : ℕ) : ℝ) = 2 ^ S * ((2 ^ (q - S) : ℕ) : ℝ) := by
    push_cast
    rw [← pow_add, Nat.add_sub_cancel' hq]
  have hne : ((2 ^ (q - S) : ℕ) : ℝ) ≠ 0 := by positivity
  rw [hpow, ← mul_assoc, mul_div_cancel_right₀ _ hne]

/-- And a ceiling that is not too high. -/
theorem ceil_qBits_le (h₀ : 0 ≤ v) (hq : S ≤ q) {z : ℤ} (hz : v * 2 ^ S ≤ z) :
    ((qBits v q ⌈/⌉ 2 ^ (q - S) : ℕ) : ℤ) ≤ z := by
  obtain ⟨k, rfl⟩ : ∃ k : ℕ, z = k := by
    refine ⟨z.toNat, (Int.toNat_of_nonneg ?_).symm⟩
    have : (0 : ℝ) ≤ z := le_trans (by positivity) hz
    exact_mod_cast this
  rw [Nat.cast_le, ceilDiv_le_iff_le_mul (Nat.two_pow_pos _)]
  have hle : v * ((2 ^ q : ℕ) : ℝ) ≤ ((2 ^ (q - S) * k : ℕ) : ℝ) := by
    have hpow : ((2 ^ q : ℕ) : ℝ) = 2 ^ (q - S) * 2 ^ S := by
      push_cast
      rw [← pow_add, Nat.sub_add_cancel hq]
    have := mul_le_mul_of_nonneg_left hz (show (0 : ℝ) ≤ 2 ^ (q - S) by positivity)
    rw [hpow]
    push_cast at this ⊢
    linarith
  have hfloor := Nat.floor_le (show 0 ≤ v * ((2 ^ q : ℕ) : ℝ) by positivity)
  exact_mod_cast hfloor.trans hle

theorem qBits_lt (h₀ : 0 ≤ v) {n : ℕ} (h : v * ((2 ^ q : ℕ) : ℝ) < n) : qBits v q < n :=
  (Nat.floor_lt (by positivity)).mpr h

end Grid

/-! ### Within two units -/

section Units

variable {S : ℕ} {x : ℤ}

/-- A 62-bit value off by at most 384 units rounds to within two units of a
scale up to 54. -/
theorem abs_nearest_near (hS : S ≤ 54) {v : ℤ} {T E : ℝ} (h : |(v : ℝ) - 2 ^ 62 * T| ≤ E)
    (hE : E ≤ 384) : |(nearest S v : ℝ) - 2 ^ S * T| ≤ 2 := by
  obtain ⟨h₁, h₂⟩ := abs_le.mp (abs_nearest_sub_le (S := S) (by omega) v)
  obtain ⟨h₃, h₄⟩ := abs_le.mp h
  have hunit : (2 : ℝ) ^ 8 ≤ 2 ^ (62 - S) := pow_le_pow_right₀ one_le_two (by omega)
  have hsplit : (2 : ℝ) ^ 62 = 2 ^ S * 2 ^ (62 - S) := by
    rw [← pow_add, Nat.add_sub_cancel' (by omega)]
  rw [hsplit, mul_right_comm] at h₃ h₄
  generalize (2 : ℝ) ^ (62 - S) = u at *
  generalize (2 : ℝ) ^ S * T = t at *
  norm_num at hunit
  have hu : 0 < u := by linarith
  have hlo : t - 3 / 2 ≤ v / u := by
    rw [le_div_iff₀ hu]
    linarith
  have hhi : v / u ≤ t + 3 / 2 := by
    rw [div_le_iff₀ hu]
    linarith
  exact abs_le.mpr ⟨by linarith, by linarith⟩

/-- Past the saturation point the real exponential is below a unit. -/
theorem two_pow_mul_exp_le_one (hS : S ≤ 60) {y : ℝ} (hy : y ≤ -64) :
    2 ^ S * Real.exp y ≤ 1 := by
  have hone : (2 : ℝ) ≤ Real.exp 1 := by
    have := Real.add_one_le_exp (1 : ℝ)
    linarith
  have htwo : (2 : ℝ) ^ 64 ≤ Real.exp 64 := by
    calc (2 : ℝ) ^ 64 ≤ Real.exp 1 ^ 64 := pow_le_pow_left₀ (by norm_num) hone 64
      _ = Real.exp 64 := by rw [← Real.exp_nat_mul]; norm_num
  calc (2 : ℝ) ^ S * Real.exp y ≤ 2 ^ 64 * Real.exp (-64) := by
        apply mul_le_mul _ (Real.exp_le_exp.mpr hy) (Real.exp_pos y).le (by positivity)
        exact pow_le_pow_right₀ one_le_two (by omega)
    _ ≤ Real.exp 64 * Real.exp (-64) := mul_le_mul_of_nonneg_right htwo (Real.exp_pos _).le
    _ = 1 := by rw [← Real.exp_add, add_neg_cancel, Real.exp_zero]

/-- A truth that is off by a unit at 62 bits costs a unit. -/
theorem abs_sub_truth_le {a T v E : ℝ} (h : |a - 2 ^ 62 * T| ≤ E) (hv : |v - T| ≤ 1 / 2 ^ 62) :
    |a - 2 ^ 62 * v| ≤ E + 1 := by
  obtain ⟨h₁, h₂⟩ := abs_le.mp h
  obtain ⟨h₃, h₄⟩ := abs_le.mp hv
  norm_num at h₁ h₂ h₃ h₄ ⊢
  exact abs_le.mpr ⟨by linarith, by linarith⟩

theorem abs_powOut_le_two {b y : ℤ} {v : ℝ} (hS : S ≤ 54) (h : PowDomain S b y)
    (hv : |v - truePow S b y| ≤ 1 / 2 ^ 62) : |(powOut S b y : ℝ) - 2 ^ S * v| ≤ 2 :=
  abs_nearest_near hS (abs_sub_truth_le (h.abs_powVal_sub_le (by omega)) hv) (by norm_num)

theorem negLog_le_scale (h₀ : 0 < x) : negLog S x ≤ S * Real.log 2 := by
  have hx : (1 : ℝ) ≤ x := by exact_mod_cast h₀
  rw [negLog, Real.log_div (by positivity) (by positivity), Real.log_pow]
  linarith [Real.log_nonneg hx]

theorem abs_neg_lnOut_le_two {v : ℝ} (hS : S ≤ 54) (h₀ : 0 < x) (h₁ : x ≤ 2 ^ S)
    (hv : |v - negLog S x| ≤ 1 / 2 ^ 62) : |((-lnOut S x : ℤ) : ℝ) - 2 ^ S * v| ≤ 2 := by
  have hL : negLog S x ≤ 54 * 0.6931471808 := by
    refine (negLog_le_scale h₀).trans ?_
    apply mul_le_mul _ Real.log_two_lt_d9.le (Real.log_nonneg one_le_two) (by norm_num)
    exact_mod_cast hS
  rw [lnOut, neg_neg]
  exact abs_nearest_near hS (abs_sub_truth_le (abs_lnVal_sub_le (by omega) h₀ h₁) hv) (by linarith)

/-- The scaled argument stands for the argument, at every scale. -/
theorem scaled_argument (hS : S ≤ 60) (x : ℤ) :
    (((-x * 2 ^ (62 - S) : ℤ) : ℝ)) / 2 ^ 62 = -((x : ℝ) / 2 ^ S) := by
  have hsplit : (2 : ℝ) ^ 62 = 2 ^ S * 2 ^ (62 - S) := by
    rw [← pow_add, Nat.add_sub_cancel' (by omega)]
  have hne : (2 : ℝ) ^ (62 - S) ≠ 0 := by positivity
  push_cast
  rw [hsplit, mul_div_mul_right _ _ hne, neg_div]

theorem abs_expVal_argument_le (hS : S ≤ 60) (h : x ≤ 0) :
    |(expVal (-x * 2 ^ (62 - S)) : ℝ) - 2 ^ 62 * Real.exp ((x : ℝ) / 2 ^ S)| ≤ 5 := by
  have habs := abs_expVal_sub_le (a := -x * 2 ^ (62 - S))
    (mul_nonneg (neg_nonneg.mpr h) (by positivity))
  rwa [scaled_argument hS, neg_neg] at habs

theorem div_le_saturation (hx : x ≤ -(64 * 2 ^ S)) : (x : ℝ) / 2 ^ S ≤ -64 := by
  rw [div_le_iff₀ (by positivity)]
  exact_mod_cast (show x ≤ -64 * 2 ^ S by linarith)

theorem expm1Out_range (hS : S ≤ 60) (x : ℤ) : -2 ^ S ≤ expm1Out S x ∧ expm1Out S x ≤ 0 := by
  obtain ⟨h₀, h₁⟩ := expVal_bounds (-x * 2 ^ (62 - S))
  have hpos : (0 : ℤ) ≤ 2 ^ S := by positivity
  unfold expm1Out
  split_ifs
  · exact ⟨le_rfl, neg_nonpos.mpr hpos⟩
  · have hlo := nearest_nonneg (S := S) (sub_nonneg.mpr h₁)
    have hhi := nearest_le hS (show 2 ^ 62 - expVal (-x * 2 ^ (62 - S)) ≤ 2 ^ 62 by omega)
    exact ⟨by omega, by omega⟩

/-- At a scale below 62 such a truth is off by less than a unit. -/
theorem abs_scaled_truth_le {T v : ℝ} (hS : S ≤ 60) (hv : |v - T| ≤ 1 / 2 ^ 62) :
    |2 ^ S * v - 2 ^ S * T| ≤ 1 := by
  have hscale : (2 : ℝ) ^ S ≤ 2 ^ 62 := pow_le_pow_right₀ one_le_two (by omega)
  calc |2 ^ S * v - 2 ^ S * T| = 2 ^ S * |v - T| := by
        rw [← mul_sub, abs_mul, abs_of_pos (by positivity)]
    _ ≤ 2 ^ 62 * (1 / 2 ^ 62) := mul_le_mul hscale hv (abs_nonneg _) (by positivity)
    _ = 1 := by norm_num

theorem abs_expOut_le_two {v : ℝ} (hS : S ≤ 54) (h : x ≤ 0)
    (hv : |v - Real.exp ((x : ℝ) / 2 ^ S)| ≤ 1 / 2 ^ 62) :
    |(expOut S x : ℝ) - 2 ^ S * v| ≤ 2 := by
  unfold expOut
  split_ifs with hx
  · have hsat := two_pow_mul_exp_le_one (S := S) (by omega) (div_le_saturation hx)
    have hpos : 0 < 2 ^ S * Real.exp ((x : ℝ) / 2 ^ S) := by positivity
    obtain ⟨h₁, h₂⟩ := abs_le.mp (abs_scaled_truth_le (S := S) (by omega) hv)
    rw [Int.cast_zero]
    exact abs_le.mpr ⟨by linarith, by linarith⟩
  · exact abs_nearest_near hS (abs_sub_truth_le (abs_expVal_argument_le (by omega) h) hv)
      (by norm_num)

theorem abs_neg_expm1Out_le_two {v : ℝ} (hS : S ≤ 54) (h : x ≤ 0)
    (hv : |v - (1 - Real.exp ((x : ℝ) / 2 ^ S))| ≤ 1 / 2 ^ 62) :
    |((-expm1Out S x : ℤ) : ℝ) - 2 ^ S * v| ≤ 2 := by
  unfold expm1Out
  split_ifs with hx
  · have hsat := two_pow_mul_exp_le_one (S := S) (by omega) (div_le_saturation hx)
    have hpos : 0 < 2 ^ S * Real.exp ((x : ℝ) / 2 ^ S) := by positivity
    obtain ⟨h₁, h₂⟩ := abs_le.mp (abs_scaled_truth_le (S := S) (by omega) hv)
    push_cast
    exact abs_le.mpr ⟨by linarith, by linarith⟩
  · rw [neg_neg]
    refine abs_nearest_near hS (abs_sub_truth_le (E := 5) ?_ hv) (by norm_num)
    -- the complement is exact at 62 bits
    obtain ⟨h₁, h₂⟩ := abs_le.mp (abs_expVal_argument_le (S := S) (by omega) h)
    push_cast at h₁ h₂ ⊢
    exact abs_le.mpr ⟨by linarith, by linarith⟩

end Units

/-! ### Passing a band -/

section Band

variable {P : Profile} {v : ℝ} {S q : ℕ} {a : ℤ}

/-- **Two units from the truth are two units from both grid points** that the
quantizer recovers, right or not. -/
theorem grid_near (h₀ : 0 ≤ v) (hq : S ≤ q) (h : |(a : ℝ) - 2 ^ S * v| ≤ 2) :
    |a - (qBits v q / 2 ^ (q - S) : ℕ)| ≤ 2 ∧ |a - (qBits v q ⌈/⌉ 2 ^ (q - S) : ℕ)| ≤ 2 := by
  have hfloor := floor_qBits h₀ hq
  have hceil := ceil_qBits_le h₀ hq (Int.le_ceil (v * 2 ^ S))
  have hle : ((qBits v q / 2 ^ (q - S) : ℕ) : ℤ) ≤ (qBits v q ⌈/⌉ 2 ^ (q - S) : ℕ) := by
    exact_mod_cast floor_le_ceil (qBits v q) (Nat.two_pow_pos (q - S))
  obtain ⟨h₁, h₂⟩ := abs_le.mp h
  rw [mul_comm] at h₁ h₂
  have hlo₁ : ⌊v * 2 ^ S⌋ ≤ a + 2 := by
    have := Int.floor_le (v * 2 ^ S)
    have : (⌊v * 2 ^ S⌋ : ℝ) ≤ ((a + 2 : ℤ) : ℝ) := by
      push_cast
      linarith
    exact_mod_cast this
  have hlo₂ : a < ⌊v * 2 ^ S⌋ + 3 := by
    have := Int.lt_floor_add_one (v * 2 ^ S)
    have : (a : ℝ) < ((⌊v * 2 ^ S⌋ + 3 : ℤ) : ℝ) := by
      push_cast
      linarith
    exact_mod_cast this
  have hhi : ⌈v * 2 ^ S⌉ < a + 3 := by
    have := Int.ceil_lt_add_one (v * 2 ^ S)
    have : (⌈v * 2 ^ S⌉ : ℝ) < ((a + 3 : ℤ) : ℝ) := by
      push_cast
      linarith
    exact_mod_cast this
  rw [← hfloor] at hlo₁ hlo₂
  exact ⟨abs_le.mpr ⟨by omega, by omega⟩, abs_le.mpr ⟨by omega, by omega⟩⟩

/-- A result on its own side, within the bound. -/
theorem checkDirectional_ok {tFloor tCeil err : ℤ} {direction : Direction} {bound : ℕ}
    (hs : signedErr P tFloor tCeil a direction = .ok err) (h₀ : 0 ≤ err) (h₁ : err ≤ bound)
    (h : err < 2 ^ 128) :
    checkDirectional P tFloor tCeil a direction bound = .ok (.ok err.toNat) := by
  unfold checkDirectional
  rw [hs, ok_bind, if_neg (not_lt.mpr h₀), Profile.asUnsigned_ok h₀ h, ok_bind,
    if_neg (by omega), pure_eq_ok]

theorem assertBand_ok (n : ℕ) (what context : String) :
    assertBand (.ok n) what context = .ok () := rfl

/-- Two units are within the bound of the two-sided check. -/
theorem checkTwoSided_ok (h₀ : 0 ≤ v) (hq : S ≤ q) (h : |(a : ℝ) - 2 ^ S * v| ≤ 2) :
    ∃ n, checkTwoSided P (qBits v q / 2 ^ (q - S) : ℕ) (qBits v q ⌈/⌉ 2 ^ (q - S) : ℕ) a boundUlps
      = .ok (.ok n) := by
  obtain ⟨hF, hC⟩ := grid_near h₀ hq h
  have hle : ((qBits v q / 2 ^ (q - S) : ℕ) : ℤ) ≤ (qBits v q ⌈/⌉ 2 ^ (q - S) : ℕ) := by
    exact_mod_cast floor_le_ceil (qBits v q) (Nat.two_pow_pos (q - S))
  generalize ((qBits v q / 2 ^ (q - S) : ℕ) : ℤ) = tFloor at *
  generalize ((qBits v q ⌈/⌉ 2 ^ (q - S) : ℕ) : ℤ) = tCeil at *
  rw [abs_le] at hF hC
  have herr : ¬ ((boundUlps : ℕ) : ℤ) < twoSidedErr tFloor tCeil a := by
    unfold twoSidedErr boundUlps budgetUlps
    omega
  exact ⟨_, by rw [checkTwoSided_eq boundUlps hle (fitsI_128.mpr (by omega))
    (fitsI_128.mpr (by omega)), if_neg herr]⟩

end Band

/-! ### Truthful fixtures -/

/-- The case is about the grid points `x` and `y`, and its truth is what the
oracle documents, of a number `v` that stands for the real power. -/
structure PowCase.Truthful (c : PowCase) (x y : ℤ) (v : ℝ) : Prop where
  base_eq : c.baseS40 = Int.repr x
  exponent_eq : c.exponentS40 = Int.repr y
  base_pos : 0 < x
  base_lt : x < 2 ^ 40
  exponent_pos : 0 < y
  exponent_le : y ≤ 99 * 2 ^ 40
  truth_near : |v - ((x : ℝ) / 2 ^ 40) ^ ((y : ℝ) / 2 ^ 40)| ≤ 1 / 2 ^ 62
  truth_nonneg : 0 ≤ v
  truth_lt : v < 1
  truth_eq : c.powExactQ128 = Nat.repr (qBits v 128)

structure LnCase.Truthful (c : LnCase) (x : ℤ) (v : ℝ) : Prop where
  x_eq : c.xS40 = Int.repr x
  x_pos : 0 < x
  x_le : x ≤ 2 ^ 40
  truth_near : |v - -Real.log ((x : ℝ) / 2 ^ 40)| ≤ 1 / 2 ^ 62
  truth_nonneg : 0 ≤ v
  truth_eq : c.negLnQ116 = Nat.repr (qBits v 116)

/-- The truth is below one, so the argument is not zero. -/
structure ExpCase.Truthful (c : ExpCase) (t : ℤ) (v w : ℝ) : Prop where
  t_eq : c.negXS40 = Int.repr t
  t_pos : 0 < t
  t_lt : t < 2 ^ 113
  exp_near : |v - Real.exp (-((t : ℝ) / 2 ^ 40))| ≤ 1 / 2 ^ 62
  exp_nonneg : 0 ≤ v
  exp_lt : v < 1
  exp_eq : c.expQ128 = Nat.repr (qBits v 128)
  expm1_near : |w - (1 - Real.exp (-((t : ℝ) / 2 ^ 40)))| ≤ 1 / 2 ^ 62
  expm1_nonneg : 0 ≤ w
  expm1_lt : w < 1
  expm1_eq : c.negExpm1Q128 = Nat.repr (qBits w 128)

section Gate

variable {B : Build}

/-- A grid point at scale `S`. -/
theorem grid_div {S : ℕ} (h : 40 ≤ S) (x : ℤ) :
    ((x * 2 ^ (S - 40) : ℤ) : ℝ) / 2 ^ S = (x : ℝ) / 2 ^ 40 := by
  have hsplit : (2 : ℝ) ^ S = 2 ^ 40 * 2 ^ (S - 40) := by rw [← pow_add, Nat.add_sub_cancel' h]
  have hne : (2 : ℝ) ^ (S - 40) ≠ 0 := by positivity
  push_cast
  rw [hsplit, mul_div_mul_right _ _ hne]

theorem grid_le {S : ℕ} (h : 40 ≤ S) {x k : ℤ} (hx : x ≤ k * 2 ^ 40) :
    x * 2 ^ (S - 40) ≤ k * 2 ^ S := by
  have hsplit : (2 : ℤ) ^ S = 2 ^ 40 * 2 ^ (S - 40) := by rw [← pow_add, Nat.add_sub_cancel' h]
  rw [hsplit, ← mul_assoc]
  exact mul_le_mul_of_nonneg_right hx (by positivity)

/-- A grid point fits as long as the scale has bits for it. -/
theorem grid_fits {k : ℕ} (hS : B.scale ≤ 40 + k) (hk : k ≤ 127) {x : ℤ} (h₀ : 0 ≤ x)
    (h : x < 2 ^ (127 - k)) : FitsI 128 (x * 2 ^ (B.scale - 40)) := by
  have hpow : (2 : ℤ) ^ (B.scale - 40) ≤ 2 ^ k := pow_le_pow_right₀ (by norm_num) (by omega)
  refine fitsI_of_nonneg (mul_nonneg h₀ (by positivity)) ?_
  calc x * 2 ^ (B.scale - 40) ≤ x * 2 ^ k := mul_le_mul_of_nonneg_left hpow h₀
    _ < 2 ^ (127 - k) * 2 ^ k := mul_lt_mul_of_pos_right h (by positivity)
    _ = 2 ^ 127 := by rw [← pow_add, Nat.sub_add_cancel hk]

/-- A grid point of the domain fits at every scale. -/
theorem grid_fits_domain {x : ℤ} (h₀ : 0 ≤ x) (h : x < 2 ^ 107) :
    FitsI 128 (x * 2 ^ (B.scale - 40)) :=
  grid_fits (k := 20) B.scale_le_sixty (by norm_num) h₀ h

theorem kernelPowCase_ok (h40 : 40 ≤ B.scale) (h54 : B.scale ≤ 54) {c : PowCase} {x y : ℤ} {v : ℝ}
    (h : c.Truthful x y v) : kernelPowCase B c = .ok () := by
  have hx := s40ToFixed_repr B h40 (grid_fits_domain h.base_pos.le
    (h.base_lt.trans (by norm_num)))
  have hy := s40ToFixed_repr B h40 (grid_fits_domain h.exponent_pos.le
    (h.exponent_le.trans_lt (by norm_num)))
  have hdom : PowDomain B.scale (x * 2 ^ (B.scale - 40)) (y * 2 ^ (B.scale - 40)) := by
    have hb := grid_le h40 (x := x) (k := 1) (by have := h.base_lt; omega)
    have he := grid_le h40 h.exponent_le
    rw [one_mul] at hb
    exact ⟨mul_pos h.base_pos (by positivity), hb, mul_pos h.exponent_pos (by positivity), he⟩
  have hnear : |(powOut B.scale (x * 2 ^ (B.scale - 40)) (y * 2 ^ (B.scale - 40)) : ℝ)
      - 2 ^ B.scale * v| ≤ 2 := by
    refine abs_powOut_le_two h54 hdom ?_
    rw [truePow, grid_div h40, grid_div h40]
    exact h.truth_near
  obtain ⟨hout₀, hout₁⟩ := powOut_bounds B.scale_le_sixty (x * 2 ^ (B.scale - 40))
    (y * 2 ^ (B.scale - 40))
  have hv₀ := h.truth_nonneg
  have hv₁ := h.truth_lt
  have hq : qBits v 128 < 2 ^ 128 :=
    qBits_lt hv₀ (mul_lt_of_lt_one_left (by positivity) hv₁)
  obtain ⟨hF, hC⟩ := grid_near hv₀ (show B.scale ≤ 128 by omega) hnear
  have hF₀ : (0 : ℤ) ≤ (qBits v 128 / 2 ^ (128 - B.scale) : ℕ) := Int.natCast_nonneg _
  have hC₁ : ((qBits v 128 ⌈/⌉ 2 ^ (128 - B.scale) : ℕ) : ℤ) ≤ 2 ^ B.scale := by
    exact_mod_cast ceil_le_one (S := B.scale) (by omega) hq.le
  unfold kernelPowCase
  rw [h.base_eq, hx, ok_bind, h.exponent_eq, hy, ok_bind, h.truth_eq, qToScaleBounds_repr B hq,
    ok_bind]
  dsimp only
  rw [powUp_ok B hdom, ok_bind, powDown_ok B hdom]
  generalize powOut B.scale (x * 2 ^ (B.scale - 40)) (y * 2 ^ (B.scale - 40)) = p at *
  generalize ((qBits v 128 / 2 ^ (128 - B.scale) : ℕ) : ℤ) = tFloor at *
  generalize ((qBits v 128 ⌈/⌉ 2 ^ (128 - B.scale) : ℕ) : ℤ) = tCeil at *
  have hone : (1 : ℤ) ≤ 2 ^ B.scale := one_le_pow₀ (by norm_num)
  have hword : (2 : ℤ) ^ B.scale ≤ 2 ^ 54 := pow_le_pow_right₀ (by norm_num) h54
  rw [Build.one_repr]
  generalize (2 : ℤ) ^ B.scale = one at *
  rw [abs_le] at hF hC
  have hup : signedErr B.toProfile tFloor tCeil (min (p + 2) one) .up
      = .ok (min (p + 2) one - tCeil) :=
    Profile.isub_ok (fitsI_128.mpr (by omega))
  have hdown : signedErr B.toProfile tFloor tCeil (max (p - 2) 0) .down
      = .ok (tFloor - max (p - 2) 0) :=
    Profile.isub_ok (fitsI_128.mpr (by omega))
  have hrange : min (p + 2) one > 0 ∧ min (p + 2) one ≤ one := ⟨by omega, by omega⟩
  have horder : max (p - 2) 0 ≥ 0 ∧ max (p - 2) 0 ≤ min (p + 2) one := ⟨by omega, by omega⟩
  -- above the recovered ceiling by at most two pads, and below the floor so
  rw [checkDirectional_ok hup (by omega) (by unfold boundUlps budgetUlps; omega) (by omega),
    ok_bind, assertBand_ok, ok_bind, ok_bind,
    checkDirectional_ok hdown (by omega) (by unfold boundUlps budgetUlps; omega) (by omega),
    ok_bind, assertBand_ok, ok_bind, assert_ok hrange, ok_bind, assert_ok horder]

/-- **The pow gate passes on every truthful fixture**, at every scale from the
fixture's own grid up to 54: re-sweeping the scale in that range can fail no
case, whatever bases and exponents of the domain the fixture holds. -/
theorem kernelPowGate_ok (h40 : 40 ≤ B.scale) (h54 : B.scale ≤ 54) {cases : List PowCase}
    (h : ∀ c ∈ cases, ∃ x y v, c.Truthful x y v) : kernelPowGate B cases = .ok () := by
  apply forM_eq_ok.mpr
  intro c hc
  obtain ⟨x, y, v, hcase⟩ := h c hc
  exact kernelPowCase_ok h40 h54 hcase

/-- One half to the power one. -/
theorem kernelPowGate_ok_half :
    kernelPowGate (Build.kernel Profile.wrapping) [⟨"general", "0.5", "549755813888", "1",
      "1099511627776", "0.5", "170141183460469231731687303715884105728"⟩] = .ok () := by
  have hq : qBits (1 / 2) 128 = 2 ^ 127 := by
    rw [qBits, show (1 / 2 : ℝ) * ((2 ^ 128 : ℕ) : ℝ) = ((2 ^ 127 : ℕ) : ℝ) by norm_num,
      Nat.floor_natCast]
  apply kernelPowGate_ok (by decide) (by decide)
  intro c hc
  obtain rfl := List.mem_singleton.mp hc
  refine ⟨2 ^ 39, 2 ^ 40, 1 / 2, ?_⟩
  exact {
    base_eq := by decide +kernel
    exponent_eq := by decide +kernel
    base_pos := by norm_num
    base_lt := by norm_num
    exponent_pos := by norm_num
    exponent_le := by norm_num
    truth_near := by norm_num
    truth_nonneg := by norm_num
    truth_lt := by norm_num
    truth_eq := by rw [hq]; decide +kernel }

/-- The q-format of a small truth is a word with room above. -/
theorem qBits_116_lt {v : ℝ} (h₀ : 0 ≤ v) (h₁ : v ≤ 29) : qBits v 116 < 2 ^ 121 := by
  apply qBits_lt h₀
  push_cast
  linarith

theorem kernelLnCase_ok (h40 : 40 ≤ B.scale) (h54 : B.scale ≤ 54) {c : LnCase} {x : ℤ} {v : ℝ}
    (h : c.Truthful x v) : kernelLnCase B c = .ok () := by
  have hx := s40ToFixed_repr B h40 (grid_fits_domain h.x_pos.le
    (h.x_le.trans_lt (by norm_num)))
  have hpos : 0 < x * 2 ^ (B.scale - 40) := mul_pos h.x_pos (by positivity)
  have hle : x * 2 ^ (B.scale - 40) ≤ 2 ^ B.scale := by
    have := grid_le h40 (x := x) (k := 1) (by have := h.x_le; omega)
    rwa [one_mul] at this
  have hout : lnOut B.scale (x * 2 ^ (B.scale - 40)) ≤ 0 :=
    neg_nonpos.mpr (nearest_nonneg (lnVal_nonneg B.scale_le_sixty hpos hle))
  have hnear : |((-lnOut B.scale (x * 2 ^ (B.scale - 40)) : ℤ) : ℝ) - 2 ^ B.scale * v| ≤ 2 := by
    refine abs_neg_lnOut_le_two h54 hpos hle ?_
    rw [negLog, grid_div h40]
    exact h.truth_near
  have hv₀ := h.truth_nonneg
  have hv₁ : v ≤ 29 := by
    have hlog := negLog_le_scale (S := 40) h.x_pos
    have hdiff := (abs_le.mp h.truth_near).2
    have := Real.log_two_lt_d9
    rw [negLog] at hlog
    norm_num at hlog hdiff
    linarith
  have hq := qBits_116_lt hv₀ hv₁
  have hbounds : qToScaleBounds B (Nat.repr (qBits v 116)) 116 = _ :=
    qToScaleBounds_bits B (hq.trans (by norm_num)) (by omega) (by norm_num)
      ((ceilDiv_le_self _ (Nat.two_pow_pos _)).trans_lt (hq.trans (by norm_num)))
  obtain ⟨n, hband⟩ := checkTwoSided_ok (P := B.toProfile) hv₀
    (show B.scale ≤ 116 by omega) hnear
  have hneg : FitsI 128 (-lnOut B.scale (x * 2 ^ (B.scale - 40))) := by
    obtain ⟨-, hC⟩ := grid_near hv₀ (show B.scale ≤ 116 by omega) hnear
    have hceil := (ceilDiv_le_self (qBits v 116) (Nat.two_pow_pos (116 - B.scale))).trans_lt hq
    rw [abs_le] at hC
    exact fitsI_128.mpr (by omega)
  unfold kernelLnCase
  rw [h.x_eq, hx, ok_bind, h.truth_eq, hbounds, ok_bind]
  dsimp only
  rw [ln_ok B hpos hle, ok_bind, assert_ok hout, ok_bind, Profile.ineg_ok hneg, ok_bind, hband,
    ok_bind, assertBand_ok]

theorem kernelExpCase_ok (h40 : 40 ≤ B.scale) (h54 : B.scale ≤ 54) {c : ExpCase} {t : ℤ} {v w : ℝ}
    (h : c.Truthful t v w) : kernelExpCase B c = .ok () := by
  have hfit := grid_fits (k := 14) h54 (by norm_num) h.t_pos.le h.t_lt
  have ht := s40ToFixed_repr B h40 hfit
  have hpos : 0 < t * 2 ^ (B.scale - 40) := mul_pos h.t_pos (by positivity)
  have hx : FitsI 128 (-(t * 2 ^ (B.scale - 40))) := by
    rw [fitsI_128] at hfit ⊢
    omega
  have hnonpos : -(t * 2 ^ (B.scale - 40)) ≤ 0 := by omega
  have harg : ((-(t * 2 ^ (B.scale - 40)) : ℤ) : ℝ) / 2 ^ B.scale = -((t : ℝ) / 2 ^ 40) := by
    rw [Int.cast_neg, neg_div, grid_div h40]
  have hexp := abs_expOut_le_two h54 hnonpos (by rw [harg]; exact h.exp_near)
  have hexpm1 := abs_neg_expm1Out_le_two h54 hnonpos (by rw [harg]; exact h.expm1_near)
  have hq : qBits v 128 < 2 ^ 128 :=
    qBits_lt h.exp_nonneg (mul_lt_of_lt_one_left (by positivity) h.exp_lt)
  have hq₁ : qBits w 128 < 2 ^ 128 :=
    qBits_lt h.expm1_nonneg (mul_lt_of_lt_one_left (by positivity) h.expm1_lt)
  obtain ⟨n, hband⟩ := checkTwoSided_ok (P := B.toProfile) h.exp_nonneg
    (show B.scale ≤ 128 by omega) hexp
  obtain ⟨n₁, hband₁⟩ := checkTwoSided_ok (P := B.toProfile) h.expm1_nonneg
    (show B.scale ≤ 128 by omega) hexpm1
  obtain ⟨hm₀, hm₁⟩ := expm1Out_range B.scale_le_sixty (-(t * 2 ^ (B.scale - 40)))
  have hword : (2 : ℤ) ^ B.scale ≤ 2 ^ 60 := two_pow_scale_le B.scale_le_sixty
  have hneg : FitsI 128 (-expm1Out B.scale (-(t * 2 ^ (B.scale - 40)))) :=
    fitsI_128.mpr (by omega)
  unfold kernelExpCase
  rw [h.t_eq, ht, ok_bind]
  dsimp only
  rw [Profile.ineg_ok hx, ok_bind, h.exp_eq, qToScaleBounds_repr B hq, ok_bind]
  dsimp only
  rw [exp_ok B hnonpos, ok_bind, hband, ok_bind, assertBand_ok, ok_bind, h.expm1_eq,
    qToScaleBounds_repr B hq₁, ok_bind]
  dsimp only
  rw [expm1_ok B hnonpos, ok_bind, assert_ok hm₁, ok_bind, Profile.ineg_ok hneg, ok_bind, hband₁,
    ok_bind, assertBand_ok]

/-- **The diagnostic tier passes on every truthful fixture**, at the same
scales: `ln` on `(0, 1]`, and `exp` and `expm1` on `-t` for every positive `t` of
the grid that is a word at scale 54, saturated arguments included.  At zero the
exponential is one, which has no q-format of 128 bits. -/
theorem kernelLnExpDiagnostics_ok (h40 : 40 ≤ B.scale) (h54 : B.scale ≤ 54) {fixture : LnExpFixture}
    (hln : ∀ c ∈ fixture.ln, ∃ x v, c.Truthful x v)
    (hexp : ∀ c ∈ fixture.exp, ∃ t v w, c.Truthful t v w) :
    kernelLnExpDiagnostics B fixture = .ok () := by
  have h₁ : fixture.ln.forM (kernelLnCase B) = .ok () := by
    apply forM_eq_ok.mpr
    intro c hc
    obtain ⟨x, v, hcase⟩ := hln c hc
    exact kernelLnCase_ok h40 h54 hcase
  have h₂ : fixture.exp.forM (kernelExpCase B) = .ok () := by
    apply forM_eq_ok.mpr
    intro c hc
    obtain ⟨t, v, w, hcase⟩ := hexp c hc
    exact kernelExpCase_ok h40 h54 hcase
  unfold kernelLnExpDiagnostics
  rw [h₁, ok_bind, h₂]

/-- The logarithm of one, and the exponential of `-128`, which is below `2^-128`. -/
theorem kernelLnExpDiagnostics_ok_corners :
    kernelLnExpDiagnostics (Build.kernel Profile.debug)
      ⟨[⟨"1", "1099511627776", "0.0", "0"⟩],
        [⟨"128", "140737488355328", "2.57e-56", "0", "1.0",
          "340282366920938463463374607431768211455"⟩]⟩ = .ok () := by
  have hpos := Real.exp_pos (-128)
  have hsmall : Real.exp (-128) ≤ 1 / 2 ^ 128 := by
    have hone : (2 : ℝ) ≤ Real.exp 1 := by
      have := Real.add_one_le_exp (1 : ℝ)
      linarith
    have htwo : (2 : ℝ) ^ 128 ≤ Real.exp 128 := by
      calc (2 : ℝ) ^ 128 ≤ Real.exp 1 ^ 128 := pow_le_pow_left₀ (by norm_num) hone 128
        _ = Real.exp 128 := by rw [← Real.exp_nat_mul]; norm_num
    rw [Real.exp_neg, ← one_div]
    exact one_div_le_one_div_of_le (by positivity) htwo
  have hlast : qBits (1 - 1 / 2 ^ 128) 128 = 2 ^ 128 - 1 := by
    have hprod : (1 - 1 / 2 ^ 128 : ℝ) * ((2 ^ 128 : ℕ) : ℝ) = ((2 ^ 128 - 1 : ℕ) : ℝ) := by
      norm_num
    rw [qBits, hprod, Nat.floor_natCast]
  apply kernelLnExpDiagnostics_ok (by decide) (by decide)
  · intro c hc
    obtain rfl := List.mem_singleton.mp hc
    refine ⟨2 ^ 40, 0, ?_⟩
    exact {
      x_eq := by decide +kernel
      x_pos := by norm_num
      x_le := le_rfl
      truth_near := by norm_num
      truth_nonneg := le_rfl
      truth_eq := by rw [qBits, zero_mul, Nat.floor_zero]; decide +kernel }
  · intro c hc
    obtain rfl := List.mem_singleton.mp hc
    have harg : -(((2 ^ 47 : ℤ) : ℝ) / 2 ^ 40) = -128 := by norm_num
    norm_num at hsmall
    refine ⟨2 ^ 47, 0, 1 - 1 / 2 ^ 128, ?_⟩
    exact {
      t_eq := by decide +kernel
      t_pos := by norm_num
      t_lt := by norm_num
      exp_near := by
        rw [harg, zero_sub, abs_neg, abs_of_pos hpos]
        norm_num
        linarith
      exp_nonneg := le_rfl
      exp_lt := one_pos
      exp_eq := by rw [qBits, zero_mul, Nat.floor_zero]; decide +kernel
      expm1_near := by
        rw [harg]
        norm_num
        exact abs_le.mpr ⟨by linarith, by linarith⟩
      expm1_nonneg := by norm_num
      expm1_lt := by norm_num
      expm1_eq := by rw [hlast]; decide +kernel }

end Gate

end WeightedMath
