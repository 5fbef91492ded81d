/-
WeightedMath/OverflowEnvelope.lean

The property hammers of `tests/overflow_envelope.rs`, on everything that their
strategies can generate.

Each of them is an invariant that a wrapped intermediate would break.  At the
edge of the deposits, where `balance_in + amount_in` is `2^128 - 1`, a trade
that at least doubles the reserve pays out at least a part in 256: the base is
then at most a half, the exponent at least `1/99`, and

    1 - (1/2)^(1/99) > 0.0069 > 1/256.

The other two double one reserve and look at the final multiplication.  Neither
the fraction of a sale nor the quote of a purchase depends on the reserve that
it is multiplied with (`outVal_add`, `payment_add`), so that the result doubles
up to the unit that is rounded away.
-/
import WeightedMath.Accuracy

namespace WeightedMath

open Machine

/-! ### The properties -/

/-- What `edge_weights` generates. -/
structure EdgeWeights (wIn wOut : ℕ) : Prop where
  in_pos : 1 ≤ wIn
  out_pos : 1 ≤ wOut
  sum_eq : wIn + wOut = 100

/-- `prop_assert!` of a condition. -/
def propAssert (c : Prop) [Decidable c] (cond : String) : Exec Unit :=
  assert c ("assertion failed: " ++ cond)

/-- Total deposit pinned to exactly `2^128 - 1`. -/
def calcOutAtTheDepositEdge (P : Profile) (balanceIn balanceOut wIn wOut : ℕ) : Exec Unit := do
  let amountIn ← P.usub 128 (2 ^ 128 - 1) balanceIn
  let out ← calcOutGivenIn (Build.kernel P) balanceIn wIn balanceOut wOut amountIn
  propAssert (out ≤ balanceOut) "out <= balance_out"
  if amountIn ≥ balanceIn then propAssert (out ≥ balanceOut / 256) "out >= balance_out / 256"

/-- The payout multiply is linear in `balance_out`. -/
def payoutMultiplyIsLinearInBalanceOut (P : Profile)
    (balanceIn amountFrac balanceOut wIn wOut : ℕ) : Exec Unit := do
  let amountIn ← P.umul 128 (balanceIn / 1000) amountFrac
  let once ← calcOutGivenIn (Build.kernel P) balanceIn wIn balanceOut wOut amountIn
  let doubled ← P.umul 128 2 balanceOut
  let twice ← calcOutGivenIn (Build.kernel P) balanceIn wIn doubled wOut amountIn
  let exact ← P.umul 128 2 once
  if twice = exact then return ()
  else do
    let carried ← P.uadd 128 exact 1
    propAssert (twice = carried) "twice == 2 * once || twice == 2 * once + 1"

/-- The payment multiply is linear in `balance_in`. -/
def paymentMultiplyIsLinearInBalanceIn (P : Profile) (balanceIn balanceOut wIn outFrac : ℕ) :
    Exec Unit := do
  let wOut ← P.usub 128 100 wIn
  let amountOut ← P.umul 128 (balanceOut / 1000) outFrac
  let once ← calcInGivenOut (Build.kernel P) balanceIn wIn balanceOut wOut amountOut
  let doubled ← P.umul 128 2 balanceIn
  let twice ← calcInGivenOut (Build.kernel P) doubled wIn balanceOut wOut amountOut
  let exact ← P.umul 128 2 once
  if twice = exact then return ()
  else do
    let carried ← P.uadd 128 twice 1
    propAssert (carried = exact) "twice == 2 * once || twice + 1 == 2 * once"

theorem EdgeWeights.weights {wi wo : ℕ} (h : EdgeWeights wi wo) : Weights wi wo := by
  obtain ⟨h₁, h₂, h₃⟩ := h
  exact ⟨h₁, h₂, by omega, by omega, by omega, by omega⟩

/-! ### At the deposit edge -/

section Edge

variable {bi wi bo wo a : ℕ}

/-- Half a base, at the smallest exponent that a pair of weights gives. -/
theorem half_rpow_le {b z : ℝ} (hb₀ : 0 < b) (hb : b ≤ 0.5001) (hz : 0.0101 ≤ z) :
    b ^ z ≤ 0.9932 := by
  have hlog : Real.log b ≤ -0.69 := by
    have hhalf : Real.log b ≤ Real.log (1 / 2 * 1.0002) := Real.log_le_log hb₀ (by linarith)
    rw [Real.log_mul (by norm_num) (by norm_num), one_div, Real.log_inv] at hhalf
    have hrest := Real.log_le_sub_one_of_pos (show (0 : ℝ) < 1.0002 by norm_num)
    linarith [Real.log_two_gt_d9]
  have harg : Real.log b * z ≤ -0.006969 := by
    have := mul_le_mul_of_nonneg_right hlog (show 0 ≤ z by linarith)
    linarith
  have hexp : Real.exp (-0.006969) * 1.006969 ≤ 1 := by
    have hone : (1.006969 : ℝ) ≤ Real.exp 0.006969 := by
      have := Real.add_one_le_exp (0.006969 : ℝ)
      linarith
    calc Real.exp (-0.006969) * 1.006969 ≤ Real.exp (-0.006969) * Real.exp 0.006969 :=
          mul_le_mul_of_nonneg_left hone (Real.exp_pos _).le
      _ = 1 := by rw [← Real.exp_add, neg_add_cancel, Real.exp_zero]
  rw [Real.rpow_def_of_pos hb₀]
  have := Real.exp_le_exp.mpr harg
  linarith

/-- **A sale that at least doubles the reserve** pays out at least a part in
256 of the other, whatever the weights of the envelope. -/
theorem ExactIn.part_le_outVal (h : ExactIn bi wi bo wo a) (hle : bi ≤ a) :
    bo / 256 ≤ outVal 52 bi wi bo wo a := by
  have hbi : (0 : ℝ) < bi := by exact_mod_cast h.in_pos
  have hhalf : (bi : ℝ) / (bi + a) ≤ 1 / 2 := by
    have hleR : (bi : ℝ) ≤ a := by exact_mod_cast hle
    rw [div_le_iff₀ (by linarith)]
    linarith
  have hb : (ratioUpVal 52 bi (bi + a) : ℝ) / 2 ^ 52 ≤ 0.5001 := by
    have := h.base_near
    norm_num at this ⊢
    linarith
  have hb₀ := h.real_base_bounds.1.trans_le (h.real_base_le (S := 52) (by norm_num))
  have hz : 0.0101 ≤ (exponentDown 52 wi wo : ℝ) / 2 ^ 52 := by
    have hwo : (0 : ℝ) < wo := by exact_mod_cast h.weights.out_pos
    have hratio : 1 / 99 ≤ (wi : ℝ) / wo := by
      rw [div_le_div_iff₀ (by norm_num) hwo]
      have := h.weights.out_ratio
      have : (wo : ℝ) ≤ 99 * wi := by exact_mod_cast this
      linarith
    have := (exponentDown_near 52 wi h.weights.out_pos).2
    norm_num at this hratio ⊢
    linarith
  have hbase : ratioUpVal 52 bi (bi + a) < 2 ^ 52 := by
    rw [div_le_iff₀ (by positivity)] at hb
    have hlt : (ratioUpVal 52 bi (bi + a) : ℝ) < 2 ^ 52 := hb.trans_lt (by norm_num)
    exact_mod_cast hlt
  have hout := h.outVal_gt hbase
  have hpow := half_rpow_le hb₀ hb hz
  generalize ((ratioUpVal 52 bi (bi + a) : ℝ) / 2 ^ 52)
    ^ ((exponentDown 52 wi wo : ℝ) / 2 ^ 52) = p at *
  generalize outVal 52 bi wi bo wo a = out at *
  -- 0.0067 parts less a unit are more than a part in 256 less a unit
  have hpart : ((bo / 256 : ℕ) : ℝ) * 256 ≤ bo := by exact_mod_cast Nat.div_mul_le_self bo 256
  have hgain : (bo : ℝ) * 0.0067 ≤ bo * (1 - p) - bo * (725 / 2 ^ 62) := by
    rw [← mul_sub]
    apply mul_le_mul_of_nonneg_left _ (Nat.cast_nonneg bo)
    norm_num at hpow ⊢
    linarith
  have hlt : ((bo / 256 : ℕ) : ℝ) < ((out + 1 : ℕ) : ℝ) := by
    have hk : (0 : ℝ) ≤ (bo / 256 : ℕ) := Nat.cast_nonneg _
    generalize ((bo / 256 : ℕ) : ℝ) = k at *
    push_cast
    linarith
  exact Nat.lt_succ_iff.mp (Nat.cast_lt.mp hlt)

/-- **The deposit edge holds** for every pair of reserves and every pair of
weights of the envelope, in every profile. -/
theorem calcOutAtTheDepositEdge_ok (P : Profile) (hbi : 1 ≤ bi) (hbi₁ : bi < 2 ^ 128 - 1)
    (hbo : 1 ≤ bo) (hbo₁ : bo < 2 ^ 128) (hw : Weights wi wo) :
    calcOutAtTheDepositEdge P bi bo wi wo = .ok () := by
  have h : ExactIn bi wi bo wo (2 ^ 128 - 1 - bi) := ⟨hbi, hbo, by omega, hw⟩
  have hlt := outVal_lt 52 bi wi wo (2 ^ 128 - 1 - bi) hbo
  unfold calcOutAtTheDepositEdge propAssert
  rw [Profile.usub_ok hbi₁.le, ok_bind, calcOutGivenIn_ok _ hbo₁ h, ok_bind, Build.kernel_scale,
    assert_ok hlt.le, ok_bind]
  split_ifs with hle
  · exact assert_ok (h.part_le_outVal hle)
  · rfl

/-- A single unit against the whole range, at the flattest exponent. -/
theorem calcOutAtTheDepositEdge_ok_unit :
    calcOutAtTheDepositEdge Profile.wrapping 1 (2 ^ 128 - 1) 1 99 = .ok () :=
  calcOutAtTheDepositEdge_ok Profile.wrapping (by norm_num) (by norm_num) (by norm_num)
    (by norm_num)
    ⟨by norm_num, by norm_num, by norm_num, by norm_num, by norm_num, by norm_num⟩

end Edge

/-! ### The final multiplications -/

section Linear

variable {bi wi bo wo a o : ℕ}

/-- **A payout is additive in the reserve** up to one unit, which the larger
reserve has and its parts may not. -/
theorem outVal_add (S bi wi bo bo' wo a : ℕ) :
    outVal S bi wi bo wo a + outVal S bi wi bo' wo a ≤ outVal S bi wi (bo + bo') wo a ∧
      outVal S bi wi (bo + bo') wo a ≤ outVal S bi wi bo wo a + outVal S bi wi bo' wo a + 1 := by
  unfold outVal
  split_ifs
  · exact ⟨le_rfl, Nat.zero_le _⟩
  · rw [Nat.add_mul]
    generalize bo * (outFraction S bi wi wo a).toNat = m
    generalize bo' * (outFraction S bi wi wo a).toNat = n
    constructor <;> omega

/-- **A payment is additive in `balance_in`** up to one unit, which the larger
reserve may not have and its parts have. -/
theorem payment_add (q b b' : ℕ) :
    ((b + b') * q) ⌈/⌉ 2 ^ 62 ≤ (b * q) ⌈/⌉ 2 ^ 62 + (b' * q) ⌈/⌉ 2 ^ 62 ∧
      (b * q) ⌈/⌉ 2 ^ 62 + (b' * q) ⌈/⌉ 2 ^ 62 ≤ ((b + b') * q) ⌈/⌉ 2 ^ 62 + 1 := by
  rw [Nat.add_mul]
  simp only [Nat.ceilDiv_eq_add_pred_div]
  generalize b * q = m
  generalize b' * q = n
  constructor <;> omega

/-- **Doubling `balance_out` doubles the payout**, up to the unit rounded away:
on everything the strategy generates, in every profile. -/
theorem payoutMultiplyIsLinearInBalanceOut_ok (P : Profile) {frac : ℕ} (hw : EdgeWeights wi wo)
    (hbi : 2 ^ 64 ≤ bi) (hbi₁ : bi < 2 ^ 126) (hfrac : frac ≤ 1000)
    (hbo : 2 ^ 100 ≤ bo) (hbo₁ : bo < 2 ^ 126) :
    payoutMultiplyIsLinearInBalanceOut P bi frac bo wi wo = .ok () := by
  have hamount : bi / 1000 * frac ≤ bi := by
    calc bi / 1000 * frac ≤ bi / 1000 * 1000 := Nat.mul_le_mul_left _ hfrac
      _ ≤ bi := Nat.div_mul_le_self bi 1000
  have hmul : P.umul 128 (bi / 1000) frac = .ok (bi / 1000 * frac) := Profile.umul_ok (by omega)
  generalize bi / 1000 * frac = a at *
  have h : ExactIn bi wi bo wo a := ⟨by omega, by omega, by omega, hw.weights⟩
  have h₂ : ExactIn bi wi (2 * bo) wo a := ⟨by omega, by omega, by omega, hw.weights⟩
  have hlt := outVal_lt 52 bi wi wo a h.out_pos
  obtain ⟨hge, hle⟩ := outVal_add 52 bi wi bo bo wo a
  rw [← two_mul, ← two_mul] at hge hle
  unfold payoutMultiplyIsLinearInBalanceOut propAssert
  rw [hmul, ok_bind, calcOutGivenIn_ok _ (by omega) h, ok_bind, Build.kernel_scale,
    Profile.umul_ok (by omega), ok_bind, calcOutGivenIn_ok _ (by omega) h₂, ok_bind,
    Build.kernel_scale, Profile.umul_ok (by omega), ok_bind]
  generalize outVal 52 bi wi bo wo a = once at *
  generalize outVal 52 bi wi (2 * bo) wo a = twice at *
  split_ifs with hexact
  · rfl
  · rw [Profile.uadd_ok (by omega), ok_bind, assert_ok (by omega)]

/-- A full turn of the smaller reserve. -/
theorem payoutMultiplyIsLinearInBalanceOut_ok_turn :
    payoutMultiplyIsLinearInBalanceOut Profile.debug (2 ^ 64) 1000 (2 ^ 126 - 1) 99 1 = .ok () :=
  payoutMultiplyIsLinearInBalanceOut_ok Profile.debug ⟨by norm_num, by norm_num, by norm_num⟩
    (by norm_num) (by norm_num) (by norm_num) (by norm_num) (by norm_num)

/-- With an exponent of at most one a purchase of the envelope pays at most half
of `balance_in`. -/
theorem ExactOut.returns_of_le (P : Profile) (h : ExactOut bi wi bo wo o) (hbi : bi < 2 ^ 128)
    (hbo : bo < 2 ^ 128) (ho : 1 ≤ o) (hw : wo ≤ wi) :
    calcInGivenOut (Build.kernel P) bi wi bo wo o = .ok ((bi * quote 52 wi bo wo o) ⌈/⌉ 2 ^ 62) ∧
      (bi * quote 52 wi bo wo o) ⌈/⌉ 2 ^ 62 ≤ bi ⌈/⌉ 2 := by
  have hreal : (0.67 : ℝ) ≤ (((bo : ℝ) - o) / bo) ^ ((wo : ℝ) / wi) := by
    obtain ⟨hr₀, hr₁⟩ := h.real_base_bounds
    have hwi : (0 : ℝ) < wi := by exact_mod_cast h.weights.in_pos
    have hy : (wo : ℝ) / wi ≤ 1 := by
      rw [div_le_one hwi]
      exact_mod_cast hw
    calc (0.67 : ℝ) ≤ ((bo : ℝ) - o) / bo := by linarith
      _ = (((bo : ℝ) - o) / bo) ^ (1 : ℝ) := (Real.rpow_one _).symm
      _ ≤ (((bo : ℝ) - o) / bo) ^ ((wo : ℝ) / wi) :=
          Real.rpow_le_rpow_of_exponent_ge (by linarith) hr₁ hy
  have hhalf : (bi * quote 52 wi bo wo o) ⌈/⌉ 2 ^ 62 ≤ bi ⌈/⌉ 2 :=
    quote_le_half (h.two_thirds_le_of_real hbo hreal)
  have hfit := (hhalf.trans (ceilDiv_le_self bi two_pos)).trans_lt hbi
  exact ⟨calcInGivenOut_ok P hbi hbo h ho hfit, hhalf⟩

/-- **Doubling `balance_in` doubles the payment**, up to the unit rounded up: on
everything the strategy generates, in every profile, and both payments fit. -/
theorem paymentMultiplyIsLinearInBalanceIn_ok (P : Profile) {frac : ℕ} (hwi : 50 ≤ wi)
    (hwi₁ : wi ≤ 99) (hbi : 2 ^ 64 ≤ bi) (hbi₁ : bi < 2 ^ 126) (hbo : 2 ^ 20 ≤ bo)
    (hbo₁ : bo < 2 ^ 126) (hfrac : 1 ≤ frac) (hfrac₁ : frac ≤ 300) :
    paymentMultiplyIsLinearInBalanceIn P bi bo wi frac = .ok () := by
  have hw : Weights wi (100 - wi) := EdgeWeights.weights ⟨by omega, by omega, by omega⟩
  have hpos : 1 ≤ bo / 1000 * frac :=
    one_le_mul_of_one_le_of_one_le (by omega) hfrac
  have hcap : bo / 1000 * frac ≤ 3 * bo / 10 := by
    calc bo / 1000 * frac ≤ bo / 1000 * 300 := Nat.mul_le_mul_left _ hfrac₁
      _ ≤ 3 * bo / 10 := by omega
  have hmul : P.umul 128 (bo / 1000) frac = .ok (bo / 1000 * frac) := Profile.umul_ok (by omega)
  generalize bo / 1000 * frac = o at *
  obtain ⟨hcall, hhalf⟩ := ExactOut.returns_of_le P (o := o) ⟨by omega, by omega, hw, hcap⟩
    (show bi < 2 ^ 128 by omega) (by omega) hpos (by omega)
  obtain ⟨hcall₂, -⟩ := ExactOut.returns_of_le P (o := o) ⟨by omega, by omega, hw, hcap⟩
    (show 2 * bi < 2 ^ 128 by omega) (by omega) hpos (by omega)
  obtain ⟨hle, hge⟩ := payment_add (quote 52 wi bo (100 - wi) o) bi bi
  rw [← two_mul, ← two_mul] at hle hge
  have hself := ceilDiv_le_self bi (show 0 < 2 by norm_num)
  unfold paymentMultiplyIsLinearInBalanceIn propAssert
  rw [Profile.usub_ok (by omega), ok_bind, hmul, ok_bind, hcall, ok_bind,
    Profile.umul_ok (by omega), ok_bind, hcall₂, ok_bind, Profile.umul_ok (by omega), ok_bind]
  generalize (bi * quote 52 wi bo (100 - wi) o) ⌈/⌉ 2 ^ 62 = once at *
  generalize (2 * bi * quote 52 wi bo (100 - wi) o) ⌈/⌉ 2 ^ 62 = twice at *
  split_ifs with hexact
  · rfl
  · rw [Profile.uadd_ok (by omega), ok_bind, assert_ok (by omega)]

/-- The cap, with equal weights. -/
theorem paymentMultiplyIsLinearInBalanceIn_ok_cap :
    paymentMultiplyIsLinearInBalanceIn Profile.checked (2 ^ 126 - 1) (2 ^ 20) 50 300 = .ok () :=
  paymentMultiplyIsLinearInBalanceIn_ok Profile.checked (by norm_num) (by norm_num) (by norm_num)
    (by norm_num) (by norm_num) (by norm_num) (by norm_num) (by norm_num)

end Linear

end WeightedMath
