/-
WeightedMath/EconomicGates.lean

The economic gates of `tests/differential.rs`: both trades in whole units,
against the real payout rounded down and the real price rounded up.

The direction is absolute.  The magnitude is bounded by what the fixture says
about the trade: its first-order sensitivities to base and exponent, in units
per unit of error, doubled, and an allowance for the power,

    shortfall  <= sens >> 51  +  (balance_out >> 52) * 4  +  1,
    overcharge <= sens >> 51  +  sens_pow * 4 >> 52  +  (balance_in >> 52) * 4  +  1.

All terms are truncated, so the real bounds of `Accuracy` do not imply these: a
sum of real numbers below `s + d + 2` must be found although each term may lose
almost a unit.  For a payout the allowance pays for that as soon as it is not
zero, from `balance_out = 2^52` on.  For a payment nothing has to be assumed:
where `sens_pow` is so small that its term vanishes the power is above `2^-26`,
and there the reciprocal is as good as linear (`inv_paddedPower_le_of_flat`).

The truth of a case is a whole number, but it need not be the right one: what
was rounded may have been off by `2^-100` of the reserve.  The absolute direction
survives that because the pad leaves more than it needs, `2^-54` of the reserve
(`outVal_add_le_payout`, `price_add_le`).
-/
import WeightedMath.Accuracy
import WeightedMath.WrapperGate

namespace WeightedMath

open Machine Sensitivity

/-! ### The gates -/

structure OutGivenInCase where
  zone : String
  balanceIn : String
  amountIn : String
  balanceOut : String
  weightIn : String
  weightOut : String
  base : String
  exponent : String
  powerExact : String
  powerExactQ128 : String
  oneMinusPowerExact : String
  tokensOutFloor : String
  sensBaseWei : String
  sensExpWei : String

def OutGivenInCase.debug (c : OutGivenInCase) : String :=
  debugStruct "OutGivenInCase" [("zone", c.zone), ("balance_in", c.balanceIn),
    ("amount_in", c.amountIn), ("balance_out", c.balanceOut), ("weight_in", c.weightIn),
    ("weight_out", c.weightOut), ("base", c.base), ("exponent", c.exponent),
    ("power_exact", c.powerExact), ("power_exact_q128", c.powerExactQ128),
    ("one_minus_power_exact", c.oneMinusPowerExact), ("tokens_out_floor", c.tokensOutFloor),
    ("sens_base_wei", c.sensBaseWei), ("sens_exp_wei", c.sensExpWei)]

structure InGivenOutCase where
  zone : String
  balanceIn : String
  amountOut : String
  balanceOut : String
  weightIn : String
  weightOut : String
  base : String
  exponent : String
  powerExact : String
  powerExactQ128 : String
  amountInCeil : String
  sensBaseWei : String
  sensExpWei : String
  sensPowWei : String

def InGivenOutCase.debug (c : InGivenOutCase) : String :=
  debugStruct "InGivenOutCase" [("zone", c.zone), ("balance_in", c.balanceIn),
    ("amount_out", c.amountOut), ("balance_out", c.balanceOut), ("weight_in", c.weightIn),
    ("weight_out", c.weightOut), ("base", c.base), ("exponent", c.exponent),
    ("power_exact", c.powerExact), ("power_exact_q128", c.powerExactQ128),
    ("amount_in_ceil", c.amountInCeil), ("sens_base_wei", c.sensBaseWei),
    ("sens_exp_wei", c.sensExpWei), ("sens_pow_wei", c.sensPowWei)]

/-- The sum of two sensitivities, or nothing where a summand or the sum is no
`u128`. -/
def sensitivity (base exp : String) : Option ℕ :=
  (parseU128Checked base).bind fun a => (parseU128Checked exp).bind fun b => checkedAdd 128 a b

/-- The call a case is about. -/
def OutGivenInCase.call (B : Build) (c : OutGivenInCase) : Exec ℕ := do
  let balanceIn ← parseU128 c.balanceIn
  let weightIn ← parseU128 c.weightIn
  let balanceOut ← parseU128 c.balanceOut
  let weightOut ← parseU128 c.weightOut
  let amountIn ← parseU128 c.amountIn
  calcOutGivenIn B balanceIn weightIn balanceOut weightOut amountIn

def InGivenOutCase.call (B : Build) (c : InGivenOutCase) : Exec ℕ := do
  let balanceIn ← parseU128 c.balanceIn
  let weightIn ← parseU128 c.weightIn
  let balanceOut ← parseU128 c.balanceOut
  let weightOut ← parseU128 c.weightOut
  let amountOut ← parseU128 c.amountOut
  calcInGivenOut B balanceIn weightIn balanceOut weightOut amountOut

/-- The body of `kernel_out_given_in_gate`.  A sensitivity beyond `u128` makes
the case direction-only. -/
def kernelOutGivenInCase (B : Build) (c : OutGivenInCase) : Exec Unit := do
  let tokensOut ← c.call B
  let truth ← parseU128 c.tokensOutFloor
  let balanceOut ← parseU128 c.balanceOut
  assert (tokensOut ≤ truth) ("OVERPAYMENT (fund leak): kernel " ++ tokensOut.repr ++ " > truth "
    ++ truth.repr ++ " in " ++ c.debug)
  assert (tokensOut ≤ balanceOut) ("payout exceeds reserve in " ++ c.debug)
  match sensitivity c.sensBaseWei c.sensExpWei with
  | none => return ()
  | some sens => do
      let n ← B.usub 32 B.scale 1
      let s ← B.ushr 128 sens n
      let ulps ← B.ushr 128 balanceOut B.scale
      let allowance ← B.umul 128 ulps boundUlps
      let boundWei := saturatingAdd 128 (saturatingAdd 128 s allowance) 1
      let shortfall ← B.usub 128 truth tokensOut
      assert (shortfall ≤ boundWei) ("payout too small: shortfall " ++ shortfall.repr
        ++ " wei > bound " ++ boundWei.repr ++ " in " ++ c.debug)

/-- The body of `kernel_in_given_out_gate`. -/
def kernelInGivenOutCase (B : Build) (c : InGivenOutCase) : Exec Unit := do
  let amountIn ← c.call B
  let truth ← parseU128 c.amountInCeil
  let balanceIn ← parseU128 c.balanceIn
  assert (amountIn ≥ truth) ("UNDERCHARGE (fund leak): kernel " ++ amountIn.repr ++ " < truth "
    ++ truth.repr ++ " in " ++ c.debug)
  match sensitivity c.sensBaseWei c.sensExpWei, parseU128Checked c.sensPowWei with
  | some sens, some sensPow => do
      let n ← B.usub 32 B.scale 1
      let s ← B.ushr 128 sens n
      let pow ← wideShrOrMax B sensPow boundUlps
      let ulps ← B.ushr 128 balanceIn B.scale
      let allowance ← B.umul 128 ulps boundUlps
      let boundWei := saturatingAdd 128 (saturatingAdd 128 (saturatingAdd 128 s pow) allowance) 1
      let overcharge ← B.usub 128 amountIn truth
      assert (overcharge ≤ boundWei) ("overcharge " ++ overcharge.repr ++ " wei > bound "
        ++ boundWei.repr ++ " in " ++ c.debug)
  | _, _ => return ()

/-- The danger zone leads the file. -/
def leadingZone {α : Type} (zone : α → String) (cases : List α) : Exec Unit := do
  let first ← index cases 0
  assertEq debugStr (zone first) "sale_start" "danger zone must lead the file"

def kernelOutGivenInGate (B : Build) (cases : List OutGivenInCase) : Exec Unit := do
  leadingZone OutGivenInCase.zone cases
  cases.forM (kernelOutGivenInCase B)

def kernelInGivenOutGate (B : Build) (cases : List InGivenOutCase) : Exec Unit := do
  leadingZone InGivenOutCase.zone cases
  cases.forM (kernelInGivenOutCase B)

/-! ### Truthful cases -/

/-- The case is about a trade of the envelope, its truth is `v` rounded down,
which stands for the real payout, and its sensitivities are not below those of
the real payout. -/
structure OutGivenInCase.Truthful (c : OutGivenInCase) (bi wi bo wo a : ℕ) (v : ℝ) : Prop where
  envelope : ExactIn bi wi bo wo a
  balanceOut_lt : bo < 2 ^ 128
  balanceIn_eq : c.balanceIn = Nat.repr bi
  weightIn_eq : c.weightIn = Nat.repr wi
  balanceOut_eq : c.balanceOut = Nat.repr bo
  weightOut_eq : c.weightOut = Nat.repr wo
  amountIn_eq : c.amountIn = Nat.repr a
  tokens_near : |v - Curve.payout wi wo bi bo a| ≤ bo / 2 ^ 100
  tokens_nonneg : 0 ≤ v
  tokens_lt : v < bo + 1
  tokensOut_eq : c.tokensOutFloor = Nat.repr ⌊v⌋₊
  sensBase : ∃ m : ℕ, c.sensBaseWei = Nat.repr m ∧
    (bo : ℝ) * ((wi : ℝ) / wo) * ((bi : ℝ) / (bi + a)) ^ ((wi : ℝ) / wo - 1)
      ≤ m * (1 + 1 / 2 ^ 100)
  sensExp : ∃ n : ℕ, c.sensExpWei = Nat.repr n ∧
    (bo : ℝ) * ((bi : ℝ) / (bi + a)) ^ ((wi : ℝ) / wo) * |Real.log ((bi : ℝ) / (bi + a))|
      ≤ n * (1 + 1 / 2 ^ 100)

/-- The same for a purchase, whose truth is rounded up and stands for the real
price. -/
structure InGivenOutCase.Truthful (c : InGivenOutCase) (bi wi bo wo o : ℕ) (v : ℝ) : Prop where
  envelope : ExactOut bi wi bo wo o
  balanceIn_lt : bi < 2 ^ 128
  balanceOut_lt : bo < 2 ^ 128
  balanceIn_eq : c.balanceIn = Nat.repr bi
  weightIn_eq : c.weightIn = Nat.repr wi
  balanceOut_eq : c.balanceOut = Nat.repr bo
  weightOut_eq : c.weightOut = Nat.repr wo
  amountOut_eq : c.amountOut = Nat.repr o
  amount_near : |v - Curve.price wi wo bi bo o| ≤ bi / 2 ^ 100
  amount_zero : o = 0 → v ≤ 0
  amountIn_eq : c.amountInCeil = Nat.repr ⌈v⌉₊
  sensBase : ∃ m : ℕ, c.sensBaseWei = Nat.repr m ∧
    (bi : ℝ) * ((wo : ℝ) / wi) / ((((bo : ℝ) - o) / bo) ^ ((wo : ℝ) / wi) * (((bo : ℝ) - o) / bo))
      ≤ m * (1 + 1 / 2 ^ 100)
  sensExp : ∃ n : ℕ, c.sensExpWei = Nat.repr n ∧
    (bi : ℝ) * |Real.log (((bo : ℝ) - o) / bo)| / (((bo : ℝ) - o) / bo) ^ ((wo : ℝ) / wi)
      ≤ n * (1 + 1 / 2 ^ 100)
  sensPow : ∃ k : ℕ, c.sensPowWei = Nat.repr k ∧
    (bi : ℝ) / ((((bo : ℝ) - o) / bo) ^ ((wo : ℝ) / wi) * (((bo : ℝ) - o) / bo) ^ ((wo : ℝ) / wi))
      ≤ k * (1 + 1 / 2 ^ 100)

/-! ### Truncated sums -/

/-- A right shift drops less than a unit. -/
theorem lt_shift (n k : ℕ) : (n : ℝ) < ((n / 2 ^ k : ℕ) + 1) * ((2 ^ k : ℕ) : ℝ) := by
  rw [mul_comm]
  exact_mod_cast Nat.lt_mul_div_succ n (Nat.two_pow_pos k)

theorem boundUlps_eq : boundUlps = 4 := rfl

theorem saturatingAdd_ok {a b : ℕ} (h : a + b < 2 ^ 128) : saturatingAdd 128 a b = a + b :=
  min_eq_left (Nat.le_sub_one_of_lt h)

theorem sensitivity_repr (m n : ℕ) :
    sensitivity (Nat.repr m) (Nat.repr n) = if m + n < 2 ^ 128 then some (m + n) else none := by
  unfold sensitivity
  rw [parseU128Checked_repr, parseU128Checked_repr]
  by_cases hm : m < 2 ^ 128
  · by_cases hn : n < 2 ^ 128
    · rw [if_pos hm, if_pos hn]
      rfl
    · rw [if_pos hm, if_neg hn, if_neg (show ¬ m + n < 2 ^ 128 by omega)]
      rfl
  · rw [if_neg hm, if_neg (show ¬ m + n < 2 ^ 128 by omega)]
    rfl

/-- A sensitivity that is a word says what the real one is but for `2^28` of its
units, far below what the shift drops. -/
theorem le_add_of_sensitivity {A : ℝ} {n : ℕ} (h : A ≤ n * (1 + 1 / 2 ^ 100)) (hn : n < 2 ^ 128) :
    A ≤ n + ((2 ^ 28 : ℕ) : ℝ) := by
  have hword : (n : ℝ) * (1 / 2 ^ 100) ≤ ((2 ^ 28 : ℕ) : ℝ) := by
    rw [mul_one_div, div_le_iff₀ (by positivity)]
    exact_mod_cast hn.le
  rw [mul_add, mul_one] at h
  exact h.trans (add_le_add le_rfl hword)

/-- What is left of the bound of a payout: an allowance that is not zero covers
all that is truncated. -/
theorem payout_units {sens bo n : ℕ} {A : ℝ} (hA : A ≤ sens + ((2 ^ 29 : ℕ) : ℝ))
    (hbo : 2 ^ 52 ≤ bo) (h : (n : ℝ) < 1 / 2 ^ 51 * A + 1.73 * (bo / 2 ^ 52) + 1) :
    n ≤ sens / 2 ^ 51 + bo / 2 ^ 52 * 4 + 1 := by
  have hs := lt_shift sens 51
  have hk := lt_shift bo 52
  have hk₁ : (1 : ℝ) ≤ (bo / 2 ^ 52 : ℕ) := by
    exact_mod_cast (Nat.one_le_div_iff (Nat.two_pow_pos 52)).mpr hbo
  have hlt : (n : ℝ) < ((sens / 2 ^ 51 + bo / 2 ^ 52 * 4 + 2 : ℕ) : ℝ) := by
    generalize sens / 2 ^ 51 = s at *
    generalize bo / 2 ^ 52 = k at *
    norm_num at h hs hk hA ⊢
    linarith
  have := Nat.cast_lt.mp hlt
  omega

/-- What is left of the bound of a payment.  Either the error is of first order,
or the term of the power is not zero. -/
theorem payment_units {sens sensPow bi n : ℕ} {A D : ℝ} (hA : A ≤ sens + ((2 ^ 29 : ℕ) : ℝ))
    (hD : D ≤ sensPow + ((2 ^ 28 : ℕ) : ℝ)) (hbi : bi ≤ D)
    (h : sensPow < 2 ^ 50 ∧ (n : ℝ) < 1 / 2 ^ 52 * (1.01 * A + 0.72 * D) + bi / 2 ^ 62 + 1 ∨
      2 ^ 50 ≤ sensPow ∧ (n : ℝ) < 1 / 2 ^ 52 * (1.7 * A + 1.21 * D) + bi / 2 ^ 62 + 1) :
    n ≤ sens / 2 ^ 51 + sensPow * 4 / 2 ^ 52 + bi / 2 ^ 52 * 4 + 1 := by
  have hs := lt_shift sens 51
  have hs₀ : (0 : ℝ) ≤ (sens / 2 ^ 51 : ℕ) := Nat.cast_nonneg _
  have hlt : (n : ℝ) < ((sens / 2 ^ 51 + sensPow * 4 / 2 ^ 52 + 2 : ℕ) : ℝ) := by
    rcases h with ⟨hflat, h⟩ | ⟨hsteep, h⟩
    · have hsmall : (sensPow : ℝ) ≤ 1125899906842624 := by
        norm_num at hflat
        exact_mod_cast hflat.le
      have hd : (0 : ℝ) ≤ (sensPow * 4 / 2 ^ 52 : ℕ) := Nat.cast_nonneg _
      generalize sens / 2 ^ 51 = s at *
      generalize sensPow * 4 / 2 ^ 52 = d at *
      norm_num at h hs hA hD ⊢
      linarith
    · have hd := lt_shift (sensPow * 4) 52
      have hd₁ : (1 : ℝ) ≤ (sensPow * 4 / 2 ^ 52 : ℕ) := by
        exact_mod_cast (Nat.one_le_div_iff (Nat.two_pow_pos 52)).mpr (by omega)
      generalize sens / 2 ^ 51 = s at *
      generalize sensPow * 4 / 2 ^ 52 = d at *
      norm_num at h hs hd hA hD ⊢
      linarith
  have := Nat.cast_lt.mp hlt
  omega

/-! ### The payout -/

section Payout

variable {bi wi bo wo a : ℕ} {v : ℝ}

/-- What a payout falls short of the real one, with the allowance kept small. -/
theorem ExactIn.shortfall_lt (h : ExactIn bi wi bo wo a) :
    Curve.payout wi wo bi bo a - outVal 52 bi wi bo wo a
      < 1 / 2 ^ 51 * (bo * ((wi : ℝ) / wo) * ((bi : ℝ) / (bi + a)) ^ ((wi : ℝ) / wo - 1)
          + bo * ((bi : ℝ) / (bi + a)) ^ ((wi : ℝ) / wo) * |Real.log ((bi : ℝ) / (bi + a))|)
        + 1.72 * (bo / 2 ^ 52) + 1 := by
  have hboR : (1 : ℝ) ≤ bo := by exact_mod_cast h.out_pos
  rw [Curve.payout, abs_of_nonpos (neg_nonneg.mp h.overstated.log_nonneg)]
  by_cases hbase : 2 ^ 52 ≤ ratioUpVal 52 bi (bi + a)
  · have hgap := mul_le_mul_of_nonneg_left (h.overstated_one hbase).gap_le
      (by linarith : 0 ≤ (bo : ℝ))
    rw [Real.one_rpow] at hgap
    rw [outVal, if_pos hbase, Nat.cast_zero]
    generalize ((bi : ℝ) / (bi + a)) ^ ((wi : ℝ) / wo) = p at *
    linarith
  · have hout := h.outVal_gt (not_le.mp hbase)
    have hgap := mul_le_mul_of_nonneg_left h.overstated.gap_le (by linarith : 0 ≤ (bo : ℝ))
    generalize ((bi : ℝ) / (bi + a)) ^ ((wi : ℝ) / wo) = p at *
    generalize ((ratioUpVal 52 bi (bi + a) : ℝ) / 2 ^ 52)
      ^ ((exponentDown 52 wi wo : ℝ) / 2 ^ 52) = q at *
    linarith

/-- A payout that is not zero stays `2^-54` of the reserve below the real one:
the pad is 512 units of 62 bits, the error 213. -/
theorem ExactIn.outVal_add_le_payout (h : ExactIn bi wi bo wo a)
    (hpos : 0 < outVal 52 bi wi bo wo a) :
    (outVal 52 bi wi bo wo a : ℝ) + bo / 2 ^ 54 ≤ Curve.payout wi wo bi bo a := by
  have hboR : (0 : ℝ) ≤ bo := Nat.cast_nonneg bo
  have hbase : ¬ 2 ^ 52 ≤ ratioUpVal 52 bi (bi + a) := by
    intro hone
    rw [outVal, if_pos hone] at hpos
    exact hpos.false
  rw [outVal, if_neg hbase] at hpos ⊢
  have hdom := h.powDomain (S := 52) (by norm_num) (by norm_num) (not_le.mp hbase)
  have hpow := h.real_power_le (S := 52) (by norm_num)
  have herr := (abs_le.mp (hdom.abs_powVal_sub_le (by norm_num))).1
  have hfraction : 0 < outFraction 52 bi wi wo a := by
    by_contra hle
    rw [Int.toNat_of_nonpos (not_lt.mp hle), Nat.mul_zero, Nat.zero_div] at hpos
    exact hpos.false
  have hmax : outFraction 52 bi wi wo a
      = 2 ^ 62 - powVal 52 (ratioUpVal 52 bi (bi + a)) (exponentDown 52 wi wo) - 512 := by
    rw [outFraction] at hfraction ⊢
    exact max_eq_left (by omega)
  have hscaled : (outFraction 52 bi wi wo a : ℝ) / 2 ^ 62 + 1 / 2 ^ 54
      ≤ 1 - ((bi : ℝ) / (bi + a)) ^ ((wi : ℝ) / wo) := by
    rw [← le_sub_iff_add_le, div_le_iff₀ (by positivity), hmax]
    push_cast
    norm_num at hpow herr ⊢
    linarith
  obtain ⟨n, hn⟩ := Int.eq_ofNat_of_zero_le hfraction.le
  rw [hn, Int.cast_natCast] at hscaled
  rw [hn, Int.toNat_natCast, Curve.payout]
  calc ((bo * n / 2 ^ 62 : ℕ) : ℝ) + bo / 2 ^ 54
      ≤ ((bo * n : ℕ) : ℝ) / (2 ^ 62 : ℕ) + bo / 2 ^ 54 := add_le_add_left Nat.cast_div_le _
    _ = bo * (n / 2 ^ 62 + 1 / 2 ^ 54) := by push_cast; ring
    _ ≤ _ := mul_le_mul_of_nonneg_left hscaled hboR

theorem OutGivenInCase.Truthful.call_ok {c : OutGivenInCase} (P : Profile)
    (h : c.Truthful bi wi bo wo a v) :
    c.call (Build.kernel P) = .ok (outVal 52 bi wi bo wo a) := by
  obtain ⟨hbi, -, htotal, hw⟩ := h.envelope
  unfold OutGivenInCase.call
  rw [h.balanceIn_eq, h.weightIn_eq, h.balanceOut_eq, h.weightOut_eq, h.amountIn_eq,
    parseU128_repr (by omega), ok_bind, parseU128_repr (by have := hw.in_le; omega), ok_bind,
    parseU128_repr h.balanceOut_lt, ok_bind, parseU128_repr (by have := hw.out_le; omega), ok_bind,
    parseU128_repr (by omega), ok_bind, calcOutGivenIn_ok _ h.balanceOut_lt h.envelope,
    Build.kernel_scale]

/-- The direction survives a truth that is slightly off. -/
theorem OutGivenInCase.Truthful.outVal_le {c : OutGivenInCase} (h : c.Truthful bi wi bo wo a v) :
    outVal 52 bi wi bo wo a ≤ ⌊v⌋₊ := by
  rcases Nat.eq_zero_or_pos (outVal 52 bi wi bo wo a) with hzero | hpos
  · rw [hzero]
    exact Nat.zero_le _
  · have hmargin := h.envelope.outVal_add_le_payout hpos
    have hnear := (abs_le.mp h.tokens_near).1
    have hboR : (0 : ℝ) ≤ bo := Nat.cast_nonneg bo
    apply Nat.le_floor
    norm_num at hmargin hnear ⊢
    linarith

/-- The magnitude, in whole units, for sensitivities that are words. -/
theorem OutGivenInCase.Truthful.shortfall_units {c : OutGivenInCase}
    (h : c.Truthful bi wi bo wo a v) (hbo : 2 ^ 52 ≤ bo) :
    ∃ m n, c.sensBaseWei = Nat.repr m ∧ c.sensExpWei = Nat.repr n ∧ (m + n < 2 ^ 128 →
      ⌊v⌋₊ - outVal 52 bi wi bo wo a ≤ (m + n) / 2 ^ 51 + bo / 2 ^ 52 * 4 + 1) := by
  obtain ⟨m, hm, hbase⟩ := h.sensBase
  obtain ⟨n, hn, hexp⟩ := h.sensExp
  refine ⟨m, n, hm, hn, ?_⟩
  intro hsens
  have hm' := le_add_of_sensitivity hbase (by omega)
  have hn' := le_add_of_sensitivity hexp (by omega)
  have hlt := h.envelope.shortfall_lt
  have hnear := (abs_le.mp h.tokens_near).2
  have hfloor := Nat.floor_le h.tokens_nonneg
  have hboR : (0 : ℝ) ≤ bo := Nat.cast_nonneg bo
  refine payout_units (A := bo * ((wi : ℝ) / wo) * ((bi : ℝ) / (bi + a)) ^ ((wi : ℝ) / wo - 1)
    + bo * ((bi : ℝ) / (bi + a)) ^ ((wi : ℝ) / wo) * |Real.log ((bi : ℝ) / (bi + a))|) ?_ hbo ?_
  · push_cast at hm' hn' ⊢
    linarith
  · rw [Nat.cast_sub h.outVal_le]
    linarith

theorem kernelOutGivenInCase_ok {c : OutGivenInCase} (P : Profile)
    (h : c.Truthful bi wi bo wo a v) (hbo : 2 ^ 52 ≤ bo) :
    kernelOutGivenInCase (Build.kernel P) c = .ok () := by
  have htruth : ⌊v⌋₊ < 2 ^ 128 := by
    have hlt := (Nat.floor_lt h.tokens_nonneg).mpr
      (show v < ((bo + 1 : ℕ) : ℝ) by push_cast; exact h.tokens_lt)
    exact (Nat.le_of_lt_succ hlt).trans_lt h.balanceOut_lt
  have hdir := h.outVal_le
  have hlt := outVal_lt 52 bi wi wo a h.envelope.out_pos
  obtain ⟨m, n, hm, hn, hunits⟩ := h.shortfall_units hbo
  unfold kernelOutGivenInCase
  rw [h.call_ok P, ok_bind, h.tokensOut_eq, parseU128_repr htruth, ok_bind, h.balanceOut_eq,
    parseU128_repr h.balanceOut_lt, ok_bind, assert_ok hdir, ok_bind, assert_ok hlt.le, ok_bind,
    hm, hn, sensitivity_repr]
  have hbo₁ := h.balanceOut_lt
  generalize m + n = sens at *
  split_ifs with hsens
  · have hsum : saturatingAdd 128 (saturatingAdd 128 (sens / 2 ^ 51) (bo / 2 ^ 52 * 4)) 1
        = sens / 2 ^ 51 + bo / 2 ^ 52 * 4 + 1 := by
      rw [saturatingAdd_ok (a := sens / 2 ^ 51) (by omega), saturatingAdd_ok (by omega)]
    have hbound := hunits hsens
    rw [← hsum] at hbound
    dsimp only
    rw [Build.kernel_scale, Profile.usub_ok (by norm_num), ok_bind, Profile.ushr_ok (by norm_num),
      ok_bind, Profile.ushr_ok (by norm_num), ok_bind, Nat.shiftRight_eq_div_pow,
      Nat.shiftRight_eq_div_pow, boundUlps_eq, Profile.umul_ok (by omega), ok_bind,
      Profile.usub_ok hdir, ok_bind, assert_ok hbound]
  · rfl

end Payout

/-! ### The payment -/

section Payment

variable {bi wi bo wo o : ℕ} {r y p v : ℝ}

/-- Where the power is not below `2^-26` its reciprocal reacts linearly. -/
theorem ExactOut.inv_paddedPower_le_of_flat (h : ExactOut bi wi bo wo o) (hbo : bo < 2 ^ 128)
    (hr : r = ((bo : ℝ) - o) / bo) (hy : y = (wo : ℝ) / wi) (hp : p = r ^ y)
    (hflat : 1 / 2 ^ 26 ≤ p) :
    ((paddedPower 52 wi bo wo o : ℝ) / 2 ^ 62)⁻¹
      ≤ p⁻¹ + 1 / 2 ^ 52 * (1.01 * ((y / r + -Real.log r) * p⁻¹) + 0.71 * (p⁻¹ * p⁻¹)) := by
  obtain ⟨-, hU₀, hU₁⟩ := h.sensitivity_bounds hr hy
  have hloss := fun w => h.inv_paddedPower_le_mul (w := w) hbo hr hy hp
  generalize y / r + -Real.log r = U at *
  have hpos : 0 < p := lt_of_lt_of_le (by positivity) hflat
  have hinv : 0 < p⁻¹ := inv_pos.mpr hpos
  have hinv₁ : p⁻¹ ≤ 2 ^ 26 := by
    rw [inv_le_comm₀ hpos (by positivity), ← one_div]
    exact hflat
  obtain ⟨w, hw⟩ : ∃ w, w = 1.001 * (1 / 2 ^ 52) * U + 725 / 2 ^ 62 * p⁻¹ := ⟨_, rfl⟩
  have hw₀ : 0 ≤ w := by
    rw [hw]
    positivity
  have hw₁ : w ≤ 0.0001 := by
    norm_num at hU₁ hinv₁ hw ⊢
    linarith
  have hcurve : (1 - w)⁻¹ ≤ 1 + 1.001 * w := by
    rw [inv_le_iff_one_le_mul₀ (by linarith)]
    have := mul_nonneg hw₀ (sub_nonneg.mpr hw₁)
    linarith
  calc ((paddedPower 52 wi bo wo o : ℝ) / 2 ^ 62)⁻¹ ≤ p⁻¹ * (1 - w)⁻¹ :=
        hloss w hw (by linarith)
    _ ≤ p⁻¹ * (1 + 1.001 * w) := mul_le_mul_of_nonneg_left hcurve hinv.le
    _ = p⁻¹ + 1 / 2 ^ 52 * (1.001 * 1.001 * (U * p⁻¹) + 1.001 * 725 / 1024 * (p⁻¹ * p⁻¹)) := by
        rw [hw]
        ring
    _ ≤ p⁻¹ + 1 / 2 ^ 52 * (1.01 * (U * p⁻¹) + 0.71 * (p⁻¹ * p⁻¹)) := by
        have h₁ := mul_nonneg hU₀ hinv.le
        have h₂ := mul_nonneg hinv.le hinv.le
        gcongr
        · norm_num
        · norm_num

/-- The magnitude, in whole units: no reserve is too small for it. -/
theorem ExactOut.overcharge_units (h : ExactOut bi wi bo wo o) (hbo : bo < 2 ^ 128)
    (hr : r = ((bo : ℝ) - o) / bo) (hy : y = (wo : ℝ) / wi) (hp : p = r ^ y) {m n k : ℕ}
    (hm : (bi : ℝ) * y / (p * r) ≤ m + ((2 ^ 28 : ℕ) : ℝ))
    (hn : (bi : ℝ) * |Real.log r| / p ≤ n + ((2 ^ 28 : ℕ) : ℝ))
    (hk : (bi : ℝ) / (p * p) ≤ k + ((2 ^ 28 : ℕ) : ℝ)) {c : ℕ}
    (hc : (c : ℝ) ≤ ((bi * quote 52 wi bo wo o) ⌈/⌉ 2 ^ 62 : ℕ) - bi * (p⁻¹ - 1) + bi / 2 ^ 100) :
    c ≤ (m + n) / 2 ^ 51 + k * 4 / 2 ^ 52 + bi / 2 ^ 52 * 4 + 1 := by
  obtain ⟨hlog₀, -, -⟩ := h.sensitivity_bounds hr hy
  obtain ⟨hp₀, hp₁⟩ := h.real_power_bounds hr hy
  have hsteep := h.inv_paddedPower_le hbo hr hy hp
  have hflat := h.inv_paddedPower_le_of_flat hbo hr hy hp
  rw [← hp] at hp₀ hp₁
  have hpos : 0 < p := lt_of_lt_of_le (by norm_num) hp₀
  have hbiR : (1 : ℝ) ≤ bi := by exact_mod_cast h.in_pos
  have hinv : 1 ≤ p⁻¹ := (one_le_inv₀ hpos).mpr hp₁
  have hA : (bi : ℝ) * ((y / r + -Real.log r) * p⁻¹) ≤ ((m + n : ℕ) : ℝ) + ((2 ^ 29 : ℕ) : ℝ) := by
    rw [abs_of_nonpos (neg_nonneg.mp hlog₀)] at hn
    have hsplit : (bi : ℝ) * ((y / r + -Real.log r) * p⁻¹)
        = bi * y / (p * r) + bi * -Real.log r / p := by ring
    rw [hsplit]
    push_cast at hm hn ⊢
    linarith
  have hD : (bi : ℝ) * (p⁻¹ * p⁻¹) ≤ k + ((2 ^ 28 : ℕ) : ℝ) := by
    rwa [← mul_inv, ← div_eq_mul_inv]
  have hinv₂ : 1 ≤ p⁻¹ * p⁻¹ := one_le_mul_of_one_le_of_one_le hinv hinv
  have hbiD := le_mul_of_one_le_right (show (0 : ℝ) ≤ bi by linarith) hinv₂
  refine payment_units hA hD hbiD ?_
  rcases lt_or_ge k (2 ^ 50) with hsmall | hlarge
  · left
    -- a small term of the power means a power that is not small
    have hpow : p⁻¹ * p⁻¹ ≤ 2 ^ 52 := by
      calc p⁻¹ * p⁻¹ ≤ bi * (p⁻¹ * p⁻¹) := le_mul_of_one_le_left (by linarith) hbiR
        _ ≤ k + ((2 ^ 28 : ℕ) : ℝ) := hD
        _ ≤ ((2 ^ 50 : ℕ) : ℝ) + ((2 ^ 28 : ℕ) : ℝ) := by gcongr
        _ ≤ 2 ^ 52 := by norm_num
    have hinv₁ : p⁻¹ ≤ 2 ^ 26 := by
      apply (abs_le_of_sq_le_sq' _ (by positivity)).2
      nlinarith
    have hge : 1 / 2 ^ 26 ≤ p := by
      rwa [one_div, inv_le_comm₀ (by positivity) hpos]
    have := h.overcharge_lt hbo (hflat hge)
    exact ⟨hsmall, by linarith⟩
  · right
    have := h.overcharge_lt hbo hsteep
    exact ⟨hlarge, by linarith⟩

theorem InGivenOutCase.Truthful.call_eq {c : InGivenOutCase} (B : Build)
    (h : c.Truthful bi wi bo wo o v) : c.call B = calcInGivenOut B bi wi bo wo o := by
  have hw := h.envelope.weights
  have ho := h.envelope.amount_lt
  have hbo := h.balanceOut_lt
  unfold InGivenOutCase.call
  rw [h.balanceIn_eq, h.weightIn_eq, h.balanceOut_eq, h.weightOut_eq, h.amountOut_eq,
    parseU128_repr h.balanceIn_lt, ok_bind, parseU128_repr (by have := hw.in_le; omega), ok_bind,
    parseU128_repr hbo, ok_bind, parseU128_repr (by have := hw.out_le; omega), ok_bind,
    parseU128_repr (by omega), ok_bind]

/-- Direction and magnitude of whatever the call charges. -/
theorem InGivenOutCase.Truthful.overcharge_units {c : InGivenOutCase} {P : Profile}
    (hP : P.overflowChecks = true) (h : c.Truthful bi wi bo wo o v) :
    ∃ m n k, c.sensBaseWei = Nat.repr m ∧ c.sensExpWei = Nat.repr n ∧ c.sensPowWei = Nat.repr k ∧
      ∀ cost, calcInGivenOut (Build.kernel P) bi wi bo wo o = .ok cost → ⌈v⌉₊ ≤ cost ∧
        (m + n < 2 ^ 128 → k < 2 ^ 128 →
          cost - ⌈v⌉₊ ≤ (m + n) / 2 ^ 51 + k * 4 / 2 ^ 52 + bi / 2 ^ 52 * 4 + 1) := by
  obtain ⟨m, hm, hbase⟩ := h.sensBase
  obtain ⟨n, hn, hexp⟩ := h.sensExp
  obtain ⟨k, hk, hpow⟩ := h.sensPow
  refine ⟨m, n, k, hm, hn, hk, ?_⟩
  intro cost hcost
  have henv := h.envelope
  rcases Nat.eq_zero_or_pos o with ho | ho
  · rw [Nat.ceil_eq_zero.mpr (h.amount_zero ho)]
    subst ho
    rw [calcInGivenOut_zero _ h.balanceOut_lt henv] at hcost
    cases hcost
    exact ⟨le_rfl, fun _ _ => Nat.zero_le _⟩
  · have hpay := calcInGivenOut_payment hP h.balanceIn_lt h.balanceOut_lt ho hcost
    have hmargin := henv.price_add_le h.balanceOut_lt
    have hnear := abs_le.mp h.amount_near
    have hbiR : (0 : ℝ) ≤ bi := Nat.cast_nonneg bi
    have hdir : ⌈v⌉₊ ≤ cost := by
      rw [Nat.ceil_le, hpay]
      norm_num at hmargin hnear ⊢
      linarith
    refine ⟨hdir, ?_⟩
    intro hsens hsensPow
    refine henv.overcharge_units h.balanceOut_lt rfl rfl rfl
      (le_add_of_sensitivity hbase (by omega)) (le_add_of_sensitivity hexp (by omega))
      (le_add_of_sensitivity hpow hsensPow) ?_
    rw [Nat.cast_sub hdir, ← hpay, ← henv.price_eq]
    have hceil := Nat.le_ceil v
    norm_num at hnear ⊢
    linarith

/-- On a truthful case the body passes what the call returns. -/
theorem kernelInGivenOutCase_iff {c : InGivenOutCase} {P : Profile} (hP : P.overflowChecks = true)
    (h : c.Truthful bi wi bo wo o v) :
    kernelInGivenOutCase (Build.kernel P) c = .ok () ↔
      ∃ cost, c.call (Build.kernel P) = .ok cost := by
  obtain ⟨m, n, k, hm, hn, hk, hunits⟩ := h.overcharge_units hP
  rw [h.call_eq]
  unfold kernelInGivenOutCase
  rw [h.call_eq]
  constructor
  · intro hpass
    obtain ⟨cost, hcost, -⟩ := bind_eq_ok.mp hpass
    exact ⟨cost, hcost⟩
  · rintro ⟨cost, hcost⟩
    obtain ⟨hdir, hmag⟩ := hunits cost hcost
    have hfit := calcInGivenOut_lt hP h.balanceIn_lt h.balanceOut_lt hcost
    have hbi := h.balanceIn_lt
    rw [hcost, ok_bind, h.amountIn_eq, parseU128_repr (hdir.trans_lt hfit), ok_bind, h.balanceIn_eq,
      parseU128_repr hbi, ok_bind, assert_ok hdir, ok_bind, hm, hn, hk, sensitivity_repr,
      parseU128Checked_repr]
    generalize m + n = sens at *
    by_cases hsens : sens < 2 ^ 128
    · by_cases hpow : k < 2 ^ 128
      · have hbound := hmag hsens hpow
        have hshift : min (k * 4 / 2 ^ 52) (2 ^ 128 - 1) = k * 4 / 2 ^ 52 := by omega
        have hsum : saturatingAdd 128 (saturatingAdd 128 (saturatingAdd 128 (sens / 2 ^ 51)
            (k * 4 / 2 ^ 52)) (bi / 2 ^ 52 * 4)) 1
              = sens / 2 ^ 51 + k * 4 / 2 ^ 52 + bi / 2 ^ 52 * 4 + 1 := by
          rw [saturatingAdd_ok (a := sens / 2 ^ 51) (by omega),
            saturatingAdd_ok (a := sens / 2 ^ 51 + k * 4 / 2 ^ 52) (by omega),
            saturatingAdd_ok (by omega)]
        rw [← hsum] at hbound
        rw [if_pos hsens, if_pos hpow]
        dsimp only
        rw [boundUlps_eq, wideShrOrMax_eq _ hpow (by norm_num), Build.kernel_scale, hshift,
          Profile.usub_ok (by norm_num), ok_bind, Profile.ushr_ok (by norm_num), ok_bind, ok_bind,
          Profile.ushr_ok (by norm_num), ok_bind, Nat.shiftRight_eq_div_pow,
          Nat.shiftRight_eq_div_pow, Profile.umul_ok (by omega), ok_bind, Profile.usub_ok hdir,
          ok_bind, assert_ok hbound]
      · rw [if_pos hsens, if_neg hpow]
        rfl
    · rw [if_neg hsens]
      rfl

end Payment

/-! ### Whole fixtures -/

section Gate

theorem leadingZone_ok {α : Type} {zone : α → String} {cases : List α}
    (h : cases.head?.map zone = some "sale_start") : leadingZone zone cases = .ok () := by
  cases cases with
  | nil => cases h
  | cons c cs =>
      unfold leadingZone
      rw [index_ok (show 0 < (c :: cs).length from Nat.succ_pos _), ok_bind]
      exact assertEq_ok (Option.some.inj h)

/-- **The economic gate of a sale passes on every truthful fixture** whose
reserves are at least `2^52` units, in every profile: no payout is above the
real one rounded down, and none falls short of it by more than the bound. -/
theorem kernelOutGivenInGate_ok (P : Profile) {cases : List OutGivenInCase}
    (hlead : cases.head?.map OutGivenInCase.zone = some "sale_start")
    (h : ∀ c ∈ cases, ∃ bi wi bo wo a v, c.Truthful bi wi bo wo a v ∧ 2 ^ 52 ≤ bo) :
    kernelOutGivenInGate (Build.kernel P) cases = .ok () := by
  unfold kernelOutGivenInGate
  rw [leadingZone_ok hlead, ok_bind]
  apply forM_eq_ok.mpr
  intro c hc
  obtain ⟨bi, wi, bo, wo, a, v, hcase, hbo⟩ := h c hc
  exact kernelOutGivenInCase_ok P hcase hbo

/-- A unit against `2^100 - 1` takes all but one of `2^52` units. -/
theorem kernelOutGivenInGate_ok_drain :
    kernelOutGivenInGate (Build.kernel Profile.wrapping) [⟨"sale_start", "1",
      "1267650600228229401496703205375", "4503599627370496", "1", "1", "7.9e-31", "1", "7.9e-31",
      "268435456", "1.0", "4503599627370495", "4503599627370496", "1"⟩] = .ok () := by
  apply kernelOutGivenInGate_ok _ rfl
  intro c hc
  obtain rfl := List.mem_singleton.mp hc
  have hbase : ((1 : ℕ) : ℝ) / (((1 : ℕ) : ℝ) + ((2 ^ 100 - 1 : ℕ) : ℝ)) = 1 / 2 ^ 100 := by
    norm_num
  have hexp : ((1 : ℕ) : ℝ) / ((1 : ℕ) : ℝ) = 1 := by norm_num
  have hlog : |Real.log (1 / 2 ^ 100)| = 100 * Real.log 2 := by
    rw [one_div, Real.log_inv, abs_neg, Real.log_pow, Nat.cast_ofNat, abs_of_nonneg]
    exact mul_nonneg (by norm_num) (Real.log_nonneg one_le_two)
  have hlog₂ := Real.log_two_lt_d9
  have hlog₃ := Real.log_two_gt_d9
  have hpayout : Curve.payout 1 1 (1 : ℕ) (2 ^ 52 : ℕ) (2 ^ 100 - 1 : ℕ)
      = ((2 ^ 52 : ℕ) : ℝ) * (1 - 1 / 2 ^ 100) := by
    rw [Curve.payout, hbase, hexp, Real.rpow_one]
  refine ⟨1, 1, 2 ^ 52, 1, 2 ^ 100 - 1,
    Curve.payout 1 1 (1 : ℕ) (2 ^ 52 : ℕ) (2 ^ 100 - 1 : ℕ), ?_, le_rfl⟩
  exact {
    envelope := ⟨by norm_num, by norm_num, by norm_num, by norm_num, by norm_num, by norm_num,
      by norm_num, by norm_num, by norm_num⟩
    balanceOut_lt := by norm_num
    balanceIn_eq := rfl
    weightIn_eq := rfl
    balanceOut_eq := by decide +kernel
    weightOut_eq := rfl
    amountIn_eq := by decide +kernel
    tokens_near := by
      rw [sub_self, abs_zero]
      positivity
    tokens_nonneg := by
      rw [hpayout]
      norm_num
    tokens_lt := by
      rw [hpayout]
      norm_num
    tokensOut_eq := by
      have hfloor : ⌊((2 ^ 52 : ℕ) : ℝ) * (1 - 1 / 2 ^ 100)⌋₊ = 2 ^ 52 - 1 := by
        rw [Nat.floor_eq_iff (by norm_num)]
        norm_num
      rw [hpayout, hfloor]
      decide +kernel
    sensBase := by
      refine ⟨2 ^ 52, by decide +kernel, ?_⟩
      rw [hbase, hexp, sub_self, Real.rpow_zero]
      norm_num
    sensExp := by
      refine ⟨1, by decide +kernel, ?_⟩
      rw [hbase, hexp, Real.rpow_one, hlog]
      norm_num
      linarith }

/-- **The economic gate of a purchase fails on a truthful fixture only where the
call itself does**, whatever the reserves: with overflow checks on, every
payment that is returned is at least the real price rounded up, and exceeds it
by at most the bound. -/
theorem kernelInGivenOutGate_iff {P : Profile} (hP : P.overflowChecks = true)
    {cases : List InGivenOutCase}
    (hlead : cases.head?.map InGivenOutCase.zone = some "sale_start")
    (h : ∀ c ∈ cases, ∃ bi wi bo wo o v, c.Truthful bi wi bo wo o v) :
    kernelInGivenOutGate (Build.kernel P) cases = .ok () ↔
      ∀ c ∈ cases, ∃ cost, c.call (Build.kernel P) = .ok cost := by
  unfold kernelInGivenOutGate
  rw [leadingZone_ok hlead, ok_bind, forM_eq_ok]
  constructor
  · intro hpass c hc
    obtain ⟨bi, wi, bo, wo, o, v, hcase⟩ := h c hc
    exact (kernelInGivenOutCase_iff hP hcase).mp (hpass c hc)
  · intro hcall c hc
    obtain ⟨bi, wi, bo, wo, o, v, hcase⟩ := h c hc
    exact (kernelInGivenOutCase_iff hP hcase).mpr (hcall c hc)

/-- Three units out of ten cost a unit. -/
theorem kernelInGivenOutGate_iff_three :
    kernelInGivenOutGate (Build.kernel Profile.checked) [⟨"sale_start", "1", "3", "10", "1", "1",
      "0.7", "1", "0.7", "238197656844656924424362225202237748019", "1", "3", "1", "3"⟩] = .ok () ↔
      ∀ c ∈ [(⟨"sale_start", "1", "3", "10", "1", "1", "0.7", "1", "0.7",
        "238197656844656924424362225202237748019", "1", "3", "1", "3"⟩ : InGivenOutCase)],
        ∃ cost, c.call (Build.kernel Profile.checked) = .ok cost := by
  apply kernelInGivenOutGate_iff rfl rfl
  intro c hc
  obtain rfl := List.mem_singleton.mp hc
  have hbase : (((10 : ℕ) : ℝ) - ((3 : ℕ) : ℝ)) / ((10 : ℕ) : ℝ) = 7 / 10 := by norm_num
  have hexp : ((1 : ℕ) : ℝ) / ((1 : ℕ) : ℝ) = 1 := by norm_num
  have hlog₀ : Real.log (7 / 10) < 0 := Real.log_neg (by norm_num) (by norm_num)
  have hlog₁ : -(3 / 7) ≤ Real.log (7 / 10) := by
    have := Real.one_sub_inv_le_log_of_pos (show (0 : ℝ) < 7 / 10 by norm_num)
    norm_num at this ⊢
    linarith
  refine ⟨1, 1, 10, 1, 3, 3 / 7, ?_⟩
  exact {
    envelope := ⟨by norm_num, by norm_num, ⟨by norm_num, by norm_num, by norm_num, by norm_num,
      by norm_num, by norm_num⟩, by norm_num⟩
    balanceIn_lt := by norm_num
    balanceOut_lt := by norm_num
    balanceIn_eq := rfl
    weightIn_eq := rfl
    balanceOut_eq := rfl
    weightOut_eq := rfl
    amountOut_eq := rfl
    amount_near := by
      rw [Curve.price, hexp, Real.rpow_one]
      norm_num
    amount_zero := by norm_num
    amountIn_eq := by
      rw [(Nat.ceil_eq_iff one_ne_zero).mpr ⟨by norm_num, by norm_num⟩]
      rfl
    sensBase := by
      refine ⟨3, rfl, ?_⟩
      rw [hbase, hexp, Real.rpow_one]
      norm_num
    sensExp := by
      refine ⟨1, rfl, ?_⟩
      rw [hbase, hexp, Real.rpow_one, abs_of_neg hlog₀]
      norm_num at hlog₁ ⊢
      linarith
    sensPow := by
      refine ⟨3, rfl, ?_⟩
      rw [hbase, hexp, Real.rpow_one]
      norm_num }

end Gate

end WeightedMath
