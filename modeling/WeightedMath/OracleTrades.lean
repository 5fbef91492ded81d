/-
WeightedMath/OracleTrades.lean

The trades of the generator, `out_case` and `in_case` of `oracle/gen.py`.

Where the exponent is a whole number the truth is computed in fractions and is
exact.  Elsewhere it is a floating-point number, rounded to a whole one, and
comes with the sensitivities by which the gate bounds the magnitude.  Three
quantities need care:

* `1 - power` is `-expm1 (y * log base)`, not a subtraction, and so it has the
  right sign;
* the logarithm of a base next to one loses 128 bits of the working precision,
  and all that is left goes into a sensitivity (`Mp.Accurate.log_toMpf`);
* a payment divides by the power, which the cap on the amount keeps away from
  zero (`ExactOut.real_power_bounds`).

With that, every trade of the envelope that the generator is given becomes a
truthful case, and the gates do on it what they do on truthful cases.
-/
import WeightedMath.Oracle

namespace WeightedMath

open Machine Precision

namespace Oracle

/-! ### The cases -/

/-- `Fraction(n, d)`. -/
def fraction (n d : ℕ) : Exec ℚ := if d = 0 then .error .divByZero else .ok (n / d)

/-- The arguments of `out_case`. -/
structure OutSpec where
  balanceIn : ℕ
  amountIn : ℕ
  balanceOut : ℕ
  weightIn : ℕ
  weightOut : ℕ
  zone : String

/-- What `out_case` computes of a power, `mpower` being the power as a
floating-point number. -/
structure OutTruth where
  mpower : ℚ
  tokens : ℤ
  powerDec : String
  powerQ128 : String
  ompDec : String

def outTruth (mp : Mp) (balanceOut : ℕ) (base y : ℚ) : OutTruth :=
  if y.den = 1 then
    let power := base ^ y.num
    let omp := 1 - power
    ⟨toMpf mp power, balanceOut * omp.num / omp.den, mp.nstr (toMpf mp power), fracQfmt power 128,
      mp.nstr (toMpf mp omp)⟩
  else
    let power := mp.power (toMpf mp base) (toMpf mp y)
    -- never `1 - power` by subtraction
    let omp := -mp.expm1 (mp.mul (toMpf mp y) (mp.log (toMpf mp base)))
    ⟨power, ⌊mp.mul balanceOut omp⌋, mp.nstr power, qfmt power 128, mp.nstr omp⟩

/-- The fields of a case, at its base and exponent. -/
def OutSpec.fields (mp : Mp) (s : OutSpec) (base y : ℚ) : OutGivenInCase :=
  let mbase := toMpf mp base
  let my := toMpf mp y
  let truth := outTruth mp s.balanceOut base y
  let sensBase := ⌈mp.mul (mp.mul s.balanceOut my) (mp.power mbase (mp.sub my 1))⌉
  let sensExp := ⌈mp.mul (mp.mul s.balanceOut truth.mpower) |mp.log mbase|⌉
  { zone := s.zone
    balanceIn := Nat.repr s.balanceIn
    amountIn := Nat.repr s.amountIn
    balanceOut := Nat.repr s.balanceOut
    weightIn := Nat.repr s.weightIn
    weightOut := Nat.repr s.weightOut
    base := mp.nstr mbase
    exponent := mp.nstr my
    powerExact := truth.powerDec
    powerExactQ128 := truth.powerQ128
    oneMinusPowerExact := truth.ompDec
    tokensOutFloor := Int.repr truth.tokens
    sensBaseWei := Int.repr sensBase
    sensExpWei := Int.repr sensExp }

def outCase (mp : Mp) (s : OutSpec) : Exec OutGivenInCase := do
  assert (s.balanceIn + s.amountIn < 2 ^ 128) "total deposit envelope"
  let ratio ← fraction s.weightIn s.weightOut
  assert (1 / 99 ≤ ratio ∧ ratio ≤ 99) ""
  let base ← fraction s.balanceIn (s.balanceIn + s.amountIn)
  let y ← fraction s.weightIn s.weightOut
  return s.fields mp base y

def outGivenInCases (mp : Mp) (specs : List OutSpec) : Exec (List OutGivenInCase) :=
  specs.mapM (outCase mp)

/-- The arguments of `in_case`. -/
structure InSpec where
  balanceIn : ℕ
  weightIn : ℕ
  balanceOut : ℕ
  weightOut : ℕ
  amountOut : ℕ
  zone : String

structure InTruth where
  mpower : ℚ
  amountIn : ℤ
  powerDec : String
  powerQ128 : String

def inTruth (mp : Mp) (balanceIn : ℕ) (base y : ℚ) : InTruth :=
  if y.den = 1 then
    let p := base ^ y.num
    let num : ℤ := balanceIn * (p.den - p.num)
    ⟨toMpf mp p, -(-num / p.num), mp.nstr (toMpf mp p), fracQfmt p 128⟩
  else
    let p := mp.power (toMpf mp base) (toMpf mp y)
    ⟨p, ⌈mp.mul balanceIn (mp.sub (mp.div 1 p) 1)⌉, mp.nstr p, qfmt p 128⟩

def InSpec.fields (mp : Mp) (s : InSpec) (base y : ℚ) : InGivenOutCase :=
  let mbase := toMpf mp base
  let my := toMpf mp y
  let truth := inTruth mp s.balanceIn base y
  let sensBase := ⌈mp.div (mp.mul s.balanceIn my) (mp.mul truth.mpower mbase)⌉
  let sensExp := ⌈mp.div (mp.mul s.balanceIn |mp.log mbase|) truth.mpower⌉
  let sensPow := ⌈mp.div s.balanceIn (mp.mul truth.mpower truth.mpower)⌉
  { zone := s.zone
    balanceIn := Nat.repr s.balanceIn
    amountOut := Nat.repr s.amountOut
    balanceOut := Nat.repr s.balanceOut
    weightIn := Nat.repr s.weightIn
    weightOut := Nat.repr s.weightOut
    base := mp.nstr mbase
    exponent := mp.nstr my
    powerExact := truth.powerDec
    powerExactQ128 := truth.powerQ128
    amountInCeil := Int.repr truth.amountIn
    sensBaseWei := Int.repr sensBase
    sensExpWei := Int.repr sensExp
    sensPowWei := Int.repr sensPow }

def inCase (mp : Mp) (s : InSpec) : Exec InGivenOutCase := do
  assert (s.amountOut ≤ s.balanceOut * 3 / 10) "30% out-ratio cap"
  let ratio ← fraction s.weightIn s.weightOut
  assert (1 / 99 ≤ ratio ∧ ratio ≤ 99) ""
  let base ← fraction (s.balanceOut - s.amountOut) s.balanceOut
  let y ← fraction s.weightOut s.weightIn
  return s.fields mp base y

def inGivenOutCases (mp : Mp) (specs : List InSpec) : Exec (List InGivenOutCase) :=
  specs.mapM (inCase mp)

/-! ### Sensitivities -/

section Common

variable {mp : Mp} {m base y : ℚ} {A : ℝ} {n d : ℕ}

theorem fraction_ok (n : ℕ) (hd : 0 < d) : fraction n d = .ok (n / d) := if_neg hd.ne'

/-- The weights of the envelope pass the check of the generator. -/
theorem ratio_bounds {wi wo : ℕ} (h : Weights wi wo) :
    (1 : ℚ) / 99 ≤ (wi : ℚ) / wo ∧ (wi : ℚ) / wo ≤ 99 := by
  have hwo : (0 : ℚ) < wo := by exact_mod_cast h.out_pos
  have h₁ : (wi : ℚ) ≤ 99 * wo := by exact_mod_cast h.in_ratio
  have h₂ : (wo : ℚ) ≤ 99 * wi := by exact_mod_cast h.out_ratio
  constructor
  · rw [le_div_iff₀ hwo]
    linarith
  · rw [div_le_iff₀ hwo]
    linarith

/-- Rounded up, a sensitivity is not below the real one but for its precision. -/
theorem sensitivity_ceil (h : Near (1 / 2 ^ 101) (m : ℝ) A) (hA : 0 ≤ A) :
    ∃ n : ℕ, Int.repr ⌈m⌉ = Nat.repr n ∧ A ≤ n * (1 + 1 / 2 ^ 100) := by
  have hm := h.nonneg (by norm_num) hA
  have hle := h.le (by positivity) (by norm_num) hA
  have hceil : 0 ≤ ⌈m⌉ := Int.ceil_nonneg (by exact_mod_cast hm)
  refine ⟨⌈m⌉.toNat, ?_, ?_⟩
  · conv_lhs => rw [← Int.toNat_of_nonneg hceil]
    rfl
  · have hround : (m : ℝ) ≤ ⌈m⌉.toNat := by
      have hcast : ((⌈m⌉.toNat : ℤ) : ℝ) = ⌈m⌉ := by rw [Int.toNat_of_nonneg hceil]
      rw [← Int.cast_natCast, hcast]
      exact_mod_cast Int.le_ceil m
    calc A ≤ m * (1 + 2 * (1 / 2 ^ 101)) := hle
      _ ≤ ⌈m⌉.toNat * (1 + 2 * (1 / 2 ^ 101)) := mul_le_mul_of_nonneg_right hround (by positivity)
      _ = ⌈m⌉.toNat * (1 + 1 / 2 ^ 100) := by norm_num

/-- Whole numbers are known exactly. -/
theorem near_natCast (k n : ℕ) : Near (1 / 2 ^ k) (((n : ℚ) : ℝ)) n := by
  rw [Rat.cast_natCast]
  exact near_self (by positivity) _

/-- A relative precision in place of a higher one. -/
theorem near_le_bits {j k : ℕ} {x a : ℝ} (h : Near (1 / 2 ^ k) x a) (hjk : j ≤ k) :
    Near (1 / 2 ^ j) x a :=
  h.mono (one_div_le_one_div_of_le (by positivity) (pow_le_pow_right₀ one_le_two hjk))

/-- Base and exponent of a trade: the former is at most one, and may be as close
to it as a unit in `2^128`. -/
structure Domain (base y : ℚ) : Prop where
  base_ge : (1 : ℝ) / 2 ^ 128 ≤ base
  base_le : base = 1 ∨ (base : ℝ) ≤ 1 - 1 / 2 ^ 128
  exponent_pos : 0 < y
  exponent_le : y ≤ 99

theorem Domain.base_pos (h : Domain base y) : (0 : ℝ) < base :=
  lt_of_lt_of_le (by positivity) h.base_ge

theorem Domain.base_le_one (h : Domain base y) : (base : ℝ) ≤ 1 := by
  rcases h.base_le with rfl | hle
  · rw [Rat.cast_one]
  · exact hle.trans (by norm_num)

theorem Domain.power_pos (h : Domain base y) : 0 < (base : ℝ) ^ (y : ℝ) :=
  Real.rpow_pos_of_pos h.base_pos _

theorem Domain.power_le_one (h : Domain base y) : (base : ℝ) ^ (y : ℝ) ≤ 1 :=
  Real.rpow_le_one h.base_pos.le h.base_le_one (by exact_mod_cast h.exponent_pos.le)

theorem Domain.power_near (h : Domain base y) (hmp : mp.Accurate) :
    Near (1 / 2 ^ 215) (mp.power (toMpf mp base) (toMpf mp y) : ℝ) ((base : ℝ) ^ (y : ℝ)) := by
  obtain ⟨hy₀, hy₁⟩ := hmp.toMpf_exponent h.exponent_pos h.exponent_le
  exact hmp.power (hmp.toMpf_near base) h.base_ge h.base_le_one hy₀ hy₁

theorem Domain.log_near (h : Domain base y) (hmp : mp.Accurate) :
    Near (1 / 2 ^ 110) ((|mp.log (toMpf mp base)| : ℚ) : ℝ) |Real.log base| := by
  obtain ⟨-, -, hnear⟩ := hmp.log_toMpf h.base_ge h.base_le
  rw [Rat.cast_abs]
  exact hnear.abs

/-- The exponent less one, for the sensitivity to the base. -/
theorem Domain.power_pred_near (h : Domain base y) (hmp : mp.Accurate) :
    Near (1 / 2 ^ 215) (mp.power (toMpf mp base) (mp.sub (toMpf mp y) 1) : ℝ)
      ((base : ℝ) ^ ((y : ℝ) - 1)) := by
  have hy₀ : (0 : ℝ) < y := by exact_mod_cast h.exponent_pos
  have hy₁ : (y : ℝ) ≤ 99 := by exact_mod_cast h.exponent_le
  have habs : |(y : ℝ) - 1| ≤ 99 := abs_le.mpr ⟨by linarith, by linarith⟩
  have hdiff : |(toMpf mp y : ℝ) - y| ≤ 1 / 2 ^ 245 * |(y : ℝ)| := hmp.toMpf_near y
  rw [abs_of_pos hy₀] at hdiff
  have hround : |(mp.sub (toMpf mp y) 1 : ℝ) - ((toMpf mp y - 1 : ℚ) : ℝ)|
      ≤ 1 / 2 ^ 250 * |((toMpf mp y - 1 : ℚ) : ℝ)| := hmp.round_near _
  push_cast at hround
  have hsub : |(toMpf mp y : ℝ) - 1| ≤ 100 := by
    norm_num at hdiff
    obtain ⟨h₁, h₂⟩ := abs_le.mp hdiff
    exact abs_le.mpr ⟨by linarith, by linarith⟩
  refine hmp.power (hmp.toMpf_near base) h.base_ge h.base_le_one ?_ (by linarith)
  calc |(mp.sub (toMpf mp y) 1 : ℝ) - ((y : ℝ) - 1)|
      = |((mp.sub (toMpf mp y) 1 : ℝ) - (toMpf mp y - 1)) + (toMpf mp y - y)| := by ring_nf
    _ ≤ |(mp.sub (toMpf mp y) 1 : ℝ) - (toMpf mp y - 1)| + |(toMpf mp y : ℝ) - y| := abs_add_le _ _
    _ ≤ 1 / 2 ^ 230 := by
        norm_num at hround hdiff ⊢
        linarith

/-! ### The payout -/

theorem repr_floor (h : 0 ≤ m) : Int.repr ⌊m⌋ = Nat.repr ⌊(m : ℝ)⌋₊ := by
  have hfloor : ⌊m⌋ = (⌊(m : ℝ)⌋₊ : ℤ) := by
    have hnonneg : (0 : ℝ) ≤ m := by exact_mod_cast h
    rw [Int.natCast_floor_eq_floor hnonneg, Rat.floor_cast]
  rw [hfloor]
  rfl

/-- The argument of the exponential: it is not positive, and known absolutely. -/
theorem Domain.argument_near (h : Domain base y) (hmp : mp.Accurate) :
    (mp.mul (toMpf mp y) (mp.log (toMpf mp base)) : ℝ) ≤ 0 ∧
      |(mp.mul (toMpf mp y) (mp.log (toMpf mp base)) : ℝ) - Real.log base * y| ≤ 1 / 2 ^ 225 := by
  have hy₀ : (0 : ℝ) < y := by exact_mod_cast h.exponent_pos
  have hy₁ : (y : ℝ) ≤ 99 := by exact_mod_cast h.exponent_le
  obtain ⟨hL, hlog, -⟩ := hmp.log_toMpf h.base_ge h.base_le
  have hl := abs_log_le h.base_ge h.base_le_one
  have hmy : |(toMpf mp y : ℝ) - y| ≤ 1 / 2 ^ 245 * |(y : ℝ)| := hmp.toMpf_near y
  have hm := (hmp.toMpf_near y).nonneg (by norm_num) hy₀.le
  have hround := hmp.round_near (toMpf mp y * mp.log (toMpf mp base))
  rw [Rat.cast_mul] at hround
  have hstep : |(mp.mul (toMpf mp y) (mp.log (toMpf mp base)) : ℝ)
      - toMpf mp y * mp.log (toMpf mp base)|
        ≤ 1 / 2 ^ 250 * |(toMpf mp y : ℝ) * mp.log (toMpf mp base)| := hround
  constructor
  · have hprod := mul_nonpos_of_nonneg_of_nonpos hm hL
    exact neg_nonneg.mp (hround.neg.nonneg (by norm_num) (neg_nonneg.mpr hprod))
  · rw [abs_of_pos hy₀] at hmy
    generalize (mp.mul (toMpf mp y) (mp.log (toMpf mp base)) : ℝ) = q at *
    generalize (mp.log (toMpf mp base) : ℝ) = L at *
    generalize (toMpf mp y : ℝ) = m at *
    generalize Real.log base = l at *
    have hm₁ : m ≤ 100 := by
      norm_num at hmy
      linarith [(abs_le.mp hmy).2]
    have hL₁ : |L| ≤ 90 := by
      have htri := abs_sub_abs_le_abs_sub L l
      norm_num at hlog
      linarith
    have hmL : |m * L| ≤ 100 * 90 := by
      rw [abs_mul, abs_of_nonneg hm]
      exact mul_le_mul hm₁ hL₁ (abs_nonneg L) (by norm_num)
    have hprod : |m * L - l * y| ≤ 100 * (1 / 2 ^ 240) + 1 / 2 ^ 245 * 99 * 89 := by
      calc |m * L - l * y| = |m * (L - l) + (m - y) * l| := by ring_nf
        _ ≤ |m * (L - l)| + |(m - y) * l| := abs_add_le _ _
        _ = m * |L - l| + |m - y| * |l| := by rw [abs_mul, abs_mul, abs_of_nonneg hm]
        _ ≤ 100 * (1 / 2 ^ 240) + 1 / 2 ^ 245 * 99 * 89 := by
            gcongr
            exact hmy.trans (mul_le_mul_of_nonneg_left hy₁ (by positivity))
    calc |q - l * y| ≤ |q - m * L| + |m * L - l * y| := abs_sub_le _ _ _
      _ ≤ 1 / 2 ^ 250 * (100 * 90) + (100 * (1 / 2 ^ 240) + 1 / 2 ^ 245 * 99 * 89) :=
          add_le_add (hstep.trans (mul_le_mul_of_nonneg_left hmL (by positivity))) hprod
      _ ≤ 1 / 2 ^ 225 := by norm_num

/-- What is missing to one has the right sign, and an absolute precision. -/
theorem Domain.omp_near (h : Domain base y) (hmp : mp.Accurate) :
    (0 : ℝ) ≤ (-mp.expm1 (mp.mul (toMpf mp y) (mp.log (toMpf mp base))) : ℚ) ∧
      |((-mp.expm1 (mp.mul (toMpf mp y) (mp.log (toMpf mp base))) : ℚ) : ℝ)
        - (1 - (base : ℝ) ^ (y : ℝ))| ≤ 1 / 2 ^ 220 := by
  obtain ⟨hsign, harg⟩ := h.argument_near hmp
  have hp₁ := h.power_le_one
  have hwork := (hmp.expm1_near (mp.mul (toMpf mp y) (mp.log (toMpf mp base)))).neg
  have hone := Real.exp_le_one_iff.mpr hsign
  rw [Real.rpow_def_of_pos h.base_pos] at hp₁ ⊢
  rw [Rat.cast_neg]
  generalize mp.mul (toMpf mp y) (mp.log (toMpf mp base)) = q at *
  have hexp : |Real.exp q - Real.exp (Real.log base * y)|
      ≤ 2 * (1 / 2 ^ 225) * |Real.exp (Real.log base * y)| := near_exp harg (by norm_num)
  rw [neg_sub] at hwork
  have hdiff : |-(mp.expm1 q : ℝ) - (1 - Real.exp q)| ≤ 1 / 2 ^ 250 * |1 - Real.exp q| := hwork
  refine ⟨hwork.nonneg (by norm_num) (sub_nonneg.mpr hone), ?_⟩
  rw [abs_of_pos (Real.exp_pos _)] at hexp
  rw [abs_of_nonneg (sub_nonneg.mpr hone)] at hdiff
  have hpos := Real.exp_pos q
  generalize Real.exp q = e at *
  generalize Real.exp (Real.log base * y) = p at *
  norm_num at hexp hdiff ⊢
  obtain ⟨h₁, h₂⟩ := abs_le.mp hexp
  obtain ⟨h₃, h₄⟩ := abs_le.mp hdiff
  exact abs_le.mpr ⟨by linarith, by linarith⟩

theorem Domain.outTruth_mpower (h : Domain base y) (hmp : mp.Accurate) (bo : ℕ) :
    Near (1 / 2 ^ 215) ((outTruth mp bo base y).mpower : ℝ) ((base : ℝ) ^ (y : ℝ)) := by
  unfold outTruth
  split_ifs with hden
  · rw [← cast_zpow_num base hden]
    exact near_le_bits (hmp.toMpf_near _) (by norm_num)
  · exact h.power_near hmp

/-- The tokens are the floor of a number that stands for the payout. -/
theorem Domain.outTruth_tokens (h : Domain base y) (hmp : mp.Accurate) {bo : ℕ}
    (hbo : bo < 2 ^ 128) :
    ∃ v : ℝ, Int.repr (outTruth mp bo base y).tokens = Nat.repr ⌊v⌋₊ ∧
      |v - bo * (1 - (base : ℝ) ^ (y : ℝ))| ≤ bo / 2 ^ 100 ∧ 0 ≤ v ∧ v < bo + 1 := by
  have hp₀ := h.power_pos
  have hp₁ := h.power_le_one
  have hboR : (0 : ℝ) ≤ bo := Nat.cast_nonneg bo
  unfold outTruth
  split_ifs with hden
  · -- fractions are exact
    rw [← cast_zpow_num base hden] at hp₀ hp₁ ⊢
    generalize base ^ y.num = p at *
    have hfloor : (bo : ℤ) * (1 - p).num / (1 - p).den = ⌊(bo : ℚ) * (1 - p)⌋ := by
      have hdiv : (bo : ℚ) * (1 - p) = ((bo * (1 - p).num : ℤ) : ℚ) / ((1 - p).den : ℕ) := by
        nth_rewrite 1 [← Rat.num_div_den (1 - p)]
        push_cast
        ring
      rw [hdiv, Rat.floor_intCast_div_natCast]
    have hv : (0 : ℝ) ≤ ((bo * (1 - p) : ℚ) : ℝ) := by
      push_cast
      exact mul_nonneg hboR (sub_nonneg.mpr hp₁)
    refine ⟨((bo * (1 - p) : ℚ) : ℝ), ?_, ?_, hv, ?_⟩
    · dsimp only
      rw [hfloor, repr_floor (by exact_mod_cast hv)]
    · push_cast
      rw [sub_self, abs_zero]
      positivity
    · push_cast
      nlinarith
  · obtain ⟨homp, hnear⟩ := h.omp_near hmp
    dsimp only
    generalize -mp.expm1 (mp.mul (toMpf mp y) (mp.log (toMpf mp base))) = omp at *
    have hround := hmp.round_near (bo * omp)
    rw [Rat.cast_mul, Rat.cast_natCast] at hround
    have hprod := mul_nonneg hboR homp
    have hv : (0 : ℝ) ≤ mp.mul bo omp := hround.nonneg (by norm_num) hprod
    have hstep : |(mp.mul bo omp : ℝ) - bo * omp| ≤ 1 / 2 ^ 250 * |(bo : ℝ) * omp| := hround
    have hle : (bo : ℝ) * omp ≤ bo * 2 := by
      refine mul_le_mul_of_nonneg_left ?_ hboR
      have := (abs_le.mp hnear).2
      norm_num at this
      linarith
    have hscaled : |(bo : ℝ) * omp - bo * (1 - (base : ℝ) ^ (y : ℝ))| ≤ bo * (1 / 2 ^ 220) := by
      rw [← mul_sub, abs_mul, abs_of_nonneg hboR]
      exact mul_le_mul_of_nonneg_left hnear hboR
    rw [abs_of_nonneg hprod] at hstep
    have hall : |(mp.mul bo omp : ℝ) - bo * (1 - (base : ℝ) ^ (y : ℝ))| ≤ bo * (1 / 2 ^ 200) := by
      calc |(mp.mul bo omp : ℝ) - bo * (1 - (base : ℝ) ^ (y : ℝ))|
          ≤ |(mp.mul bo omp : ℝ) - bo * omp| + |(bo : ℝ) * omp - bo * (1 - (base : ℝ) ^ (y : ℝ))| :=
            abs_sub_le _ _ _
        _ ≤ 1 / 2 ^ 250 * (bo * 2) + bo * (1 / 2 ^ 220) :=
            add_le_add (hstep.trans (mul_le_mul_of_nonneg_left hle (by positivity))) hscaled
        _ ≤ bo * (1 / 2 ^ 200) := by
            norm_num
            linarith
    refine ⟨_, repr_floor (by exact_mod_cast hv), ?_, hv, ?_⟩
    · refine hall.trans ?_
      rw [mul_one_div]
      exact div_le_div_of_nonneg_left hboR (by positivity)
        (pow_le_pow_right₀ one_le_two (by norm_num))
    · have hunit : (bo : ℝ) * (1 / 2 ^ 200) < 1 := by
        rw [mul_one_div, div_lt_one (by positivity)]
        exact_mod_cast hbo.trans (by norm_num)
      have hloss := mul_nonneg hboR hp₀.le
      linarith [(abs_le.mp hall).2]

/-- The leading zone of the arguments is that of the cases. -/
theorem head?_zone {α β : Type} {zone : α → String} {zone' : β → String} {xs : List α} {ys : List β}
    (hrel : List.Forall₂ (fun x y => zone' y = zone x) xs ys) {z : String}
    (h : xs.head?.map zone = some z) : ys.head?.map zone' = some z := by
  cases hrel with
  | nil => cases h
  | cons hxy _ =>
      rw [List.head?_cons, Option.map_some] at h ⊢
      rw [hxy, h]

end Common

section Out

variable {mp : Mp} {s : OutSpec}

/-- A trade of the envelope, out of a reserve of at least `2^52` units. -/
structure OutSpec.InDomain (s : OutSpec) : Prop where
  envelope : ExactIn s.balanceIn s.weightIn s.balanceOut s.weightOut s.amountIn
  balanceOut_ge : 2 ^ 52 ≤ s.balanceOut
  balanceOut_lt : s.balanceOut < 2 ^ 128

/-- A unit in less than `2^128` is a distance from one. -/
theorem ratio_le_one_sub {k n : ℕ} (hk : k < n) (hn : n < 2 ^ 128) :
    (k : ℝ) / n ≤ 1 - 1 / 2 ^ 128 := by
  have hpos : (0 : ℝ) < n := by exact_mod_cast Nat.zero_lt_of_lt hk
  have hlt : (k : ℝ) + 1 ≤ n := by exact_mod_cast hk
  have hword : (n : ℝ) * (1 / 2 ^ 128) ≤ 1 := by
    rw [mul_one_div, div_le_one (by positivity)]
    exact_mod_cast hn.le
  rw [div_le_iff₀ hpos, sub_mul, one_mul, mul_comm (1 / 2 ^ 128)]
  linarith

theorem OutSpec.InDomain.domain (h : s.InDomain) :
    Domain ((s.balanceIn : ℚ) / (s.balanceIn + s.amountIn : ℕ))
      ((s.weightIn : ℚ) / s.weightOut) := by
  have hbi := h.envelope.in_pos
  have htotal := h.envelope.total_lt
  obtain ⟨hy₀, hy₁⟩ := ratio_bounds h.envelope.weights
  constructor
  · have hpos : (0 : ℝ) < (s.balanceIn + s.amountIn : ℕ) := by exact_mod_cast (show 0 < _ by omega)
    have hone : (1 : ℝ) ≤ s.balanceIn := by exact_mod_cast hbi
    push_cast
    push_cast at hpos
    apply div_le_div₀ (by linarith) hone hpos
    exact_mod_cast htotal.le
  · rcases Nat.eq_zero_or_pos s.amountIn with ha | ha
    · left
      rw [ha, Nat.add_zero, div_self]
      exact_mod_cast (show s.balanceIn ≠ 0 by omega)
    · right
      have := ratio_le_one_sub (show s.balanceIn < s.balanceIn + s.amountIn by omega) htotal
      push_cast at this ⊢
      exact this
  · exact lt_of_lt_of_le (by norm_num) hy₀
  · exact hy₁

theorem Domain.outSensBase_near {base y : ℚ} (h : Domain base y) (hmp : mp.Accurate) (bo : ℕ) :
    Near (1 / 2 ^ 101) (mp.mul (mp.mul bo (toMpf mp y))
        (mp.power (toMpf mp base) (mp.sub (toMpf mp y) 1)) : ℝ)
      (bo * y * (base : ℝ) ^ ((y : ℝ) - 1)) := by
  have hprod := hmp.mul (k := 241) (near_natCast 245 bo) (hmp.toMpf_near y) (by norm_num)
  exact hmp.mul (near_le_bits hprod (by norm_num))
    (near_le_bits (h.power_pred_near hmp) (by norm_num)) (by norm_num)

theorem Domain.outSensExp_near {base y : ℚ} (h : Domain base y) (hmp : mp.Accurate) (bo : ℕ) :
    Near (1 / 2 ^ 101) (mp.mul (mp.mul bo (outTruth mp bo base y).mpower)
        |mp.log (toMpf mp base)| : ℝ)
      (bo * (base : ℝ) ^ (y : ℝ) * |Real.log base|) := by
  have hprod := hmp.mul (k := 211) (near_natCast 215 bo) (h.outTruth_mpower hmp bo) (by norm_num)
  exact hmp.mul (near_le_bits hprod (by norm_num)) (near_le_bits (h.log_near hmp) (by norm_num))
    (by norm_num)

theorem OutSpec.InDomain.outCase_ok (h : s.InDomain) (mp : Mp) :
    outCase mp s = .ok (s.fields mp ((s.balanceIn : ℚ) / (s.balanceIn + s.amountIn : ℕ))
      ((s.weightIn : ℚ) / s.weightOut)) := by
  have hbi := h.envelope.in_pos
  have hw := h.envelope.weights
  unfold outCase
  rw [assert_ok h.envelope.total_lt, ok_bind, fraction_ok _ hw.out_pos, ok_bind,
    assert_ok (ratio_bounds hw), ok_bind, fraction_ok _ (by omega), ok_bind, ok_bind, pure_eq_ok]

/-- **A trade of the envelope becomes a truthful case.** -/
theorem OutSpec.InDomain.truthful (h : s.InDomain) (hmp : mp.Accurate) :
    ∃ v, (s.fields mp ((s.balanceIn : ℚ) / (s.balanceIn + s.amountIn : ℕ))
      ((s.weightIn : ℚ) / s.weightOut)).Truthful
        s.balanceIn s.weightIn s.balanceOut s.weightOut s.amountIn v := by
  have hd := h.domain
  have hbase := hd.base_pos.le
  have hy₀ : (0 : ℝ) ≤ ((s.weightIn / s.weightOut : ℚ) : ℝ) := by exact_mod_cast hd.exponent_pos.le
  obtain ⟨m, hm, hm₁⟩ := sensitivity_ceil (hd.outSensBase_near hmp s.balanceOut) (by positivity)
  obtain ⟨n, hn, hn₁⟩ := sensitivity_ceil (hd.outSensExp_near hmp s.balanceOut) (by positivity)
  obtain ⟨v, hv, hnear, hv₀, hv₁⟩ := hd.outTruth_tokens hmp h.balanceOut_lt
  push_cast at hm₁ hn₁ hnear
  refine ⟨v, ?_⟩
  exact {
    envelope := h.envelope
    balanceOut_lt := h.balanceOut_lt
    balanceIn_eq := rfl
    weightIn_eq := rfl
    balanceOut_eq := rfl
    weightOut_eq := rfl
    amountIn_eq := rfl
    tokens_near := hnear
    tokens_nonneg := hv₀
    tokens_lt := hv₁
    tokensOut_eq := hv
    sensBase := ⟨m, hm, hm₁⟩
    sensExp := ⟨n, hn, hn₁⟩ }

/-- **Whatever trades are written down, the economic gate of a sale passes on
them**: all trades of the envelope out of at least `2^52` units, in every profile,
by a library that is right to 250 bits. -/
theorem outGivenInCases_pass (P : Profile) (hmp : mp.Accurate) {specs : List OutSpec}
    (hlead : specs.head?.map OutSpec.zone = some "sale_start") (h : ∀ s ∈ specs, s.InDomain) :
    ∃ cases, outGivenInCases mp specs = .ok cases ∧
      kernelOutGivenInGate (Build.kernel P) cases = .ok () := by
  obtain ⟨cases, hcases, hrel⟩ := exists_mapM_ok (f := outCase mp)
    (R := fun s c => c.zone = s.zone ∧ kernelOutGivenInCase (Build.kernel P) c = .ok ())
    fun s hs => by
      obtain ⟨v, hv⟩ := (h s hs).truthful hmp
      exact ⟨_, (h s hs).outCase_ok mp, rfl, kernelOutGivenInCase_ok P hv (h s hs).balanceOut_ge⟩
  refine ⟨cases, hcases, ?_⟩
  unfold kernelOutGivenInGate
  rw [leadingZone_ok (head?_zone (hrel.imp fun _ _ hR => hR.1) hlead), ok_bind, forM_eq_ok]
  exact (forall_mem_iff_of_forall₂ (p := fun _ => True)
    (fun _ _ hR => iff_of_true trivial hR.2) hrel).mp fun _ _ => trivial

/-- Three units against one, with the weights of a square root. -/
theorem outGivenInCases_pass_root :
    ∃ cases, outGivenInCases (Mp.nearest fun v => if v = 1 / 4 then "0.25" else "0.5")
        [⟨1, 3, 2 ^ 52, 1, 2, "sale_start"⟩] = .ok cases ∧
      kernelOutGivenInGate (Build.kernel Profile.wrapping) cases = .ok () := by
  apply outGivenInCases_pass _ (Mp.nearest_accurate _) rfl
  intro s hs
  obtain rfl := List.mem_singleton.mp hs
  exact {
    envelope := ⟨by norm_num, by norm_num, by norm_num, by norm_num, by norm_num, by norm_num,
      by norm_num, by norm_num, by norm_num⟩
    balanceOut_ge := le_rfl
    balanceOut_lt := by norm_num }

end Out

/-! ### The payment -/

section In

variable {mp : Mp} {base y m : ℚ} {s : InSpec}

theorem repr_ceil (h : -1 < m) : Int.repr ⌈m⌉ = Nat.repr ⌈(m : ℝ)⌉₊ := by
  have hceil : ⌈m⌉ = (⌈(m : ℝ)⌉₊ : ℤ) := by
    have hlt : (-1 : ℝ) < m := by exact_mod_cast h
    rw [Int.natCast_ceil_eq_ceil_of_neg_one_lt hlt, Rat.ceil_cast]
  rw [hceil]
  rfl

theorem Domain.inTruth_mpower (h : Domain base y) (hmp : mp.Accurate) (bi : ℕ) :
    Near (1 / 2 ^ 215) ((inTruth mp bi base y).mpower : ℝ) ((base : ℝ) ^ (y : ℝ)) := by
  unfold inTruth
  split_ifs with hden
  · rw [← cast_zpow_num base hden]
    exact near_le_bits (hmp.toMpf_near _) (by norm_num)
  · exact h.power_near hmp

/-- The quotient of fractions, rounded up in integers. -/
theorem ceil_price {p : ℚ} (hp : 0 < p) (bi : ℕ) :
    -(-((bi : ℤ) * (p.den - p.num)) / p.num) = ⌈(bi : ℚ) * (p⁻¹ - 1)⌉ := by
  obtain ⟨k, hk⟩ := Int.eq_ofNat_of_zero_le (Rat.num_nonneg.mpr hp.le)
  have hk₀ : (k : ℚ) ≠ 0 := by
    have hnum := Rat.num_pos.mpr hp
    rw [hk] at hnum
    exact_mod_cast hnum.ne'
  have hinv : p⁻¹ = (p.den : ℚ) / k := by
    have hval := Rat.num_div_den p
    rw [hk, Int.cast_natCast] at hval
    nth_rewrite 1 [← hval]
    exact inv_div _ _
  have hneg : -((bi : ℚ) * (p⁻¹ - 1)) = ((-(bi * (p.den - k)) : ℤ) : ℚ) / (k : ℕ) := by
    rw [hinv]
    push_cast
    field_simp
  rw [hk, ← neg_neg ⌈(bi : ℚ) * (p⁻¹ - 1)⌉, ← Int.floor_neg, hneg, Rat.floor_intCast_div_natCast]

/-- The price of a unit, where the power is not too small to divide by. -/
theorem Domain.quotient_near (h : Domain base y) (hmp : mp.Accurate)
    (hp : 1 / 2 ^ 52 ≤ (base : ℝ) ^ (y : ℝ)) :
    |(mp.sub (mp.div 1 (mp.power (toMpf mp base) (toMpf mp y))) 1 : ℝ)
      - (((base : ℝ) ^ (y : ℝ))⁻¹ - 1)| ≤ 1 / 2 ^ 157 := by
  have hp₀ := h.power_pos
  have hinv₀ := (one_le_inv₀ hp₀).mpr h.power_le_one
  have hinv₁ : ((base : ℝ) ^ (y : ℝ))⁻¹ ≤ 2 ^ 52 := by
    rwa [inv_le_comm₀ hp₀ (by positivity), ← one_div]
  have hone : Near (1 / 2 ^ 215) ((1 : ℚ) : ℝ) 1 := by
    rw [Rat.cast_one]
    exact near_self (by positivity) 1
  have hdiv := hmp.div (k := 210) hone (h.power_near hmp) hp₀.ne' (by norm_num)
  rw [one_div ((base : ℝ) ^ (y : ℝ))] at hdiv
  generalize mp.div 1 (mp.power (toMpf mp base) (toMpf mp y)) = u at *
  generalize ((base : ℝ) ^ (y : ℝ))⁻¹ = q at *
  have hu : |(u : ℝ) - q| ≤ 1 / 2 ^ 210 * 2 ^ 52 := by
    have hle : |(u : ℝ) - q| ≤ 1 / 2 ^ 210 * |q| := hdiv
    rw [abs_of_nonneg (show 0 ≤ q by linarith)] at hle
    exact hle.trans (mul_le_mul_of_nonneg_left hinv₁ (by positivity))
  have hsub : |(mp.sub u 1 : ℝ) - ((u - 1 : ℚ) : ℝ)| ≤ 1 / 2 ^ 250 * |((u - 1 : ℚ) : ℝ)| :=
    hmp.round_near _
  push_cast at hsub
  have hu₁ : |(u : ℝ) - 1| ≤ 2 ^ 53 := by
    norm_num at hu hinv₁ ⊢
    obtain ⟨h₁, h₂⟩ := abs_le.mp hu
    exact abs_le.mpr ⟨by linarith, by linarith⟩
  have htri := abs_sub_le (mp.sub u 1 : ℝ) (u - 1) (q - 1)
  rw [sub_sub_sub_cancel_right] at htri
  norm_num at hsub hu hu₁ htri ⊢
  linarith

/-- The payment is the ceiling of a number that stands for the price. -/
theorem Domain.inTruth_amount (h : Domain base y) (hmp : mp.Accurate)
    (hp : 1 / 2 ^ 52 ≤ (base : ℝ) ^ (y : ℝ)) {bi : ℕ} (hbi : bi < 2 ^ 128) :
    ∃ v : ℝ, Int.repr (inTruth mp bi base y).amountIn = Nat.repr ⌈v⌉₊ ∧
      |v - bi * (((base : ℝ) ^ (y : ℝ))⁻¹ - 1)| ≤ bi / 2 ^ 100 := by
  have hp₀ := h.power_pos
  have hinv₀ := (one_le_inv₀ hp₀).mpr h.power_le_one
  have hbiR : (0 : ℝ) ≤ bi := Nat.cast_nonneg bi
  unfold inTruth
  split_ifs with hden
  · -- fractions are exact
    rw [← cast_zpow_num base hden] at hp₀ hinv₀ ⊢
    generalize base ^ y.num = p at *
    have hv : (0 : ℝ) ≤ ((bi * (p⁻¹ - 1) : ℚ) : ℝ) := by
      push_cast
      exact mul_nonneg hbiR (sub_nonneg.mpr hinv₀)
    have hv' : (0 : ℚ) ≤ bi * (p⁻¹ - 1) := by exact_mod_cast hv
    refine ⟨((bi * (p⁻¹ - 1) : ℚ) : ℝ), ?_, ?_⟩
    · dsimp only
      rw [ceil_price (by exact_mod_cast hp₀), repr_ceil (by linarith)]
    · push_cast
      rw [sub_self, abs_zero]
      positivity
  · dsimp only
    have hw := h.quotient_near hmp hp
    have hinv₁ : ((base : ℝ) ^ (y : ℝ))⁻¹ ≤ 2 ^ 52 := by
      rwa [inv_le_comm₀ hp₀ (by positivity), ← one_div]
    generalize mp.sub (mp.div 1 (mp.power (toMpf mp base) (toMpf mp y))) 1 = w at *
    generalize ((base : ℝ) ^ (y : ℝ))⁻¹ = q at *
    have hw₁ : |(w : ℝ)| ≤ 2 ^ 53 := by
      norm_num at hw hinv₁ ⊢
      obtain ⟨h₁, h₂⟩ := abs_le.mp hw
      exact abs_le.mpr ⟨by linarith, by linarith⟩
    have hmul : |(mp.mul bi w : ℝ) - ((bi * w : ℚ) : ℝ)| ≤ 1 / 2 ^ 250 * |((bi * w : ℚ) : ℝ)| :=
      hmp.round_near _
    rw [Rat.cast_mul, Rat.cast_natCast, abs_mul, abs_of_nonneg hbiR] at hmul
    have hall : |(mp.mul bi w : ℝ) - bi * (q - 1)| ≤ bi * (1 / 2 ^ 150) := by
      calc |(mp.mul bi w : ℝ) - bi * (q - 1)|
          ≤ |(mp.mul bi w : ℝ) - bi * w| + |bi * w - bi * (q - 1)| := abs_sub_le _ _ _
        _ = |(mp.mul bi w : ℝ) - bi * w| + bi * |w - (q - 1)| := by
            rw [← mul_sub, abs_mul, abs_of_nonneg hbiR]
        _ ≤ 1 / 2 ^ 250 * (bi * 2 ^ 53) + bi * (1 / 2 ^ 157) := by
            gcongr
            exact hmul.trans (by gcongr)
        _ ≤ bi * (1 / 2 ^ 150) := by
            norm_num
            linarith
    have hunit : (bi : ℝ) * (1 / 2 ^ 150) < 1 := by
      rw [mul_one_div, div_lt_one (by positivity)]
      exact_mod_cast hbi.trans (by norm_num)
    have hlow : (-1 : ℝ) < mp.mul bi w := by
      have := mul_nonneg hbiR (sub_nonneg.mpr hinv₀)
      linarith [(abs_le.mp hall).1]
    refine ⟨_, repr_ceil (by exact_mod_cast hlow), hall.trans ?_⟩
    rw [mul_one_div]
    exact div_le_div_of_nonneg_left hbiR (by positivity)
      (pow_le_pow_right₀ one_le_two (by norm_num))

theorem Domain.inSensBase_near (h : Domain base y) (hmp : mp.Accurate) (bi : ℕ) :
    Near (1 / 2 ^ 101) (mp.div (mp.mul bi (toMpf mp y))
        (mp.mul (inTruth mp bi base y).mpower (toMpf mp base)) : ℝ)
      (bi * y / ((base : ℝ) ^ (y : ℝ) * base)) := by
  have hnum := hmp.mul (k := 241) (near_natCast 245 bi) (hmp.toMpf_near y) (by norm_num)
  have hden := hmp.mul (k := 211) (h.inTruth_mpower hmp bi)
    (near_le_bits (hmp.toMpf_near base) (by norm_num)) (by norm_num)
  exact hmp.div (near_le_bits hnum (by norm_num)) (near_le_bits hden (by norm_num))
    (mul_pos h.power_pos h.base_pos).ne' (by norm_num)

theorem Domain.inSensExp_near (h : Domain base y) (hmp : mp.Accurate) (bi : ℕ) :
    Near (1 / 2 ^ 101) (mp.div (mp.mul bi |mp.log (toMpf mp base)|)
        (inTruth mp bi base y).mpower : ℝ)
      (bi * |Real.log base| / (base : ℝ) ^ (y : ℝ)) := by
  have hnum := hmp.mul (k := 106) (near_natCast 110 bi) (h.log_near hmp) (by norm_num)
  exact hmp.div hnum (near_le_bits (h.inTruth_mpower hmp bi) (by norm_num)) h.power_pos.ne'
    (by norm_num)

theorem Domain.inSensPow_near (h : Domain base y) (hmp : mp.Accurate) (bi : ℕ) :
    Near (1 / 2 ^ 101) (mp.div bi (mp.mul (inTruth mp bi base y).mpower
        (inTruth mp bi base y).mpower) : ℝ)
      (bi / ((base : ℝ) ^ (y : ℝ) * (base : ℝ) ^ (y : ℝ))) := by
  have hp := h.inTruth_mpower hmp bi
  have hden := hmp.mul (k := 211) hp hp (by norm_num)
  exact hmp.div (near_natCast 106 bi) (near_le_bits hden (by norm_num))
    (mul_pos h.power_pos h.power_pos).ne' (by norm_num)

/-- A purchase of the envelope, of at least a unit. -/
structure InSpec.InDomain (s : InSpec) : Prop where
  envelope : ExactOut s.balanceIn s.weightIn s.balanceOut s.weightOut s.amountOut
  balanceIn_lt : s.balanceIn < 2 ^ 128
  balanceOut_lt : s.balanceOut < 2 ^ 128
  amountOut_pos : 1 ≤ s.amountOut

theorem InSpec.InDomain.domain (h : s.InDomain) :
    Domain (((s.balanceOut - s.amountOut : ℕ) : ℚ) / s.balanceOut)
      ((s.weightOut : ℚ) / s.weightIn) := by
  have hlt := h.envelope.amount_lt
  have hpos := h.amountOut_pos
  obtain ⟨hy₀, hy₁⟩ := ratio_bounds h.envelope.weights.symm
  constructor
  · have hbase := h.envelope.real_base_bounds.1
    rw [← Nat.cast_sub hlt.le] at hbase
    push_cast
    exact le_trans (by norm_num) hbase
  · right
    have hless : s.balanceOut - s.amountOut < s.balanceOut := by omega
    have := ratio_le_one_sub hless h.balanceOut_lt
    push_cast at this ⊢
    exact this
  · exact lt_of_lt_of_le (by norm_num) hy₀
  · exact hy₁

theorem InSpec.InDomain.inCase_ok (h : s.InDomain) (mp : Mp) :
    inCase mp s = .ok (s.fields mp (((s.balanceOut - s.amountOut : ℕ) : ℚ) / s.balanceOut)
      ((s.weightOut : ℚ) / s.weightIn)) := by
  have hw := h.envelope.weights
  have hcap : s.amountOut ≤ s.balanceOut * 3 / 10 := by
    rw [mul_comm]
    exact h.envelope.amount_le
  unfold inCase
  rw [assert_ok hcap, ok_bind, fraction_ok _ hw.out_pos, ok_bind, assert_ok (ratio_bounds hw),
    ok_bind, fraction_ok _ h.envelope.out_pos, ok_bind, fraction_ok _ hw.in_pos, ok_bind,
    pure_eq_ok]

/-- **A purchase of the envelope becomes a truthful case.** -/
theorem InSpec.InDomain.truthful (h : s.InDomain) (hmp : mp.Accurate) :
    ∃ v, (s.fields mp (((s.balanceOut - s.amountOut : ℕ) : ℚ) / s.balanceOut)
      ((s.weightOut : ℚ) / s.weightIn)).Truthful
        s.balanceIn s.weightIn s.balanceOut s.weightOut s.amountOut v := by
  have hd := h.domain
  have hlt := h.envelope.amount_lt
  have hbase := hd.base_pos.le
  have hy₀ : (0 : ℝ) ≤ ((s.weightOut / s.weightIn : ℚ) : ℝ) := by
    exact_mod_cast hd.exponent_pos.le
  have hp : 1 / 2 ^ 52 ≤ ((((s.balanceOut - s.amountOut : ℕ) : ℚ) / s.balanceOut : ℚ) : ℝ)
      ^ (((s.weightOut : ℚ) / s.weightIn : ℚ) : ℝ) := by
    have := (h.envelope.real_power_bounds rfl rfl).1
    rw [← Nat.cast_sub hlt.le] at this
    push_cast
    exact le_trans (by norm_num) this
  obtain ⟨m, hm, hm₁⟩ := sensitivity_ceil (hd.inSensBase_near hmp s.balanceIn) (by positivity)
  obtain ⟨n, hn, hn₁⟩ := sensitivity_ceil (hd.inSensExp_near hmp s.balanceIn) (by positivity)
  obtain ⟨k, hk, hk₁⟩ := sensitivity_ceil (hd.inSensPow_near hmp s.balanceIn) (by positivity)
  obtain ⟨v, hv, hnear⟩ := hd.inTruth_amount hmp hp h.balanceIn_lt
  push_cast at hm₁ hn₁ hk₁ hnear
  rw [Nat.cast_sub hlt.le] at hm₁ hn₁ hk₁ hnear
  refine ⟨v, ?_⟩
  exact {
    envelope := h.envelope
    balanceIn_lt := h.balanceIn_lt
    balanceOut_lt := h.balanceOut_lt
    balanceIn_eq := rfl
    weightIn_eq := rfl
    balanceOut_eq := rfl
    weightOut_eq := rfl
    amountOut_eq := rfl
    amount_near := by
      rw [h.envelope.price_eq]
      exact hnear
    amount_zero := fun hzero => absurd h.amountOut_pos (by omega)
    amountIn_eq := hv
    sensBase := ⟨m, hm, hm₁⟩
    sensExp := ⟨n, hn, hn₁⟩
    sensPow := ⟨k, hk, hk₁⟩ }

/-- **Whatever purchases are written down, their gate fails only where the
program itself does**: with overflow checks on it passes iff every payment is
returned. -/
theorem inGivenOutCases_pass_iff {P : Profile} (hP : P.overflowChecks = true) (hmp : mp.Accurate)
    {specs : List InSpec} (hlead : specs.head?.map InSpec.zone = some "sale_start")
    (h : ∀ s ∈ specs, s.InDomain) :
    ∃ cases, inGivenOutCases mp specs = .ok cases ∧
      (kernelInGivenOutGate (Build.kernel P) cases = .ok () ↔
        ∀ s ∈ specs, ∃ cost, calcInGivenOut (Build.kernel P) s.balanceIn s.weightIn s.balanceOut
          s.weightOut s.amountOut = .ok cost) := by
  obtain ⟨cases, hcases, hrel⟩ := exists_mapM_ok (f := inCase mp)
    (R := fun s c => c.zone = s.zone ∧ (kernelInGivenOutCase (Build.kernel P) c = .ok () ↔
      ∃ cost, calcInGivenOut (Build.kernel P) s.balanceIn s.weightIn s.balanceOut s.weightOut
        s.amountOut = .ok cost))
    fun s hs => by
      obtain ⟨v, hv⟩ := (h s hs).truthful hmp
      refine ⟨_, (h s hs).inCase_ok mp, rfl, ?_⟩
      rw [← hv.call_eq]
      exact kernelInGivenOutCase_iff hP hv
  refine ⟨cases, hcases, ?_⟩
  unfold kernelInGivenOutGate
  rw [leadingZone_ok (head?_zone (hrel.imp fun _ _ hR => hR.1) hlead), ok_bind, forM_eq_ok]
  exact (forall_mem_iff_of_forall₂ (fun _ _ hR => hR.2.symm) hrel).symm

/-- A purchase at the square root of `49 / 64`. -/
theorem inGivenOutCases_pass_iff_root :
    ∃ cases, inGivenOutCases (Mp.nearest fun v => if v = 49 / 64 then "0.765625" else
          if v = 1 / 2 then "0.5" else "0.875")
        [⟨64, 2, 64, 1, 15, "sale_start"⟩] = .ok cases ∧
      (kernelInGivenOutGate (Build.kernel Profile.checked) cases = .ok () ↔
        ∀ s ∈ [(⟨64, 2, 64, 1, 15, "sale_start"⟩ : InSpec)], ∃ cost,
          calcInGivenOut (Build.kernel Profile.checked) s.balanceIn s.weightIn s.balanceOut
            s.weightOut s.amountOut = .ok cost) := by
  apply inGivenOutCases_pass_iff rfl (Mp.nearest_accurate _) rfl
  intro s hs
  obtain rfl := List.mem_singleton.mp hs
  exact {
    envelope := ⟨by norm_num, by norm_num, ⟨by norm_num, by norm_num, by norm_num, by norm_num,
      by norm_num, by norm_num⟩, by norm_num⟩
    balanceIn_lt := by norm_num
    balanceOut_lt := by norm_num
    amountOut_pos := by norm_num }

end In

end Oracle

end WeightedMath
