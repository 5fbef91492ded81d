/-
WeightedMath/Weighted.lean

Weighted-pool swap math (`weighted.rs`): the two swap functions, the weight
envelope they share, and the base ratios they feed to the power kernel.

Every rounding favours the pool.  In `calcOutGivenIn` the exponent rounds down
and the base up, so the power is overstated; `calcInGivenOut` is inverted into
the same domain and flips each direction once.  The one-sidedness of the ratio
is `ratioUp_ge` and `ratioDown_le`; that the pre-shift of wide operands keeps
every step inside its type is `ratioUp_ok` and `ratioDown_ok`.
-/
import WeightedMath.PowError

namespace WeightedMath

open Machine

/-! ### The code -/

def checkWeights (P : Profile) (weightIn weightOut : ℕ) : Exec Unit := do
  assert (weightIn ≥ 1 ∧ weightOut ≥ 1) "zero weight"
  assert (weightIn ≤ 2 ^ 64 ∧ weightOut ≤ 2 ^ 64) "weight envelope: <= 2^64"
  -- both products are below 2^71 here, so evaluating the second one although
  -- `&&` may skip it changes nothing
  let maxIn ← P.umul 128 99 weightOut
  let maxOut ← P.umul 128 99 weightIn
  assert (weightIn ≤ maxIn ∧ weightOut ≤ maxOut) "weight ratio envelope: within [1/99, 99]"

/-- `num / den` as a `Fixed`, rounded up, for `num <= den`. -/
def ratioUp (B : Build) (num den : ℕ) : Exec Fixed := do
  B.debugAssert (num ≤ den ∧ den > 0) "num <= den && den > 0"
  let denBits := 128 - leadingZeros 128 den
  let excess := denBits - (126 - B.scale)
  let (n, d) ←
    if excess > 0 then do
      let n ← B.ushr 128 num excess
      let n ← B.uadd 128 n 1
      let d ← B.ushr 128 den excess
      pure (n, d)
    else pure (num, den)
  let s ← B.ushl 128 n B.scale
  let q ← divCeil s d
  let top ← B.ushr 128 q 127
  B.debugAssert (top = 0) "ratio fits the signed representation"
  let r ← B.asSigned 128 q
  return ⟨r⟩

/-- `num / den` as a `Fixed`, rounded down, for `num < den`. -/
def ratioDown (B : Build) (num den : ℕ) : Exec Fixed := do
  B.debugAssert (num < den) "num < den"
  let denBits := 128 - leadingZeros 128 den
  let excess := denBits - (126 - B.scale)
  let (n, d) ←
    if excess > 0 then do
      let n ← B.ushr 128 num excess
      let d ← B.ushr 128 den excess
      let d ← B.uadd 128 d 1
      pure (n, d)
    else pure (num, den)
  let s ← B.ushl 128 n B.scale
  let q ← udiv s d
  let one ← B.asUnsigned 128 B.one.repr
  B.debugAssert (q < one) "num < den keeps the ratio below one"
  let r ← B.asSigned 128 q
  return ⟨r⟩

/-- Amount of `token_out` received for a given `amount_in` of `token_in`. -/
def calcOutGivenIn (B : Build) (balanceIn weightIn balanceOut weightOut amountIn : ℕ) :
    Exec ℕ := do
  assert (balanceIn ≥ 1 ∧ balanceOut ≥ 1) "empty reserve"
  let total ← expect (checkedAdd 128 balanceIn amountIn) "total deposit must stay below 2^128"
  checkWeights B.toProfile weightIn weightOut
  -- exponent rounds down, base rounds up: both overstate the power
  let w ← B.ushl 128 weightIn B.scale
  let y ← udiv w weightOut
  let exponent ← B.asSigned 128 y
  let base ← ratioUp B balanceIn total
  if base.repr ≥ B.one.repr then return 0
  let omp62 ← oneMinusPow62 B base ⟨exponent⟩
  B.debugAssert (0 ≤ omp62 ∧ omp62 ≤ one62) "(0..=ONE_62).contains(&omp62)"
  let o ← B.asUnsigned 128 omp62
  mulShr B.toProfile balanceOut o lnScale

/-- Amount of `token_in` required to receive a given `amount_out` of
`token_out`. -/
def calcInGivenOut (B : Build) (balanceIn weightIn balanceOut weightOut amountOut : ℕ) :
    Exec ℕ := do
  assert (balanceIn ≥ 1 ∧ balanceOut ≥ 1) "empty reserve"
  checkWeights B.toProfile weightIn weightOut
  let tenths ← B.umul 128 (balanceOut / 10) 3
  let units ← B.umul 128 (balanceOut % 10) 3
  let cap ← B.uadd 128 tenths (units / 10)
  assert (amountOut ≤ cap) "amount_out envelope: <= 30% of the reserve"
  if amountOut = 0 then return 0
  -- exponent rounds up, base' rounds down: both understate the power
  let w ← B.ushl 128 weightOut B.scale
  let y ← divCeil w weightIn
  let exponent ← B.asSigned 128 y
  let rest ← B.usub 128 balanceOut amountOut
  let base ← ratioDown B rest balanceOut
  let p62 ← pow62Down B base ⟨exponent⟩
  assert (p62 > 0) "power underflows the internal scale"
  B.debugAssert (p62 ≤ one62) "p62 <= ONE_62"
  -- (1 - p) / p at `lnScale`, rounded up
  let c ← B.isub 128 one62 p62
  let c ← B.asUnsigned 128 c
  let num ← B.ushl 128 c lnScale
  let p ← B.asUnsigned 128 p62
  let r62 ← divCeil num p
  B.debugAssert (r62 ≤ 2 ^ 124) "r62 <= 1 << 124"
  mulShrUp B.toProfile balanceIn r62 lnScale

/-! ### The weight envelope -/

/-- Weights in `[1, 2^64]` with their ratio in `[1/99, 99]`. -/
structure Weights (weightIn weightOut : ℕ) : Prop where
  in_pos : 1 ≤ weightIn
  out_pos : 1 ≤ weightOut
  in_le : weightIn ≤ 2 ^ 64
  out_le : weightOut ≤ 2 ^ 64
  in_ratio : weightIn ≤ 99 * weightOut
  out_ratio : weightOut ≤ 99 * weightIn

/-- The envelope does not depend on the direction of the trade. -/
theorem Weights.symm {wi wo : ℕ} (h : Weights wi wo) : Weights wo wi :=
  ⟨h.out_pos, h.in_pos, h.out_le, h.in_le, h.out_ratio, h.in_ratio⟩

theorem checkWeights_ok {P : Profile} {wi wo : ℕ} (h : Weights wi wo) :
    checkWeights P wi wo = .ok () := by
  obtain ⟨h₁, h₂, h₃, h₄, h₅, h₆⟩ := h
  unfold checkWeights
  rw [assert_ok ⟨h₁, h₂⟩, ok_bind, assert_ok ⟨h₃, h₄⟩, ok_bind,
    Profile.umul_ok (by omega), ok_bind, Profile.umul_ok (by omega), ok_bind,
    assert_ok ⟨h₅, h₆⟩]

/-- **`check_weights` passes exactly on the envelope**, in every profile. -/
theorem checkWeights_eq_ok {P : Profile} {wi wo : ℕ} {u : Unit} :
    checkWeights P wi wo = .ok u ↔ Weights wi wo := by
  refine ⟨fun h => ?_, checkWeights_ok⟩
  unfold checkWeights at h
  obtain ⟨_, h₁, h⟩ := bind_eq_ok.mp h
  obtain ⟨_, h₂, h⟩ := bind_eq_ok.mp h
  obtain ⟨hi₁, ho₁⟩ := assert_eq_ok.mp h₁
  obtain ⟨hi₂, ho₂⟩ := assert_eq_ok.mp h₂
  rw [Profile.umul_ok (by omega), ok_bind, Profile.umul_ok (by omega), ok_bind] at h
  obtain ⟨hi₃, ho₃⟩ := assert_eq_ok.mp h
  exact ⟨hi₁, ho₁, hi₂, ho₂, hi₃, ho₃⟩

/-! ### The base ratio -/

/-- How far the operands of a ratio are shifted down to leave room for `S`
fractional bits. -/
def excessBits (S den : ℕ) : ℕ := 128 - leadingZeros 128 den - (126 - S)

def ratioUpVal (S num den : ℕ) : ℕ :=
  if excessBits S den > 0 then
    ((num / 2 ^ excessBits S den + 1) * 2 ^ S) ⌈/⌉ (den / 2 ^ excessBits S den)
  else (num * 2 ^ S) ⌈/⌉ den

def ratioDownVal (S num den : ℕ) : ℕ :=
  if excessBits S den > 0 then
    num / 2 ^ excessBits S den * 2 ^ S / (den / 2 ^ excessBits S den + 1)
  else num * 2 ^ S / den

section Ratio

variable {S num den : ℕ}

theorem excessBits_lt (hS : S ≤ 60) (den : ℕ) : excessBits S den < 128 := by
  unfold excessBits
  omega

/-- A divisor that is not shifted leaves the room already. -/
theorem den_lt_of_excess_zero (h₀ : 0 < den) (h₁ : den < 2 ^ 128)
    (h : excessBits S den = 0) : den < 2 ^ (126 - S) := by
  obtain ⟨-, -, hlt⟩ := bitLength_bounds h₀ h₁
  unfold excessBits at h
  exact hlt.trans_le (Nat.pow_le_pow_right two_pos (by omega))

/-- A shifted divisor keeps exactly `126 - S` bits. -/
theorem shifted_den_bounds (hS : S ≤ 60) (h₀ : 0 < den) (h₁ : den < 2 ^ 128)
    (h : 0 < excessBits S den) :
    2 ^ (125 - S) ≤ den / 2 ^ excessBits S den ∧ den / 2 ^ excessBits S den < 2 ^ (126 - S) := by
  obtain ⟨-, hle, hlt⟩ := bitLength_bounds h₀ h₁
  unfold excessBits at *
  generalize 128 - leadingZeros 128 den = bits at *
  constructor
  · rw [Nat.le_div_iff_mul_le (by positivity), ← pow_add]
    exact (Nat.pow_le_pow_right two_pos (by omega)).trans hle
  · rw [Nat.div_lt_iff_lt_mul (by positivity), ← pow_add]
    exact hlt.trans_le (Nat.pow_le_pow_right two_pos (by omega))

/-- Numerators with room for the shift stay inside the word, and so do the
quotients. -/
theorem room_mul_lt (hS : S ≤ 60) {n : ℕ} (h : n ≤ 2 ^ (126 - S)) : n <<< S ≤ 2 ^ 126 := by
  rw [Nat.shiftLeft_eq, ← pow_sub_mul_pow 2 (show S ≤ 126 by omega)]
  exact Nat.mul_le_mul_right _ h

/-- The division of `ratio_up`, on operands that leave the room. -/
theorem ratioUp_quotient_ok (B : Build) {n d : ℕ} (hn : n ≤ 2 ^ (126 - B.scale)) (hd : 0 < d) :
    (do
      let s ← B.ushl 128 n B.scale
      let q ← divCeil s d
      let top ← B.ushr 128 q 127
      B.debugAssert (top = 0) "ratio fits the signed representation"
      let r ← B.asSigned 128 q
      return (⟨r⟩ : Fixed)) = .ok ⟨((n * 2 ^ B.scale) ⌈/⌉ d : ℕ)⟩ := by
  have hS := B.scale_le_sixty
  have hroom := room_mul_lt hS hn
  have hq : (n <<< B.scale) ⌈/⌉ d < 2 ^ 127 :=
    ((ceilDiv_le_self _ hd).trans hroom).trans_lt (by norm_num)
  have htop : ((n <<< B.scale) ⌈/⌉ d) >>> 127 = 0 := by
    rw [Nat.shiftRight_eq_div_pow]
    exact Nat.div_eq_of_lt hq
  rw [Profile.ushl_ok (by omega) (hroom.trans_lt (by norm_num)), ok_bind, divCeil_ok hd, ok_bind,
    Profile.ushr_ok (by norm_num), ok_bind, Profile.debugAssert_ok htop, ok_bind,
    Profile.asSigned_ok (by norm_num) hq, ok_bind, pure_eq_ok, Nat.shiftLeft_eq]

/-- **Ledger of `ratio_up`.** -/
theorem ratioUp_ok (B : Build) (h : num ≤ den) (h₀ : 0 < den) (h₁ : den < 2 ^ 128) :
    ratioUp B num den = .ok ⟨ratioUpVal B.scale num den⟩ := by
  have hS := B.scale_le_sixty
  have hlt := excessBits_lt hS den
  unfold ratioUp ratioUpVal
  rw [Profile.debugAssert_ok ⟨h, h₀⟩, ok_bind]
  simp only [← excessBits.eq_1]
  by_cases he : excessBits B.scale den > 0
  · obtain ⟨hd₀, hd₁⟩ := shifted_den_bounds hS h₀ h₁ he
    have hd : 0 < den / 2 ^ excessBits B.scale den := (Nat.two_pow_pos _).trans_le hd₀
    have hn : num / 2 ^ excessBits B.scale den + 1 ≤ 2 ^ (126 - B.scale) :=
      (Nat.div_le_div_right h).trans_lt hd₁
    have hpow : 2 ^ (126 - B.scale) < 2 ^ 128 := Nat.pow_lt_pow_right (by norm_num) (by omega)
    rw [if_pos he, if_pos he, Profile.ushr_ok hlt, ok_bind, Nat.shiftRight_eq_div_pow,
      Profile.uadd_ok (hn.trans_lt hpow), ok_bind, Profile.ushr_ok hlt, ok_bind,
      Nat.shiftRight_eq_div_pow, pure_eq_ok, ok_bind]
    exact ratioUp_quotient_ok B hn hd
  · have hd := den_lt_of_excess_zero h₀ h₁ (Nat.eq_zero_of_not_pos he)
    rw [if_neg he, if_neg he, pure_eq_ok, ok_bind]
    exact ratioUp_quotient_ok B (h.trans hd.le) h₀

/-- A shift that floors is made up for by one more unit. -/
theorem le_div_succ_mul (n : ℕ) {E : ℕ} (hE : 0 < E) : n ≤ (n / E + 1) * E := by
  rw [mul_comm]
  exact (Nat.lt_mul_div_succ n hE).le

/-- **`ratio_up` never understates.** -/
theorem ratioUp_ge (num : ℕ) (hS : S ≤ 60) (h₀ : 0 < den) (h₁ : den < 2 ^ 128) :
    num * 2 ^ S ≤ ratioUpVal S num den * den := by
  unfold ratioUpVal
  split_ifs with he
  · obtain ⟨hd₀, -⟩ := shifted_den_bounds hS h₀ h₁ he
    have hd := (Nat.two_pow_pos _).trans_le hd₀
    have hn := le_div_succ_mul num (Nat.two_pow_pos (excessBits S den))
    have hden : den / 2 ^ excessBits S den * 2 ^ excessBits S den ≤ den := Nat.div_mul_le_self _ _
    generalize 2 ^ excessBits S den = E at *
    generalize den / E = d at *
    generalize num / E + 1 = n at *
    have hq := le_mul_ceilDiv (n * 2 ^ S) hd
    calc num * 2 ^ S ≤ n * E * 2 ^ S := Nat.mul_le_mul_right _ hn
      _ = n * 2 ^ S * E := by ring
      _ ≤ d * ((n * 2 ^ S) ⌈/⌉ d) * E := Nat.mul_le_mul_right _ hq
      _ = (n * 2 ^ S) ⌈/⌉ d * (d * E) := by ring
      _ ≤ (n * 2 ^ S) ⌈/⌉ d * den := Nat.mul_le_mul_left _ hden
  · rw [mul_comm (_ ⌈/⌉ _)]
    exact le_mul_ceilDiv _ h₀

/-- **`ratio_down` never overstates.** -/
theorem ratioDown_le (S num den : ℕ) : ratioDownVal S num den * den ≤ num * 2 ^ S := by
  unfold ratioDownVal
  split_ifs
  · have hn : num / 2 ^ excessBits S den * 2 ^ excessBits S den ≤ num := Nat.div_mul_le_self _ _
    have hden := le_div_succ_mul den (Nat.two_pow_pos (excessBits S den))
    generalize 2 ^ excessBits S den = E at *
    generalize den / E + 1 = d at *
    generalize num / E = n at *
    calc n * 2 ^ S / d * den ≤ n * 2 ^ S / d * (d * E) := Nat.mul_le_mul_left _ hden
      _ = n * 2 ^ S / d * d * E := by ring
      _ ≤ n * 2 ^ S * E := Nat.mul_le_mul_right _ (Nat.div_mul_le_self _ _)
      _ = n * E * 2 ^ S := by ring
      _ ≤ num * 2 ^ S := Nat.mul_le_mul_right _ hn
  · exact Nat.div_mul_le_self _ _

/-- One-sidedness over the reals. -/
theorem div_le_ratioUp (num : ℕ) (hS : S ≤ 60) (h₀ : 0 < den) (h₁ : den < 2 ^ 128) :
    (num : ℝ) / den ≤ (ratioUpVal S num den : ℝ) / 2 ^ S := by
  have hden : (0 : ℝ) < den := by exact_mod_cast h₀
  rw [div_le_div_iff₀ hden (by positivity)]
  exact_mod_cast ratioUp_ge num hS h₀ h₁

theorem ratioDown_le_div (S num : ℕ) (h₀ : 0 < den) :
    (ratioDownVal S num den : ℝ) / 2 ^ S ≤ (num : ℝ) / den := by
  have hden : (0 : ℝ) < den := by exact_mod_cast h₀
  rw [div_le_div_iff₀ (by positivity) hden]
  exact_mod_cast ratioDown_le S num den

/-- A proper fraction stays one. -/
theorem ratioDown_lt (h : num < den) : ratioDownVal S num den < 2 ^ S := by
  have h₁ := ratioDown_le S num den
  have h₂ : num * 2 ^ S < den * 2 ^ S := Nat.mul_lt_mul_of_pos_right h (Nat.two_pow_pos S)
  rw [mul_comm den] at h₂
  exact Nat.lt_of_mul_lt_mul_right (h₁.trans_lt h₂)

/-- The division of `ratio_down`, likewise. -/
theorem ratioDown_quotient_ok (B : Build) {n d : ℕ} (hn : n ≤ 2 ^ (126 - B.scale)) (hd : 0 < d)
    (hq : n * 2 ^ B.scale / d < 2 ^ B.scale) :
    (do
      let s ← B.ushl 128 n B.scale
      let q ← udiv s d
      let one ← B.asUnsigned 128 B.one.repr
      B.debugAssert (q < one) "num < den keeps the ratio below one"
      let r ← B.asSigned 128 q
      return (⟨r⟩ : Fixed)) = .ok ⟨(n * 2 ^ B.scale / d : ℕ)⟩ := by
  have hS := B.scale_le_sixty
  have hroom := room_mul_lt hS hn
  have hone : 2 ^ B.scale < 2 ^ 127 := Nat.pow_lt_pow_right (by norm_num) (by omega)
  have hcast : B.asUnsigned 128 B.one.repr = .ok (2 ^ B.scale) := by
    have h2 : (2 : ℤ) ^ B.scale < 2 ^ 128 := by exact_mod_cast hone.trans (by norm_num)
    rw [Build.one_repr, Profile.asUnsigned_ok (by positivity) h2]
    exact_mod_cast congrArg Except.ok (Int.toNat_natCast (2 ^ B.scale))
  rw [Profile.ushl_ok (by omega) (hroom.trans_lt (by norm_num)), ok_bind, udiv_ok hd, ok_bind,
    hcast, ok_bind, Nat.shiftLeft_eq, Profile.debugAssert_ok hq, ok_bind,
    Profile.asSigned_ok (by norm_num) (hq.trans hone), ok_bind, pure_eq_ok]

/-- **Ledger of `ratio_down`.** -/
theorem ratioDown_ok (B : Build) (h : num < den) (h₁ : den < 2 ^ 128) :
    ratioDown B num den = .ok ⟨ratioDownVal B.scale num den⟩ := by
  have hS := B.scale_le_sixty
  have h₀ : 0 < den := by omega
  have hlt := excessBits_lt hS den
  have hone := ratioDown_lt (S := B.scale) h
  unfold ratioDown
  unfold ratioDownVal at *
  rw [Profile.debugAssert_ok h, ok_bind]
  simp only [← excessBits.eq_1]
  by_cases he : excessBits B.scale den > 0
  · obtain ⟨hd₀, hd₁⟩ := shifted_den_bounds hS h₀ h₁ he
    have hn : num / 2 ^ excessBits B.scale den ≤ 2 ^ (126 - B.scale) :=
      (Nat.div_le_div_right h.le).trans hd₁.le
    have hpow : 2 ^ (126 - B.scale) < 2 ^ 128 := Nat.pow_lt_pow_right (by norm_num) (by omega)
    rw [if_pos he] at hone
    rw [if_pos he, if_pos he, Profile.ushr_ok hlt, ok_bind, Nat.shiftRight_eq_div_pow,
      Profile.ushr_ok hlt, ok_bind, Nat.shiftRight_eq_div_pow,
      Profile.uadd_ok (lt_of_le_of_lt hd₁ hpow), ok_bind, pure_eq_ok, ok_bind]
    exact ratioDown_quotient_ok B hn (Nat.succ_pos _) hone
  · have hd := den_lt_of_excess_zero h₀ h₁ (Nat.eq_zero_of_not_pos he)
    rw [if_neg he] at hone
    rw [if_neg he, if_neg he, pure_eq_ok, ok_bind]
    exact ratioDown_quotient_ok B (h.trans hd).le h₀ hone

/-- Moving both operands of a proper fraction by at most one unit of `E` moves
it by at most two units of its divisor. -/
theorem shift_loss {a b n d E : ℝ} (ha : 0 ≤ a) (hab : a ≤ b) (hb : 0 < b) (hE : 0 < E)
    (hd₀ : 0 < d) (hn : |n * E - a| ≤ E) (hd : |d * E - b| ≤ E) : |n / d - a / b| ≤ 2 / d := by
  have h : |n * b - a * d| * E ≤ 2 * b * E := by
    calc |n * b - a * d| * E = |(n * E - a) * b - a * (d * E - b)| := by
          rw [← abs_of_pos hE, ← abs_mul, abs_of_pos hE]; ring_nf
      _ ≤ |(n * E - a) * b| + |a * (d * E - b)| := abs_sub _ _
      _ = |n * E - a| * b + a * |d * E - b| := by
          rw [abs_mul, abs_mul, abs_of_pos hb, abs_of_nonneg ha]
      _ ≤ E * b + b * E :=
          add_le_add (mul_le_mul_of_nonneg_right hn hb.le)
            (mul_le_mul hab hd (abs_nonneg _) hb.le)
      _ = 2 * b * E := by ring
  rw [div_sub_div _ _ hd₀.ne' hb.ne', abs_div, abs_of_pos (mul_pos hd₀ hb),
    div_le_div_iff₀ (mul_pos hd₀ hb) hd₀, mul_comm d a]
  calc |n * b - a * d| * d ≤ 2 * b * d :=
        mul_le_mul_of_nonneg_right (le_of_mul_le_mul_right h hE) hd₀.le
    _ = 2 * (d * b) := by ring

/-- With `126 - S` bits in the divisor, two of its units are `2^(2·S - 124)` at
scale `S`. -/
theorem unit_loss (hS : S ≤ 60) {d : ℝ} (hd : 2 ^ (125 - S) ≤ d) :
    2 / d * 2 ^ S ≤ 2 ^ (2 * S) / 2 ^ 124 := by
  have hpos : (0 : ℝ) < 2 ^ (125 - S) := by positivity
  have e : (2 : ℝ) ^ 124 * 2 = 2 ^ (125 - S) * 2 ^ S := by
    rw [pow_sub_mul_pow 2 (by omega), ← pow_succ]
  rw [div_mul_eq_mul_div, div_le_div_iff₀ (hpos.trans_le hd) (by positivity)]
  calc (2 : ℝ) * 2 ^ S * 2 ^ 124 = 2 ^ (2 * S) * 2 ^ (125 - S) := by
        rw [mul_right_comm, mul_comm 2, e, mul_assoc, ← pow_add, ← pow_add, ← pow_add]
        congr 1
        omega
    _ ≤ 2 ^ (2 * S) * d := mul_le_mul_of_nonneg_left hd (by positivity)

theorem sub_one_lt_div (a b : ℕ) : (a : ℝ) / b - 1 < (a / b : ℕ) := by
  rw [← Nat.floor_div_eq_div (K := ℝ)]
  exact Nat.sub_one_lt_floor _

theorem ceilDiv_lt_add_one (a : ℕ) {b : ℕ} (hb : 0 < b) :
    ((a ⌈/⌉ b : ℕ) : ℝ) < (a : ℝ) / b + 1 := by
  have hbR : (0 : ℝ) < b := by exact_mod_cast hb
  have hlt : ((a ⌈/⌉ b * b : ℕ) : ℝ) < ((a + b : ℕ) : ℝ) := by
    exact_mod_cast ceilDiv_mul_lt a hb
  push_cast at hlt
  rw [div_add_one hbR.ne', lt_div_iff₀ hbR]
  exact hlt

/-- A shift by `E` moves an operand by at most one unit of `E`, with or without
the bias. -/
theorem abs_shift_sub_le (n : ℕ) {E : ℕ} (hE : 0 < E) :
    |((n / E : ℕ) : ℝ) * E - n| ≤ E ∧ |((n / E + 1 : ℕ) : ℝ) * E - n| ≤ E := by
  have hlo : ((n / E * E : ℕ) : ℝ) ≤ n := by exact_mod_cast Nat.div_mul_le_self n E
  have hhi : (n : ℝ) ≤ (((n / E + 1) * E : ℕ) : ℝ) := by exact_mod_cast le_div_succ_mul n hE
  push_cast at hlo hhi ⊢
  constructor
  · exact abs_le.mpr ⟨by linarith, by linarith⟩
  · exact abs_le.mpr ⟨by linarith, by linarith⟩

/-- **What the pre-shift costs**: a proper fraction of shifted operands, at
scale `S` and before the division rounds. -/
theorem abs_shifted_ratio_le (hS : S ≤ 60) (h : num ≤ den) (h₀ : 0 < den) {n d E : ℕ}
    (hE : 0 < E) (hbits : 2 ^ (125 - S) ≤ d) (hn : |(n : ℝ) * E - num| ≤ E)
    (hd : |(d : ℝ) * E - den| ≤ E) :
    |((n * 2 ^ S : ℕ) : ℝ) / d - (num : ℝ) * 2 ^ S / den| ≤ 2 ^ (2 * S) / 2 ^ 124 := by
  have hbitsR : (2 : ℝ) ^ (125 - S) ≤ d := by exact_mod_cast hbits
  have hpow : (0 : ℝ) < 2 ^ S := by positivity
  have hshift := shift_loss (Nat.cast_nonneg num) (by exact_mod_cast h) (by exact_mod_cast h₀)
    (by exact_mod_cast hE) (lt_of_lt_of_le (by positivity) hbitsR) hn hd
  have e : ((n * 2 ^ S : ℕ) : ℝ) / d - (num : ℝ) * 2 ^ S / den
      = ((n : ℝ) / d - (num : ℝ) / den) * 2 ^ S := by
    push_cast
    ring
  rw [e, abs_mul, abs_of_pos hpow]
  exact (mul_le_mul_of_nonneg_right hshift hpow.le).trans (unit_loss hS hbitsR)

/-- **`ratio_down` is tight**: one unit for the division, and less than
`2^(2·S - 124)` for the pre-shift. -/
theorem ratioDown_gt (hS : S ≤ 60) (h : num ≤ den) (h₀ : 0 < den) (h₁ : den < 2 ^ 128) :
    (num : ℝ) * 2 ^ S / den - 1 - 2 ^ (2 * S) / 2 ^ 124 < ratioDownVal S num den := by
  unfold ratioDownVal
  split_ifs with he
  · have hd₀ := (shifted_den_bounds hS h₀ h₁ he).1
    have hE := Nat.two_pow_pos (excessBits S den)
    have hcost := abs_shifted_ratio_le hS h h₀ hE (hd₀.trans (Nat.le_succ _))
      (abs_shift_sub_le num hE).1 (abs_shift_sub_le den hE).2
    have hfloor := sub_one_lt_div (num / 2 ^ excessBits S den * 2 ^ S)
      (den / 2 ^ excessBits S den + 1)
    linarith [(abs_le.mp hcost).1]
  · have hloss : (0 : ℝ) < 2 ^ (2 * S) / 2 ^ 124 := by positivity
    have hfloor := sub_one_lt_div (num * 2 ^ S) den
    rw [Nat.cast_mul, Nat.cast_pow, Nat.cast_ofNat] at hfloor
    linarith

/-- **`ratio_up` is tight**, by the same two terms. -/
theorem ratioUp_lt (hS : S ≤ 60) (h : num ≤ den) (h₀ : 0 < den) (h₁ : den < 2 ^ 128) :
    (ratioUpVal S num den : ℝ) < (num : ℝ) * 2 ^ S / den + 1 + 2 ^ (2 * S) / 2 ^ 124 := by
  unfold ratioUpVal
  split_ifs with he
  · have hd₀ := (shifted_den_bounds hS h₀ h₁ he).1
    have hE := Nat.two_pow_pos (excessBits S den)
    have hcost := abs_shifted_ratio_le hS h h₀ hE hd₀ (abs_shift_sub_le num hE).2
      (abs_shift_sub_le den hE).1
    have hceil := ceilDiv_lt_add_one ((num / 2 ^ excessBits S den + 1) * 2 ^ S)
      ((Nat.two_pow_pos _).trans_le hd₀)
    linarith [(abs_le.mp hcost).2]
  · have hloss : (0 : ℝ) < 2 ^ (2 * S) / 2 ^ 124 := by positivity
    have hceil := ceilDiv_lt_add_one (num * 2 ^ S) h₀
    rw [Nat.cast_mul, Nat.cast_pow, Nat.cast_ofNat] at hceil
    linarith

/-- Up to `126 - S` bits nothing is shifted. -/
theorem excessBits_eq_zero (h₀ : 0 < den) (h₁ : den < 2 ^ 128) (h : den < 2 ^ (126 - S)) :
    excessBits S den = 0 := by
  obtain ⟨-, hle, -⟩ := bitLength_bounds h₀ h₁
  have := (Nat.pow_lt_pow_iff_right (show 1 < 2 by norm_num)).mp (hle.trans_lt h)
  unfold excessBits
  omega

/-- **The base ratio is one-sided and tight at every operand width.**  In every
profile `ratio_up` returns, for a fraction up to one, a value that is not below
it and less than `1 + 2^-20` units above, and `ratio_down`, for a proper
fraction, one that is not above it, less than `1 + 2^-20` units below, and
below one.  Below `2^74` nothing is shifted and they are the ceiling and the
floor. -/
theorem ratio_tight (P : Profile) (h₁ : den < 2 ^ 128) :
    (num ≤ den → 0 < den → ∃ q : ℕ,
        ratioUp (Build.kernel P) num den = .ok ⟨(q : ℤ)⟩ ∧
        (num : ℝ) * 2 ^ 52 / den ≤ q ∧ (q : ℝ) < (num : ℝ) * 2 ^ 52 / den + 1 + 1 / 2 ^ 20 ∧
        (den < 2 ^ 74 → q = (num * 2 ^ 52) ⌈/⌉ den)) ∧
      (num < den → ∃ q : ℕ,
        ratioDown (Build.kernel P) num den = .ok ⟨(q : ℤ)⟩ ∧
        (num : ℝ) * 2 ^ 52 / den - 1 - 1 / 2 ^ 20 < q ∧ (q : ℝ) ≤ (num : ℝ) * 2 ^ 52 / den ∧
        q < 2 ^ 52 ∧ (den < 2 ^ 74 → q = num * 2 ^ 52 / den)) := by
  have hunit : (2 : ℝ) ^ (2 * 52) / 2 ^ 124 = 1 / 2 ^ 20 := by norm_num
  constructor
  · intro h h₀
    have hdenR : (0 : ℝ) < den := by exact_mod_cast h₀
    have hlt := ratioUp_lt (S := 52) (by norm_num) h h₀ h₁
    rw [hunit] at hlt
    refine ⟨ratioUpVal 52 num den, ratioUp_ok (Build.kernel P) h h₀ h₁, ?_, hlt, ?_⟩
    · rw [div_le_iff₀ hdenR]
      exact_mod_cast ratioUp_ge (S := 52) num (by norm_num) h₀ h₁
    · intro hsmall
      rw [ratioUpVal, excessBits_eq_zero h₀ h₁ hsmall, if_neg (lt_irrefl 0)]
  · intro h
    have h₀ : 0 < den := by omega
    have hdenR : (0 : ℝ) < den := by exact_mod_cast h₀
    have hgt := ratioDown_gt (S := 52) (by norm_num) h.le h₀ h₁
    rw [hunit] at hgt
    refine ⟨ratioDownVal 52 num den, ratioDown_ok (Build.kernel P) h h₁, hgt, ?_,
      ratioDown_lt h, ?_⟩
    · rw [le_div_iff₀ hdenR]
      exact_mod_cast ratioDown_le 52 num den
    · intro hsmall
      rw [ratioDownVal, excessBits_eq_zero h₀ h₁ hsmall, if_neg (lt_irrefl 0)]

/-- A third, with a denominator that is shifted. -/
theorem ratio_tight_third :
    ∃ q : ℕ, ratioUp (Build.kernel Profile.wrapping) (2 ^ 100) (3 * 2 ^ 100) = .ok ⟨(q : ℤ)⟩ ∧
      ((2 ^ 100 : ℕ) : ℝ) * 2 ^ 52 / ((3 * 2 ^ 100 : ℕ) : ℝ) ≤ q ∧
      (q : ℝ) < ((2 ^ 100 : ℕ) : ℝ) * 2 ^ 52 / ((3 * 2 ^ 100 : ℕ) : ℝ) + 1 + 1 / 2 ^ 20 ∧
      (3 * 2 ^ 100 < 2 ^ 74 → q = (2 ^ 100 * 2 ^ 52) ⌈/⌉ (3 * 2 ^ 100)) :=
  (ratio_tight Profile.wrapping (by norm_num)).1 (by norm_num) (by norm_num)

end Ratio

/-! ### The exponent -/

/-- `weight_in / weight_out` rounded down. -/
def exponentDown (S wi wo : ℕ) : ℕ := wi * 2 ^ S / wo

/-- `weight_out / weight_in` rounded up. -/
def exponentUp (S wi wo : ℕ) : ℕ := (wo * 2 ^ S) ⌈/⌉ wi

section Exponent

variable {S wi wo : ℕ}

/-- At scale 7 and above the ratio 1/99 does not round to zero. -/
theorem Weights.exponentDown_bounds (h : Weights wi wo) (hS : 7 ≤ S) :
    0 < exponentDown S wi wo ∧ exponentDown S wi wo ≤ 99 * 2 ^ S := by
  have h128 : 128 ≤ 2 ^ S := Nat.pow_le_pow_right two_pos hS
  constructor
  · refine Nat.div_pos ?_ h.out_pos
    calc wo ≤ 99 * wi := h.out_ratio
      _ ≤ wi * 2 ^ S := by rw [mul_comm]; exact Nat.mul_le_mul_left _ (by omega)
  · refine Nat.div_le_of_le_mul ?_
    calc wi * 2 ^ S ≤ 99 * wo * 2 ^ S := Nat.mul_le_mul_right _ h.in_ratio
      _ = wo * (99 * 2 ^ S) := by ring

theorem Weights.exponentUp_bounds (h : Weights wi wo) :
    0 < exponentUp S wi wo ∧ exponentUp S wi wo ≤ 99 * 2 ^ S := by
  constructor
  · exact ceilDiv_pos (Nat.mul_pos h.out_pos (Nat.two_pow_pos S)) h.in_pos
  · rw [exponentUp, ceilDiv_le_iff_le_mul (show 0 < wi from h.in_pos)]
    calc wo * 2 ^ S ≤ 99 * wi * 2 ^ S := Nat.mul_le_mul_right _ h.out_ratio
      _ = wi * (99 * 2 ^ S) := by ring

theorem weight_shift_lt (hS : S ≤ 60) {w : ℕ} (h : w ≤ 2 ^ 64) : w <<< S < 2 ^ 128 := by
  rw [Nat.shiftLeft_eq]
  calc w * 2 ^ S ≤ 2 ^ 64 * 2 ^ 60 := Nat.mul_le_mul h (Nat.pow_le_pow_right two_pos hS)
    _ < 2 ^ 128 := by norm_num

/-- An exponent fits the signed type. -/
theorem exponent_lt (hS : S ≤ 60) {y : ℕ} (h : y ≤ 99 * 2 ^ S) : y < 2 ^ (128 - 1) := by
  have : 99 * 2 ^ S ≤ 99 * 2 ^ 60 := Nat.mul_le_mul_left _ (Nat.pow_le_pow_right two_pos hS)
  exact (h.trans this).trans_lt (by norm_num)

/-- The exponent of a sale is within one unit below the ratio of the weights. -/
theorem exponentDown_near (S wi : ℕ) (h : 0 < wo) :
    (exponentDown S wi wo : ℝ) / 2 ^ S ≤ (wi : ℝ) / wo ∧
      (wi : ℝ) / wo - (exponentDown S wi wo : ℝ) / 2 ^ S ≤ 1 / 2 ^ S := by
  have hwo : (0 : ℝ) < wo := by exact_mod_cast h
  constructor
  · rw [div_le_div_iff₀ (by positivity) hwo]
    exact_mod_cast Nat.div_mul_le_self (wi * 2 ^ S) wo
  · have hgt := sub_one_lt_div (wi * 2 ^ S) wo
    rw [Nat.cast_mul, Nat.cast_pow, Nat.cast_ofNat, mul_div_right_comm] at hgt
    rw [sub_le_iff_le_add, ← add_div, le_div_iff₀ (by positivity)]
    exact (sub_lt_iff_lt_add'.mp hgt).le

/-- The exponent of a purchase is within one unit above it. -/
theorem exponentUp_near (S wo : ℕ) (h : 0 < wi) :
    (wo : ℝ) / wi ≤ (exponentUp S wi wo : ℝ) / 2 ^ S ∧
      (exponentUp S wi wo : ℝ) / 2 ^ S - (wo : ℝ) / wi ≤ 1 / 2 ^ S := by
  have hwi : (0 : ℝ) < wi := by exact_mod_cast h
  constructor
  · rw [div_le_div_iff₀ hwi (by positivity), mul_comm (_ : ℝ) (wi : ℝ)]
    exact_mod_cast le_mul_ceilDiv (wo * 2 ^ S) h
  · have hlt := ceilDiv_lt_add_one (wo * 2 ^ S) h
    rw [Nat.cast_mul, Nat.cast_pow, Nat.cast_ofNat, mul_div_right_comm] at hlt
    rw [sub_le_iff_le_add, div_le_iff₀ (by positivity), add_mul, one_div_mul_cancel (by positivity),
      add_comm]
    exact hlt.le

/-- **Ledger of the exponent of `calc_out_given_in`.** -/
theorem exponentDown_ok (B : Build) (h : Weights wi wo) :
    B.ushl 128 wi B.scale = .ok (wi * 2 ^ B.scale) ∧
      udiv (wi * 2 ^ B.scale) wo = .ok (exponentDown B.scale wi wo) ∧
      B.asSigned 128 (exponentDown B.scale wi wo) = .ok (exponentDown B.scale wi wo : ℤ) := by
  have hS := B.scale_le_sixty
  have hlt := exponent_lt hS (h.exponentDown_bounds B.seven_le_scale).2
  refine ⟨?_, udiv_ok h.out_pos, Profile.asSigned_ok (by norm_num) hlt⟩
  rw [Profile.ushl_ok (by omega) (weight_shift_lt hS h.in_le), Nat.shiftLeft_eq]

/-- **Ledger of the exponent of `calc_in_given_out`.** -/
theorem exponentUp_ok (B : Build) (h : Weights wi wo) :
    B.ushl 128 wo B.scale = .ok (wo * 2 ^ B.scale) ∧
      divCeil (wo * 2 ^ B.scale) wi = .ok (exponentUp B.scale wi wo) ∧
      B.asSigned 128 (exponentUp B.scale wi wo) = .ok (exponentUp B.scale wi wo : ℤ) := by
  have hS := B.scale_le_sixty
  have hlt := exponent_lt hS h.exponentUp_bounds.2
  refine ⟨?_, divCeil_ok h.in_pos, Profile.asSigned_ok (by norm_num) hlt⟩
  rw [Profile.ushl_ok (by omega) (weight_shift_lt hS h.out_le), Nat.shiftLeft_eq]

end Exponent

end WeightedMath
