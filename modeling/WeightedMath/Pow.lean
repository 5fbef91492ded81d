/-
WeightedMath/Pow.lean

The power kernel (`pow.rs`): `pow(base, y) = exp(y · ln base)`.

Two entries share one pipeline.  `pow62` stays at 62 bits and feeds the swap
functions, padded down by `pad62` on whichever side favours the pool; `powRaw`
rounds to the crate's scale and feeds `pow`, `powDown` and `powUp`.  They also
have different domains: `pow62` refuses `base = 1`, `powRaw` takes it.

`powVal` is the value of the pipeline, and each `_ok` theorem the ledger of one
function: in its domain it returns that value in every profile.  `pow_ledger`
reads the rows of the pipeline off them.
-/
import WeightedMath.LnError
import WeightedMath.ExpError

namespace WeightedMath

open Machine

/-! ### Constants -/

/-- Padding applied by `powUp`/`powDown`, in ulps at `scale`. -/
def powPadUlps : ℤ := 2

/-- Pool-favouring pad for the 62-bit swap-path results: `2^-53`. -/
def pad62 : ℤ := 512

/-- `exp`/`expm1` saturate at `x <= -64`. -/
def Build.expSaturation (B : Build) : ℤ := 64 * 2 ^ B.scale

/-! ### The code -/

/-- Rounds a nonnegative `lnScale` value to `scale`, nearest. -/
def toScaleNearest (B : Build) (v62 : ℤ) : Exec ℤ := do
  let half ← B.ishl 128 1 (lnScale - B.scale - 1)
  let v ← B.iadd 128 v62 half
  B.ishr 128 v (lnScale - B.scale)

/-- Natural logarithm of `x ∈ (0, 1]`; result `<= 0`, nearest-rounded. -/
def ln (B : Build) (x : Fixed) : Exec Fixed := do
  assert (x.repr > 0 ∧ x.repr ≤ B.one.repr) "ln domain: (0, 1]"
  let v ← lnInner B x.repr
  let r ← toScaleNearest B v
  let z ← B.ineg 128 r
  return ⟨z⟩

/-- Natural exponential of `x <= 0`; result in `[0, 1]`, nearest-rounded. -/
def exp (B : Build) (x : Fixed) : Exec Fixed := do
  assert (x.repr ≤ 0) "exp domain: x <= 0"
  if x.repr ≤ -B.expSaturation then return ⟨0⟩
  let n ← B.ineg 128 x.repr
  let a ← B.ishl 128 n (lnScale - B.scale)
  let v ← expInner B.toProfile a
  let r ← toScaleNearest B v
  return ⟨r⟩

/-- `exp(x) - 1` for `x <= 0`; result in `[-1, 0]`. -/
def expm1 (B : Build) (x : Fixed) : Exec Fixed := do
  assert (x.repr ≤ 0) "expm1 domain: x <= 0"
  if x.repr ≤ -B.expSaturation then
    let z ← B.ineg 128 B.one.repr
    return ⟨z⟩
  let n ← B.ineg 128 x.repr
  let a ← B.ishl 128 n (lnScale - B.scale)
  let v ← expInner B.toProfile a
  let omp62 ← B.isub 128 one62 v
  let r ← toScaleNearest B omp62
  let z ← B.ineg 128 r
  return ⟨z⟩

/-- `neg_arg`, the argument of the exponential: `exponent · (-ln base)` at
`lnScale`.  The product can pass `2^128`, hence the widening. -/
def powArg (B : Build) (base exponent : Fixed) : Exec ℤ := do
  let negLn ← lnInner B base.repr
  let e ← B.asUnsigned 128 exponent.repr
  let l ← B.asUnsigned 128 negLn
  let n ← mulShr B.toProfile e l B.scale
  B.asSigned 128 n

/-- `exp(exponent · ln base)` at `lnScale`, unpadded: shared core of the 62-bit
swap paths. -/
def pow62 (B : Build) (base exponent : Fixed) : Exec ℤ := do
  assert (base.repr > 0 ∧ base.repr < B.one.repr) "domain: base in (0, 1)"
  assert (exponent.repr > 0 ∧ exponent.repr ≤ 99 * B.one.repr) "domain: exponent in (0, 99]"
  let negArg ← powArg B base exponent
  expInner B.toProfile negArg

/-- `1 - base^exponent` at `lnScale`, padded down, for the payout path. -/
def oneMinusPow62 (B : Build) (base exponent : Fixed) : Exec ℤ := do
  let p ← pow62 B base exponent
  let c ← B.isub 128 one62 p
  let z ← B.isub 128 c pad62
  return max z 0

/-- `base^exponent` at `lnScale`, padded down, for the exact-out payment path. -/
def pow62Down (B : Build) (base exponent : Fixed) : Exec ℤ := do
  let p ← pow62 B base exponent
  let z ← B.isub 128 p pad62
  return max z 0

/-- `exp(exponent · ln base)`, nearest-rounded to `scale`. -/
def powRaw (B : Build) (base exponent : Fixed) : Exec ℤ := do
  assert (base.repr > 0 ∧ base.repr ≤ B.one.repr) "pow domain: base in (0, 1]"
  assert (exponent.repr > 0 ∧ exponent.repr ≤ 99 * B.one.repr) "pow domain: exponent in (0, 99]"
  let negArg ← powArg B base exponent
  let p ← expInner B.toProfile negArg
  toScaleNearest B p

/-- `base^exponent`, both fixed-point. -/
def pow (B : Build) (base exponent : Fixed) : Exec Fixed := do
  let r ← powRaw B base exponent
  return ⟨r⟩

/-- `base^exponent` rounded down. -/
def powDown (B : Build) (base exponent : Fixed) : Exec Fixed := do
  let r ← powRaw B base exponent
  let z ← B.isub 128 r powPadUlps
  return ⟨max z 0⟩

/-- `base^exponent` rounded up. -/
def powUp (B : Build) (base exponent : Fixed) : Exec Fixed := do
  let r ← powRaw B base exponent
  let z ← B.iadd 128 r powPadUlps
  return ⟨min z B.one.repr⟩

/-! ### Domain and values -/

/-- `base ∈ (0, 1]` and `exponent ∈ (0, 99]`, as words at scale `S`. -/
structure PowDomain (S : ℕ) (b y : ℤ) : Prop where
  base_pos : 0 < b
  base_le : b ≤ 2 ^ S
  exponent_pos : 0 < y
  exponent_le : y ≤ 99 * 2 ^ S

/-- A 62-bit value rounded to scale `S`, nearest. -/
def nearest (S : ℕ) (v : ℤ) : ℤ := (v + 2 ^ (62 - S - 1)) / 2 ^ (62 - S)

def argVal (S : ℕ) (b y : ℤ) : ℤ := y * lnVal S b / 2 ^ S

/-- The unpadded power at 62 bits. -/
def powVal (S : ℕ) (b y : ℤ) : ℤ := expVal (argVal S b y)

def lnOut (S : ℕ) (x : ℤ) : ℤ := -nearest S (lnVal S x)

def expOut (S : ℕ) (x : ℤ) : ℤ :=
  if x ≤ -(64 * 2 ^ S) then 0 else nearest S (expVal (-x * 2 ^ (62 - S)))

def expm1Out (S : ℕ) (x : ℤ) : ℤ :=
  if x ≤ -(64 * 2 ^ S) then -2 ^ S else -nearest S (2 ^ 62 - expVal (-x * 2 ^ (62 - S)))

def powOut (S : ℕ) (b y : ℤ) : ℤ := nearest S (powVal S b y)

/-! ### The overflow ledger -/

section Ledger

variable {S : ℕ} {b y : ℤ}

theorem nearest_nonneg {v : ℤ} (h : 0 ≤ v) : 0 ≤ nearest S v :=
  Int.ediv_nonneg (add_nonneg h (by positivity)) (by positivity)

/-- Rounding to a coarser scale does not leave `[0, 1]`. -/
theorem nearest_le (hS : S ≤ 60) {v : ℤ} (h : v ≤ 2 ^ 62) : nearest S v ≤ 2 ^ S := by
  obtain ⟨k, rfl⟩ : ∃ k, S = 60 - k := ⟨60 - S, by omega⟩
  rw [nearest, Int.ediv_le_iff_le_mul (by positivity)]
  have e : (2 : ℤ) ^ (60 - k) * 2 ^ (62 - (60 - k)) = 2 ^ 62 := pow_mul_pow_sub 2 (by omega)
  have hhalf : (2 : ℤ) * 2 ^ (62 - (60 - k) - 1) = 2 ^ (62 - (60 - k)) :=
    mul_pow_sub_one (by omega) 2
  have hpos : (0 : ℤ) < 2 ^ (62 - (60 - k) - 1) := by positivity
  rw [← e] at h
  linarith

theorem two_pow_scale_le {S : ℕ} (hS : S ≤ 60) : (2 : ℤ) ^ S ≤ 2 ^ 60 :=
  pow_le_pow_right₀ (by norm_num) hS

theorem toScaleNearest_ok (B : Build) {v : ℤ} (h₀ : 0 ≤ v) (h₁ : v < 2 ^ 126) :
    toScaleNearest B v = .ok (nearest B.scale v) := by
  have hS := B.seven_le_scale
  have hhalf : (2 : ℤ) ^ (62 - B.scale - 1) ≤ 2 ^ 54 :=
    pow_le_pow_right₀ (by norm_num) (by omega)
  have hpos : (0 : ℤ) < 2 ^ (62 - B.scale - 1) := by positivity
  have hf : FitsI 128 (1 * 2 ^ (62 - B.scale - 1)) := by
    rw [one_mul]
    exact fitsI_of_nonneg hpos.le (by norm_num; omega)
  have hadd : FitsI 128 (v + 1 * 2 ^ (62 - B.scale - 1)) := by
    rw [one_mul]
    exact fitsI_of_nonneg (by omega) (by norm_num; omega)
  unfold toScaleNearest
  simp only [lnScale]
  rw [Profile.ishl_ok (by omega) hf, ok_bind, Profile.iadd_ok hadd, ok_bind,
    Profile.ishr_ok (by omega), one_mul, nearest]

theorem PowDomain.argVal_nonneg (hS : S ≤ 60) (h : PowDomain S b y) : 0 ≤ argVal S b y :=
  Int.ediv_nonneg (mul_nonneg h.exponent_pos.le (lnVal_nonneg hS h.base_pos h.base_le))
    (by positivity)

/-- The widened product: an exponent up to 99 times a logarithm below 42. -/
theorem PowDomain.product_lt (hS : S ≤ 60) (h : PowDomain S b y) :
    y * lnVal S b < 2 ^ 75 * 2 ^ S := by
  have hln := lnVal_lt hS h.base_pos h.base_le
  have h2 : (0 : ℤ) < 2 ^ S := by positivity
  calc y * lnVal S b ≤ 99 * 2 ^ S * lnVal S b :=
        mul_le_mul_of_nonneg_right h.exponent_le (lnVal_nonneg hS h.base_pos h.base_le)
    _ ≤ 99 * 2 ^ S * (42 * 2 ^ 62) := mul_le_mul_of_nonneg_left hln.le (by positivity)
    _ < 2 ^ 75 * 2 ^ S := by linarith

theorem PowDomain.argVal_lt (hS : S ≤ 60) (h : PowDomain S b y) : argVal S b y < 2 ^ 75 :=
  Int.ediv_lt_of_lt_mul (by positivity) (h.product_lt hS)

/-- The words of the exponent and of the logarithm are their values, and the
widened product fits after the shift. -/
theorem product_ok (B : Build) (h : PowDomain B.scale b y) :
    B.asUnsigned 128 y = .ok y.toNat ∧
      B.asUnsigned 128 (lnVal B.scale b) = .ok (lnVal B.scale b).toNat ∧
      mulShr B.toProfile y.toNat (lnVal B.scale b).toNat B.scale
        = .ok (argVal B.scale b y).toNat := by
  have hS := B.scale_le_sixty
  have hln₀ := lnVal_nonneg hS h.base_pos h.base_le
  have hln₁ := lnVal_lt hS h.base_pos h.base_le
  have hy₀ := h.exponent_pos.le
  have hy₁ : y < 2 ^ 128 := by
    have := h.exponent_le
    have := two_pow_scale_le hS
    norm_num at *
    omega
  have hprod := h.product_lt hS
  refine ⟨Profile.asUnsigned_ok hy₀ hy₁, Profile.asUnsigned_ok hln₀ (by norm_num at *; omega), ?_⟩
  unfold argVal
  generalize lnVal B.scale b = l at *
  obtain ⟨n, rfl⟩ := Int.eq_ofNat_of_zero_le hy₀
  obtain ⟨m, rfl⟩ := Int.eq_ofNat_of_zero_le hln₀
  have hquot : (n : ℤ) * m / 2 ^ B.scale = ((n * m / 2 ^ B.scale : ℕ) : ℤ) := by push_cast; rfl
  rw [hquot, Int.toNat_natCast, Int.toNat_natCast, Int.toNat_natCast]
  have hn : n < 2 ^ 128 := by exact_mod_cast hy₁
  have hm : m < 2 ^ 128 := by norm_num at *; omega
  have hfit : n * m < 2 ^ (128 + B.scale) := by
    have : n * m < 2 ^ 75 * 2 ^ B.scale := by exact_mod_cast hprod
    rw [pow_add]
    exact this.trans (Nat.mul_lt_mul_of_pos_right (by norm_num) (by positivity))
  exact mulShr_ok hn hm (by have := B.seven_le_scale; omega) (by omega) hfit

/-- **Ledger of the exponential's argument.** -/
theorem powArg_ok (B : Build) (h : PowDomain B.scale b y) :
    powArg B ⟨b⟩ ⟨y⟩ = .ok (argVal B.scale b y) := by
  obtain ⟨hy, hl, hprod⟩ := product_ok B h
  have harg₀ := h.argVal_nonneg B.scale_le_sixty
  have harg₁ := h.argVal_lt B.scale_le_sixty
  have hlt : (argVal B.scale b y).toNat < 2 ^ (128 - 1) := by omega
  unfold powArg
  rw [lnInner_ok B h.base_pos h.base_le, ok_bind, hy, ok_bind, hl, ok_bind, hprod, ok_bind,
    Profile.asSigned_ok (by norm_num) hlt, Int.toNat_of_nonneg harg₀]

theorem expInner_argVal_ok (B : Build) (h : PowDomain B.scale b y) :
    expInner B.toProfile (argVal B.scale b y) = .ok (powVal B.scale b y) :=
  expInner_ok (h.argVal_nonneg B.scale_le_sixty)
    ((h.argVal_lt B.scale_le_sixty).trans (by norm_num))

theorem powVal_bounds (S : ℕ) (b y : ℤ) : 0 ≤ powVal S b y ∧ powVal S b y ≤ 2 ^ 62 :=
  expVal_bounds (argVal S b y)

/-- **Ledger of `pow_62`.** -/
theorem pow62_ok (B : Build) (h : PowDomain B.scale b y) (hb : b < 2 ^ B.scale) :
    pow62 B ⟨b⟩ ⟨y⟩ = .ok (powVal B.scale b y) := by
  unfold pow62
  rw [assert_ok ⟨h.base_pos, hb⟩, ok_bind, assert_ok ⟨h.exponent_pos, h.exponent_le⟩, ok_bind,
    powArg_ok B h, ok_bind, expInner_argVal_ok B h]

theorem oneMinusPow62_ok (B : Build) (h : PowDomain B.scale b y) (hb : b < 2 ^ B.scale) :
    oneMinusPow62 B ⟨b⟩ ⟨y⟩ = .ok (max (2 ^ 62 - powVal B.scale b y - 512) 0) := by
  obtain ⟨h₀, h₁⟩ := powVal_bounds B.scale b y
  unfold oneMinusPow62
  rw [pow62_ok B h hb, ok_bind]
  unfold one62 pad62
  rw [Profile.isub_ok (fitsI_128.mpr (by omega)), ok_bind,
    Profile.isub_ok (fitsI_128.mpr (by omega)), ok_bind, pure_eq_ok]

theorem pow62Down_ok (B : Build) (h : PowDomain B.scale b y) (hb : b < 2 ^ B.scale) :
    pow62Down B ⟨b⟩ ⟨y⟩ = .ok (max (powVal B.scale b y - 512) 0) := by
  obtain ⟨h₀, h₁⟩ := powVal_bounds B.scale b y
  unfold pow62Down
  rw [pow62_ok B h hb, ok_bind]
  unfold pad62
  rw [Profile.isub_ok (fitsI_128.mpr (by omega)), ok_bind, pure_eq_ok]

theorem powRaw_ok (B : Build) (h : PowDomain B.scale b y) :
    powRaw B ⟨b⟩ ⟨y⟩ = .ok (powOut B.scale b y) := by
  obtain ⟨h₀, h₁⟩ := powVal_bounds B.scale b y
  unfold powRaw
  rw [assert_ok ⟨h.base_pos, h.base_le⟩, ok_bind, assert_ok ⟨h.exponent_pos, h.exponent_le⟩,
    ok_bind, powArg_ok B h, ok_bind, expInner_argVal_ok B h, ok_bind,
    toScaleNearest_ok B h₀ (by norm_num at *; omega), powOut]

/-- A `powRaw` that returns was called in its domain. -/
theorem powRaw_domain {B : Build} {r : ℤ} (h : powRaw B ⟨b⟩ ⟨y⟩ = .ok r) :
    PowDomain B.scale b y := by
  unfold powRaw at h
  obtain ⟨_, h₁, h⟩ := bind_eq_ok.mp h
  obtain ⟨_, h₂, _⟩ := bind_eq_ok.mp h
  obtain ⟨hb₀, hb₁⟩ := assert_eq_ok.mp h₁
  obtain ⟨hy₀, hy₁⟩ := assert_eq_ok.mp h₂
  exact ⟨hb₀, hb₁, hy₀, hy₁⟩

theorem powOut_bounds (hS : S ≤ 60) (b y : ℤ) :
    0 ≤ powOut S b y ∧ powOut S b y ≤ 2 ^ S :=
  ⟨nearest_nonneg (powVal_bounds S b y).1, nearest_le hS (powVal_bounds S b y).2⟩

theorem pow_ok (B : Build) (h : PowDomain B.scale b y) :
    pow B ⟨b⟩ ⟨y⟩ = .ok ⟨powOut B.scale b y⟩ := by
  unfold pow
  rw [powRaw_ok B h, ok_bind, pure_eq_ok]

theorem powDown_ok (B : Build) (h : PowDomain B.scale b y) :
    powDown B ⟨b⟩ ⟨y⟩ = .ok ⟨max (powOut B.scale b y - 2) 0⟩ := by
  obtain ⟨h₀, h₁⟩ := powOut_bounds B.scale_le_sixty b y
  have hS := two_pow_scale_le B.scale_le_sixty
  unfold powDown
  rw [powRaw_ok B h, ok_bind]
  unfold powPadUlps
  rw [Profile.isub_ok (fitsI_128.mpr (by omega)), ok_bind, pure_eq_ok]

theorem powUp_ok (B : Build) (h : PowDomain B.scale b y) :
    powUp B ⟨b⟩ ⟨y⟩ = .ok ⟨min (powOut B.scale b y + 2) (2 ^ B.scale)⟩ := by
  obtain ⟨h₀, h₁⟩ := powOut_bounds B.scale_le_sixty b y
  have hS := two_pow_scale_le B.scale_le_sixty
  unfold powUp
  rw [powRaw_ok B h, ok_bind]
  unfold powPadUlps
  rw [Profile.iadd_ok (fitsI_128.mpr (by omega)), ok_bind, pure_eq_ok]
  rfl

/-! ### Logarithm and exponential on their own -/

theorem ln_ok (B : Build) {x : ℤ} (h₀ : 0 < x) (h₁ : x ≤ 2 ^ B.scale) :
    ln B ⟨x⟩ = .ok ⟨lnOut B.scale x⟩ := by
  have hln₀ := lnVal_nonneg B.scale_le_sixty h₀ h₁
  have hln₁ := lnVal_lt B.scale_le_sixty h₀ h₁
  have hr₀ : 0 ≤ nearest B.scale (lnVal B.scale x) := nearest_nonneg hln₀
  have hr₁ : nearest B.scale (lnVal B.scale x) < 2 ^ 127 := by
    have hhalf : (2 : ℤ) ^ (62 - B.scale - 1) ≤ 2 ^ 62 :=
      pow_le_pow_right₀ (by norm_num) (by omega)
    refine (Int.ediv_le_self _ (add_nonneg hln₀ (by positivity))).trans_lt ?_
    norm_num at *
    omega
  unfold ln
  rw [assert_ok ⟨h₀, h₁⟩, ok_bind, lnInner_ok B h₀ h₁, ok_bind,
    toScaleNearest_ok B hln₀ (by norm_num at *; omega), ok_bind,
    Profile.ineg_ok (fitsI_128.mpr (by omega)), ok_bind, pure_eq_ok, lnOut]

/-- Above the saturation point the scaled argument is inside the envelope of
`exp_inner`. -/
theorem scaled_negation {x : ℤ} (hS : S ≤ 60) (h : x ≤ 0) (hx : ¬ x ≤ -(64 * 2 ^ S)) :
    0 ≤ -x * 2 ^ (62 - S) ∧ -x * 2 ^ (62 - S) < 2 ^ 68 := by
  have hpos : (0 : ℤ) < 2 ^ (62 - S) := by positivity
  have e : (2 : ℤ) ^ S * 2 ^ (62 - S) = 2 ^ 62 := pow_mul_pow_sub 2 (by omega)
  refine ⟨mul_nonneg (by omega) hpos.le, ?_⟩
  calc -x * 2 ^ (62 - S) < 64 * 2 ^ S * 2 ^ (62 - S) :=
        mul_lt_mul_of_pos_right (by omega) hpos
    _ = 2 ^ 68 := by rw [mul_assoc, e]; norm_num

/-- The part that `exp` and `expm1` share: negate, rescale, exponentiate. -/
theorem exp_scaled_ok (B : Build) {x : ℤ} (h : x ≤ 0) (hx : ¬ x ≤ -(64 * 2 ^ B.scale)) :
    B.ineg 128 x = .ok (-x) ∧
      B.ishl 128 (-x) (lnScale - B.scale) = .ok (-x * 2 ^ (62 - B.scale)) ∧
      expInner B.toProfile (-x * 2 ^ (62 - B.scale)) = .ok (expVal (-x * 2 ^ (62 - B.scale))) := by
  have hS := two_pow_scale_le B.scale_le_sixty
  obtain ⟨h₀, h₁⟩ := scaled_negation B.scale_le_sixty h hx
  refine ⟨Profile.ineg_ok (fitsI_128.mpr (by omega)), ?_, ?_⟩
  · exact Profile.ishl_ok (by simp only [lnScale]; omega)
      (fitsI_of_nonneg h₀ (h₁.trans (by norm_num)))
  · exact expInner_ok h₀ (h₁.trans (by norm_num))

theorem exp_ok (B : Build) {x : ℤ} (h : x ≤ 0) : exp B ⟨x⟩ = .ok ⟨expOut B.scale x⟩ := by
  unfold exp expOut Build.expSaturation
  rw [assert_ok h, ok_bind]
  by_cases hx : x ≤ -(64 * 2 ^ B.scale)
  · rw [if_pos hx, if_pos hx, pure_eq_ok]
  · obtain ⟨hneg, hshl, hexp⟩ := exp_scaled_ok B h hx
    have hv := expVal_bounds (-x * 2 ^ (62 - B.scale))
    rw [if_neg hx, if_neg hx, hneg, ok_bind, hshl, ok_bind, hexp, ok_bind,
      toScaleNearest_ok B hv.1 (by norm_num at *; omega), ok_bind, pure_eq_ok]

theorem expm1_ok (B : Build) {x : ℤ} (h : x ≤ 0) : expm1 B ⟨x⟩ = .ok ⟨expm1Out B.scale x⟩ := by
  have hS := two_pow_scale_le B.scale_le_sixty
  have h2 : (0 : ℤ) < 2 ^ B.scale := by positivity
  unfold expm1 expm1Out Build.expSaturation
  rw [assert_ok h, ok_bind]
  by_cases hx : x ≤ -(64 * 2 ^ B.scale)
  · have hone : FitsI 128 (-B.one.repr) := fitsI_128.mpr (by rw [Build.one_repr]; omega)
    rw [if_pos hx, if_pos hx, Profile.ineg_ok hone, ok_bind, pure_eq_ok, Build.one_repr]
  · obtain ⟨hneg, hshl, hexp⟩ := exp_scaled_ok B h hx
    obtain ⟨hv₀, hv₁⟩ := expVal_bounds (-x * 2 ^ (62 - B.scale))
    have hr₀ := nearest_nonneg (S := B.scale) (sub_nonneg.mpr hv₁)
    have hr₁ := nearest_le B.scale_le_sixty
      (show 2 ^ 62 - expVal (-x * 2 ^ (62 - B.scale)) ≤ 2 ^ 62 by omega)
    rw [if_neg hx, if_neg hx, hneg, ok_bind, hshl, ok_bind, hexp, ok_bind, one62]
    generalize expVal (-x * 2 ^ (62 - B.scale)) = v at *
    rw [Profile.isub_ok (fitsI_128.mpr (by omega)), ok_bind,
      toScaleNearest_ok B (sub_nonneg.mpr hv₁) (by norm_num; omega), ok_bind]
    generalize nearest B.scale (2 ^ 62 - v) = r at *
    rw [Profile.ineg_ok (fitsI_128.mpr (by omega)), ok_bind, pure_eq_ok]

end Ledger

/-! ### The ledger as a whole -/

/-- **The overflow ledger of the pipeline**, at every scale the compile-time
assertions admit and in every profile: the doublings of `ln_inner` and its
result, the widened product, the two correction loops of `exp_inner`, its
remainder and its result. -/
theorem pow_ledger (B : Build) :
    (∀ x, 0 < x → x ≤ 2 ^ B.scale → ∃ m k l, LnRun B x m k l ∧ k ≤ B.scale ∧
      sqrt2Half_62 ≤ m ∧ m < 2 * sqrt2Half_62 ∧ 0 ≤ l ∧ l < 42 * 2 ^ 62 ∧
      ∀ y, 0 < y → y ≤ 99 * 2 ^ B.scale → ∃ n : ℕ,
        mulShr B.toProfile y.toNat l.toNat B.scale = .ok n ∧ n < 2 ^ 76 ∧
        powArg B ⟨x⟩ ⟨y⟩ = .ok n) ∧
    ∀ a, 0 ≤ a → a < 2 ^ 76 → ∃ r₀ r₁ r₂ v, ExpRun B.toProfile a r₀ r₁ r₂ v ∧
      0 ≤ r₂.2 ∧ r₂.2 < ln2_62 ∧ 0 ≤ v ∧ v ≤ 2 ^ 62 := by
  have hS := B.scale_le_sixty
  constructor
  · intro x h₀ h₁
    have hm := mantissa_isMantissa hS h₀ h₁
    refine ⟨mantissa B.scale x, lnShift B.scale x, lnVal B.scale x, lnRun B h₀ h₁, ?_, hm.ge,
      hm.lt, lnVal_nonneg hS h₀ h₁, lnVal_lt hS h₀ h₁, ?_⟩
    · exact_mod_cast lnShift_le hS h₀ h₁
    · -- the argument product
      intro y hy₀ hy₁
      have hdom : PowDomain B.scale x y := ⟨h₀, h₁, hy₀, hy₁⟩
      have harg₀ := hdom.argVal_nonneg hS
      have harg₁ := hdom.argVal_lt hS
      refine ⟨(argVal B.scale x y).toNat, (product_ok B hdom).2.2, by omega, ?_⟩
      rw [Int.toNat_of_nonneg harg₀]
      exact powArg_ok B hdom
  · intro a h₀ h₁
    obtain ⟨r₀, r₁, hrun⟩ := expRun h₀ h₁
    obtain ⟨hs₀, hs₁⟩ := emod_ln2_bounds a
    obtain ⟨hv₀, hv₁⟩ := expVal_bounds a
    exact ⟨r₀, r₁, (expShift a, a % ln2_62), expVal a, hrun B.toProfile, hs₀, hs₁, hv₀, hv₁⟩

/-- The smallest base with the largest exponent, and the top of the envelope. -/
theorem pow_ledger_corners :
    (∃ m k l, LnRun (Build.kernel .wrapping) 1 m k l ∧ k ≤ 52 ∧ 0 ≤ l ∧ l < 42 * 2 ^ 62 ∧
      ∃ n : ℕ, mulShr .wrapping (99 * 2 ^ 52) l.toNat 52 = .ok n ∧ n < 2 ^ 76) ∧
    ∃ r₀ r₁ r₂ v, ExpRun .wrapping (2 ^ 76 - 1) r₀ r₁ r₂ v ∧
      0 ≤ r₂.2 ∧ r₂.2 < ln2_62 ∧ 0 ≤ v ∧ v ≤ 2 ^ 62 := by
  obtain ⟨hln, hexp⟩ := pow_ledger (Build.kernel .wrapping)
  refine ⟨?_, hexp (2 ^ 76 - 1) (by norm_num) (by norm_num)⟩
  obtain ⟨m, k, l, hrun, hk, -, -, hl₀, hl₁, hprod⟩ := hln 1 one_pos (by norm_num)
  obtain ⟨n, hn, hlt, -⟩ := hprod (99 * 2 ^ 52) (by norm_num) (by norm_num)
  exact ⟨m, k, l, hrun, hk, hl₀, hl₁, n, hn, hlt⟩

end WeightedMath
