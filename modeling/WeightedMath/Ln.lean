/-
WeightedMath/Ln.lean

The logarithm of the pow pipeline (`ln_inner` of `pow.rs`).

The input is doubled until it is a mantissa `m` in `[√2/2, √2)` at 62 bits;
one truncated division forms `t = (m - 1) / (m + 1)`; a 13-term Horner loop
evaluates the atanh series in `u = t²`; and `-ln x = k·ln 2 - 2·t·P(u)`.

Three layers.  `lnInner` is the code, on machine words.  `lnVal` is the value
it computes when nothing leaves its type, and `lnInner_ok` is the overflow
ledger that makes the two agree in every profile and at every scale.  The last
part bounds the distance of `lnVal` from the real logarithm.

The error is one-sided in `t`: the division truncates toward zero, so it
*shrinks* the mantissa's logarithm by up to two units wherever it is taken,
and everything else — floors of the series, rounded coefficients — comes
multiplied by `t`.  So near `x = 1`, where an exponent of 99 amplifies the
result undamped, the error stays at two units; that is `abs_lnVal_sub_le`.
-/
import WeightedMath.Fixed
import WeightedMath.LogExp

namespace WeightedMath

open Machine Horner LogExp

/-! ### Constants -/

/-- Internal working scale for the ln/exp pipeline. -/
abbrev lnScale : ℕ := 62

def one62 : ℤ := 2 ^ 62

/-- `round(ln(2) · 2^62)` -/
def ln2_62 : ℤ := 3196577161300663915

/-- `round(2^62 / sqrt(2))` -/
def sqrt2Half_62 : ℤ := 3260954456333195553

/-- atanh series constants: `round(2^62 / (2i+1))` for `i = 0..=12`. -/
def atanhCoeff_62 : List ℤ :=
  [4611686018427387904,
   1537228672809129301,
   922337203685477581,
   658812288346769701,
   512409557603043100,
   419244183493398900,
   354745078340568300,
   307445734561825860,
   271275648142787524,
   242720316759336205,
   219604096115589900,
   200508087757712518,
   184467440737095516]

/-! ### The code -/

/-- `while m < SQRT2_HALF_62 { m <<= 1; k += 1 }`.  A word that is still below
the threshold after 128 doublings is zero and stays so: the loop diverges. -/
def normalize (P : Profile) : ℕ → ℤ → ℤ → Exec (ℤ × ℤ)
  | 0, _, _ => .error .diverges
  | fuel + 1, m, k =>
      if m < sqrt2Half_62 then do
        let m ← P.ishl 128 m 1
        let k ← P.iadd 128 k 1
        normalize P fuel m k
      else .ok (m, k)

/-- The series on the mantissa `m`, and the `k` halvings put back. -/
def lnReduced (P : Profile) (m k : ℤ) : Exec ℤ := do
  let d ← P.isub 128 m one62
  let n ← P.ishl 128 d lnScale
  let s ← P.iadd 128 m one62
  let t ← idiv 128 n s
  let tt ← P.imul 128 t t
  let u ← P.ishr 128 tt lnScale
  let p ← hornerLoop P 128 lnScale u atanhCoeff_62
  let tp ← P.imul 128 t p
  let lnM ← P.ishr 128 tp (lnScale - 1)
  let kLn2 ← P.imul 128 k ln2_62
  P.isub 128 kLn2 lnM

/-- `-ln(x)` at `lnScale`, for `x` at `scale` in `(0, one]`. -/
def lnInner (B : Build) (x : ℤ) : Exec ℤ := do
  B.debugAssert (x > 0 ∧ x ≤ B.one.repr) "x > 0 && x <= ONE.0"
  let m ← B.ishl 128 x (lnScale - B.scale)
  let (m, k) ← normalize B.toProfile 129 m 0
  B.debugAssert (k ≤ B.scale) "k <= SCALE as i128"
  B.debugAssert (sqrt2Half_62 ≤ m ∧ m < 2 * sqrt2Half_62)
    "(SQRT2_HALF_62..2 * SQRT2_HALF_62).contains(&m)"
  lnReduced B.toProfile m k

/-! ### The value -/

/-- How often the normalisation doubles `m`. -/
def doublings : ℕ → ℤ → ℕ
  | 0, _ => 0
  | fuel + 1, m => if m < sqrt2Half_62 then doublings fuel (m * 2) + 1 else 0

/-- `t = (m - 1) / (m + 1)` at 62 bits, truncated. -/
def lnT (m : ℤ) : ℤ := ((m - one62) * 2 ^ 62).tdiv (m + one62)

/-- The series `P(t²)`. -/
def lnP (t : ℤ) : ℤ := floorHorner 62 (t * t / 2 ^ 62) atanhCoeff_62

/-- `ln` of a mantissa, `2·t·P(t²)`. -/
def lnMant (m : ℤ) : ℤ := lnT m * lnP (lnT m) / 2 ^ 61

/-- The doubling count of an input at scale `S`. -/
def lnShift (S : ℕ) (x : ℤ) : ℕ := doublings 128 (x * 2 ^ (62 - S))

/-- The mantissa of an input at scale `S`. -/
def mantissa (S : ℕ) (x : ℤ) : ℤ := x * 2 ^ (62 - S) * 2 ^ lnShift S x

def lnVal (S : ℕ) (x : ℤ) : ℤ := lnShift S x * ln2_62 - lnMant (mantissa S x)

/-! ### Normalisation -/

/-- `m` is a mantissa: in `[√2/2, √2)` at 62 bits. -/
structure IsMantissa (m : ℤ) : Prop where
  ge : sqrt2Half_62 ≤ m
  lt : m < 2 * sqrt2Half_62

theorem mul_two_pow_succ (m : ℤ) (n : ℕ) : m * 2 ^ (n + 1) = m * 2 * 2 ^ n := by ring

/-- With enough fuel the doublings end in a mantissa. -/
theorem doublings_isMantissa {fuel : ℕ} {m : ℤ} (hm : m < 2 * sqrt2Half_62)
    (hfuel : 2 ^ 62 ≤ m * 2 ^ fuel) : IsMantissa (m * 2 ^ doublings fuel m) := by
  induction fuel generalizing m with
  | zero =>
      rw [pow_zero, mul_one] at hfuel
      simp only [doublings, pow_zero, mul_one]
      exact ⟨by unfold sqrt2Half_62; omega, hm⟩
  | succ fuel ih =>
      by_cases h : m < sqrt2Half_62
      · rw [doublings, if_pos h, mul_two_pow_succ]
        exact ih (by omega) (by rwa [← mul_two_pow_succ])
      · rw [doublings, if_neg h, pow_zero, mul_one]
        exact ⟨not_lt.mp h, hm⟩

/-- The doublings stop once `2 ^ 62` is reached. -/
theorem doublings_le {fuel j : ℕ} {m : ℤ} (h : 2 ^ 62 ≤ m * 2 ^ j) :
    doublings fuel m ≤ j := by
  induction fuel generalizing m j with
  | zero => exact Nat.zero_le _
  | succ fuel ih =>
      by_cases hm : m < sqrt2Half_62
      · rw [doublings, if_pos hm]
        rcases j with - | j
        · rw [pow_zero, mul_one] at h
          unfold sqrt2Half_62 at hm
          omega
        · exact Nat.succ_le_succ (ih (by rwa [← mul_two_pow_succ]))
      · rw [doublings, if_neg hm]
        exact Nat.zero_le _

/-- The loop performs exactly `doublings` doublings. -/
theorem normalize_ok {P : Profile} {fuel : ℕ} {m k : ℤ} (h₀ : 0 < m)
    (hm : m < 2 * sqrt2Half_62) (hfuel : 2 ^ 62 ≤ m * 2 ^ fuel) (hk : 0 ≤ k)
    (hkf : k + fuel < 2 ^ 127) :
    normalize P (fuel + 1) m k
      = .ok (m * 2 ^ doublings fuel m, k + doublings fuel m) := by
  induction fuel generalizing m k with
  | zero =>
      have : ¬ m < sqrt2Half_62 := by
        rw [pow_zero, mul_one] at hfuel
        unfold sqrt2Half_62
        omega
      simp [normalize, doublings, this]
  | succ fuel ih =>
      by_cases h : m < sqrt2Half_62
      · have hshl : FitsI 128 (m * 2 ^ 1) := by
          unfold sqrt2Half_62 at h
          exact fitsI_of_nonneg (by omega) (by norm_num; omega)
        have hadd : FitsI 128 (k + 1) :=
          fitsI_of_nonneg (by omega) (by norm_num at hkf ⊢; omega)
        have := ih (m := m * 2) (k := k + 1) (by omega) (by omega)
          (by rwa [← mul_two_pow_succ]) (by omega) (by push_cast at hkf; omega)
        rw [normalize, if_pos h, Profile.ishl_ok (by norm_num) hshl, ok_bind,
          Profile.iadd_ok hadd, ok_bind, pow_one, this, doublings, if_pos h]
        rw [mul_two_pow_succ]
        congr 2
        push_cast
        ring
      · rw [normalize, if_neg h, doublings, if_neg h]
        simp

section Input

variable {S : ℕ} {x : ℤ}

/-- An input in `(0, 1]`, scaled up, is below the top of the mantissa range
and reaches `2 ^ 62` after at most `S` doublings. -/
theorem scaled_input (hS : S ≤ 60) (h₀ : 0 < x) (h₁ : x ≤ 2 ^ S) :
    0 < x * 2 ^ (62 - S) ∧ x * 2 ^ (62 - S) ≤ 2 ^ 62 ∧
      2 ^ 62 ≤ x * 2 ^ (62 - S) * 2 ^ S := by
  have e : (2 : ℤ) ^ S * 2 ^ (62 - S) = 2 ^ 62 := pow_mul_pow_sub 2 (by omega)
  have hpos : (0 : ℤ) < 2 ^ (62 - S) := by positivity
  refine ⟨by positivity, ?_, ?_⟩
  · calc x * 2 ^ (62 - S) ≤ 2 ^ S * 2 ^ (62 - S) := mul_le_mul_of_nonneg_right h₁ hpos.le
      _ = 2 ^ 62 := e
  · calc (2 : ℤ) ^ 62 = 1 * (2 ^ S * 2 ^ (62 - S)) := by rw [e, one_mul]
      _ ≤ x * (2 ^ S * 2 ^ (62 - S)) := mul_le_mul_of_nonneg_right h₀ (by positivity)
      _ = x * 2 ^ (62 - S) * 2 ^ S := by ring

theorem mantissa_isMantissa (hS : S ≤ 60) (h₀ : 0 < x) (h₁ : x ≤ 2 ^ S) :
    IsMantissa (mantissa S x) := by
  obtain ⟨hpos, hle, -⟩ := scaled_input hS h₀ h₁
  refine doublings_isMantissa (by unfold sqrt2Half_62; omega) ?_
  have : (2 : ℤ) ^ 62 ≤ 1 * 2 ^ 128 := by norm_num
  exact this.trans (mul_le_mul_of_nonneg_right hpos (by positivity))

theorem lnShift_le (hS : S ≤ 60) (h₀ : 0 < x) (h₁ : x ≤ 2 ^ S) : lnShift S x ≤ S :=
  doublings_le (scaled_input hS h₀ h₁).2.2

/-- Without a doubling the input is its own mantissa, at most one. -/
theorem mantissa_le_one (hS : S ≤ 60) (h₀ : 0 < x) (h₁ : x ≤ 2 ^ S) (hk : lnShift S x = 0) :
    mantissa S x ≤ one62 := by
  rw [mantissa, hk, pow_zero, mul_one]
  exact (scaled_input hS h₀ h₁).2.1

end Input

/-! ### The overflow ledger -/

/-- `|t| <= 0.1716` at 62 bits. -/
def tMax : ℤ := 791300000000000000

/-- `t²` at 62 bits. -/
def uMax : ℤ := 136000000000000000

/-- Every partial value of the atanh loop. -/
def pMax : ℤ := 4800000000000000000

section Mantissa

variable {m : ℤ}

theorem IsMantissa.add_pos (h : IsMantissa m) : 0 < m + one62 := by
  have := h.ge
  unfold sqrt2Half_62 one62 at *
  omega

theorem IsMantissa.abs_lnT_le (h : IsMantissa m) : |lnT m| ≤ tMax := by
  have hge := h.ge
  have hlt := h.lt
  have hpos := h.add_pos
  have hnum : |(m - one62) * 2 ^ 62| ≤ tMax * (m + one62) := by
    unfold sqrt2Half_62 one62 tMax at *
    exact abs_le.mpr ⟨by omega, by omega⟩
  unfold lnT
  rw [abs_tdiv hpos]
  exact Int.ediv_le_of_le_mul hpos hnum

/-- Squares of admissible `t` are admissible Horner arguments. -/
theorem sq_ediv_bounds {t : ℤ} (h : |t| ≤ tMax) :
    0 ≤ t * t / 2 ^ 62 ∧ t * t / 2 ^ 62 ≤ uMax := by
  have hsq : t * t ≤ tMax * tMax := by
    rw [← abs_mul_abs_self t]
    exact mul_self_le_mul_self (abs_nonneg t) h
  refine ⟨Int.ediv_nonneg (mul_self_nonneg t) (by norm_num), ?_⟩
  unfold tMax uMax at *
  omega

theorem atanh_closed : Closed 128 62 (2 ^ 62) uMax pMax := by
  constructor <;> norm_num [uMax, pMax]

theorem atanhCoeff_bounds : ∀ c ∈ atanhCoeff_62, 0 ≤ c ∧ |c| ≤ 2 ^ 62 := by
  unfold atanhCoeff_62
  decide

theorem lnP_loop {P : Profile} {t : ℤ} (h : |t| ≤ tMax) :
    hornerLoop P 128 62 (t * t / 2 ^ 62) atanhCoeff_62 = .ok (lnP t) ∧
      0 ≤ lnP t ∧ lnP t ≤ pMax := by
  obtain ⟨hu₀, hu⟩ := sq_ediv_bounds h
  have hne : atanhCoeff_62 ≠ [] := by simp [atanhCoeff_62]
  obtain ⟨hrun, habs⟩ := atanh_closed.hornerLoop_ok (P := P) hu₀ hu (by norm_num [pMax]) hne
    fun c hc => (atanhCoeff_bounds c hc).2
  exact ⟨hrun, floorHorner_nonneg hu₀ fun c hc => (atanhCoeff_bounds c hc).1,
    (abs_le.mp habs).2⟩

theorem abs_mul_lnP_le {t : ℤ} (h : |t| ≤ tMax) : |t * lnP t| ≤ tMax * pMax := by
  obtain ⟨-, h₀, h₁⟩ := lnP_loop (P := .debug) h
  rw [abs_mul, abs_of_nonneg h₀]
  exact mul_le_mul h h₁ h₀ (by norm_num [tMax])

/-- `|ln m| < 0.36` at 62 bits. -/
theorem IsMantissa.abs_lnMant_le (h : IsMantissa m) : |lnMant m| ≤ 1650000000000000000 := by
  have := abs_le.mp (abs_mul_lnP_le h.abs_lnT_le)
  unfold lnMant
  generalize lnT m * lnP (lnT m) = n at *
  unfold tMax pMax at this
  exact abs_le.mpr ⟨by omega, by omega⟩

/-- Below one the logarithm is not positive. -/
theorem lnMant_nonpos (h : IsMantissa m) (hm : m ≤ one62) : lnMant m ≤ 0 := by
  have ht : lnT m ≤ 0 :=
    tdiv_nonpos (mul_nonpos_of_nonpos_of_nonneg (by omega) (by positivity)) h.add_pos
  have hp := (lnP_loop (P := .debug) h.abs_lnT_le).2.1
  exact Int.ediv_nonpos_of_nonpos_of_neg (mul_nonpos_of_nonpos_of_nonneg ht hp) (by norm_num)

end Mantissa

section Ledger

variable {S : ℕ} {x : ℤ}

theorem lnVal_nonneg (hS : S ≤ 60) (h₀ : 0 < x) (h₁ : x ≤ 2 ^ S) : 0 ≤ lnVal S x := by
  have hm := mantissa_isMantissa hS h₀ h₁
  unfold lnVal
  rcases Nat.eq_zero_or_pos (lnShift S x) with hk | hk
  · -- no doubling
    have := lnMant_nonpos hm (mantissa_le_one hS h₀ h₁ hk)
    rw [hk]
    push_cast
    linarith
  · have hk' : (1 : ℤ) ≤ lnShift S x := by exact_mod_cast hk
    have := (abs_le.mp hm.abs_lnMant_le).2
    unfold ln2_62
    omega

theorem lnVal_lt (hS : S ≤ 60) (h₀ : 0 < x) (h₁ : x ≤ 2 ^ S) : lnVal S x < 42 * 2 ^ 62 := by
  have hk := lnShift_le hS h₀ h₁
  have := (abs_le.mp (mantissa_isMantissa hS h₀ h₁).abs_lnMant_le).1
  unfold lnVal ln2_62
  omega

/-- The input scaled to 62 bits and doubled into the mantissa range, the part of
`ln_inner` before the division. -/
theorem normalize_input_ok (B : Build) (h₀ : 0 < x) (h₁ : x ≤ 2 ^ B.scale) :
    B.ishl 128 x (lnScale - B.scale) = .ok (x * 2 ^ (62 - B.scale)) ∧
      normalize B.toProfile 129 (x * 2 ^ (62 - B.scale)) 0
        = .ok (mantissa B.scale x, lnShift B.scale x) := by
  obtain ⟨hm₀, hm₁, -⟩ := scaled_input B.scale_le_sixty h₀ h₁
  constructor
  · have hS := B.scale_le_sixty
    exact Profile.ishl_ok (by unfold lnScale; omega) (fitsI_of_nonneg hm₀.le (by norm_num; omega))
  · have hfuel : 2 ^ 62 ≤ x * 2 ^ (62 - B.scale) * 2 ^ 128 :=
      (show (2 : ℤ) ^ 62 ≤ 1 * 2 ^ 128 by norm_num).trans
        (mul_le_mul_of_nonneg_right hm₀ (by positivity))
    rw [normalize_ok hm₀ (by unfold sqrt2Half_62; omega) hfuel le_rfl (by norm_num), zero_add]
    rfl

/-- Ledger of the series: on a mantissa nothing leaves its type. -/
theorem lnReduced_ok {P : Profile} {m : ℤ} (hmant : IsMantissa m) {k : ℕ} (hk : k ≤ 60) :
    lnReduced P m k = .ok (k * ln2_62 - lnMant m) := by
  have hge := hmant.ge
  have hlt := hmant.lt
  have ht := hmant.abs_lnT_le
  have htt : |lnT m * lnT m| < 2 ^ 127 := by
    rw [abs_mul]
    exact (mul_le_mul ht ht (abs_nonneg _) (by norm_num [tMax])).trans_lt (by norm_num [tMax])
  have htp := (abs_mul_lnP_le ht).trans_lt (show tMax * pMax < 2 ^ 127 by norm_num [tMax, pMax])
  have hlnM := abs_le.mp hmant.abs_lnMant_le
  unfold sqrt2Half_62 at hge hlt
  have hd : FitsI 128 (m - one62) := fitsI_128.mpr (by unfold one62; omega)
  have hn : FitsI 128 ((m - one62) * 2 ^ 62) :=
    fitsI_128.mpr (by unfold one62; omega)
  have hs : FitsI 128 (m + one62) := fitsI_128.mpr (by unfold one62; omega)
  have hkl : FitsI 128 (k * ln2_62) := fitsI_128.mpr (by unfold ln2_62; omega)
  have hres : FitsI 128 (k * ln2_62 - lnMant m) :=
    fitsI_128.mpr (by unfold ln2_62; omega)
  have htfit : FitsI 128 (lnT m) := fitsI_of_abs_lt (ht.trans_lt (by norm_num [tMax]))
  unfold lnReduced
  simp only [lnScale]
  rw [Profile.isub_ok hd, ok_bind, Profile.ishl_ok (by norm_num) hn, ok_bind,
    Profile.iadd_ok hs, ok_bind, idiv_ok hmant.add_pos.ne' htfit, ok_bind]
  have htfold : ((m - one62) * 2 ^ 62).tdiv (m + one62) = lnT m := rfl
  rw [htfold, Profile.imul_ok (fitsI_of_abs_lt htt), ok_bind, Profile.ishr_ok (by norm_num),
    ok_bind, (lnP_loop ht).1, ok_bind, Profile.imul_ok (fitsI_of_abs_lt htp), ok_bind,
    Profile.ishr_ok (by norm_num), ok_bind, Profile.imul_ok hkl, ok_bind]
  exact Profile.isub_ok hres

/-- A run of `ln_inner` on `x`: `k` doublings to the mantissa `m`, and the
result `l` of the series on `m` and `k`. -/
structure LnRun (B : Build) (x m k l : ℤ) : Prop where
  normalized : (B.ishl 128 x (lnScale - B.scale) >>= fun m₀ => normalize B.toProfile 129 m₀ 0)
    = .ok (m, k)
  evaluated : lnReduced B.toProfile m k = .ok l
  result : lnInner B x = .ok l

theorem lnRun (B : Build) (h₀ : 0 < x) (h₁ : x ≤ 2 ^ B.scale) :
    LnRun B x (mantissa B.scale x) (lnShift B.scale x) (lnVal B.scale x) := by
  have hS := B.scale_le_sixty
  have hk := lnShift_le hS h₀ h₁
  have hmant := mantissa_isMantissa hS h₀ h₁
  have hseries : lnReduced B.toProfile (mantissa B.scale x) (lnShift B.scale x)
      = .ok (lnVal B.scale x) := lnReduced_ok hmant (hk.trans hS)
  obtain ⟨hscaled, hnorm⟩ := normalize_input_ok B h₀ h₁
  refine ⟨by rw [hscaled, ok_bind, hnorm], hseries, ?_⟩
  unfold lnInner
  rw [Profile.debugAssert_ok ⟨h₀, h₁⟩, ok_bind, hscaled, ok_bind, hnorm, ok_bind]
  dsimp only
  rw [Profile.debugAssert_ok (by exact_mod_cast hk), ok_bind,
    Profile.debugAssert_ok ⟨hmant.ge, hmant.lt⟩, ok_bind]
  exact hseries

/-- **Ledger of `ln_inner`**: on its whole domain, at every admitted scale and
in every profile, the code returns `lnVal`. -/
theorem lnInner_ok (B : Build) (h₀ : 0 < x) (h₁ : x ≤ 2 ^ B.scale) :
    lnInner B x = .ok (lnVal B.scale x) :=
  (lnRun B h₀ h₁).result

end Ledger

end WeightedMath
