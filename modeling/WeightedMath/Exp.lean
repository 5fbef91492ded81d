/-
WeightedMath/Exp.lean

The exponential of the pow pipeline (`exp_inner` of `pow.rs`).

`exp(-a)` for `a ≥ 0` at 62 bits: the argument is reduced to `a = k·ln 2 + s`
with one multiplication by a 31-bit reciprocal of `ln 2` and a correction loop
on either side, a 20-term alternating Horner loop evaluates `exp(-s)`, and the
result is shifted down by `k`; `k > 62` is below the grid and returns 0.

The estimate of `k` is off by at most one (`estimate_bounds`), so each
correction loop turns at most once and what they leave is exactly the quotient
and the remainder of `a` by `ln 2`.  `expVal` is therefore written with `/` and
`%`, and `expInner_ok` is the ledger that equates the two below `2 ^ 76`.
-/
import WeightedMath.Ln

namespace WeightedMath

open Machine Horner

/-! ### Constants -/

/-- `round(2^30 / ln(2))` -/
def invLn2_30 : ℕ := 1549082005

/-- exp Taylor constants: `(-1)^i · round(2^62 / i!)` for `i = 0..=19`. -/
def expCoeff_62 : List ℤ :=
  [4611686018427387904,
   -4611686018427387904,
   2305843009213693952,
   -768614336404564651,
   192153584101141163,
   -38430716820228233,
   6405119470038039,
   -915017067148291,
   114377133393536,
   -12708570377060,
   1270857037706,
   -115532457973,
   9627704831,
   -740592679,
   52899477,
   -3526632,
   220414,
   -12966,
   720,
   -38]

/-! ### The code -/

/-- `while s < 0 { k -= 1; s += LN2_62 }` -/
def raise (P : Profile) : ℕ → ℤ → ℤ → Exec (ℤ × ℤ)
  | 0, _, _ => .error .diverges
  | fuel + 1, k, s =>
      if s < 0 then do
        let k ← P.isub 128 k 1
        let s ← P.iadd 128 s ln2_62
        raise P fuel k s
      else .ok (k, s)

/-- `while s >= LN2_62 { k += 1; s -= LN2_62 }` -/
def lower (P : Profile) : ℕ → ℤ → ℤ → Exec (ℤ × ℤ)
  | 0, _, _ => .error .diverges
  | fuel + 1, k, s =>
      if s ≥ ln2_62 then do
        let k ← P.iadd 128 k 1
        let s ← P.isub 128 s ln2_62
        lower P fuel k s
      else .ok (k, s)

/-- More turns than a correction loop can take from `s`. -/
def turns (s : ℤ) : ℕ := s.natAbs / 3196577161300663915 + 2

/-- The quotient by `LN2_62`, estimated through its reciprocal, and what it leaves
of the argument. -/
def estimate (P : Profile) (negArg : ℤ) : Exec (ℤ × ℤ) := do
  let n ← P.asUnsigned 128 negArg
  let q ← P.umul 128 n invLn2_30
  let e ← P.ushr 128 q (30 + lnScale)
  let k ← P.asSigned 128 e
  let kLn2 ← P.imul 128 k ln2_62
  let s ← P.isub 128 negArg kLn2
  return (k, s)

/-- The series on the reduced argument, shifted down by `k`. -/
def expReduced (P : Profile) (k s : ℤ) : Exec ℤ := do
  if k > lnScale then return 0
  let acc ← hornerLoop P 128 lnScale s expCoeff_62
  P.ishrBy 128 acc k

/-- `exp(-neg_arg)` at `lnScale`, for `neg_arg >= 0` at `lnScale`. -/
def expInner (P : Profile) (negArg : ℤ) : Exec ℤ := do
  P.debugAssert (0 ≤ negArg ∧ negArg < 2 ^ 76) "(0..1i128 << 76).contains(&neg_arg)"
  let (k, s) ← estimate P negArg
  let (k, s) ← raise P (turns s) k s
  let (k, s) ← lower P (turns s) k s
  expReduced P k s

/-! ### The value -/

/-- The number of halvings. -/
def expShift (a : ℤ) : ℤ := a / ln2_62

/-- `exp(-s)` on the remainder `s`. -/
def expRem (s : ℤ) : ℤ := floorHorner 62 s expCoeff_62

def expVal (a : ℤ) : ℤ :=
  if expShift a > lnScale then 0 else expRem (a % ln2_62) / 2 ^ (expShift a).toNat

/-! ### Range reduction -/

theorem ln2_62_pos : 0 < ln2_62 := by norm_num [ln2_62]

theorem emod_ln2_bounds (a : ℤ) : 0 ≤ a % ln2_62 ∧ a % ln2_62 < ln2_62 :=
  ⟨Int.emod_nonneg a ln2_62_pos.ne', Int.emod_lt_of_pos a ln2_62_pos⟩

/-- The reciprocal misestimates the quotient by less than one either way. -/
theorem estimate_bounds {a : ℤ} (h₀ : 0 ≤ a) (h₁ : a < 2 ^ 76) :
    -ln2_62 ≤ a - a * invLn2_30 / 2 ^ 92 * ln2_62 ∧
      a - a * invLn2_30 / 2 ^ 92 * ln2_62 < 2 * ln2_62 := by
  unfold invLn2_30 ln2_62
  constructor <;> push_cast <;> omega

/-- From just below the range the first loop turns once. -/
theorem raise_ok {P : Profile} {fuel : ℕ} {k s : ℤ} (hk : |k| < 2 ^ 126) (hs : -ln2_62 ≤ s)
    (hs' : s < 2 * ln2_62) :
    raise P (fuel + 2) k s = .ok (if s < 0 then (k - 1, s + ln2_62) else (k, s)) := by
  have hk' := abs_lt.mp hk
  rw [raise]
  split_ifs with h
  · have h₁ : FitsI 128 (k - 1) := fitsI_128.mpr (by omega)
    have h₂ : FitsI 128 (s + ln2_62) := by
      unfold ln2_62 at *
      exact fitsI_128.mpr (by omega)
    rw [Profile.isub_ok h₁, ok_bind, Profile.iadd_ok h₂, ok_bind, raise,
      if_neg (show ¬ s + ln2_62 < 0 by omega)]
  · rfl

/-- From just above the range the second loop turns once. -/
theorem lower_ok {P : Profile} {fuel : ℕ} {k s : ℤ} (hk : |k| < 2 ^ 126) (hs : 0 ≤ s)
    (hs' : s < 2 * ln2_62) :
    lower P (fuel + 2) k s = .ok (if s ≥ ln2_62 then (k + 1, s - ln2_62) else (k, s)) := by
  have hk' := abs_lt.mp hk
  rw [lower]
  split_ifs with h
  · have h₁ : FitsI 128 (k + 1) := fitsI_128.mpr (by omega)
    have h₂ : FitsI 128 (s - ln2_62) := by
      unfold ln2_62 at *
      exact fitsI_128.mpr (by omega)
    rw [Profile.iadd_ok h₁, ok_bind, Profile.isub_ok h₂, ok_bind, lower,
      if_neg (show ¬ s - ln2_62 ≥ ln2_62 by omega)]
  · rfl

/-- A remainder in range determines quotient and remainder. -/
theorem reduced_unique {a k s : ℤ} (h : a = k * ln2_62 + s) (h₀ : 0 ≤ s) (h₁ : s < ln2_62) :
    k = expShift a ∧ s = a % ln2_62 := by
  have := (Int.ediv_emod_unique (a := a) (r := s) (q := k) ln2_62_pos).mpr
    ⟨by rw [h]; ring, h₀, h₁⟩
  exact ⟨this.1.symm, this.2.symm⟩

/-- **The two loops together** turn an estimated `(k, s)` into the quotient and
the remainder, with one turn of each loop at most: fuel two is enough. -/
theorem reduce_ok {a k s : ℤ} (hk : |k| < 2 ^ 125) (ha : a = k * ln2_62 + s)
    (hs : -ln2_62 ≤ s) (hs' : s < 2 * ln2_62) :
    ∃ r : ℤ × ℤ, (∀ P fuel, raise P (fuel + 2) k s = .ok r) ∧
      ∀ P fuel, lower P (fuel + 2) r.1 r.2 = .ok (expShift a, a % ln2_62) := by
  have hk' := abs_lt.mp hk
  have hln := ln2_62_pos
  refine ⟨_, fun P fuel => raise_ok (hk.trans (by norm_num)) hs hs', ?_⟩
  intro P fuel
  split_ifs with h
  · have hk₁ : |k - 1| < 2 ^ 126 := abs_lt.mpr ⟨by norm_num; omega, by norm_num; omega⟩
    rw [lower_ok hk₁ (by omega) (by omega), if_neg (by omega)]
    obtain ⟨h₁, h₂⟩ := reduced_unique (a := a) (k := k - 1) (s := s + ln2_62)
      (by rw [ha]; ring) (by omega) (by omega)
    rw [← h₁, ← h₂]
  · rw [lower_ok (hk.trans (by norm_num)) (by omega) hs']
    split_ifs with h'
    · obtain ⟨h₁, h₂⟩ := reduced_unique (a := a) (k := k + 1) (s := s - ln2_62)
        (by rw [ha]; ring) (by omega) (by omega)
      rw [← h₁, ← h₂]
    · obtain ⟨h₁, h₂⟩ := reduced_unique ha (by omega) (by omega)
      rw [← h₁, ← h₂]

/-! ### The overflow ledger -/

theorem exp_closed : Closed 128 62 (2 ^ 62) ln2_62 (2 ^ 64) := by
  constructor <;> norm_num [ln2_62]

theorem expCoeff_bounds : ∀ c ∈ expCoeff_62, |c| ≤ 2 ^ 62 := by
  unfold expCoeff_62
  decide

theorem expRem_loop {P : Profile} {s : ℤ} (h₀ : 0 ≤ s) (h₁ : s < ln2_62) :
    hornerLoop P 128 62 s expCoeff_62 = .ok (expRem s) ∧ |expRem s| ≤ 2 ^ 64 := by
  have hne : expCoeff_62 ≠ [] := by simp [expCoeff_62]
  exact exp_closed.hornerLoop_ok h₀ h₁.le (by norm_num) hne expCoeff_bounds

/-- Ledger of the estimate: the unsigned product, the quotient's product with
`LN2_62` and the difference stay in their types. -/
theorem estimate_ok {P : Profile} {a : ℤ} (h₀ : 0 ≤ a) (h₁ : a < 2 ^ 76) :
    estimate P a
      = .ok (a * invLn2_30 / 2 ^ 92, a - a * invLn2_30 / 2 ^ 92 * ln2_62) := by
  obtain ⟨n, rfl⟩ := Int.eq_ofNat_of_zero_le h₀
  have hn : n < 2 ^ 76 := by exact_mod_cast h₁
  obtain ⟨he₁, he₂⟩ := estimate_bounds h₀ h₁
  have hmul : n * invLn2_30 < 2 ^ 128 := by unfold invLn2_30; omega
  have hest : ((n * invLn2_30 / 2 ^ 92 : ℕ) : ℤ) = (n : ℤ) * invLn2_30 / 2 ^ 92 := by
    push_cast; rfl
  have hcast : n * invLn2_30 / 2 ^ 92 < 2 ^ (128 - 1) := by unfold invLn2_30; omega
  unfold estimate
  simp only [lnScale]
  rw [Profile.asUnsigned_ok h₀ (by omega), ok_bind, Int.toNat_natCast, Profile.umul_ok hmul,
    ok_bind, Profile.ushr_ok (by norm_num), ok_bind, Nat.shiftRight_eq_div_pow,
    Profile.asSigned_ok (by norm_num) hcast, ok_bind, hest]
  generalize (n : ℤ) * invLn2_30 / 2 ^ 92 = e at *
  have hkl : FitsI 128 (e * ln2_62) := by
    unfold ln2_62 at *
    exact fitsI_128.mpr (by omega)
  have hsub : FitsI 128 (n - e * ln2_62) := by
    unfold ln2_62 at *
    exact fitsI_128.mpr (by omega)
  rw [Profile.imul_ok hkl, ok_bind, Profile.isub_ok hsub, ok_bind, pure_eq_ok]

/-- **Range reduction** below `2 ^ 76`: the estimate, and what each loop makes of
it with fuel for one turn. -/
theorem reduction_ok {a : ℤ} (h₀ : 0 ≤ a) (h₁ : a < 2 ^ 76) :
    ∃ r₀ r₁ : ℤ × ℤ, (∀ P, estimate P a = .ok r₀) ∧
      (∀ P fuel, raise P (fuel + 2) r₀.1 r₀.2 = .ok r₁) ∧
      ∀ P fuel, lower P (fuel + 2) r₁.1 r₁.2 = .ok (expShift a, a % ln2_62) := by
  obtain ⟨he₁, he₂⟩ := estimate_bounds h₀ h₁
  have hk : |a * invLn2_30 / 2 ^ 92| < 2 ^ 125 := by
    rw [abs_of_nonneg (by unfold invLn2_30; positivity)]
    unfold invLn2_30
    norm_num
    omega
  obtain ⟨r₁, hraise, hlower⟩ := reduce_ok hk (add_sub_cancel _ a).symm he₁ he₂
  exact ⟨_, r₁, fun P => estimate_ok h₀ h₁, hraise, hlower⟩

/-- The series on what the reduction leaves. -/
theorem expReduced_ok {P : Profile} {a : ℤ} (h₀ : 0 ≤ a) :
    expReduced P (expShift a) (a % ln2_62) = .ok (expVal a) := by
  obtain ⟨hs₀, hs₁⟩ := emod_ln2_bounds a
  have hshift : 0 ≤ expShift a := Int.ediv_nonneg h₀ ln2_62_pos.le
  unfold expReduced
  simp only [expVal, lnScale]
  by_cases h : expShift a > ((62 : ℕ) : ℤ)
  · rw [if_pos h, if_pos h, pure_eq_ok]
  · have hlt : expShift a < (128 : ℕ) := by push_cast at h ⊢; omega
    rw [if_neg h, if_neg h, (expRem_loop hs₀ hs₁).1, ok_bind, Profile.ishrBy_ok hshift hlt]

/-- A run of `exp_inner` on `a`: the estimate `r₀` of quotient and remainder, the
pairs `r₁` and `r₂` that the two loops leave, and the result `v` of the series on
`r₂`.  With fuel two a loop can turn once and test its condition once more. -/
structure ExpRun (P : Profile) (a : ℤ) (r₀ r₁ r₂ : ℤ × ℤ) (v : ℤ) : Prop where
  estimated : estimate P a = .ok r₀
  raised : ∀ fuel, raise P (fuel + 2) r₀.1 r₀.2 = .ok r₁
  lowered : ∀ fuel, lower P (fuel + 2) r₁.1 r₁.2 = .ok r₂
  evaluated : expReduced P r₂.1 r₂.2 = .ok v
  result : expInner P a = .ok v

theorem expRun {a : ℤ} (h₀ : 0 ≤ a) (h₁ : a < 2 ^ 76) :
    ∃ r₀ r₁, ∀ P, ExpRun P a r₀ r₁ (expShift a, a % ln2_62) (expVal a) := by
  obtain ⟨⟨k₀, s₀⟩, ⟨k₁, s₁⟩, hest, hraise, hlower⟩ := reduction_ok h₀ h₁
  refine ⟨_, _, fun P => ⟨hest P, hraise P, hlower P, expReduced_ok h₀, ?_⟩⟩
  unfold expInner
  rw [Profile.debugAssert_ok ⟨h₀, h₁⟩, ok_bind, hest, ok_bind]
  dsimp only
  rw [turns, hraise, ok_bind]
  dsimp only
  rw [turns, hlower, ok_bind]
  exact expReduced_ok h₀

/-- **Ledger of `exp_inner`**: below `2 ^ 76` the code returns `expVal`, in
every profile. -/
theorem expInner_ok {P : Profile} {a : ℤ} (h₀ : 0 ≤ a) (h₁ : a < 2 ^ 76) :
    expInner P a = .ok (expVal a) := by
  obtain ⟨r₀, r₁, hrun⟩ := expRun h₀ h₁
  exact (hrun P).result

end WeightedMath
