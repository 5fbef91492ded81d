/-
WeightedMath/Referee.lean

The curve-invariant referee of the test harness, and the fuzz target that puts
the kernel in front of it.

The referee shares no code with the kernel: it compares

    b_in^w_in * b_out^w_out    and    (b_in + a_in)^w_in * (b_out - a_out)^w_out

over big integers.  Its verdict is therefore exact, and it is the verdict of
the real curve: a trade passes iff its payout is at most the one that keeps the
curve, iff its price is at least the one that does
(`invariantPreserved_iff_payout`).

The fuzz target shapes raw bytes into the envelope and stops at the first trade
that panics or fails the referee.  It never stops (`tradeInvariant_ok`).
-/
import WeightedMath.Pool
import WeightedMath.Accuracy

namespace WeightedMath

open Machine

/-! ### The referee -/

/-- Does the trade keep the curve value `b_in^w_in * b_out^w_out` from
decreasing?  Powers and products are of big integers and do not overflow. -/
def invariantPreserved (P : Profile)
    (balanceIn weightIn balanceOut weightOut amountIn amountOut : ℕ) : Exec Bool := do
  assert ((1 ≤ weightIn ∧ weightIn ≤ 99) ∧ 1 ≤ weightOut ∧ weightOut ≤ 99)
    "referee weights must be small integer exponents"
  if amountOut > balanceOut then return false
  let wIn := weightIn % 2 ^ 32
  let wOut := weightOut % 2 ^ 32
  let before := balanceIn ^ wIn * balanceOut ^ wOut
  let left ← P.usub 128 balanceOut amountOut
  let after := (balanceIn + amountIn) ^ wIn * left ^ wOut
  return decide (after ≥ before)

/-- Weights that the referee can use as exponents. -/
structure SmallWeights (weightIn weightOut : ℕ) : Prop where
  in_pos : 1 ≤ weightIn
  in_le : weightIn ≤ 99
  out_pos : 1 ≤ weightOut
  out_le : weightOut ≤ 99

/-- Whatever the two are, their ratio is in `[1/99, 99]`. -/
theorem SmallWeights.weights {wi wo : ℕ} (h : SmallWeights wi wo) : Weights wi wo := by
  obtain ⟨h₁, h₂, h₃, h₄⟩ := h
  exact ⟨h₁, h₃, by omega, by omega, by omega, by omega⟩

section Referee

variable {P : Profile} {bi wi bo wo a o : ℕ}

/-- The referee as a comparison of heights. -/
theorem invariantPreserved_eq (P : Profile) (bi bo a o : ℕ) (h : SmallWeights wi wo) :
    invariantPreserved P bi wi bo wo a o = .ok (decide
      (o ≤ bo ∧ Curve.height wi wo bi bo ≤ Curve.height wi wo (bi + a) (bo - o))) := by
  obtain ⟨h₁, h₂, h₃, h₄⟩ := h
  unfold invariantPreserved
  rw [assert_ok ⟨⟨h₁, h₂⟩, h₃, h₄⟩, ok_bind, Nat.mod_eq_of_lt (by omega : wi < 2 ^ 32),
    Nat.mod_eq_of_lt (by omega : wo < 2 ^ 32)]
  by_cases hle : o ≤ bo
  · rw [if_neg (by omega), Profile.usub_ok hle, ok_bind, pure_eq_ok]
    simp only [hle, true_and]
    rfl
  · -- more than the reserve is a leak by definition
    rw [if_pos (by omega), pure_eq_ok]
    simp only [hle, false_and, decide_false]

theorem invariantPreserved_eq_true (h : SmallWeights wi wo) :
    invariantPreserved P bi wi bo wo a o = .ok true ↔
      o ≤ bo ∧ Curve.height wi wo bi bo ≤ Curve.height wi wo (bi + a) (bo - o) := by
  rw [invariantPreserved_eq P bi bo a o h]
  simp

/-- **The referee judges by the real curve.**  Its big-integer verdict on a
trade of a pool that is not empty says whether the payout is at most the real
one for the amount paid in, and, where something is left, whether the amount
paid in is at least the real price of the payout. -/
theorem invariantPreserved_iff_payout (P : Profile) (h : SmallWeights wi wo) (hbi : 1 ≤ bi)
    (hbo : 1 ≤ bo) (a o : ℕ) :
    ∃ kept, invariantPreserved P bi wi bo wo a o = .ok kept ∧
      (kept = true ↔ (o : ℝ) ≤ Curve.payout wi wo bi bo a) ∧
      (o < bo → (kept = true ↔ Curve.price wi wo bi bo o ≤ a)) := by
  have hbiR : (0 : ℝ) < bi := by exact_mod_cast hbi
  have hboR : (0 : ℝ) < bo := by exact_mod_cast hbo
  have haR : (0 : ℝ) ≤ a := Nat.cast_nonneg a
  have hcast : o ≤ bo → (Curve.height wi wo bi bo ≤ Curve.height wi wo (bi + a) (bo - o) ↔
      Curve.height wi wo (bi : ℝ) bo ≤ Curve.height wi wo ((bi : ℝ) + a) ((bo : ℝ) - o)) := by
    intro hle
    rw [← Nat.cast_sub hle, ← Nat.cast_add, ← Curve.cast_height, ← Curve.cast_height, Nat.cast_le]
  refine ⟨_, invariantPreserved_eq P bi bo a o h, ?_, ?_⟩
  · rw [decide_eq_true_iff]
    constructor
    · rintro ⟨hle, hheight⟩
      have hleR : (o : ℝ) ≤ bo := by exact_mod_cast hle
      exact (Curve.height_le_iff_le_payout h.out_pos hbiR haR hboR hleR).mp ((hcast hle).mp hheight)
    · intro hpay
      have hleR : (o : ℝ) ≤ bo := hpay.trans (Curve.payout_le_reserve hbiR.le haR hboR.le)
      have hle : o ≤ bo := by exact_mod_cast hleR
      exact ⟨hle, (hcast hle).mpr
        ((Curve.height_le_iff_le_payout h.out_pos hbiR haR hboR hleR).mpr hpay)⟩
  · intro hlt
    have hltR : (o : ℝ) < bo := by exact_mod_cast hlt
    rw [decide_eq_true_iff, ← Curve.height_le_iff_price_le h.in_pos hbiR hltR hboR haR,
      ← hcast hlt.le]
    exact and_iff_right hlt.le

/-- Ten in: nine out is below the real payout, ten is above it. -/
theorem invariantPreserved_iff_payout_ten :
    ∃ kept, invariantPreserved Profile.debug 100 50 100 50 10 9 = .ok kept ∧
      (kept = true ↔ ((9 : ℕ) : ℝ) ≤ Curve.payout 50 50 (100 : ℕ) (100 : ℕ) (10 : ℕ)) ∧
      (9 < 100 →
        (kept = true ↔ Curve.price 50 50 (100 : ℕ) (100 : ℕ) (9 : ℕ) ≤ ((10 : ℕ) : ℝ))) :=
  invariantPreserved_iff_payout Profile.debug ⟨by norm_num, by norm_num, by norm_num, by norm_num⟩
    (by norm_num) (by norm_num) 10 9

end Referee

/-! ### The fuzz target -/

/-- The fields that a fuzz input is decoded into. -/
structure FuzzTrade where
  exactOut : Bool
  balanceIn : ℕ
  balanceOut : ℕ
  weightIn : ℕ
  weightOut : ℕ
  amount : ℕ
  balanceIn_lt : balanceIn < 2 ^ 128
  balanceOut_lt : balanceOut < 2 ^ 128
  weightIn_lt : weightIn < 2 ^ 8
  weightOut_lt : weightOut < 2 ^ 8
  amount_lt : amount < 2 ^ 128

/-- The most an exact-out trade may ask for: 30% of the reserve, and a payment
that fits. -/
def maxOut (P : Profile) (balanceOut wIn wOut : ℕ) : Exec ℕ := do
  let tenths ← P.umul 128 (balanceOut / 10) 3
  let units ← P.umul 128 (balanceOut % 10) 3
  let cap30 ← P.uadd 128 tenths (units / 10)
  let d ← P.umul 128 4 wOut
  let q ← udiv balanceOut d
  let capFit := (checkedMul 128 q wIn).getD (2 ^ 128 - 1)
  return min cap30 capFit

/-- `fuzz_target!`: shape the input into the envelope, trade, and put the trade
before the referee. -/
def tradeInvariant (P : Profile) (t : FuzzTrade) : Exec Unit := do
  let balanceIn := max t.balanceIn 1
  let balanceOut := max t.balanceOut 1
  let wIn ← P.uadd 128 (t.weightIn % 99) 1
  let wOut ← P.uadd 128 (t.weightOut % 99) 1
  if t.exactOut then do
    let maxOut ← maxOut P balanceOut wIn wOut
    if maxOut = 0 then return ()
    let r ← urem t.amount maxOut
    let amountOut ← P.uadd 128 1 r
    let cost ← calcInGivenOut (Build.kernel P) balanceIn wIn balanceOut wOut amountOut
    let kept ← invariantPreserved P balanceIn wIn balanceOut wOut cost amountOut
    assert (kept = true) "curve decreased: pool undercharged for the trade"
  else do
    let maxIn ← P.usub 128 (2 ^ 128 - 1) balanceIn
    if maxIn = 0 then return ()
    let r ← urem t.amount maxIn
    let amountIn ← P.uadd 128 1 r
    let out ← calcOutGivenIn (Build.kernel P) balanceIn wIn balanceOut wOut amountIn
    let kept ← invariantPreserved P balanceIn wIn balanceOut wOut amountIn out
    assert (kept = true) "curve decreased: pool paid too much for the trade"

section Fuzz

variable {P : Profile} {bi wi bo wo a o : ℕ}

/-- A shaped weight is one of `1 ..= 99`. -/
theorem shaped_weight_ok (P : Profile) (w : ℕ) : P.uadd 128 (w % 99) 1 = .ok (w % 99 + 1) :=
  Profile.uadd_ok (by omega)

theorem shaped_weights (u v : ℕ) : SmallWeights (u % 99 + 1) (v % 99 + 1) :=
  ⟨by omega, by omega, by omega, by omega⟩

/-- The cap is the kernel's own, and no cap lets a trade past a quarter of the
linearized limit: where the second one overflows it is above every amount. -/
theorem maxOut_ok (P : Profile) (hbo : bo < 2 ^ 128) (hw : SmallWeights wi wo) :
    ∃ m, maxOut P bo wi wo = .ok m ∧ m ≤ 3 * bo / 10 ∧ m * (4 * wo) ≤ bo * wi := by
  obtain ⟨h₁, h₂, h₃, h₄⟩ := hw
  obtain ⟨hc₁, hc₂, hc₃⟩ := cap_ok (P := P) hbo
  unfold maxOut
  rw [hc₁, ok_bind, hc₂, ok_bind, hc₃, ok_bind, Profile.umul_ok (by omega), ok_bind,
    udiv_ok (by omega), ok_bind]
  have hquarter : bo / (4 * wo) * wi * (4 * wo) ≤ bo * wi := by
    calc bo / (4 * wo) * wi * (4 * wo) = bo / (4 * wo) * (4 * wo) * wi := by ring
      _ ≤ bo * wi := Nat.mul_le_mul_right _ (Nat.div_mul_le_self _ _)
  refine ⟨_, rfl, min_le_left _ _, ?_⟩
  by_cases hfit : bo / (4 * wo) * wi < 2 ^ 128
  · rw [checkedMul, if_pos hfit, Option.getD_some]
    exact (Nat.mul_le_mul_right _ (min_le_right _ _)).trans hquarter
  · refine (Nat.mul_le_mul_right _ ?_).trans hquarter
    have := min_le_left (3 * bo / 10) ((checkedMul 128 (bo / (4 * wo)) wi).getD (2 ^ 128 - 1))
    omega

/-- Below a quarter of the limit a purchase returns, and pays at most half of
`balance_in`. -/
theorem ExactOut.returns_of_quarter (P : Profile) (hbi : bi < 2 ^ 128) (hbo : bo < 2 ^ 128)
    (h : ExactOut bi wi bo wo o) (ho : 1 ≤ o) (hquarter : o * (4 * wo) ≤ bo * wi) :
    calcInGivenOut (Build.kernel P) bi wi bo wo o
      = .ok ((bi * quote 52 wi bo wo o) ⌈/⌉ 2 ^ 62) := by
  have hhalf : (bi * quote 52 wi bo wo o) ⌈/⌉ 2 ^ 62 ≤ bi ⌈/⌉ 2 :=
    quote_le_half (h.two_thirds_le_paddedPower hbo hquarter)
  have hfit := (hhalf.trans (ceilDiv_le_self bi two_pos)).trans_lt hbi
  exact calcInGivenOut_ok P hbi hbo h ho hfit

/-- What a call charges is judged safe. -/
theorem calcInGivenOut_referee (Q : Profile) {c : ℕ} (hP : P.overflowChecks = true)
    (hbi : bi < 2 ^ 128) (hbo : bo < 2 ^ 128) (hw : SmallWeights wi wo)
    (hc : calcInGivenOut (Build.kernel P) bi wi bo wo o = .ok c) :
    invariantPreserved Q bi wi bo wo c o = .ok true := by
  rw [invariantPreserved_eq_true hw]
  exact ⟨(calcInGivenOut_envelope hbo hc).amount_lt.le, calcInGivenOut_height_le hP hbi hbo hc⟩

/-- What a call pays out is judged safe. -/
theorem calcOutGivenIn_referee (Q : Profile) (hw : SmallWeights wi wo)
    (h : ExactIn bi wi bo wo a) :
    invariantPreserved Q bi wi bo wo a (outVal 52 bi wi bo wo a) = .ok true := by
  rw [invariantPreserved_eq_true hw]
  exact ⟨(outVal_lt 52 bi wi wo a h.out_pos).le, h.height_le (by norm_num) (by norm_num)⟩

/-- **The fuzz target finds nothing.**  On every input, in every profile, it
runs to its end: no panic in the shaping, none in the kernel, and no trade that
the referee fails. -/
theorem tradeInvariant_ok (P : Profile) (t : FuzzTrade) : tradeInvariant P t = .ok () := by
  have hbi : max t.balanceIn 1 < 2 ^ 128 := max_lt t.balanceIn_lt (by norm_num)
  have hbo : max t.balanceOut 1 < 2 ^ 128 := max_lt t.balanceOut_lt (by norm_num)
  have hbi₁ : 1 ≤ max t.balanceIn 1 := le_max_right _ _
  have hbo₁ : 1 ≤ max t.balanceOut 1 := le_max_right _ _
  have hw := shaped_weights t.weightIn t.weightOut
  unfold tradeInvariant
  rw [shaped_weight_ok, ok_bind, shaped_weight_ok, ok_bind]
  generalize max t.balanceIn 1 = bi at *
  generalize max t.balanceOut 1 = bo at *
  generalize t.weightIn % 99 + 1 = wi at *
  generalize t.weightOut % 99 + 1 = wo at *
  cases t.exactOut with
  | true =>
      obtain ⟨m, hm, hcap, hquarter⟩ := maxOut_ok P hbo hw
      simp only [if_true]
      rw [hm, ok_bind]
      split_ifs with hm₀
      · rfl
      · have hr := Nat.mod_lt t.amount (Nat.pos_of_ne_zero hm₀)
        have ho : 1 + t.amount % m ≤ m := by omega
        have henv : ExactOut bi wi bo wo (1 + t.amount % m) :=
          ⟨hbi₁, hbo₁, hw.weights, ho.trans hcap⟩
        have hcall := fun Q => henv.returns_of_quarter Q hbi hbo (Nat.le_add_right 1 _)
          ((Nat.mul_le_mul_right _ ho).trans hquarter)
        have href := calcInGivenOut_referee P (P := Profile.checked) rfl hbi hbo hw (hcall _)
        rw [urem_ok (Nat.pos_of_ne_zero hm₀), ok_bind, Profile.uadd_ok (by omega), ok_bind,
          hcall, ok_bind, href, ok_bind, assert_ok rfl]
  | false =>
      simp only [Bool.false_eq_true, if_false]
      rw [Profile.usub_ok (by omega), ok_bind]
      split_ifs with hm₀
      · rfl
      · have hr := Nat.mod_lt t.amount (Nat.pos_of_ne_zero hm₀)
        have henv : ExactIn bi wi bo wo (1 + t.amount % (2 ^ 128 - 1 - bi)) :=
          ⟨hbi₁, hbo₁, by omega, hw.weights⟩
        have hcall := calcOutGivenIn_ok (Build.kernel P) hbo henv
        rw [Build.kernel_scale] at hcall
        rw [urem_ok (Nat.pos_of_ne_zero hm₀), ok_bind, Profile.uadd_ok (by omega), ok_bind,
          hcall, ok_bind, calcOutGivenIn_referee P hw henv, ok_bind, assert_ok rfl]

end Fuzz

end WeightedMath
