/-
WeightedMath/Headroom.lean

What a purchase must leave room for.

`calc_in_given_out` rounds its payment up after the fit assertion has looked at
the floor, and nothing adds the payment to `balance_in` before it is returned.
So near the top of the word two things go wrong: the rounding carry can wrap
(`payment_wraps_to_zero`), and the deposit can leave the word
(`deposit_leaves_the_word`).  Which inputs do it depends on the last bit of the
quote, hence on every rounding of the pow pipeline.

What the inputs alone say is the real price.  The payment stays between the
price plus `2^-54` of the reserve and the price plus `overchargeMax`, so it is
the band between the two that has to stay clear of `2^128`.  A reserve below
`2^75` is clear of it whatever is asked for.
-/
import WeightedMath.Accuracy
import WeightedMath.Pool

namespace WeightedMath

open Machine

section Purchase

variable {P : Profile} {bi wi bo wo o : ℕ}

/-! ### The band -/

theorem cast_word_max : ((2 ^ 128 - 1 : ℕ) : ℝ) = 2 ^ 128 - 1 := by
  rw [Nat.cast_sub Nat.one_le_two_pow, Nat.cast_pow, Nat.cast_ofNat, Nat.cast_one]

/-- A small reserve never reaches the top of the word. -/
theorem ExactOut.paymentMax_le_of_small (h : ExactOut bi wi bo wo o) (hsmall : bi < 2 ^ 75) :
    bi + paymentMax bi wi bo wo o ≤ 2 ^ 128 - 1 := by
  obtain ⟨hlog₀, hU₀, hU₁⟩ := h.sensitivity_bounds rfl rfl
  obtain ⟨hp₀, hp₁⟩ := h.real_power_bounds rfl rfl
  rw [paymentMax, h.price_eq, overchargeMax, abs_of_nonpos (neg_nonneg.mp hlog₀)]
  generalize (wo : ℝ) / wi / (((bo : ℝ) - o) / bo) + -Real.log (((bo : ℝ) - o) / bo) = U at *
  generalize (((bo : ℝ) - o) / bo) ^ ((wo : ℝ) / wi) = p at *
  have hpos : 0 < p := lt_of_lt_of_le (by norm_num) hp₀
  have hbi₀ : (0 : ℝ) ≤ bi := Nat.cast_nonneg bi
  have hbi₁ : (bi : ℝ) ≤ 2 ^ 75 := by exact_mod_cast hsmall.le
  -- the reciprocal of the power is below `2^50.95`
  have hinv₁ : p⁻¹ ≤ 2170000000000000 := by
    rw [inv_le_comm₀ hpos (by norm_num)]
    exact le_trans (by norm_num) hp₀
  have hinv₀ : 0 ≤ p⁻¹ := (inv_pos.mpr hpos).le
  have hprice : (bi : ℝ) * p⁻¹ ≤ 2 ^ 75 * 2170000000000000 :=
    mul_le_mul hbi₁ hinv₁ hinv₀ (by norm_num)
  have hfirst : (bi : ℝ) * U / p / ((2 ^ 51 : ℕ) : ℝ)
      ≤ 2 ^ 75 * 2170000000000000 * 150 / 2 ^ 51 := by
    rw [Nat.cast_pow, Nat.cast_ofNat]
    refine div_le_div_of_nonneg_right ?_ (by positivity)
    calc (bi : ℝ) * U / p = bi * p⁻¹ * U := by ring
      _ ≤ 2 ^ 75 * 2170000000000000 * 150 := mul_le_mul hprice hU₁ hU₀ (by norm_num)
  have hsecond : (bi : ℝ) / (p * p) / ((2 ^ 50 : ℕ) : ℝ)
      ≤ 2 ^ 75 * 2170000000000000 * 2170000000000000 / 2 ^ 50 := by
    rw [Nat.cast_pow, Nat.cast_ofNat]
    refine div_le_div_of_nonneg_right ?_ (by positivity)
    calc (bi : ℝ) / (p * p) = bi * p⁻¹ * p⁻¹ := by rw [div_eq_mul_inv, mul_inv]; ring
      _ ≤ 2 ^ 75 * 2170000000000000 * 2170000000000000 :=
          mul_le_mul hprice hinv₁ hinv₀ (by norm_num)
  norm_num at hprice hfirst hsecond hbi₁ ⊢
  linarith

/-! ### The carry of the last addition -/

/-- The reserve has room for whatever the purchase can charge. -/
def HasRoom (bi wi bo wo o : ℕ) : Prop :=
  o = 0 ∨ bi + paymentMax bi wi bo wo o ≤ ((2 ^ 128 - 1 : ℕ) : ℝ)

/-- A small reserve always has room. -/
theorem ExactOut.hasRoom_of_small (h : ExactOut bi wi bo wo o) (hsmall : bi < 2 ^ 75) :
    HasRoom bi wi bo wo o := by
  right
  rw [cast_word_max]
  exact h.paymentMax_le_of_small hsmall

/-- With room, the deposit is a word, in every profile. -/
theorem HasRoom.deposit_lt (hroom : HasRoom bi wi bo wo o) (hbi : bi < 2 ^ 128)
    (hbo : bo < 2 ^ 128) {c : ℕ} (hc : calcInGivenOut (Build.kernel P) bi wi bo wo o = .ok c) :
    bi + c < 2 ^ 128 := by
  have h := calcInGivenOut_envelope hbo hc
  rcases Nat.eq_zero_or_pos o with rfl | ho
  · -- nothing is bought
    rw [calcInGivenOut_zero _ hbo h] at hc
    cases hc
    exact hbi
  · have hmax := hroom.resolve_left ho.ne'
    have hle : ((bi + (bi * quote 52 wi bo wo o) ⌈/⌉ 2 ^ 62 : ℕ) : ℝ)
        ≤ ((2 ^ 128 - 1 : ℕ) : ℝ) := by
      rw [Nat.cast_add]
      exact (add_le_add_right (h.payment_le hbo) _).trans hmax
    have hlt : bi + (bi * quote 52 wi bo wo o) ⌈/⌉ 2 ^ 62 < 2 ^ 128 :=
      (Nat.cast_le.mp hle).trans_lt (by norm_num)
    -- the deposit bounds the payment, so the call returns it in every profile
    rw [calcInGivenOut_ok P hbi hbo h ho ((Nat.le_add_left _ _).trans_lt hlt)] at hc
    cases hc
    exact hlt

/-- A deposit that is a word leaves the smallest charge below the top of it. -/
theorem price_le_of_deposit_lt (hP : P.overflowChecks = true) (hbi : bi < 2 ^ 128)
    (hbo : bo < 2 ^ 128) (ho : 1 ≤ o) {c : ℕ}
    (hc : calcInGivenOut (Build.kernel P) bi wi bo wo o = .ok c) (hlt : bi + c < 2 ^ 128) :
    bi + (Curve.price wi wo bi bo o + bi / 2 ^ 54) ≤ 2 ^ 128 - 1 := by
  have hge := (calcInGivenOut_envelope hbo hc).price_add_le hbo
  rw [← calcInGivenOut_payment hP hbi hbo ho hc] at hge
  have hle : ((bi + c : ℕ) : ℝ) ≤ ((2 ^ 128 - 1 : ℕ) : ℝ) := Nat.cast_le.mpr (by omega)
  rw [cast_word_max, Nat.cast_add] at hle
  linarith

end Purchase

/-! ### Runs with room -/

/-- A trade whose payment, if it is for a payment, has room. -/
inductive RoomyTrade (P : Profile) (wi wo : ℕ) : ℕ → ℕ → ℕ → ℕ → Prop
  | exactIn {ri ro a out : ℕ}
      (h : calcOutGivenIn (Build.kernel P) ri wi ro wo a = .ok out) :
      RoomyTrade P wi wo ri ro (ri + a) (ro - out)
  | exactOut {ri ro o c : ℕ}
      (h : calcInGivenOut (Build.kernel P) ri wi ro wo o = .ok c)
      (hroom : HasRoom ri wi ro wo o) :
      RoomyTrade P wi wo ri ro (ri + c) (ro - o)

/-- Such a trade of a pool with weights `wA` and `wB`, in either direction.  The
reserves are any two numbers: that they stay words is what is proved. -/
inductive RoomyStep (P : Profile) (wA wB : ℕ) : ℕ × ℕ → ℕ × ℕ → Prop
  | aToB {a b a' b' : ℕ} (h : RoomyTrade P wA wB a b a' b') : RoomyStep P wA wB (a, b) (a', b')
  | bToA {a b a' b' : ℕ} (h : RoomyTrade P wB wA b a b' a') : RoomyStep P wA wB (a, b) (a', b')

section Run

variable {P : Profile} {wA wB wi wo ri ro ri' ro' : ℕ} {s t : ℕ × ℕ}

/-- It is a trade. -/
theorem RoomyTrade.trade (h : RoomyTrade P wi wo ri ro ri' ro') : Trade P wi wo ri ro ri' ro' := by
  cases h with
  | exactIn h => exact Trade.exactIn h
  | exactOut h _ => exact Trade.exactOut h

theorem RoomyTrade.tradable (h : RoomyTrade P wi wo ri ro ri' ro') (hri : Tradable ri)
    (hro : Tradable ro) : Tradable ri' ∧ Tradable ro' := by
  cases h with
  | exactIn h => exact tradable_of_sale hro.2 h
  | exactOut h hroom => exact tradable_of_purchase hro.2 h (hroom.deposit_lt hri.2 hro.2 h)

theorem RoomyStep.tradable (h : RoomyStep P wA wB s t) (hs : Tradable s.1 ∧ Tradable s.2) :
    Tradable t.1 ∧ Tradable t.2 := by
  cases h with
  | aToB h => exact h.tradable hs.1 hs.2
  | bToA h => exact (h.tradable hs.2 hs.1).symm

/-- From tradable reserves it is a step of the pool that books them. -/
theorem RoomyStep.step (h : RoomyStep P wA wB s t) (hs : Tradable s.1 ∧ Tradable s.2)
    (ht : Tradable t.1 ∧ Tradable t.2) :
    Pool.Step P wA wB ⟨s.1, s.2, hs.1.2, hs.2.2⟩ ⟨t.1, t.2, ht.1.2, ht.2.2⟩ := by
  cases h with
  | aToB h => exact Pool.Step.aToB h.trade
  | bToA h => exact Pool.Step.bToA h.trade

/-- A run with room is a run of pools: no state of it has to be assumed to be
one. -/
theorem roomyRun (hs : Tradable s.1 ∧ Tradable s.2)
    (hrun : Relation.ReflTransGen (RoomyStep P wA wB) s t) :
    ∃ ht : Tradable t.1 ∧ Tradable t.2,
      Pool.Run P wA wB ⟨s.1, s.2, hs.1.2, hs.2.2⟩ ⟨t.1, t.2, ht.1.2, ht.2.2⟩ := by
  induction hrun with
  | refl => exact ⟨hs, Relation.ReflTransGen.refl⟩
  | tail _ hstep ih =>
      obtain ⟨ht, hrun⟩ := ih
      exact ⟨hstep.tradable ht, hrun.tail (hstep.step ht (hstep.tradable ht))⟩

/-- **The reserves stay in the envelope.**  After a sale that returns always;
after a purchase that returns if its payment has room, and only if the real
price and `2^-54` of the reserve have; and so in every state of a run all of
whose purchases have room. -/
theorem reserves_closed (P : Profile) :
    (∀ bi wi bo wo a out, bo < 2 ^ 128 → calcOutGivenIn (Build.kernel P) bi wi bo wo a = .ok out →
        Tradable (bi + a) ∧ Tradable (bo - out)) ∧
      (∀ bi wi bo wo o c, bi < 2 ^ 128 → bo < 2 ^ 128 →
        calcInGivenOut (Build.kernel P) bi wi bo wo o = .ok c →
        (HasRoom bi wi bo wo o → Tradable (bi + c) ∧ Tradable (bo - o)) ∧
          (P.overflowChecks = true → Tradable (bi + c) ∧ Tradable (bo - o) →
            o = 0 ∨ bi + (Curve.price wi wo bi bo o + bi / 2 ^ 54) ≤ 2 ^ 128 - 1)) ∧
      ∀ (wA wB : ℕ) (s t : ℕ × ℕ), Tradable s.1 ∧ Tradable s.2 →
        Relation.ReflTransGen (RoomyStep P wA wB) s t → Tradable t.1 ∧ Tradable t.2 := by
  refine ⟨fun bi wi bo wo a out hbo h => tradable_of_sale hbo h, ?_, ?_⟩
  · intro bi wi bo wo o c hbi hbo hc
    constructor
    · intro hroom
      exact tradable_of_purchase hbo hc (hroom.deposit_lt hbi hbo hc)
    · intro hP hr
      rcases Nat.eq_zero_or_pos o with ho | ho
      · exact Or.inl ho
      · exact Or.inr (price_le_of_deposit_lt hP hbi hbo ho hc hr.1.2)
  · intro wA wB s t hs hrun
    exact (roomyRun hs hrun).1

/-- Three units out of ten against ten: the five paid for them have room. -/
theorem reserves_closed_ten :
    calcInGivenOut (Build.kernel Profile.checked) 10 1 10 1 3 = .ok 5 ∧
      HasRoom 10 1 10 1 3 ∧ Tradable (10 + 5) ∧ Tradable (10 - 3) := by
  have hrun : calcInGivenOut (Build.kernel Profile.checked) 10 1 10 1 3 = .ok 5 := by
    decide +kernel
  have hroom : HasRoom 10 1 10 1 3 :=
    (calcInGivenOut_envelope (by norm_num) hrun).hasRoom_of_small (by norm_num)
  exact ⟨hrun, hroom, ((reserves_closed Profile.checked).2.1 10 1 10 1 3 5 (by norm_num)
    (by norm_num) hrun).1 hroom⟩

/-- A full reserve takes a payment that is a word, and is no longer one. -/
theorem deposit_leaves_the_word :
    ExactOut (2 ^ 128 - 1) 1 10 1 3 ∧
      calcInGivenOut (Build.kernel Profile.checked) (2 ^ 128 - 1) 1 10 1 3
        = .ok 145835300108973735465165335225503318016 ∧
      ¬ Tradable ((2 ^ 128 - 1) + 145835300108973735465165335225503318016) := by
  have hrun : calcInGivenOut (Build.kernel Profile.checked) (2 ^ 128 - 1) 1 10 1 3
      = .ok 145835300108973735465165335225503318016 := by
    decide +kernel
  refine ⟨calcInGivenOut_envelope (by norm_num) hrun, hrun, ?_⟩
  rintro ⟨-, hlt⟩
  norm_num at hlt

end Run

end WeightedMath
