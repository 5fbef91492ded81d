/-
WeightedMath/Routes.lean

What a trader gains by the route.

Whatever trades lead from one state of a pool to another, back and forth, of
either kind and in whatever pieces, they are one trade from the first reserves
to the last, and no such trade beats the curve (`Pool.Run.real_bounds`).  The
kernel's own answer to the direct trade is close to the curve, so that the
route gains at most the rounding of the direct trade:

* what has left the second reserve is less than the direct payout for what has
  come into the first, and the bound of a shortfall (`Pool.Run.le_direct_sale`);
* what has come into the first is more than the direct payment for what has
  left the second, less the bound of an overcharge
  (`Pool.Run.direct_purchase_le`).

Since a single trade is a route, this also compares the two functions of the
kernel with each other: buying with one what the other quoted.
-/
import WeightedMath.EconomicGates
import WeightedMath.Referee

namespace WeightedMath

open Machine

section Routes

variable {P Q : Profile} {wA wB : ℕ} {s t : Pool}

/-- No route beats the curve: if the first reserve has not fallen, then what has
left the second is at most the real payout for what has come into the first,
and what has come in is at least the real price of what has left. -/
theorem Pool.Run.real_bounds (hP : P.overflowChecks = true) (hw : Weights wA wB)
    (h : Pool.Run P wA wB s t) (hsa : 1 ≤ s.a) (hsb : 1 ≤ s.b) (ha : s.a ≤ t.a) :
    (s.b : ℝ) - t.b ≤ Curve.payout wA wB s.a s.b (t.a - s.a) ∧
      (1 ≤ t.b → Curve.price wA wB s.a s.b (s.b - t.b) ≤ (t.a : ℝ) - s.a) := by
  have hheight : Curve.height wA wB (s.a : ℝ) s.b ≤ Curve.height wA wB (t.a : ℝ) t.b := by
    rw [← Curve.cast_height, ← Curve.cast_height, Nat.cast_le]
    exact h.height_le hP
  have hsaR : (0 : ℝ) < s.a := by exact_mod_cast hsa
  have hsbR : (0 : ℝ) < s.b := by exact_mod_cast hsb
  have haR : (s.a : ℝ) ≤ t.a := by exact_mod_cast ha
  constructor
  · exact Curve.sub_le_payout hw.out_pos hsaR haR hsbR (Nat.cast_nonneg t.b) hheight
  · intro htb
    have htbR : (0 : ℝ) < t.b := by exact_mod_cast htb
    exact Curve.price_le_sub hw.in_pos hsaR haR hsbR htbR hheight

/-- The referee of the test harness agrees: with weights that it can use as
exponents it passes the net trade of any run. -/
theorem Pool.Run.judged_safe (hP : P.overflowChecks = true) (hw : SmallWeights wA wB)
    (h : Pool.Run P wA wB s t) (ha : s.a ≤ t.a) (hb : t.b ≤ s.b) :
    invariantPreserved Q s.a wA s.b wB (t.a - s.a) (s.b - t.b) = .ok true := by
  rw [invariantPreserved_eq_true hw, Nat.add_sub_cancel' ha, Nat.sub_sub_self hb]
  exact ⟨Nat.sub_le s.b t.b, h.height_le hP⟩

/-- **A route sells at most a rounding better than a direct sale.**  Pay into
the first reserve, by any run of trades, what a direct sale would pay in: more
than its payout leaves the second reserve only by less than twice the
first-order effect of one ulp of base and exponent, 1.72 ulps of the reserve,
and one unit. -/
theorem Pool.Run.le_direct_sale (hP : P.overflowChecks = true) (hw : Weights wA wB)
    (h : Pool.Run P wA wB s t) (hsa : 1 ≤ s.a) (hsb : 1 ≤ s.b) (ha : s.a ≤ t.a) {r y : ℝ}
    (hr : r = (s.a : ℝ) / t.a) (hy : y = (wA : ℝ) / wB) :
    ∃ out, calcOutGivenIn (Build.kernel Q) s.a wA s.b wB (t.a - s.a) = .ok out ∧
      (s.b : ℝ) - t.b < out + 1 / 2 ^ 51 * (s.b * y * r ^ (y - 1) + s.b * r ^ y * |Real.log r|)
        + 1.72 * (s.b / 2 ^ 52) + 1 := by
  have htotal : s.a + (t.a - s.a) < 2 ^ 128 := by
    rw [Nat.add_sub_cancel' ha]
    exact t.a_lt
  have henv : ExactIn s.a wA s.b wB (t.a - s.a) := ⟨hsa, hsb, htotal, hw⟩
  refine ⟨_, calcOutGivenIn_ok _ s.b_lt henv, ?_⟩
  have hreal := (h.real_bounds hP hw hsa hsb ha).1
  have hshort := henv.shortfall_lt
  rw [Nat.cast_sub ha, add_sub_cancel, ← hr, ← hy] at hshort
  rw [Build.kernel_scale]
  linarith

/-- **A route buys at most a rounding cheaper than a direct purchase.**  Take
out of the second reserve, by any run of trades, what a direct purchase would
take out: less than its payment comes into the first reserve only by less than
what base, exponent and pad cost. -/
theorem Pool.Run.direct_purchase_le (hP : P.overflowChecks = true) (hQ : Q.overflowChecks = true)
    (hw : Weights wA wB) (h : Pool.Run P wA wB s t) (hb : t.b < s.b) {c : ℕ}
    (hc : calcInGivenOut (Build.kernel Q) s.a wA s.b wB (s.b - t.b) = .ok c) {r y p : ℝ}
    (hr : r = (t.b : ℝ) / s.b) (hy : y = (wB : ℝ) / wA) (hp : p = r ^ y) :
    (c : ℝ) < (t.a : ℝ) - s.a
      + 1 / 2 ^ 52 * (s.a * (1.7 * ((y / r + |Real.log r|) / p) + 1.2 / p ^ 2))
      + s.a / 2 ^ 62 + 1 := by
  have henv := calcInGivenOut_envelope s.b_lt hc
  -- a run that takes from one reserve gives to the other
  have ha : s.a ≤ t.a := by
    by_contra hlt
    obtain rfl := h.eq_of_le hP (not_le.mp hlt).le hb.le
    exact hb.false
  have hcast : ((s.b - t.b : ℕ) : ℝ) = s.b - t.b := Nat.cast_sub hb.le
  have hbase : r = ((s.b : ℝ) - (s.b - t.b : ℕ)) / s.b := by rw [hcast, sub_sub_cancel, hr]
  have htb : 1 ≤ t.b := by
    have := henv.amount_lt
    omega
  obtain ⟨hlog₀, -, -⟩ := henv.sensitivity_bounds hbase hy
  have hinv := henv.inv_paddedPower_le s.b_lt hbase hy hp
  have hover := henv.overcharge_lt s.b_lt hinv
  have hreal := (h.real_bounds hP hw henv.in_pos henv.out_pos ha).2 htb
  have hr₀ : 0 ≤ r := by
    rw [hr]
    positivity
  have hprice : Curve.price wA wB (s.a : ℝ) s.b (s.b - t.b) = s.a * (p⁻¹ - 1) := by
    rw [Curve.price, sub_sub_cancel, ← hy, hp, ← Real.inv_rpow hr₀, hr, inv_div]
  have hshare : (s.a : ℝ) * (1.7 * ((y / r + |Real.log r|) / p) + 1.2 / p ^ 2)
      = s.a * (1.7 * ((y / r + -Real.log r) * p⁻¹) + 1.2 * (p⁻¹ * p⁻¹)) := by
    rw [abs_of_nonpos (neg_nonneg.mp hlog₀)]
    ring
  rw [← calcInGivenOut_payment hQ s.a_lt s.b_lt (by omega) hc] at hover
  rw [hprice] at hreal
  rw [hshare]
  linarith

/-- A sale of a thousand, and half of the payout sold back. -/
theorem Pool.sample_run : Pool.Run Profile.checked 1 1 ⟨1000, 1000, by norm_num, by norm_num⟩
    ⟨1335, 751, by norm_num, by norm_num⟩ := by
  have hsell : calcOutGivenIn (Build.kernel Profile.checked) 1000 1 1000 1 1000 = .ok 499 := by
    decide +kernel
  have hback : calcOutGivenIn (Build.kernel Profile.checked) 501 1 2000 1 250 = .ok 665 := by
    decide +kernel
  refine Relation.ReflTransGen.head (b := ⟨2000, 501, by norm_num, by norm_num⟩) ?_
    (Relation.ReflTransGen.single ?_)
  · exact Pool.Step.aToB (Trade.exactIn hsell)
  · exact Pool.Step.bToA (Trade.exactIn hback)

/-- Its net trade, 335 in and 249 out, against a direct sale of 335. -/
theorem Pool.Run.le_direct_sale_thousand :
    ∃ out, calcOutGivenIn (Build.kernel Profile.wrapping) 1000 1 1000 1 (1335 - 1000) = .ok out ∧
      ((1000 : ℕ) : ℝ) - (751 : ℕ) < out
        + 1 / 2 ^ 51 * ((1000 : ℕ) * 1 * (1000 / 1335 : ℝ) ^ ((1 : ℝ) - 1)
            + (1000 : ℕ) * (1000 / 1335 : ℝ) ^ (1 : ℝ) * |Real.log (1000 / 1335)|)
        + 1.72 * ((1000 : ℕ) / 2 ^ 52) + 1 :=
  Pool.sample_run.le_direct_sale rfl
    ⟨by norm_num, by norm_num, by norm_num, by norm_num, by norm_num, by norm_num⟩
    (by norm_num) (by norm_num) (by norm_num) (by norm_num) (by norm_num)

/-- And against a direct purchase of 249. -/
theorem Pool.Run.direct_purchase_le_thousand :
    ((332 : ℕ) : ℝ) < ((1335 : ℕ) : ℝ) - (1000 : ℕ)
      + 1 / 2 ^ 52 * ((1000 : ℕ) * (1.7 * ((1 / (751 / 1000) + |Real.log (751 / 1000)|)
          / (751 / 1000)) + 1.2 / (751 / 1000) ^ 2))
      + (1000 : ℕ) / 2 ^ 62 + 1 :=
  Pool.sample_run.direct_purchase_le (Q := Profile.checked) rfl rfl
    ⟨by norm_num, by norm_num, by norm_num, by norm_num, by norm_num, by norm_num⟩
    (by norm_num)
    (show calcInGivenOut (Build.kernel Profile.checked) 1000 1 1000 1 (1000 - 751) = .ok 332 by
      decide +kernel) (by norm_num) (by norm_num) (by norm_num)

end Routes

end WeightedMath
