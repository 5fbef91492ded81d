/-
WeightedMath/Pool.lean

A two-token pool that books what the kernel returned.

A trade is a call of either function, in either direction, that returns; the
pool then adds what was paid in and subtracts what was paid out.  Each trade
keeps the height of the pool on its weighted curve, whichever way the roles of
the tokens are assigned, so a run of trades does, and no run leaves one reserve
lower and neither higher (`no_value_extracted`).

The other half of the invariant is the range of the reserves.  A payout always
leaves at least one unit (`tradable_of_sale`).  A deposit is checked by
`calc_out_given_in` only: what `calc_in_given_out` charges is not added to
`balance_in` before it is returned, and can carry the reserve past `2^128`
(`deposit_lt_iff`).
-/
import WeightedMath.ExactIn
import WeightedMath.ExactOut

namespace WeightedMath

open Machine

/-! ### Trades -/

/-- A call of either function that returns, from the reserves in and out before
it to the reserves after it. -/
inductive Trade (P : Profile) (wi wo : ℕ) : ℕ → ℕ → ℕ → ℕ → Prop
  | exactIn {ri ro a out : ℕ}
      (h : calcOutGivenIn (Build.kernel P) ri wi ro wo a = .ok out) :
      Trade P wi wo ri ro (ri + a) (ro - out)
  | exactOut {ri ro o c : ℕ}
      (h : calcInGivenOut (Build.kernel P) ri wi ro wo o = .ok c) :
      Trade P wi wo ri ro (ri + c) (ro - o)

section Trade

variable {P : Profile} {wi wo ri ro ri' ro' : ℕ}

/-- Only a pool with both reserves and both weights trades. -/
theorem Trade.pos (hro : ro < 2 ^ 128) (h : Trade P wi wo ri ro ri' ro') :
    0 < wi ∧ 0 < wo ∧ 0 < ri ∧ 0 < ro := by
  cases h with
  | exactIn h =>
      have henv := calcOutGivenIn_envelope h
      exact ⟨henv.weights.in_pos, henv.weights.out_pos, henv.in_pos, henv.out_pos⟩
  | exactOut h =>
      have henv := calcInGivenOut_envelope hro h
      exact ⟨henv.weights.in_pos, henv.weights.out_pos, henv.in_pos, henv.out_pos⟩

/-- **A trade keeps the height.** -/
theorem Trade.height_le (hP : P.overflowChecks = true) (hri : ri < 2 ^ 128) (hro : ro < 2 ^ 128)
    (h : Trade P wi wo ri ro ri' ro') :
    Curve.height wi wo ri ro ≤ Curve.height wi wo ri' ro' := by
  cases h with
  | exactIn h =>
      rw [calcOutGivenIn_eq hro h]
      exact (calcOutGivenIn_envelope h).height_le (by norm_num) (by norm_num)
  | exactOut h => exact calcInGivenOut_height_le hP hri hro h

end Trade

/-! ### Pools and runs -/

/-- The two reserves of a pool, each a 128-bit word. -/
@[ext] structure Pool where
  a : ℕ
  b : ℕ
  a_lt : a < 2 ^ 128
  b_lt : b < 2 ^ 128

/-- One trade of a pool with weights `wA` and `wB`, in either direction. -/
inductive Pool.Step (P : Profile) (wA wB : ℕ) : Pool → Pool → Prop
  | aToB {s t : Pool} (h : Trade P wA wB s.a s.b t.a t.b) : Step P wA wB s t
  | bToA {s t : Pool} (h : Trade P wB wA s.b s.a t.b t.a) : Step P wA wB s t

/-- Any finite sequence of trades. -/
def Pool.Run (P : Profile) (wA wB : ℕ) : Pool → Pool → Prop :=
  Relation.ReflTransGen (Pool.Step P wA wB)

/-- Where the pool sits above its curve. -/
def Pool.height (wA wB : ℕ) (s : Pool) : ℕ := Curve.height wA wB s.a s.b

section Run

variable {P : Profile} {wA wB : ℕ} {s t : Pool}

theorem Pool.Step.pos (h : Pool.Step P wA wB s t) : 0 < wA ∧ 0 < wB ∧ 0 < s.a ∧ 0 < s.b := by
  cases h with
  | aToB h => exact h.pos s.b_lt
  | bToA h =>
      obtain ⟨h₁, h₂, h₃, h₄⟩ := h.pos s.a_lt
      exact ⟨h₂, h₁, h₄, h₃⟩

/-- A step keeps the height, whichever token comes in. -/
theorem Pool.Step.height_le (hP : P.overflowChecks = true) (h : Pool.Step P wA wB s t) :
    s.height wA wB ≤ t.height wA wB := by
  cases h with
  | aToB h => exact h.height_le hP s.a_lt s.b_lt
  | bToA h =>
      have := h.height_le hP s.b_lt s.a_lt
      rwa [Curve.height_comm wB wA, Curve.height_comm wB wA] at this

/-- A run keeps the height. -/
theorem Pool.Run.height_le (hP : P.overflowChecks = true) (h : Pool.Run P wA wB s t) :
    s.height wA wB ≤ t.height wA wB :=
  Curve.le_of_run (f := Pool.height wA wB) (fun _ _ hst => Pool.Step.height_le hP hst) h

/-- A run that leaves neither reserve higher leaves both as they were. -/
theorem Pool.Run.eq_of_le (hP : P.overflowChecks = true) (h : Pool.Run P wA wB s t)
    (ha : t.a ≤ s.a) (hb : t.b ≤ s.b) : t = s := by
  rcases Relation.ReflTransGen.cases_head h with heq | ⟨u, hsu, -⟩
  · exact heq.symm
  · obtain ⟨hwA, hwB, hsa, hsb⟩ := hsu.pos
    obtain ⟨ea, eb⟩ := Curve.eq_of_height_le hwA hwB hsa hsb ha hb (Pool.Run.height_le hP h)
    exact Pool.ext ea eb

/-- **No sequence of trades extracts value.**  After any run, if neither
reserve is higher both are as they were.  In particular the round trip of an
exact-in sale, with the whole payout sold straight back, never returns more
than was paid in. -/
theorem no_value_extracted (P : Profile) (wA wB : ℕ) (hP : P.overflowChecks = true) :
    (∀ s t : Pool, Pool.Run P wA wB s t → t.a ≤ s.a → t.b ≤ s.b → t = s) ∧
      ∀ (s : Pool) (x out back : ℕ),
        calcOutGivenIn (Build.kernel P) s.a wA s.b wB x = .ok out →
        calcOutGivenIn (Build.kernel P) (s.b - out) wB (s.a + x) wA out = .ok back →
        back ≤ x := by
  refine ⟨fun s t h => h.eq_of_le hP, ?_⟩
  intro s x out back hsell hback
  have henv := calcOutGivenIn_envelope hsell
  have hout := calcOutGivenIn_lt s.b_lt hsell
  -- the pool after the sale, and after the sale back
  have hmid : s.b - out < 2 ^ 128 := (Nat.sub_le _ _).trans_lt s.b_lt
  have hend : s.a + x - back < 2 ^ 128 := (Nat.sub_le _ _).trans_lt henv.total_lt
  have hrun : Pool.Run P wA wB s ⟨s.a + x - back, s.b - out + out, hend, by
      rw [Nat.sub_add_cancel hout.le]; exact s.b_lt⟩ := by
    refine Relation.ReflTransGen.head (b := ⟨s.a + x, s.b - out, henv.total_lt, hmid⟩) ?_
      (Relation.ReflTransGen.single ?_)
    · exact Pool.Step.aToB (Trade.exactIn hsell)
    · exact Pool.Step.bToA (Trade.exactIn hback)
  by_contra hlt
  have hsame := hrun.eq_of_le hP (show s.a + x - back ≤ s.a by omega)
    (Nat.sub_add_cancel hout.le).le
  have ha := congrArg Pool.a hsame
  simp only at ha
  have := henv.in_pos
  omega

/-- A thousand in, 499 out; 499 back in, 997 out. -/
theorem no_value_extracted_thousand :
    calcOutGivenIn (Build.kernel Profile.checked) 1000 1 1000 1 1000 = .ok 499 ∧
      calcOutGivenIn (Build.kernel Profile.checked) (1000 - 499) 1 (1000 + 1000) 1 499 = .ok 997 ∧
      997 ≤ 1000 := by
  have hsell : calcOutGivenIn (Build.kernel Profile.checked) 1000 1 1000 1 1000 = .ok 499 := by
    decide +kernel
  have hback : calcOutGivenIn (Build.kernel Profile.checked) (1000 - 499) 1 (1000 + 1000) 1 499
      = .ok 997 := by
    decide +kernel
  exact ⟨hsell, hback, (no_value_extracted Profile.checked 1 1 rfl).2
    ⟨1000, 1000, by norm_num, by norm_num⟩ 1000 499 997 hsell hback⟩

end Run

/-! ### The range of the reserves -/

section Range

variable {P : Profile} {bi wi bo wo o : ℕ}

/-- Quote and unit add up to the reciprocal of the power, rounded up once. -/
theorem quote_add_one62 (hp : 0 < paddedPower 52 wi bo wo o) :
    quote 52 wi bo wo o + 2 ^ 62 = 2 ^ 124 ⌈/⌉ paddedPower 52 wi bo wo o := by
  have hple := paddedPower_le 52 wi bo wo o
  unfold quote
  rw [← add_mul_ceilDiv _ _ hp, ← Nat.add_mul, Nat.sub_add_cancel (by omega)]
  norm_num

/-- A reserve after an exact-out trade: `balance_in / p`, rounded up. -/
theorem deposit_after (hP : P.overflowChecks = true) (hbi : bi < 2 ^ 128) (hbo : bo < 2 ^ 128)
    (ho : 1 ≤ o) {c : ℕ} (hc : calcInGivenOut (Build.kernel P) bi wi bo wo o = .ok c) :
    bi + c = (bi * (2 ^ 124 ⌈/⌉ paddedPower 52 wi bo wo o)) ⌈/⌉ 2 ^ 62 := by
  have h := calcInGivenOut_envelope hbo hc
  rw [calcInGivenOut_payment hP hbi hbo ho hc, ← quote_add_one62 (h.paddedPower_pos hbo),
    Nat.mul_add, mul_comm bi (2 ^ 62), add_mul_ceilDiv _ _ (Nat.two_pow_pos 62), Nat.add_comm]

/-- When a deposit has room, by what the call computes. -/
theorem deposit_lt_iff (hP : P.overflowChecks = true) (hbi : bi < 2 ^ 128) (hbo : bo < 2 ^ 128)
    (ho : 1 ≤ o) {c : ℕ} (hc : calcInGivenOut (Build.kernel P) bi wi bo wo o = .ok c) :
    bi + c < 2 ^ 128 ↔
      bi * (2 ^ 124 ⌈/⌉ paddedPower 52 wi bo wo o) ≤ (2 ^ 128 - 1) * 2 ^ 62 := by
  rw [deposit_after hP hbi hbo ho hc, mul_comm _ (2 ^ 62),
    ← ceilDiv_le_iff_le_mul (Nat.two_pow_pos 62)]
  omega

/-- A reserve that a pool can trade with: one unit at least, and a word. -/
def Tradable (n : ℕ) : Prop := 1 ≤ n ∧ n < 2 ^ 128

/-- After a sale both reserves are. -/
theorem tradable_of_sale (hbo : bo < 2 ^ 128) {a out : ℕ}
    (h : calcOutGivenIn (Build.kernel P) bi wi bo wo a = .ok out) :
    Tradable (bi + a) ∧ Tradable (bo - out) := by
  have henv := calcOutGivenIn_envelope h
  have hin := henv.in_pos
  have hlt := calcOutGivenIn_lt hbo h
  exact ⟨⟨by omega, henv.total_lt⟩, by omega, by omega⟩

/-- After a purchase they are where the deposit has room. -/
theorem tradable_of_purchase (hbo : bo < 2 ^ 128) {c : ℕ}
    (h : calcInGivenOut (Build.kernel P) bi wi bo wo o = .ok c) (hroom : bi + c < 2 ^ 128) :
    Tradable (bi + c) ∧ Tradable (bo - o) := by
  have henv := calcInGivenOut_envelope hbo h
  have hin := henv.in_pos
  have hlt := henv.amount_lt
  exact ⟨⟨by omega, hroom⟩, by omega, by omega⟩

end Range

end WeightedMath
