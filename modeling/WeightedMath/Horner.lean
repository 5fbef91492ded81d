/-
WeightedMath/Horner.lean

Horner's rule in fixed point.  At scale `2 ^ L` a product is shifted back by
`L` bits after every multiplication, and the shift floors; so each of the `n`
steps loses less than one unit, and what an inner step lost is multiplied by
the argument on its way out.  With argument `σ = u / 2 ^ L` in `[0, 1)` the
losses form a geometric series, whatever the coefficients and their signs are:

    0 ≤ (exact value) - (computed value) ≤ 1 / (1 - σ)      (`floorHorner_le`, `le_floorHorner`)

The second half compares two coefficient lists (exact and rounded ones) at the
same argument, and one list at two arguments.  The last section runs the loop
on machine words: a single inequality, `closed`, bounds every partial value.
-/
import WeightedMath.Machine

namespace Horner

/-! ### The two evaluations -/

/-- Exact evaluation of `c₀ + c₁ σ + c₂ σ² + …`. -/
def polyEval (σ : ℝ) : List ℝ → ℝ
  | [] => 0
  | c :: cs => c + σ * polyEval σ cs

/-- Evaluation at `u / 2 ^ L` with every product floored. -/
def floorHorner (L : ℕ) (u : ℤ) : List ℤ → ℤ
  | [] => 0
  | c :: cs => c + floorHorner L u cs * u / 2 ^ L

/-- The coefficients as reals. -/
def toReals (cs : List ℤ) : List ℝ := cs.map fun c => (c : ℝ)

@[simp] theorem polyEval_nil (σ : ℝ) : polyEval σ [] = 0 := rfl

@[simp] theorem polyEval_cons (σ c : ℝ) (cs : List ℝ) :
    polyEval σ (c :: cs) = c + σ * polyEval σ cs := rfl

@[simp] theorem toReals_nil : toReals [] = [] := rfl

@[simp] theorem toReals_cons (c : ℤ) (cs : List ℤ) :
    toReals (c :: cs) = (c : ℝ) :: toReals cs := rfl

/-! ### Loss of the floors -/

/-- A floored quotient is within one unit below the real quotient. -/
theorem floor_div_bounds (n : ℤ) {d : ℤ} (hd : 0 < d) :
    ((n / d : ℤ) : ℝ) ≤ n / d ∧ (n : ℝ) / d < ((n / d : ℤ) : ℝ) + 1 := by
  have h₁ : n / d * d ≤ n := Int.ediv_mul_le n hd.ne'
  have h₂ : n < (n / d + 1) * d := Int.lt_ediv_add_one_mul_self n hd
  have hdR : (0 : ℝ) < d := by exact_mod_cast hd
  constructor
  · rw [le_div_iff₀ hdR]; exact_mod_cast h₁
  · rw [div_lt_iff₀ hdR]; exact_mod_cast h₂

theorem floor_quotient (n : ℤ) (L : ℕ) :
    ((n / 2 ^ L : ℤ) : ℝ) ≤ n / 2 ^ L ∧ (n : ℝ) / 2 ^ L < ((n / 2 ^ L : ℤ) : ℝ) + 1 := by
  have h := floor_div_bounds n (show (0 : ℤ) < 2 ^ L by positivity)
  push_cast at h
  exact h

section Loss

variable {L : ℕ} {u : ℤ}

/-- What one more coefficient does to the loss: it is scaled by the argument
and grows by less than a unit. -/
theorem loss_cons (c : ℤ) (cs : List ℤ) :
    ∃ f : ℝ, 0 ≤ f ∧ f < 1 ∧
      polyEval (u / 2 ^ L) (toReals (c :: cs)) - floorHorner L u (c :: cs)
        = u / 2 ^ L * (polyEval (u / 2 ^ L) (toReals cs) - floorHorner L u cs) + f := by
  obtain ⟨h₁, h₂⟩ := floor_quotient (floorHorner L u cs * u) L
  refine ⟨(floorHorner L u cs * u : ℤ) / 2 ^ L - ((floorHorner L u cs * u / 2 ^ L : ℤ) : ℝ),
    by linarith, by linarith, ?_⟩
  simp only [toReals_cons, polyEval_cons, floorHorner]
  push_cast
  ring

/-- The floors never overstate. -/
theorem floorHorner_le (hu : 0 ≤ u) (cs : List ℤ) :
    (floorHorner L u cs : ℝ) ≤ polyEval (u / 2 ^ L) (toReals cs) := by
  induction cs with
  | nil => simp [floorHorner]
  | cons c cs ih =>
      obtain ⟨f, hf, -, e⟩ := loss_cons (L := L) (u := u) c cs
      have hσ : (0 : ℝ) ≤ u / 2 ^ L := by positivity
      have := mul_nonneg hσ (sub_nonneg.mpr ih)
      linarith

/-- All floors together lose at most `1 / (1 - σ)` units. -/
theorem le_floorHorner (hu : 0 ≤ u) (hσ : (u : ℝ) / 2 ^ L < 1) (cs : List ℤ) :
    polyEval (u / 2 ^ L) (toReals cs) - 1 / (1 - u / 2 ^ L) ≤ floorHorner L u cs := by
  have hσ₀ : (0 : ℝ) ≤ u / 2 ^ L := by positivity
  have hpos : (0 : ℝ) < 1 - u / 2 ^ L := by linarith
  have hfix : u / 2 ^ L * (1 / (1 - u / 2 ^ L)) + 1 = 1 / (1 - (u : ℝ) / 2 ^ L) := by
    generalize (u : ℝ) / 2 ^ L = σ at hpos
    field_simp; ring
  induction cs with
  | nil => simpa [floorHorner] using hσ.le
  | cons c cs ih =>
      obtain ⟨f, -, hf, e⟩ := loss_cons (L := L) (u := u) c cs
      have := mul_le_mul_of_nonneg_left (sub_le_comm.mp ih) hσ₀
      linarith

end Loss

theorem floorHorner_nonneg {L : ℕ} {u : ℤ} (hu : 0 ≤ u) {cs : List ℤ}
    (h : ∀ c ∈ cs, 0 ≤ c) : 0 ≤ floorHorner L u cs := by
  induction cs with
  | nil => exact le_rfl
  | cons c cs ih =>
      have hc := h c (by simp)
      have hq : 0 ≤ floorHorner L u cs * u / 2 ^ L :=
        Int.ediv_nonneg (mul_nonneg (ih fun x hx => h x (by simp [hx])) hu) (by positivity)
      simp only [floorHorner]
      omega

/-! ### Comparing coefficients and arguments -/

section Compare

variable {σ δ : ℝ}

/-- Coefficients that differ by at most `δ` give values that differ by at most
`δ / (1 - σ)`. -/
theorem abs_polyEval_sub_le (h₀ : 0 ≤ σ) (h₁ : σ < 1) (hδ : 0 ≤ δ) {cs ds : List ℝ}
    (h : List.Forall₂ (fun c d => |c - d| ≤ δ) cs ds) :
    |polyEval σ cs - polyEval σ ds| ≤ δ / (1 - σ) := by
  have hpos : 0 < 1 - σ := by linarith
  induction h with
  | nil => simp only [polyEval_nil, sub_self, abs_zero]; positivity
  | @cons c d cs ds hcd _ ih =>
      have e : polyEval σ (c :: cs) - polyEval σ (d :: ds)
          = (c - d) + σ * (polyEval σ cs - polyEval σ ds) := by
        simp only [polyEval_cons]; ring
      have hfix : δ + σ * (δ / (1 - σ)) = δ / (1 - σ) := by field_simp; ring
      calc |polyEval σ (c :: cs) - polyEval σ (d :: ds)|
          ≤ |c - d| + |σ * (polyEval σ cs - polyEval σ ds)| := e ▸ abs_add_le _ _
        _ = |c - d| + σ * |polyEval σ cs - polyEval σ ds| := by
            rw [abs_mul, abs_of_nonneg h₀]
        _ ≤ δ + σ * (δ / (1 - σ)) :=
            add_le_add hcd (mul_le_mul_of_nonneg_left ih h₀)
        _ = δ / (1 - σ) := hfix

theorem polyEval_map_mul (σ a : ℝ) (cs : List ℝ) :
    polyEval σ (cs.map (a * ·)) = a * polyEval σ cs := by
  induction cs with
  | nil => simp
  | cons c cs ih => simp only [List.map_cons, polyEval_cons, ih]; ring

theorem polyEval_nonneg (h₀ : 0 ≤ σ) {cs : List ℝ} (h : ∀ c ∈ cs, 0 ≤ c) :
    0 ≤ polyEval σ cs := by
  induction cs with
  | nil => simp
  | cons c cs ih =>
      have hc := h c (by simp)
      have := mul_nonneg h₀ (ih fun x hx => h x (by simp [hx]))
      simp only [polyEval_cons]
      linarith

/-- Coefficients in `[0, A]` keep the value below `A / (1 - σ)`. -/
theorem polyEval_le {A : ℝ} (h₀ : 0 ≤ σ) (h₁ : σ < 1) (hA : 0 ≤ A) {cs : List ℝ}
    (h : ∀ c ∈ cs, c ≤ A) : polyEval σ cs ≤ A / (1 - σ) := by
  have hpos : 0 < 1 - σ := by linarith
  induction cs with
  | nil => simp only [polyEval_nil]; positivity
  | cons c cs ih =>
      have hc := h c (by simp)
      have := mul_le_mul_of_nonneg_left (ih fun x hx => h x (by simp [hx])) h₀
      have hfix : A + σ * (A / (1 - σ)) = A / (1 - σ) := by field_simp; ring
      simp only [polyEval_cons]
      linarith

/-- With nonnegative coefficients a larger argument gives a larger value. -/
theorem polyEval_mono {σ' : ℝ} (h₀ : 0 ≤ σ) (hσ : σ ≤ σ') {cs : List ℝ}
    (h : ∀ c ∈ cs, 0 ≤ c) : polyEval σ cs ≤ polyEval σ' cs := by
  induction cs with
  | nil => simp
  | cons c cs ih =>
      have hcs : ∀ x ∈ cs, 0 ≤ x := fun x hx => h x (by simp [hx])
      have := mul_le_mul hσ (ih hcs) (polyEval_nonneg h₀ hcs) (h₀.trans hσ)
      simp only [polyEval_cons]
      linarith

/-- Moving the argument by `σ' - σ` moves the value by at most that times
`A / (1 - σ')²`. -/
theorem polyEval_sub_le {A σ' : ℝ} (h₀ : 0 ≤ σ) (hσ : σ ≤ σ') (h₁ : σ' < 1) (hA : 0 ≤ A)
    {cs : List ℝ} (h : ∀ c ∈ cs, c ≤ A) :
    polyEval σ' cs - polyEval σ cs ≤ A * (σ' - σ) / (1 - σ') ^ 2 := by
  have hpos : 0 < 1 - σ' := by linarith
  induction cs with
  | nil =>
      simp only [polyEval_nil, sub_self]
      exact div_nonneg (mul_nonneg hA (by linarith)) (by positivity)
  | cons c cs ih =>
      have hcs : ∀ x ∈ cs, x ≤ A := fun x hx => h x (by simp [hx])
      have e : polyEval σ' (c :: cs) - polyEval σ (c :: cs)
          = σ' * (polyEval σ' cs - polyEval σ cs) + (σ' - σ) * polyEval σ cs := by
        simp only [polyEval_cons]; ring
      have hval : polyEval σ cs ≤ A / (1 - σ') :=
        (polyEval_le h₀ (hσ.trans_lt h₁) hA hcs).trans
          (div_le_div_of_nonneg_left hA hpos (by linarith))
      have hfix : σ' * (A * (σ' - σ) / (1 - σ') ^ 2) + (σ' - σ) * (A / (1 - σ'))
          = A * (σ' - σ) / (1 - σ') ^ 2 := by
        field_simp; ring
      calc polyEval σ' (c :: cs) - polyEval σ (c :: cs)
          = σ' * (polyEval σ' cs - polyEval σ cs) + (σ' - σ) * polyEval σ cs := e
        _ ≤ σ' * (A * (σ' - σ) / (1 - σ') ^ 2) + (σ' - σ) * (A / (1 - σ')) :=
            add_le_add (mul_le_mul_of_nonneg_left (ih hcs) (h₀.trans hσ))
              (mul_le_mul_of_nonneg_left hval (by linarith))
        _ = A * (σ' - σ) / (1 - σ') ^ 2 := hfix

end Compare

/-! ### The loop on machine words -/

open Machine

/-- One turn of the loop: `p ← c + ((p * u) >> L)`. -/
def hornerStep (P : Profile) (w L : ℕ) (u c p : ℤ) : Exec ℤ := do
  let q ← P.imul w p u
  let r ← P.ishr w q L
  P.iadd w c r

/-- `p = C[n - 1]; for i in (0..n - 1).rev() { p = C[i] + ((p * u) >> L) }`. -/
def hornerLoop (P : Profile) (w L : ℕ) (u : ℤ) (cs : List ℤ) : Exec ℤ :=
  cs.dropLast.foldrM (fun c p => hornerStep P w L u c p) (cs.getLastD 0)

/-- `B` bounds every partial value of a loop whose coefficients are at most
`C` and whose argument is at most `U`. -/
structure Closed (w L : ℕ) (C U B : ℤ) : Prop where
  shift_lt : L < w
  arg_nonneg : 0 ≤ U
  bound_nonneg : 0 ≤ B
  step : C * 2 ^ L + B * U + 2 ^ L ≤ B * 2 ^ L
  product_lt : B * U < 2 ^ (w - 1)
  bound_lt : B < 2 ^ (w - 1)

section Run

variable {P : Profile} {w L : ℕ} {C U B u : ℤ}

/-- One turn keeps the partial value within `B`. -/
theorem Closed.step_abs_le (hc : Closed w L C U B) (hu : 0 ≤ u) (huU : u ≤ U) {c p : ℤ}
    (hC : |c| ≤ C) (hp : |p| ≤ B) : |c + p * u / 2 ^ L| ≤ B := by
  have hpow : (0 : ℤ) < 2 ^ L := by positivity
  have hpu : |p * u| ≤ B * U := by
    rw [abs_mul, abs_of_nonneg hu]
    exact mul_le_mul hp huU hu hc.bound_nonneg
  obtain ⟨hpu₁, hpu₂⟩ := abs_le.mp hpu
  obtain ⟨hc₁, hc₂⟩ := abs_le.mp hC
  have hq₁ : p * u / 2 ^ L * 2 ^ L ≤ p * u := Int.ediv_mul_le _ hpow.ne'
  have hq₂ : p * u < (p * u / 2 ^ L + 1) * 2 ^ L := Int.lt_ediv_add_one_mul_self _ hpow
  have hstep := hc.step
  generalize p * u / 2 ^ L = q at *
  have hlo : -B * 2 ^ L ≤ (c + q) * 2 ^ L := by nlinarith
  have hhi : (c + q) * 2 ^ L ≤ B * 2 ^ L := by nlinarith
  exact abs_le.mpr ⟨le_of_mul_le_mul_right hlo hpow, le_of_mul_le_mul_right hhi hpow⟩

/-- One turn returns, in every profile. -/
theorem Closed.hornerStep_ok (hc : Closed w L C U B) (hu : 0 ≤ u) (huU : u ≤ U) {c p : ℤ}
    (hC : |c| ≤ C) (hp : |p| ≤ B) :
    hornerStep P w L u c p = .ok (c + p * u / 2 ^ L) := by
  have hpu : |p * u| < 2 ^ (w - 1) := by
    rw [abs_mul, abs_of_nonneg hu]
    exact (mul_le_mul hp huU hu hc.bound_nonneg).trans_lt hc.product_lt
  have hfit := (hc.step_abs_le hu huU hC hp).trans_lt hc.bound_lt
  unfold hornerStep
  rw [Profile.imul_ok (fitsI_of_abs_lt hpu), ok_bind, Profile.ishr_ok hc.shift_lt, ok_bind,
    Profile.iadd_ok (fitsI_of_abs_lt hfit)]

/-- **The loop computes `floorHorner`**, with every partial value within `B`. -/
theorem Closed.hornerLoop_ok (hc : Closed w L C U B) (hu : 0 ≤ u) (huU : u ≤ U) (hCB : C ≤ B)
    {cs : List ℤ} (hne : cs ≠ []) (hC : ∀ c ∈ cs, |c| ≤ C) :
    hornerLoop P w L u cs = .ok (floorHorner L u cs) ∧ |floorHorner L u cs| ≤ B := by
  unfold hornerLoop
  induction cs with
  | nil => exact absurd rfl hne
  | cons c cs ih =>
      have hcC := hC c (by simp)
      rcases cs with - | ⟨d, ds⟩
      · simpa [floorHorner] using hcC.trans hCB
      · obtain ⟨hrun, habs⟩ := ih (by simp) fun x hx => hC x (by simp [hx])
        refine ⟨?_, hc.step_abs_le hu huU hcC habs⟩
        have hlast : (c :: d :: ds).getLastD 0 = (d :: ds).getLastD 0 := by
          simp only [List.getLastD_cons]
        rw [List.dropLast_cons_cons, List.foldrM_cons, hlast, hrun, ok_bind,
          hc.hornerStep_ok hu huU hcC habs]
        rfl

end Run

end Horner
