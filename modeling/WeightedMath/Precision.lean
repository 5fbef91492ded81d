/-
WeightedMath/Precision.lean

Numbers known to a relative precision.

`Near ε x a` says that `x` stands for `a` with a relative error of at most `ε`.
Products and quotients add the errors up, and the constants here leave room for
the rounding of the result, so that a computation is followed operation by
operation.  Three functions have conditions of their own:

* a logarithm turns a relative error into an absolute one, and is relative again
  only away from one (`Near.log`);
* an exponential turns an absolute error into a relative one (`near_exp`);
* `1 - exp t` keeps a relative error for `t <= 0`, however small `t` is
  (`Near.one_sub_exp`), which is why it is not computed by a subtraction.
-/
import Mathlib

namespace Precision

/-- `x` is `a` but for a relative error of `ε`. -/
def Near (ε x a : ℝ) : Prop := |x - a| ≤ ε * |a|

section Near

variable {ε δ x y a b c : ℝ}

theorem Near.mono (h : Near ε x a) (hle : ε ≤ δ) : Near δ x a :=
  le_trans h (mul_le_mul_of_nonneg_right hle (abs_nonneg a))

theorem near_self (hε : 0 ≤ ε) (a : ℝ) : Near ε a a := by
  show |a - a| ≤ ε * |a|
  rw [sub_self, abs_zero]
  exact mul_nonneg hε (abs_nonneg a)

/-- Zero is known exactly. -/
theorem Near.eq_zero (h : Near ε x 0) : x = 0 := by
  have hle : |x - 0| ≤ ε * |0| := h
  rw [sub_zero, abs_zero, mul_zero] at hle
  exact abs_nonpos_iff.mp hle

theorem Near.neg (h : Near ε x a) : Near ε (-x) (-a) := by
  show |-x - -a| ≤ ε * |-a|
  rw [abs_neg, neg_sub_neg, abs_sub_comm]
  exact h

theorem Near.abs (h : Near ε x a) : Near ε |x| |a| := by
  show |(|x| - |a|)| ≤ ε * |(|a|)|
  rw [abs_abs]
  exact (abs_abs_sub_abs_le x a).trans h

theorem Near.bounds (h : Near ε x a) (ha : 0 ≤ a) : (1 - ε) * a ≤ x ∧ x ≤ (1 + ε) * a := by
  have hle : |x - a| ≤ ε * |a| := h
  rw [abs_of_nonneg ha] at hle
  obtain ⟨h₁, h₂⟩ := abs_le.mp hle
  exact ⟨by linarith, by linarith⟩

theorem Near.nonneg (h : Near ε x a) (hε : ε ≤ 1) (ha : 0 ≤ a) : 0 ≤ x :=
  (mul_nonneg (sub_nonneg.mpr hε) ha).trans (h.bounds ha).1

theorem Near.pos (h : Near ε x a) (hε : ε < 1) (ha : 0 < a) : 0 < x :=
  lt_of_lt_of_le (mul_pos (sub_pos.mpr hε) ha) (h.bounds ha.le).1

/-- What is not too small is not smaller than what it stands for, but for twice
the error. -/
theorem Near.le (h : Near ε x a) (hε₀ : 0 ≤ ε) (hε : ε ≤ 1 / 2) (ha : 0 ≤ a) :
    a ≤ x * (1 + 2 * ε) := by
  have hx := (h.bounds ha).1
  have hscaled := mul_le_mul_of_nonneg_right hx (show 0 ≤ 1 + 2 * ε by linarith)
  have hcurve := mul_nonneg (mul_nonneg hε₀ (show 0 ≤ 1 - 2 * ε by linarith)) ha
  linarith

/-- What stands for a number between zero and one is between them too, if the
number stays as far below one as the error may be. -/
theorem Near.of_le_one_sub (h : Near ε x a) (hε : 0 < ε) (ha₀ : 0 ≤ a) (ha₁ : a ≤ 1 - ε) :
    |x - a| ≤ ε ∧ 0 ≤ x ∧ x < 1 := by
  have hε₁ : ε ≤ 1 := by linarith
  have hprod := mul_le_mul_of_nonneg_left ha₁ hε.le
  have hsq := mul_pos hε hε
  refine ⟨?_, h.nonneg hε₁ ha₀, ?_⟩
  · have hle : |x - a| ≤ ε * |a| := h
    rw [abs_of_nonneg ha₀] at hle
    linarith
  · have := (h.bounds ha₀).2
    linarith

theorem Near.abs_le_two_mul (h : Near ε x a) (hε : ε ≤ 1) : |x| ≤ 2 * |a| := by
  have htri := abs_sub_abs_le_abs_sub x a
  have := mul_le_mul_of_nonneg_right hε (abs_nonneg a)
  have hle : |x - a| ≤ ε * |a| := h
  linarith

/-- Two errors one after the other. -/
theorem Near.trans (h : Near ε x a) (h' : Near ε a b) (hε₀ : 0 ≤ ε) (hε : ε ≤ 1) :
    Near (3 * ε) x b := by
  have h₁ : |x - a| ≤ ε * |a| := h
  have h₂ : |a - b| ≤ ε * |b| := h'
  have ha := mul_le_mul_of_nonneg_left (h'.abs_le_two_mul hε) hε₀
  calc |x - b| ≤ |x - a| + |a - b| := abs_sub_le x a b
    _ ≤ 3 * ε * |b| := by linarith

theorem Near.mul (h : Near ε x a) (h' : Near ε y b) (hε : ε ≤ 1) :
    Near (3 * ε) (x * y) (a * b) := by
  have h₁ : |x - a| ≤ ε * |a| := h
  have h₂ : |y - b| ≤ ε * |b| := h'
  have hx := h.abs_le_two_mul hε
  have hprod₁ : |x| * |y - b| ≤ 2 * |a| * (ε * |b|) :=
    mul_le_mul hx h₂ (abs_nonneg _) (by positivity)
  have hprod₂ : |x - a| * |b| ≤ ε * |a| * |b| := mul_le_mul_of_nonneg_right h₁ (abs_nonneg b)
  calc |x * y - a * b| = |x * (y - b) + (x - a) * b| := by ring_nf
    _ ≤ |x * (y - b)| + |(x - a) * b| := abs_add_le _ _
    _ = |x| * |y - b| + |x - a| * |b| := by rw [abs_mul, abs_mul]
    _ ≤ 3 * ε * |a * b| := by rw [abs_mul]; linarith

theorem Near.inv (h : Near ε x a) (hε : ε ≤ 1 / 2) (ha : a ≠ 0) : Near (2 * ε) x⁻¹ a⁻¹ := by
  have h₁ : |x - a| ≤ ε * |a| := h
  have ha₀ : 0 < |a| := abs_pos.mpr ha
  have hx : |a| ≤ 2 * |x| := by
    have htri := abs_sub_abs_le_abs_sub a x
    rw [abs_sub_comm] at htri
    have := mul_le_mul_of_nonneg_right hε (abs_nonneg a)
    linarith
  have hx₀ : 0 < |x| := by linarith
  have hne : x ≠ 0 := abs_pos.mp hx₀
  show |x⁻¹ - a⁻¹| ≤ 2 * ε * |a⁻¹|
  rw [inv_sub_inv hne ha, abs_div, abs_mul, abs_inv, abs_sub_comm, div_le_iff₀ (by positivity)]
  have hε₀ : 0 ≤ ε := nonneg_of_mul_nonneg_left ((abs_nonneg _).trans h₁) ha₀
  calc |x - a| ≤ ε * |a| := h₁
    _ ≤ ε * (2 * |x|) := mul_le_mul_of_nonneg_left hx hε₀
    _ = 2 * ε * |a|⁻¹ * (|x| * |a|) := by field_simp

theorem Near.div (h : Near ε x a) (h' : Near ε y b) (hε₀ : 0 ≤ ε) (hε : ε ≤ 1 / 2) (hb : b ≠ 0) :
    Near (6 * ε) (x / y) (a / b) := by
  rw [div_eq_mul_inv, div_eq_mul_inv]
  have := (h.mono (show ε ≤ 2 * ε by linarith)).mul (h'.inv hε hb) (by linarith)
  exact this.mono (by linarith)

end Near

section Functions

variable {ε δ L x y a b s t : ℝ}

/-- The logarithm of a number known to a relative precision. -/
theorem Near.abs_log_sub_le (h : Near ε x a) (hε₀ : 0 ≤ ε) (hε : ε ≤ 1 / 2) (ha : 0 < a) :
    |Real.log x - Real.log a| ≤ 2 * ε := by
  have hx := h.pos (by linarith) ha
  obtain ⟨h₁, h₂⟩ := h.bounds ha.le
  have hratio : Real.log x - Real.log a = Real.log (x / a) := (Real.log_div hx.ne' ha.ne').symm
  have hq : 0 < x / a := div_pos hx ha
  have hlo : 1 - ε ≤ x / a := (le_div_iff₀ ha).mpr h₁
  have hhi : x / a ≤ 1 + ε := (div_le_iff₀ ha).mpr h₂
  have hupper := Real.log_le_sub_one_of_pos hq
  have hlower := Real.one_sub_inv_le_log_of_pos hq
  have hinv : (x / a)⁻¹ ≤ 1 + 2 * ε := by
    rw [inv_le_iff_one_le_mul₀ hq]
    calc 1 ≤ (1 + 2 * ε) * (1 - ε) := by nlinarith
      _ ≤ (1 + 2 * ε) * (x / a) := mul_le_mul_of_nonneg_left hlo (by linarith)
  rw [hratio]
  exact abs_le.mpr ⟨by linarith, by linarith⟩

/-- Away from one the error is relative again. -/
theorem Near.log (h : Near ε x a) (hε₀ : 0 ≤ ε) (hε : ε ≤ 1 / 2) (ha : 0 < a)
    (hL : 1 ≤ L * |Real.log a|) : Near (2 * ε * L) (Real.log x) (Real.log a) := by
  calc |Real.log x - Real.log a| ≤ 2 * ε * 1 := by
        rw [mul_one]
        exact h.abs_log_sub_le hε₀ hε ha
    _ ≤ 2 * ε * (L * |Real.log a|) := mul_le_mul_of_nonneg_left hL (by linarith)
    _ = 2 * ε * L * |Real.log a| := by ring

theorem near_exp (h : |s - t| ≤ ε) (hε : ε ≤ 1) : Near (2 * ε) (Real.exp s) (Real.exp t) := by
  have hsplit : Real.exp s - Real.exp t = Real.exp t * (Real.exp (s - t) - 1) := by
    rw [mul_sub, ← Real.exp_add, mul_one, add_sub_cancel]
  have hone := Real.abs_exp_sub_one_le (h.trans hε)
  show |Real.exp s - Real.exp t| ≤ 2 * ε * |Real.exp t|
  rw [hsplit, abs_mul, mul_comm]
  exact mul_le_mul_of_nonneg_right (hone.trans (by linarith)) (abs_nonneg _)

/-- A power of numbers known to a precision. -/
theorem near_rpow (hx : Near ε x a) (hε₀ : 0 ≤ ε) (hε : ε ≤ 1 / 2) (ha : 0 < a)
    (hy : |y - b| ≤ δ) (hlog : |Real.log a| ≤ L) (hsmall : |y| * (2 * ε) + δ * L ≤ 1) :
    Near (2 * (|y| * (2 * ε) + δ * L)) (x ^ y) (a ^ b) := by
  have hx₀ := hx.pos (by linarith) ha
  rw [Real.rpow_def_of_pos hx₀, Real.rpow_def_of_pos ha]
  refine near_exp ?_ hsmall
  have hδ : 0 ≤ δ := (abs_nonneg _).trans hy
  have h₁ : |y| * |Real.log x - Real.log a| ≤ |y| * (2 * ε) :=
    mul_le_mul_of_nonneg_left (hx.abs_log_sub_le hε₀ hε ha) (abs_nonneg y)
  have h₂ : |y - b| * |Real.log a| ≤ δ * L := mul_le_mul hy hlog (abs_nonneg _) hδ
  calc |Real.log x * y - Real.log a * b|
      = |y * (Real.log x - Real.log a) + (y - b) * Real.log a| := by ring_nf
    _ ≤ |y * (Real.log x - Real.log a)| + |(y - b) * Real.log a| := abs_add_le _ _
    _ = |y| * |Real.log x - Real.log a| + |y - b| * |Real.log a| := by rw [abs_mul, abs_mul]
    _ ≤ |y| * (2 * ε) + δ * L := add_le_add h₁ h₂

/-- `exp t` moves by less than what it lacks to one. -/
theorem exp_mul_neg_le (t : ℝ) : Real.exp t * -t ≤ 1 - Real.exp t := by
  have h := mul_le_mul_of_nonneg_left (Real.add_one_le_exp (-t)) (Real.exp_pos t).le
  rw [← Real.exp_add, add_neg_cancel, Real.exp_zero] at h
  linarith

/-- A small negative exponent takes at least half of itself off. -/
theorem exp_neg_le (h₀ : 0 ≤ s) (h₁ : s ≤ 1) : Real.exp (-s) ≤ 1 - s / 2 := by
  have h := exp_mul_neg_le (-s)
  have hle : Real.exp (-s) * (1 + s) ≤ (1 - s / 2) * (1 + s) := by nlinarith
  exact le_of_mul_le_mul_right hle (by linarith)

/-- A power with base and exponent away from one and zero is away from one. -/
theorem rpow_le_one_sub (ha : 0 < a) (hs : 0 ≤ s) (ht : 0 ≤ t) (has : a ≤ 1 - s) (htb : t ≤ b)
    (hst : s * t ≤ 1) : a ^ b ≤ 1 - s * t / 2 := by
  have hlog : Real.log a ≤ -s := by
    have := Real.log_le_sub_one_of_pos ha
    linarith
  have hexp : Real.log a * b ≤ -(s * t) := by
    have h₁ := mul_le_mul_of_nonneg_right hlog (ht.trans htb)
    have h₂ := mul_le_mul_of_nonneg_left htb hs
    linarith
  rw [Real.rpow_def_of_pos ha]
  exact (Real.exp_le_exp.mpr hexp).trans (exp_neg_le (mul_nonneg hs ht) hst)

theorem exp_sub_exp_le (s t : ℝ) : Real.exp t - Real.exp s ≤ Real.exp t * (t - s) := by
  have h := mul_le_mul_of_nonneg_left (Real.add_one_le_exp (s - t)) (Real.exp_pos t).le
  rw [← Real.exp_add, add_sub_cancel] at h
  linarith

/-- **The complement of an exponential keeps a relative error**, also where it is
tiny. -/
theorem Near.one_sub_exp (h : Near ε s t) (hε₀ : 0 ≤ ε) (hε : ε ≤ 1 / 2) (ht : t ≤ 0) :
    Near (2 * ε) (1 - Real.exp s) (1 - Real.exp t) := by
  obtain ⟨h₁, h₂⟩ := h.neg.bounds (neg_nonneg.mpr ht)
  have hst := exp_sub_exp_le s t
  have hts := exp_sub_exp_le t s
  have hmt := exp_mul_neg_le t
  have hms := exp_mul_neg_le s
  have hpt := Real.exp_pos t
  have hps := Real.exp_pos s
  have hone : Real.exp t ≤ 1 := Real.exp_le_one_iff.mpr ht
  show |1 - Real.exp s - (1 - Real.exp t)| ≤ 2 * ε * |1 - Real.exp t|
  rw [abs_of_nonneg (sub_nonneg.mpr hone), sub_sub_sub_cancel_left]
  refine abs_le.mpr ⟨?_, ?_⟩
  · -- `s` is above `t`, and at most half of `t` is lost on the way
    rcases le_or_gt s t with hle | hlt
    · have := Real.exp_le_exp.mpr hle
      have := mul_nonneg (show 0 ≤ 2 * ε by linarith) (sub_nonneg.mpr hone)
      linarith
    · have hgap : Real.exp s * (s - t) ≤ Real.exp s * (ε * (2 * -s)) := by
        refine mul_le_mul_of_nonneg_left ?_ hps.le
        have := mul_le_mul_of_nonneg_left h₁ hε₀
        nlinarith
      have hmono := Real.exp_le_exp.mpr hlt.le
      have hscaled := mul_le_mul_of_nonneg_left hms (show 0 ≤ 2 * ε by linarith)
      have := mul_le_mul_of_nonneg_left hmono (show 0 ≤ 2 * ε by linarith)
      nlinarith
  · have hgap : Real.exp t * (t - s) ≤ Real.exp t * (ε * -t) :=
      mul_le_mul_of_nonneg_left (by linarith) hpt.le
    have hscaled := mul_le_mul_of_nonneg_left hmt hε₀
    have := mul_nonneg hε₀ (sub_nonneg.mpr hone)
    linarith

end Functions

/-! ### Rounding to a number of bits -/

/-- The nearest number whose last bit is `p` places below the first one of `a`. -/
noncomputable def roundBits (p : ℕ) (a : ℝ) : ℚ :=
  round (a * ((2 ^ ((p : ℤ) - Int.log 2 |a|) : ℚ) : ℝ)) / 2 ^ ((p : ℤ) - Int.log 2 |a|)

section Rounding

variable {p : ℕ}

/-- Rounding has a relative precision of its bits. -/
theorem near_roundBits (p : ℕ) (a : ℝ) : Near (1 / 2 ^ p) (roundBits p a : ℝ) a := by
  rcases eq_or_ne a 0 with rfl | hne
  · show |((roundBits p 0 : ℚ) : ℝ) - 0| ≤ 1 / 2 ^ p * |0|
    rw [roundBits, zero_mul, round_zero, Int.cast_zero, zero_div, Rat.cast_zero, sub_zero, abs_zero,
      mul_zero]
  · have hpos : 0 < |a| := abs_pos.mpr hne
    have hlog := Int.zpow_log_le_self (b := 2) one_lt_two hpos
    have hunit : ((2 ^ ((p : ℤ) - Int.log 2 |a|) : ℚ) : ℝ)⁻¹ ≤ 1 / 2 ^ p * |a| := by
      push_cast at hlog ⊢
      rw [← zpow_neg, neg_sub, zpow_sub₀ two_ne_zero, zpow_natCast, one_div, mul_comm,
        div_eq_mul_inv]
      exact mul_le_mul_of_nonneg_right hlog (by positivity)
    have hu : (0 : ℝ) < ((2 ^ ((p : ℤ) - Int.log 2 |a|) : ℚ) : ℝ) := by
      push_cast
      positivity
    have hround := abs_sub_round (a * ((2 ^ ((p : ℤ) - Int.log 2 |a|) : ℚ) : ℝ))
    show |((roundBits p a : ℚ) : ℝ) - a| ≤ 1 / 2 ^ p * |a|
    refine le_trans ?_ hunit
    unfold roundBits
    rw [Rat.cast_div, Rat.cast_intCast]
    generalize ((2 ^ ((p : ℤ) - Int.log 2 |a|) : ℚ) : ℝ) = u at *
    rw [div_sub' hu.ne', abs_div, abs_of_pos hu, div_le_iff₀ hu, inv_mul_cancel₀ hu.ne',
      abs_sub_comm, mul_comm u]
    linarith

/-- A whole number with no more bits is itself. -/
theorem roundBits_int {z : ℤ} (h : |z| ≤ 2 ^ p) : roundBits p z = z := by
  rcases eq_or_ne z 0 with rfl | hne
  · rw [roundBits, Int.cast_zero, zero_mul, round_zero, Int.cast_zero, zero_div]
  · have hpos : (0 : ℝ) < |(z : ℝ)| := abs_pos.mpr (Int.cast_ne_zero.mpr hne)
    have hlog : Int.log 2 |(z : ℝ)| ≤ p := by
      have hle := Int.zpow_log_le_self (b := 2) one_lt_two hpos
      have htop : |(z : ℝ)| ≤ 2 ^ p := by exact_mod_cast h
      have hpow : (2 : ℝ) ^ Int.log 2 |(z : ℝ)| ≤ 2 ^ (p : ℤ) := by
        rw [zpow_natCast]
        exact_mod_cast hle.trans htop
      exact (zpow_le_zpow_iff_right₀ one_lt_two).mp hpow
    obtain ⟨n, hn⟩ := Int.eq_ofNat_of_zero_le (sub_nonneg.mpr hlog)
    have hint : (z : ℝ) * ((2 ^ (n : ℤ) : ℚ) : ℝ) = ((z * 2 ^ n : ℤ) : ℝ) := by
      rw [zpow_natCast]
      push_cast
      rfl
    have hunit : (2 : ℚ) ^ n ≠ 0 := by positivity
    rw [roundBits, hn, hint, round_intCast, zpow_natCast]
    push_cast
    rw [mul_div_cancel_right₀ _ hunit]

end Rounding

end Precision
