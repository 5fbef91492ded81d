/-
WeightedMath/Grader.lean

The differential grader of the test harness (`crates/harness`): the quantizer
that reads a reference value from a fixture, and the one-sided band checker
that compares a result of the kernel with it.

A fixture keeps a truth `v` in `[0, 1)` as the decimal string of

    q = floor (v * 2^128),

and the quantizer recovers from it the two grid points around `v`:

    t_floor = q / 2^76,    t_ceil = t_floor + (1 if q has a low bit set).

The floor of a floor is the floor, so `t_floor` is always right.  The ceiling
is not: the low bits of `q` can all be zero although `v` lies above the grid
point `q / 2^76`, by less than `2^-128`.  There `t_ceil` is `t_floor`, and a
result on that grid point passes the upward check although it understates `v`.
`grading_right_iff` says that this and the overflow of the `i128` difference
are the only ways the verdict can be wrong.
-/
import WeightedMath.Fixed

namespace WeightedMath

open Machine

/-! ### The quantizer -/

/-- Why `str::parse` refuses a string. -/
inductive IntErrorKind
  | empty
  | invalidDigit
  | posOverflow
  deriving DecidableEq, Repr

/-- What a `ParseIntError` prints. -/
def IntErrorKind.text : IntErrorKind → String
  | .empty => "cannot parse integer from empty string"
  | .invalidDigit => "invalid digit found in string"
  | .posOverflow => "number too large to fit in target type"

/-- The digits of a `u128`, most significant first, after those in `n`. -/
def parseDigits : List Char → ℕ → Except IntErrorKind ℕ
  | [], n => .ok n
  | c :: cs, n =>
      if c.isDigit then
        if 10 * n + (c.toNat - '0'.toNat) < 2 ^ 128 then
          parseDigits cs (10 * n + (c.toNat - '0'.toNat))
        else .error .posOverflow
      else .error .invalidDigit

/-- `u128::from_str`: digits after an optional plus sign. -/
def u128FromStr (s : String) : Except IntErrorKind ℕ :=
  match s.toList with
  | [] => .error .empty
  | ['+'] => .error .invalidDigit
  | ['-'] => .error .invalidDigit
  | '+' :: cs => parseDigits cs 0
  | cs => parseDigits cs 0

def parseU128 (s : String) : Exec ℕ :=
  match u128FromStr s with
  | .ok n => .ok n
  | .error e => .error (.explicit ("parsing u128 " ++ debugStr s ++ ": " ++ e.text))

/-- The reference value's floor and ceiling on the `2^-SCALE` grid, from a
`floor(value * 2^qbits)` fixture field. -/
def qToScaleBounds (B : Build) (q : String) (qbits : ℕ) : Exec (ℤ × ℤ) := do
  assert (qbits ≥ B.scale) "assertion failed: qbits >= SCALE"
  let q ← parseU128 q
  let shift ← B.usub 32 qbits B.scale
  let f ← B.ushr 128 q shift
  let floor ← B.asSigned 128 f
  let unit ← B.ushl 128 1 shift
  let low ← B.usub 128 unit 1
  -- without low bits the value is taken to be on the grid, except where the
  -- field has no low bits at all
  let ceil ← B.iadd 128 floor (decide (q &&& low ≠ 0 ∨ shift = 0)).toNat
  return (floor, ceil)

/-! ### The band checker -/

inductive Direction
  /-- Result must never understate the truth. -/
  | up
  /-- Result must never overstate the truth. -/
  | down
  deriving DecidableEq, Repr

/-- Outcome of a band check.  `wrongSide` is the fund-leak category and fails
regardless of magnitude; `tooFar` is a precision shortfall. -/
inductive Band
  | ok (errUlps : ℕ)
  | wrongSide (byUlps : ℕ)
  | tooFar (errUlps boundUlps : ℕ)
  deriving DecidableEq, Repr

/-- Algorithmic error allowance, in ulps, on top of the quantization floor. -/
def budgetUlps : ℕ := 3

def boundUlps : ℕ := 1 + budgetUlps

/-- The error on the side the direction allows. -/
def signedErr (P : Profile) (tFloor tCeil actual : ℤ) : Direction → Exec ℤ
  | .down => P.isub 128 tFloor actual
  | .up => P.isub 128 actual tCeil

/-- Checks `actual` against the truth's grid bounds `(tFloor, tCeil)`. -/
def checkDirectional (P : Profile) (tFloor tCeil actual : ℤ) (direction : Direction)
    (boundUlps : ℕ) : Exec Band := do
  let err ← signedErr P tFloor tCeil actual direction
  if err < 0 then return .wrongSide err.natAbs
  else
    let err ← P.asUnsigned 128 err
    if err > boundUlps then return .tooFar err boundUlps
    else return .ok err

/-! ### Reading a fixture -/

theorem le_ofDigitChars (cs : List Char) (n : ℕ) : n ≤ Nat.ofDigitChars 10 cs n := by
  induction cs generalizing n with
  | nil => simp
  | cons c cs ih =>
      rw [Nat.ofDigitChars_cons]
      exact le_trans (by omega) (ih _)

/-- Digits whose value is a word are read as their value. -/
theorem parseDigits_ok {cs : List Char} {n : ℕ} (hd : ∀ c ∈ cs, c.isDigit = true)
    (h : Nat.ofDigitChars 10 cs n < 2 ^ 128) :
    parseDigits cs n = .ok (Nat.ofDigitChars 10 cs n) := by
  induction cs generalizing n with
  | nil => simp [parseDigits]
  | cons c cs ih =>
      rw [Nat.ofDigitChars_cons] at h ⊢
      have hlt := (le_ofDigitChars cs _).trans_lt h
      rw [parseDigits, if_pos (hd c (by simp)), if_pos hlt]
      apply ih _ h
      intro c' hc'
      exact hd c' (by simp [hc'])

/-- A printed word is read back: all its characters are digits, and a sign is none. -/
theorem u128FromStr_repr {n : ℕ} (h : n < 2 ^ 128) : u128FromStr (Nat.repr n) = .ok n := by
  have hdig : ∀ c ∈ Nat.toDigits 10 n, c.isDigit = true := by
    intro c hc
    exact Nat.isDigit_of_mem_toDigits (by norm_num) le_rfl hc
  have hval := parseDigits_ok (n := 0) hdig (by rwa [Nat.ofDigitChars_ten_toDigits])
  rw [Nat.ofDigitChars_ten_toDigits] at hval
  rw [u128FromStr, Nat.toList_repr]
  split
  · next e => exact absurd e Nat.toDigits_ne_nil
  · next e => exact absurd (hdig '+' (by simp [e])) (by decide)
  · next e => exact absurd (hdig '-' (by simp [e])) (by decide)
  · next e => exact absurd (hdig '+' (by simp [e])) (by decide)
  · exact hval

theorem parseU128_repr {n : ℕ} (h : n < 2 ^ 128) : parseU128 (Nat.repr n) = .ok n := by
  rw [parseU128, u128FromStr_repr h]

/-- The upper grid point of a truth in `[0, 1]` is at most one. -/
theorem ceil_le_one {S n : ℕ} (hS : S ≤ 128) (h : n ≤ 2 ^ 128) : n ⌈/⌉ 2 ^ (128 - S) ≤ 2 ^ S := by
  rw [ceilDiv_le_iff_le_mul (by positivity), ← pow_add, Nat.sub_add_cancel hS]
  exact h

theorem floor_le_ceil (n : ℕ) {b : ℕ} (hb : 0 < b) : n / b ≤ n ⌈/⌉ b :=
  Nat.div_le_of_le_mul (le_mul_ceilDiv n hb)

/-- **The quantizer** on a printed field of more bits than the scale: floor and
ceiling of the field in units of the scale. -/
theorem qToScaleBounds_bits (B : Build) {n qbits : ℕ} (h : n < 2 ^ 128) (hq : B.scale < qbits)
    (hq₁ : qbits ≤ 128) (hone : n ⌈/⌉ 2 ^ (qbits - B.scale) < 2 ^ 127) :
    qToScaleBounds B (Nat.repr n) qbits
      = .ok ((n / 2 ^ (qbits - B.scale) : ℕ), (n ⌈/⌉ 2 ^ (qbits - B.scale) : ℕ)) := by
  have hS₀ := B.seven_le_scale
  unfold qToScaleBounds
  rw [assert_ok (by omega), ok_bind, parseU128_repr h, ok_bind, Profile.usub_ok (by omega), ok_bind]
  have hfloor := (floor_le_ceil n (Nat.two_pow_pos (qbits - B.scale))).trans_lt hone
  obtain ⟨shift, hshift⟩ : ∃ shift, shift = qbits - B.scale := ⟨_, rfl⟩
  rw [← hshift] at hone hfloor ⊢
  have hs : shift < 128 := by omega
  have hs₀ : shift ≠ 0 := by omega
  have hceil := floor_add_carry n hs
  rw [Nat.mod_eq_of_lt h] at hceil
  have hsum : ((n / 2 ^ shift : ℕ) : ℤ)
      + ((decide (n &&& (2 ^ shift - 1) ≠ 0 ∨ shift = 0)).toNat : ℤ)
        = (n ⌈/⌉ 2 ^ shift : ℕ) := by
    simp only [hs₀, or_false]
    exact_mod_cast hceil
  have hfit : FitsI 128 ((n ⌈/⌉ 2 ^ shift : ℕ) : ℤ) :=
    fitsI_of_nonneg (by positivity) (by exact_mod_cast hone)
  rw [Profile.ushr_ok hs, ok_bind, Nat.shiftRight_eq_div_pow,
    Profile.asSigned_ok (by norm_num) hfloor, ok_bind, Profile.ushl_one_ok hs, ok_bind,
    Profile.usub_ok Nat.one_le_two_pow, ok_bind,
    Profile.iadd_ok (hsum ▸ hfit), ok_bind, pure_eq_ok, hsum]

/-- On a printed 128-bit field. -/
theorem qToScaleBounds_repr (B : Build) {n : ℕ} (h : n < 2 ^ 128) :
    qToScaleBounds B (Nat.repr n) 128
      = .ok ((n / 2 ^ (128 - B.scale) : ℕ), (n ⌈/⌉ 2 ^ (128 - B.scale) : ℕ)) := by
  have hS := B.scale_le_sixty
  refine qToScaleBounds_bits B h (by omega) le_rfl ?_
  exact (ceil_le_one (by omega) h.le).trans_lt (Nat.pow_lt_pow_right (by norm_num) (by omega))

/-! ### Verdicts -/

/-- The check reports a fund leak.  A run that stops reports nothing. -/
def WrongSide (r : Exec Band) : Prop := ∃ n, r = .ok (.wrongSide n)

section Verdict

variable {P : Profile}

/-- The verdict is the sign of the error, where the error is computed at all. -/
theorem wrongSide_iff {tFloor tCeil actual : ℤ} {direction : Direction} {bound : ℕ} :
    WrongSide (checkDirectional P tFloor tCeil actual direction bound) ↔
      ∃ err, signedErr P tFloor tCeil actual direction = .ok err ∧ err < 0 := by
  constructor
  · rintro ⟨n, h⟩
    obtain ⟨err, herr, h⟩ := bind_eq_ok.mp h
    refine ⟨err, herr, ?_⟩
    by_contra hneg
    -- the other two verdicts
    rw [if_neg hneg] at h
    obtain ⟨e, -, h⟩ := bind_eq_ok.mp h
    split_ifs at h <;> simp at h
  · rintro ⟨err, herr, hneg⟩
    refine ⟨err.natAbs, ?_⟩
    show signedErr P tFloor tCeil actual direction >>= _ = _
    rw [herr, ok_bind, if_pos hneg, pure_eq_ok]

end Verdict

/-! ### Truth and grid -/

/-- What a fixture keeps of a truth: its first 128 bits. -/
noncomputable def stored (v : ℝ) : ℕ := ⌊v * ((2 ^ 128 : ℕ) : ℝ)⌋₊

section Truth

variable {v : ℝ}

theorem stored_lt (h₁ : v < 1) : stored v < 2 ^ 128 := by
  apply (Nat.floor_lt' (by positivity)).mpr
  exact mul_lt_of_lt_one_left (by positivity) h₁

/-- The floor of the floor is the floor. -/
theorem floor_stored (v : ℝ) : stored v / 2 ^ 76 = ⌊v * 2 ^ 52⌋₊ := by
  rw [stored, ← Nat.floor_div_natCast]
  congr 1
  push_cast
  ring

theorem floor_stored_lt_iff (h₀ : 0 ≤ v) {z : ℤ} :
    ((stored v / 2 ^ 76 : ℕ) : ℤ) < z ↔ v * 2 ^ 52 < z := by
  rw [floor_stored, Int.natCast_floor_eq_floor (by positivity)]
  exact Int.floor_lt

/-- The recovered ceiling by the bits it was recovered from. -/
theorem ceil_le_int_iff {n : ℕ} {z : ℤ} :
    ((n ⌈/⌉ 2 ^ 76 : ℕ) : ℤ) ≤ z ↔ (n : ℤ) ≤ z * 2 ^ 76 := by
  cases z with
  | ofNat k =>
      have h := ceilDiv_le_iff_le_mul (b := n) (c := k) (show 0 < 2 ^ 76 by norm_num)
      rw [Int.ofNat_eq_natCast, mul_comm]
      exact_mod_cast h
  | negSucc k => omega

/-- An integer below the truth is below the stored bits, or hidden by them. -/
theorem lt_truth_iff (h₀ : 0 ≤ v) {z : ℤ} :
    (z : ℝ) < v * 2 ^ 52 ↔
      z * 2 ^ 76 < stored v ∨ (stored v : ℤ) = z * 2 ^ 76 ∧ (z : ℝ) < v * 2 ^ 52 := by
  have hcast : (stored v : ℤ) = ⌊v * 2 ^ 128⌋ := by
    rw [stored, Int.natCast_floor_eq_floor (by positivity)]
    norm_num
  constructor
  · intro h
    have hle : z * 2 ^ 76 ≤ (stored v : ℤ) := by
      rw [hcast, Int.le_floor]
      push_cast
      linarith
    rcases hle.lt_or_eq with hlt | heq
    · exact .inl hlt
    · exact .inr ⟨heq.symm, h⟩
  · rintro (hlt | ⟨-, h⟩)
    · have hle : ((stored v : ℤ) : ℝ) ≤ v * 2 ^ 128 := by
        rw [hcast]
        exact Int.floor_le _
      have hlt' : ((z * 2 ^ 76 : ℤ) : ℝ) < (stored v : ℤ) := by exact_mod_cast hlt
      push_cast at hlt' hle
      linarith
    · exact h

end Truth

/-! ### When the verdict is right -/

section Grading

variable {P : Profile} {v : ℝ} {actual : ℤ}

/-- The downward verdict is right unless the difference wraps: a build without
overflow checks then takes a result far below the truth for one above it. -/
theorem down_right_iff (h₀ : 0 ≤ v) (h₁ : v < 1) (hfit : FitsI 128 actual) (tCeil : ℤ)
    (bound : ℕ) :
    (WrongSide (checkDirectional P (stored v / 2 ^ 76 : ℕ) tCeil actual .down bound) ↔
        v * 2 ^ 52 < actual) ↔
      (P.overflowChecks = false → ¬ (actual + 2 ^ 127) * 2 ^ 76 ≤ stored v) := by
  have hq := stored_lt h₁
  obtain ⟨hlo, hhi⟩ := fitsI_128.mp hfit
  have hsigned : signedErr P (stored v / 2 ^ 76 : ℕ) tCeil actual .down
      = P.settleI 128 ((stored v / 2 ^ 76 : ℕ) - actual) := rfl
  have htop : 2 ^ 127 ≤ ((stored v / 2 ^ 76 : ℕ) : ℤ) - actual ↔
      (actual + 2 ^ 127) * 2 ^ 76 ≤ stored v := by omega
  rw [wrongSide_iff, hsigned, Profile.settleI_neg_iff (by omega) (by omega), htop,
    ← floor_stored_lt_iff h₀]
  cases hP : P.overflowChecks with
  | true => simp; omega
  | false => simp; omega

/-- The upward verdict is right unless the stored bits hide the truth behind the
result, or the difference wraps. -/
theorem up_right_iff (h₀ : 0 ≤ v) (h₁ : v < 1) (hfit : FitsI 128 actual) (tFloor : ℤ)
    (bound : ℕ) :
    (WrongSide (checkDirectional P tFloor (stored v ⌈/⌉ 2 ^ 76 : ℕ) actual .up bound) ↔
        (actual : ℝ) < v * 2 ^ 52) ↔
      ¬ ((stored v : ℤ) = actual * 2 ^ 76 ∧ (actual : ℝ) < v * 2 ^ 52) ∧
        ¬ (actual + 2 ^ 127) * 2 ^ 76 < stored v := by
  obtain ⟨hlo, hhi⟩ := fitsI_128.mp hfit
  have hsigned : signedErr P tFloor (stored v ⌈/⌉ 2 ^ 76 : ℕ) actual .up
      = P.settleI 128 (actual - (stored v ⌈/⌉ 2 ^ 76 : ℕ)) := rfl
  have hone : stored v ⌈/⌉ 2 ^ 76 ≤ 2 ^ 52 :=
    ceil_le_one (S := 52) (by norm_num) (stored_lt h₁).le
  have hgrid := ceil_le_int_iff (n := stored v) (z := actual)
  have hbot := ceil_le_int_iff (n := stored v) (z := actual + 2 ^ 127)
  have htruth := lt_truth_iff h₀ (z := actual)
  rw [wrongSide_iff, hsigned, Profile.settleI_neg_iff (by omega) (by omega)]
  generalize stored v ⌈/⌉ 2 ^ 76 = c at *
  generalize ((actual : ℝ) < v * 2 ^ 52) = T at *
  by_cases hT : T
  · -- the result understates the truth
    simp only [hT, and_true, true_iff, iff_true] at htruth ⊢
    omega
  · -- it does not, and lies on or above the recovered ceiling
    simp only [hT, and_false, or_false, false_iff, iff_false, not_false_eq_true,
      true_and] at htruth ⊢
    omega

/-- **When the grader is right.**  On the grid points that the quantizer reads from
the printed bits of `v`, both verdicts are right iff the stored bits do not hide
the truth behind the result and neither difference wraps. -/
theorem grading_right_iff (P : Profile) (h₀ : 0 ≤ v) (h₁ : v < 1) (hfit : FitsI 128 actual)
    (bound : ℕ) :
    ∃ tFloor tCeil,
      qToScaleBounds (Build.kernel P) (Nat.repr (stored v)) 128 = .ok (tFloor, tCeil) ∧
      ((WrongSide (checkDirectional P tFloor tCeil actual .down bound) ↔
            v * 2 ^ 52 < actual) ∧
          (WrongSide (checkDirectional P tFloor tCeil actual .up bound) ↔
            (actual : ℝ) < v * 2 ^ 52) ↔
        ¬ ((stored v : ℤ) = actual * 2 ^ 76 ∧ (actual : ℝ) < v * 2 ^ 52) ∧
          ¬ (actual + 2 ^ 127) * 2 ^ 76 < stored v ∧
          (P.overflowChecks = false → ¬ (actual + 2 ^ 127) * 2 ^ 76 ≤ stored v)) := by
  refine ⟨_, _, qToScaleBounds_repr (Build.kernel P) (stored_lt h₁), ?_⟩
  have hdown := down_right_iff (P := P) h₀ h₁ hfit (stored v ⌈/⌉ 2 ^ 76 : ℕ) bound
  have hup := up_right_iff (P := P) h₀ h₁ hfit (stored v / 2 ^ 76 : ℕ) bound
  rw [← and_assoc, and_comm]
  exact and_congr hup hdown

/-- One half on its own grid point. -/
theorem grading_right_half :
    ∃ tFloor tCeil,
      qToScaleBounds (Build.kernel .wrapping) (Nat.repr (stored (1 / 2))) 128
        = .ok (tFloor, tCeil) ∧
      (WrongSide (checkDirectional .wrapping tFloor tCeil (2 ^ 51) .down boundUlps) ↔
        (1 / 2 : ℝ) * 2 ^ 52 < ((2 ^ 51 : ℤ) : ℝ)) ∧
      (WrongSide (checkDirectional .wrapping tFloor tCeil (2 ^ 51) .up boundUlps) ↔
        ((2 ^ 51 : ℤ) : ℝ) < 1 / 2 * 2 ^ 52) := by
  have hlt : (1 / 2 : ℝ) < 1 := by norm_num
  obtain ⟨tFloor, tCeil, hq, hright⟩ := grading_right_iff .wrapping (by norm_num) hlt
    (show FitsI 128 (2 ^ 51) from fitsI_128.mpr (by norm_num)) boundUlps
  have hstored := stored_lt hlt
  refine ⟨tFloor, tCeil, hq, hright.mpr ⟨?_, ?_, ?_⟩⟩
  · rintro ⟨-, h⟩
    norm_num at h
  · omega
  · intro _
    omega

/-- `(2^-40)^99`, the power of the smallest fixture base with the largest exponent,
leaves nothing in 128 bits. -/
theorem stored_tiny : stored ((1 / 2 ^ 40) ^ 99) = 0 := by
  apply Nat.floor_eq_zero.mpr
  have hle : ((1 : ℝ) / 2 ^ 40) ^ 99 ≤ (1 / 2 ^ 40) ^ 4 :=
    pow_le_pow_of_le_one (by positivity) (by norm_num) (by norm_num)
  calc ((1 : ℝ) / 2 ^ 40) ^ 99 * ((2 ^ 128 : ℕ) : ℝ)
      ≤ (1 / 2 ^ 40) ^ 4 * ((2 ^ 128 : ℕ) : ℝ) := mul_le_mul_of_nonneg_right hle (by positivity)
    _ < 1 := by norm_num

/-- **An understated power that passes**: the truth is `(2^-40)^99`, the result 0, and
the upward check accepts it with no error. -/
theorem zero_passes_upward :
    qToScaleBounds (Build.kernel .checked) (Nat.repr (stored ((1 / 2 ^ 40) ^ 99))) 128
        = .ok (0, 0) ∧
      checkDirectional .checked 0 0 0 .up boundUlps = .ok (.ok 0) ∧
      ((0 : ℤ) : ℝ) < (1 / 2 ^ 40) ^ 99 * 2 ^ 52 ∧
      ¬ (WrongSide (checkDirectional .checked 0 0 0 .up boundUlps) ↔
        ((0 : ℤ) : ℝ) < (1 / 2 ^ 40) ^ 99 * 2 ^ 52) := by
  have hpass : checkDirectional .checked 0 0 0 .up boundUlps = .ok (.ok 0) := by decide +kernel
  have hpos : ((0 : ℤ) : ℝ) < (1 / 2 ^ 40) ^ 99 * 2 ^ 52 := by
    rw [Int.cast_zero]
    positivity
  refine ⟨?_, hpass, hpos, ?_⟩
  · rw [stored_tiny, qToScaleBounds_repr _ (by norm_num)]
    simp
  · intro h
    obtain ⟨n, hn⟩ := h.mpr hpos
    rw [hpass] at hn
    cases hn

end Grading

end WeightedMath
