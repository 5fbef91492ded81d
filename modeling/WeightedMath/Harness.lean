/-
WeightedMath/Harness.lean

What the test harness (`crates/harness`) computes with, next to the grader: the
reader of the fixture inputs, the two-sided check, and the double-width words
in which the exact wrappers are judged.

A fixture keeps an input `x` on the grid of `2^-40` as the decimal string of
`x * 2^40`, so that every scale from 40 on represents it exactly.

The double-width checks compare pairs of words and never divide.  That is
enough to pin a quotient: `down` is the floor of `n / d` iff

    down * d <= n < (down + 1) * d,

and `up` its ceiling iff `n <= up * d` and, unless `up` is zero,
`(up - 1) * d < n`.
-/
import WeightedMath.Grader
import WeightedMath.LittleEndian

namespace WeightedMath

open Machine LittleEndian

/-- `assert_eq!` with a message; `debug` is `{:?}` of the operands. -/
def assertEq {α : Type} [DecidableEq α] (debug : α → String) (left right : α) (msg : String) :
    Exec Unit :=
  assert (left = right) ("assertion `left == right` failed: " ++ msg ++ "\n  left: " ++ debug left
    ++ "\n right: " ++ debug right)

/-! ### Reading an input -/

/-- Why `str::parse` refuses a string for a signed type. -/
inductive ParseIntError
  | kind (k : IntErrorKind)
  | negOverflow
  deriving DecidableEq, Repr

/-- What it prints. -/
def ParseIntError.text : ParseIntError → String
  | .kind k => k.text
  | .negOverflow => "number too small to fit in target type"

/-- The digits of an `i128`, most significant first, after those in `z`. -/
def parseSignedDigits (neg : Bool) : List Char → ℤ → Except ParseIntError ℤ
  | [], z => .ok z
  | c :: cs, z =>
      if c.isDigit then
        let d : ℤ := c.toNat - '0'.toNat
        let z := if neg then 10 * z - d else 10 * z + d
        if FitsI 128 z then parseSignedDigits neg cs z
        else .error (if neg then .negOverflow else .kind .posOverflow)
      else .error (.kind .invalidDigit)

/-- `i128::from_str`: digits after an optional sign. -/
def i128FromStr (s : String) : Except ParseIntError ℤ :=
  match s.toList with
  | [] => .error (.kind .empty)
  | ['+'] => .error (.kind .invalidDigit)
  | ['-'] => .error (.kind .invalidDigit)
  | '+' :: cs => parseSignedDigits false cs 0
  | '-' :: cs => parseSignedDigits true cs 0
  | cs => parseSignedDigits false cs 0

/-- Parses a decimal integer, or nothing where it is no `u128`. -/
def parseU128Checked (s : String) : Option ℕ := (u128FromStr s).toOption

/-- Fixture inputs are multiples of `2^-S40_BITS`. -/
def s40Bits : ℕ := 40

/-- Exact `Fixed` from a `value * 2^S40_BITS` fixture field. -/
def s40ToFixed (B : Build) (s40 : String) : Exec Fixed := do
  let raw ←
    match i128FromStr s40 with
    | .ok z => (.ok z : Exec ℤ)
    | .error e => .error (.explicit ("parsing s40 " ++ debugStr s40 ++ ": " ++ e.text))
  let n ← B.usub 32 B.scale s40Bits
  let z ← B.ishl 128 raw n
  return ⟨z⟩

/-! ### The two-sided check -/

/-- Two-sided diagnostic check, for results with no pool-favouring direction of
their own. -/
def checkTwoSided (P : Profile) (tFloor tCeil actual : ℤ) (boundUlps : ℕ) : Exec Band := do
  let err ←
    if actual < tFloor then do
      let d ← P.isub 128 tFloor actual
      P.asUnsigned 128 d
    else if actual > tCeil then do
      let d ← P.isub 128 actual tCeil
      P.asUnsigned 128 d
    else pure 0
  if err > boundUlps then return .tooFar err boundUlps
  else return .ok err

/-! ### Double-width words -/

/-- Full `128x128 -> 256`-bit product as `(hi, lo)`: the harness has its own copy
of the kernel's, line by line. -/
def Harness.mulWide (P : Profile) (a b : ℕ) : Exec (ℕ × ℕ) := WeightedMath.mulWide P a b

/-- `(value as u256) << shift`, as `(hi, lo)`. -/
def shlWide (P : Profile) (value shift : ℕ) : Exec (ℕ × ℕ) := do
  if shift = 0 then return (0, value)
  else do
    let n ← P.usub 32 128 shift
    let hi ← P.ushr 128 value n
    -- the bits that `lo` drops are the ones in `hi`, so the audit is off
    let lo ← { P with audit := false }.ushl 128 value shift
    return (hi, lo)

def wideLe (a b : ℕ × ℕ) : Bool := a.1 < b.1 ∨ a.1 = b.1 ∧ a.2 ≤ b.2

def wideLt (a b : ℕ × ℕ) : Bool := a.1 < b.1 ∨ a.1 = b.1 ∧ a.2 < b.2

/-- `sens_pow * ulps / 2^SCALE`, saturating. -/
def wideShrOrMax (B : Build) (sensPow ulps : ℕ) : Exec ℕ := do
  let (hi, lo) ← Harness.mulWide B.toProfile sensPow ulps
  let top ← B.ushr 128 hi B.scale
  if top ≠ 0 then return 2 ^ 128 - 1
  else do
    let n ← B.usub 32 128 B.scale
    let h ← B.ushl 128 hi n
    let l ← B.ushr 128 lo B.scale
    return h ||| l

/-! ### What the reader reads -/

theorem assertEq_ok {α : Type} [DecidableEq α] {debug : α → String} {left right : α} {msg : String}
    (h : left = right) : assertEq debug left right msg = .ok () := assert_ok h

/-- Digits whose value is no word are refused. -/
theorem parseDigits_error {cs : List Char} {n : ℕ} (hd : ∀ c ∈ cs, c.isDigit = true)
    (hn : n < 2 ^ 128) (h : 2 ^ 128 ≤ Nat.ofDigitChars 10 cs n) :
    parseDigits cs n = .error .posOverflow := by
  induction cs generalizing n with
  | nil =>
      rw [Nat.ofDigitChars_nil] at h
      exact absurd hn (not_lt.mpr h)
  | cons c cs ih =>
      rw [Nat.ofDigitChars_cons] at h
      rw [parseDigits, if_pos (hd c List.mem_cons_self)]
      split_ifs with hstep
      · exact ih (fun c' hc' => hd c' (List.mem_cons_of_mem c hc')) hstep h
      · rfl

/-- **A printed number is read where it is a word**, and skipped elsewhere. -/
theorem parseU128Checked_repr (n : ℕ) :
    parseU128Checked (Nat.repr n) = if n < 2 ^ 128 then some n else none := by
  unfold parseU128Checked
  split_ifs with h
  · rw [u128FromStr_repr h]
    rfl
  · have hdig : ∀ c ∈ Nat.toDigits 10 n, c.isDigit = true := by
      intro c hc
      exact Nat.isDigit_of_mem_toDigits (by norm_num) le_rfl hc
    have herr := parseDigits_error (n := 0) hdig (by norm_num)
      (by rw [Nat.ofDigitChars_ten_toDigits]; exact not_lt.mp h)
    rw [u128FromStr, Nat.toList_repr]
    split
    · rfl
    · rfl
    · rfl
    · next e => exact absurd (hdig '+' (by simp [e])) (by decide)
    · rw [herr]
      rfl

/-- A magnitude with a sign. -/
def signed (neg : Bool) (n : ℕ) : ℤ := if neg then -n else n

theorem fitsI_signed_of_le {neg : Bool} {m n : ℕ} (h : m ≤ n) (hn : FitsI 128 (signed neg n)) :
    FitsI 128 (signed neg m) := by
  unfold signed at *
  rw [fitsI_128] at *
  cases neg <;> simp only [Bool.false_eq_true, if_true, if_false] at * <;> omega

/-- Digits whose signed value is an `i128` are read as their value. -/
theorem parseSignedDigits_ok {neg : Bool} {cs : List Char} {n : ℕ}
    (hd : ∀ c ∈ cs, c.isDigit = true) (h : FitsI 128 (signed neg (Nat.ofDigitChars 10 cs n))) :
    parseSignedDigits neg cs (signed neg n) = .ok (signed neg (Nat.ofDigitChars 10 cs n)) := by
  induction cs generalizing n with
  | nil => simp [parseSignedDigits]
  | cons c cs ih =>
      have hc : c.isDigit = true := hd c List.mem_cons_self
      have h48 : '0'.toNat ≤ c.toNat := (Char.isDigit_iff_toNat.mp hc).1
      rw [Nat.ofDigitChars_cons] at h ⊢
      have hstep : (if neg then 10 * signed neg n - ((c.toNat : ℤ) - '0'.toNat)
          else 10 * signed neg n + ((c.toNat : ℤ) - '0'.toNat))
            = signed neg (10 * n + (c.toNat - '0'.toNat)) := by
        rw [← Nat.cast_sub h48]
        unfold signed
        cases neg <;> simp only [Bool.false_eq_true, if_true, if_false] <;> omega
      have hfit := fitsI_signed_of_le (le_ofDigitChars cs _) h
      rw [parseSignedDigits, if_pos hc]
      simp only [hstep]
      rw [if_pos hfit]
      exact ih (fun c' hc' => hd c' (List.mem_cons_of_mem c hc')) h

/-- **A printed `i128` is read back**, sign and all. -/
theorem i128FromStr_repr {z : ℤ} (h : FitsI 128 z) : i128FromStr (Int.repr z) = .ok z := by
  have hdig : ∀ n : ℕ, ∀ c ∈ Nat.toDigits 10 n, c.isDigit = true := by
    intro n c hc
    exact Nat.isDigit_of_mem_toDigits (by norm_num) le_rfl hc
  have hread : ∀ neg n, FitsI 128 (signed neg n) →
      parseSignedDigits neg (Nat.toDigits 10 n) 0 = .ok (signed neg n) := by
    intro neg n hn
    have h₀ : signed neg 0 = 0 := by cases neg <;> rfl
    have hval : parseSignedDigits neg (Nat.toDigits 10 n) (signed neg 0) = _ :=
      parseSignedDigits_ok (hdig n) (by rwa [Nat.ofDigitChars_ten_toDigits])
    rwa [h₀, Nat.ofDigitChars_ten_toDigits] at hval
  unfold i128FromStr
  rw [Int.repr_eq_if]
  by_cases hz : 0 ≤ z
  · obtain ⟨n, rfl⟩ := Int.eq_ofNat_of_zero_le hz
    rw [if_pos hz, Int.toNat_natCast, Nat.toList_repr]
    -- a digit is no sign
    split
    · next e => exact absurd e Nat.toDigits_ne_nil
    · next e => exact absurd (hdig n '+' (by simp [e])) (by decide)
    · next e => exact absurd (hdig n '-' (by simp [e])) (by decide)
    · next e => exact absurd (hdig n '+' (by simp [e])) (by decide)
    · next e => exact absurd (hdig n '-' (by simp [e])) (by decide)
    · exact hread false n h
  · obtain ⟨n, rfl⟩ : ∃ n : ℕ, z = -n := ⟨(-z).toNat, by omega⟩
    rw [if_neg hz, neg_neg, Int.toNat_natCast, String.toList_append, Nat.toList_repr]
    obtain ⟨c, cs, hcs⟩ := List.exists_cons_of_ne_nil (Nat.toDigits_ne_nil (n := n) (b := 10))
    have hval := hread true n h
    rw [hcs] at hval ⊢
    exact hval

/-- **An input of the grid is read exactly**, at every scale from 40 on. -/
theorem s40ToFixed_repr (B : Build) (hS : 40 ≤ B.scale) {z : ℤ}
    (h : FitsI 128 (z * 2 ^ (B.scale - 40))) :
    s40ToFixed B (Int.repr z) = .ok ⟨z * 2 ^ (B.scale - 40)⟩ := by
  have hS₁ := B.scale_le_sixty
  have hz : FitsI 128 z := by
    have hpow : (1 : ℤ) ≤ 2 ^ (B.scale - 40) := one_le_pow₀ (by norm_num)
    obtain ⟨h₁, h₂⟩ := fitsI_128.mp h
    rw [fitsI_128]
    constructor <;> nlinarith
  unfold s40ToFixed
  rw [i128FromStr_repr hz]
  simp only [ok_bind]
  rw [s40Bits, Profile.usub_ok hS, ok_bind, Profile.ishl_ok (by omega) h, ok_bind, pure_eq_ok]

/-! ### What the check says -/

/-- The error of the two-sided check: the distance from the interval of the two
grid points. -/
def twoSidedErr (tFloor tCeil actual : ℤ) : ℤ := max (max (tFloor - actual) (actual - tCeil)) 0

theorem checkTwoSided_eq {P : Profile} {tFloor tCeil actual : ℤ} (bound : ℕ)
    (h : tFloor ≤ tCeil) (hlo : FitsI 128 (tFloor - actual)) (hhi : FitsI 128 (actual - tCeil)) :
    checkTwoSided P tFloor tCeil actual bound
      = .ok (if bound < twoSidedErr tFloor tCeil actual then
          .tooFar (twoSidedErr tFloor tCeil actual).toNat bound
        else .ok (twoSidedErr tFloor tCeil actual).toNat) := by
  have hverdict : ∀ err : ℤ, 0 ≤ err →
      (if err.toNat > bound then return .tooFar err.toNat bound else return .ok err.toNat)
        = (Except.ok (if (bound : ℤ) < err then .tooFar err.toNat bound else .ok err.toNat)
            : Exec Band) := by
    intro err herr
    have hiff : err.toNat > bound ↔ (bound : ℤ) < err := by omega
    simp only [hiff, pure_eq_ok]
    split_ifs <;> rfl
  obtain ⟨hlo₁, hlo₂⟩ := fitsI_128.mp hlo
  obtain ⟨hhi₁, hhi₂⟩ := fitsI_128.mp hhi
  unfold checkTwoSided
  rcases lt_or_ge actual tFloor with h₁ | h₁
  · have e : twoSidedErr tFloor tCeil actual = tFloor - actual := by
      unfold twoSidedErr
      omega
    rw [if_pos h₁, Profile.isub_ok hlo, ok_bind, Profile.asUnsigned_ok (by omega) (by omega),
      ok_bind, e]
    exact hverdict _ (by omega)
  rw [if_neg (not_lt.mpr h₁)]
  rcases lt_or_ge tCeil actual with h₂ | h₂
  · have e : twoSidedErr tFloor tCeil actual = actual - tCeil := by
      unfold twoSidedErr
      omega
    rw [if_pos h₂, Profile.isub_ok hhi, ok_bind, Profile.asUnsigned_ok (by omega) (by omega),
      ok_bind, e]
    exact hverdict _ (by omega)
  · have e : twoSidedErr tFloor tCeil actual = 0 := by
      unfold twoSidedErr
      omega
    rw [if_neg (not_lt.mpr h₂), pure_eq_ok, ok_bind, e]
    exact hverdict 0 le_rfl

/-! ### What the words say -/

section Words

variable {P : Profile}

theorem wideLe_iff {v w : ℕ × ℕ} (hv : v.2 < 2 ^ 128) (hw : w.2 < 2 ^ 128) :
    wideLe v w = true ↔ value (2 ^ 128) v ≤ value (2 ^ 128) w := by
  rw [value_le_iff hv hw]
  exact decide_eq_true_iff

theorem wideLt_iff {v w : ℕ × ℕ} (hv : v.2 < 2 ^ 128) (hw : w.2 < 2 ^ 128) :
    wideLt v w = true ↔ value (2 ^ 128) v < value (2 ^ 128) w := by
  rw [value_lt_iff hv hw]
  exact decide_eq_true_iff

/-- The number `n` as two words. -/
def words (n : ℕ) : ℕ × ℕ := (n / 2 ^ 128, n % 2 ^ 128)

theorem words_snd_lt (n : ℕ) : (words n).2 < 2 ^ 128 := Nat.mod_lt _ (by norm_num)

@[simp] theorem wideLe_words {m n : ℕ} : wideLe (words m) (words n) = true ↔ m ≤ n := by
  rw [wideLe_iff (words_snd_lt m) (words_snd_lt n), words, words, value_divMod, value_divMod]

@[simp] theorem wideLt_words {m n : ℕ} : wideLt (words m) (words n) = true ↔ m < n := by
  rw [wideLt_iff (words_snd_lt m) (words_snd_lt n), words, words, value_divMod, value_divMod]

@[simp] theorem words_eq_zero {n : ℕ} : words n = (0, 0) ↔ n = 0 := by
  constructor
  · intro h
    have hval := congrArg (value (2 ^ 128)) h
    rwa [words, value_divMod, value, Nat.zero_mul] at hval
  · rintro rfl
    rfl

/-- The product, as the number it is. -/
theorem Harness.mulWide_ok {a b : ℕ} (ha : a < 2 ^ 128) (hb : b < 2 ^ 128) :
    Harness.mulWide P a b = .ok (words (a * b)) :=
  mulWide_eq ha hb

/-- The shift, as the number it is. -/
theorem shlWide_ok {v shift : ℕ} (hv : v < 2 ^ 128) (hs : shift < 128) :
    shlWide P v shift = .ok (words (v * 2 ^ shift)) := by
  unfold shlWide words
  rcases Nat.eq_zero_or_pos shift with rfl | hpos
  · rw [if_pos rfl, pow_zero, Nat.mul_one, Nat.div_eq_of_lt hv, Nat.mod_eq_of_lt hv, pure_eq_ok]
  · have hlo : ({ P with audit := false } : Profile).ushl 128 v shift
        = .ok (v * 2 ^ shift % 2 ^ 128) := by
      unfold Profile.ushl
      rw [if_neg (by omega), if_neg (by simp), Nat.mod_eq_of_lt hs, Nat.shiftLeft_eq]
    have hhi : v >>> (128 - shift) = v * 2 ^ shift / 2 ^ 128 := by
      have hpow : (2 : ℕ) ^ 128 = 2 ^ (128 - shift) * 2 ^ shift := by
        rw [← pow_add, Nat.sub_add_cancel hs.le]
      rw [Nat.shiftRight_eq_div_pow, hpow, Nat.mul_div_mul_right _ _ (Nat.two_pow_pos shift)]
    rw [if_neg hpos.ne', Profile.usub_ok hs.le, ok_bind, Profile.ushr_ok (by omega), ok_bind, hlo,
      ok_bind, pure_eq_ok, hhi]

/-- **The saturating shift** is the shifted product, or the largest word where
that is none. -/
theorem wideShrOrMax_eq (B : Build) {s u : ℕ} (hs : s < 2 ^ 128) (hu : u < 2 ^ 128) :
    wideShrOrMax B s u = .ok (min (s * u / 2 ^ B.scale) (2 ^ 128 - 1)) := by
  have hS := B.scale_lt_word
  have hpos := B.scale_pos
  unfold wideShrOrMax Harness.mulWide
  rw [mulWide_eq hs hu, ok_bind]
  dsimp only
  rw [Profile.ushr_ok hS, ok_bind]
  have hword : s * u / 2 ^ B.scale < 2 ^ 128 ↔ s * u < 2 ^ (128 + B.scale) := by
    rw [Nat.div_lt_iff_lt_mul (Nat.two_pow_pos _), ← pow_add]
  by_cases hfit : s * u < 2 ^ (128 + B.scale)
  · obtain ⟨hlt, heq⟩ := shifted_words hS hfit
    rw [if_neg (not_not.mpr (hi_shiftRight_eq_zero.mpr hfit)), Profile.usub_ok hS.le, ok_bind,
      Profile.ushl_ok (by omega) hlt, ok_bind, Profile.ushr_ok hS, ok_bind, pure_eq_ok, heq,
      min_eq_left (Nat.le_sub_one_of_lt (hword.mpr hfit))]
  · have hge := not_lt.mp (mt hword.mp hfit)
    rw [if_pos (mt hi_shiftRight_eq_zero.mp hfit), pure_eq_ok,
      min_eq_right ((Nat.sub_le _ _).trans hge)]

end Words

end WeightedMath
