/-
WeightedMath/Oracle.lean

The generator of the fixtures, `oracle/gen.py`.

It works with exact fractions and with the floating-point numbers of mpmath.
What it uses of the latter is a parameter (`Mp`), and all that is assumed of it
is a relative precision (`Mp.Accurate`), far coarser than its 220 digits.

An exact number is written twice.  The decimal string has no end that is cut
off: read back it is the number itself (`spellings_denote`).  The integer
on the `2^-40` grid is what the harness reads.

From there a case is followed into the gate that grades the kernel by it.  Its
truth is the floor of a number that is close to the real one, which is all that
the gates ask for, and every fixture that the generator can produce on the
domain passes (`powCases_pass`, `lnExpCases_pass`).
-/
import WeightedMath.EconomicGates
import WeightedMath.Precision

namespace WeightedMath

open Machine Precision

namespace Oracle

/-! ### mpmath -/

/-- What the generator uses of mpmath at its working precision, whose numbers
are rationals. -/
structure Mp where
  round : ℚ → ℚ
  power : ℚ → ℚ → ℚ
  log : ℚ → ℚ
  exp : ℚ → ℚ
  expm1 : ℚ → ℚ
  nstr : ℚ → String

def Mp.mul (mp : Mp) (x y : ℚ) : ℚ := mp.round (x * y)

def Mp.div (mp : Mp) (x y : ℚ) : ℚ := mp.round (x / y)

def Mp.sub (mp : Mp) (x y : ℚ) : ℚ := mp.round (x - y)

/-- `to_mpf`. -/
def toMpf (mp : Mp) (f : ℚ) : ℚ := mp.div (mp.round f.num) (mp.round f.den)

/-! ### Formats -/

def gridBits : ℕ := 40

/-- `str` of a fraction. -/
def fractionStr (f : ℚ) : String :=
  if f.den = 1 then Int.repr f.num else Int.repr f.num ++ "/" ++ Nat.repr f.den

/-- The digits of `scaled / 10^bits`, with a point and without trailing zeros. -/
def decimal (bits : ℕ) (scaled : ℤ) : List Char :=
  let s := (Int.repr scaled).toList
  if bits = 0 then s
  else
    let s := s.leftpad (bits + 1) '0'
    ((s.take (s.length - bits) ++ '.' :: s.drop (s.length - bits)).rdropWhile (· == '0')).rdropWhile
      (· == '.')

/-- Exact finite decimal string of a dyadic rational. -/
def dyadicStr (f : ℚ) : Exec String := do
  let bits := f.den.log2
  assert (f.den = 2 ^ bits) ("not dyadic: " ++ fractionStr f)
  return String.ofList (decimal bits (f.num * 5 ^ bits))

/-- `f * 2^40`, which is exact by construction. -/
def s40 (f : ℚ) : Exec String := do
  let v := f * 2 ^ gridBits
  assert (v.den = 1) ""
  return Int.repr v.num

/-- `floor(v * 2^bits)`, as a decimal integer string. -/
def qfmt (v : ℚ) (bits : ℕ) : String := Int.repr ⌊v * 2 ^ bits⌋

/-- The same of a fraction, in integers. -/
def fracQfmt (f : ℚ) (bits : ℕ) : String := Int.repr (f.num * 2 ^ bits / f.den)

/-! ### The cases of the kernel gates -/

/-- The decimal string and the q-format of `base ^ expo`, exact where possible. -/
def powTruth (mp : Mp) (base expo : ℚ) : String × String :=
  if expo.den = 1 then
    let p := base ^ expo.num
    (mp.nstr (toMpf mp p), fracQfmt p 128)
  else
    let v := mp.power (toMpf mp base) (toMpf mp expo)
    (mp.nstr v, qfmt v 128)

def powCase (mp : Mp) (zone : String) (b y : ℚ) : Exec PowCase := do
  let (dec, q128) := powTruth mp b y
  let base ← dyadicStr b
  let baseS40 ← s40 b
  let exponent ← dyadicStr y
  let exponentS40 ← s40 y
  return ⟨zone, base, baseS40, exponent, exponentS40, dec, q128⟩

/-- The arguments of a call of `add` in `pow_cases`. -/
structure PowZone where
  zone : String
  bases : List ℚ
  exps : List ℚ

def PowZone.add (mp : Mp) (z : PowZone) : Exec (List PowCase) :=
  (z.bases.flatMap fun b => z.exps.map fun y => (b, y)).mapM fun p => powCase mp z.zone p.1 p.2

def powCases (mp : Mp) (zones : List PowZone) : Exec (List PowCase) := do
  let cases ← zones.mapM (PowZone.add mp)
  return cases.flatten

def lnCase (mp : Mp) (x : ℚ) : Exec LnCase := do
  let negLn := -mp.log (toMpf mp x)
  let dec ← dyadicStr x
  let xS40 ← s40 x
  return ⟨dec, xS40, mp.nstr negLn, qfmt negLn 116⟩

def expCase (mp : Mp) (t : ℚ) : Exec ExpCase := do
  let v := mp.exp (-toMpf mp t)
  let negEm1 := -mp.expm1 (-toMpf mp t)
  let dec ← dyadicStr t
  let negXS40 ← s40 t
  return ⟨dec, negXS40, mp.nstr v, qfmt v 128, mp.nstr negEm1, qfmt negEm1 128⟩

def lnExpCases (mp : Mp) (lnInputs expInputs : List ℚ) : Exec LnExpFixture := do
  let ln ← lnInputs.mapM (lnCase mp)
  let exp ← expInputs.mapM (expCase mp)
  return ⟨ln, exp⟩

/-! ### Decimal strings -/

/-- The number that a decimal string denotes. -/
def decimalValue (s : List Char) : ℚ :=
  let frac := (s.dropWhile (· != '.')).drop 1
  Nat.ofDigitChars 10 (s.takeWhile (· != '.')) 0 + Nat.ofDigitChars 10 frac 0 / 10 ^ frac.length

section Decimal

variable {bits n : ℕ}

theorem toList_repr_natCast (n : ℕ) : (Int.repr (n : ℤ)).toList = Nat.toDigits 10 n :=
  Nat.toList_repr

/-- The digits of an odd number end in a digit that is neither a zero nor a point. -/
theorem getLast_toDigits_odd (h : n % 2 = 1) (hne : Nat.toDigits 10 n ≠ []) :
    (Nat.toDigits 10 n).getLast hne ≠ '0' ∧ (Nat.toDigits 10 n).getLast hne ≠ '.' := by
  have hlast : (Nat.toDigits 10 n).getLast hne = (n % 10).digitChar := by
    have heq := Nat.toDigits_eq_if (n := n) (b := 10) (by norm_num)
    split_ifs at heq with hlt
    · simp [heq, Nat.mod_eq_of_lt hlt]
    · simp [heq]
  rw [hlast]
  have hmod : n % 10 = 1 ∨ n % 10 = 3 ∨ n % 10 = 5 ∨ n % 10 = 7 ∨ n % 10 = 9 := by omega
  rcases hmod with h | h | h | h | h <;> rw [h] <;> decide

theorem leftpad_toDigits (bits n : ℕ) :
    ∃ k, (Nat.toDigits 10 n).leftpad (bits + 1) '0' = List.replicate k '0' ++ Nat.toDigits 10 n :=
  ⟨_, rfl⟩

/-- The padded digits are digits, and of the number itself. -/
theorem leftpad_digits (bits n : ℕ) :
    (∀ c ∈ (Nat.toDigits 10 n).leftpad (bits + 1) '0', c.isDigit = true) ∧
      Nat.ofDigitChars 10 ((Nat.toDigits 10 n).leftpad (bits + 1) '0') 0 = n := by
  obtain ⟨k, hk⟩ := leftpad_toDigits bits n
  rw [hk]
  constructor
  · intro c hc
    rcases List.mem_append.mp hc with hc | hc
    · rw [List.eq_of_mem_replicate hc]
      decide
    · exact Nat.isDigit_of_mem_toDigits (by norm_num) le_rfl hc
  · rw [Nat.ofDigitChars_append, Nat.ofDigitChars_replicate_zero, Nat.mul_zero,
      Nat.ofDigitChars_ten_toDigits]

theorem ne_point_of_isDigit {c : Char} (h : c.isDigit = true) : (c != '.') = true := by
  rw [bne_iff_ne]
  rintro rfl
  exact absurd h (by decide)

/-- Digits, a point and digits. -/
theorem decimalValue_point {I F : List Char} (hI : ∀ c ∈ I, c.isDigit = true) :
    decimalValue (I ++ '.' :: F)
      = Nat.ofDigitChars 10 (I ++ F) 0 / 10 ^ F.length := by
  have hpoint : ∀ c ∈ I, (c != '.') = true := fun c hc => ne_point_of_isDigit (hI c hc)
  have htake : (I ++ '.' :: F).takeWhile (· != '.') = I := by
    rw [List.takeWhile_append_of_pos hpoint, List.takeWhile_cons_of_neg (by decide),
      List.append_nil]
  have hdrop : (I ++ '.' :: F).dropWhile (· != '.') = '.' :: F := by
    rw [List.dropWhile_append_of_pos hpoint, List.dropWhile_cons_of_neg (by decide)]
  have happ : Nat.ofDigitChars 10 (I ++ F) 0
      = 10 ^ F.length * Nat.ofDigitChars 10 I 0 + Nat.ofDigitChars 10 F 0 := by
    rw [Nat.ofDigitChars_append]
    exact Nat.ofDigitChars_eq_ofDigitChars_zero
  have hne : (10 : ℚ) ^ F.length ≠ 0 := by positivity
  rw [decimalValue, htake, hdrop, List.drop_succ_cons, List.drop_zero, happ]
  push_cast
  rw [add_div, mul_div_cancel_left₀ _ hne]

theorem decimalValue_integer {I : List Char} (hI : ∀ c ∈ I, c.isDigit = true) :
    decimalValue I = Nat.ofDigitChars 10 I 0 := by
  have hpoint : ∀ c ∈ I, (c != '.') = true := fun c hc => ne_point_of_isDigit (hI c hc)
  have hdrop : I.dropWhile (· != '.') = [] := List.dropWhile_eq_nil_iff.mpr hpoint
  rw [decimalValue, List.takeWhile_eq_self_iff.mpr hpoint, hdrop]
  simp [Nat.ofDigitChars]

/-- Nothing is stripped from digits that end in another digit than zero. -/
theorem strip_point {I F : List Char} (hF : F ≠ [])
    (h : F.getLast hF ≠ '0' ∧ F.getLast hF ≠ '.') :
    ((I ++ '.' :: F).rdropWhile (· == '0')).rdropWhile (· == '.') = I ++ '.' :: F := by
  have hlast : ∀ hne : I ++ '.' :: F ≠ [], (I ++ '.' :: F).getLast hne = F.getLast hF := by
    intro hne
    rw [List.getLast_append_of_ne_nil hne (List.cons_ne_nil _ _), List.getLast_cons hF]
  have hzero : (I ++ '.' :: F).rdropWhile (· == '0') = I ++ '.' :: F := by
    rw [List.rdropWhile_eq_self_iff]
    intro hne
    rw [beq_iff_eq, hlast hne]
    exact h.1
  rw [hzero, List.rdropWhile_eq_self_iff]
  intro hne
  rw [beq_iff_eq, hlast hne]
  exact h.2

/-- An odd numerator leaves no trailing zero to strip. -/
theorem decimalValue_decimal (h : bits = 0 ∨ n % 2 = 1) :
    decimalValue (decimal bits ((n : ℤ) * 5 ^ bits)) = n / 2 ^ bits := by
  have hcast : (n : ℤ) * 5 ^ bits = ((n * 5 ^ bits : ℕ) : ℤ) := by push_cast; rfl
  unfold decimal
  rw [hcast, toList_repr_natCast]
  rcases Nat.eq_zero_or_pos bits with rfl | hbits
  · rw [pow_zero, mul_one, pow_zero, div_one, if_pos rfl, decimalValue_integer,
      Nat.ofDigitChars_ten_toDigits]
    intro c hc
    exact Nat.isDigit_of_mem_toDigits (by norm_num) le_rfl hc
  · have hodd : n * 5 ^ bits % 2 = 1 := by
      have hn : n % 2 = 1 := h.resolve_left hbits.ne'
      rw [Nat.mul_mod, Nat.pow_mod, hn]
      norm_num
    obtain ⟨hdig, hval⟩ := leftpad_digits bits (n * 5 ^ bits)
    obtain ⟨k, hk⟩ := leftpad_toDigits bits (n * 5 ^ bits)
    have hlen : bits + 1 ≤ ((Nat.toDigits 10 (n * 5 ^ bits)).leftpad (bits + 1) '0').length := by
      rw [List.length_leftpad]
      exact le_max_left _ _
    rw [if_neg hbits.ne']
    dsimp only
    generalize (Nat.toDigits 10 (n * 5 ^ bits)).leftpad (bits + 1) '0' = D at *
    have hF : (D.drop (D.length - bits)).length = bits := by
      rw [List.length_drop]
      omega
    have hFne : D.drop (D.length - bits) ≠ [] := List.ne_nil_of_length_pos (by omega)
    have hlast : (D.drop (D.length - bits)).getLast hFne ≠ '0' ∧
        (D.drop (D.length - bits)).getLast hFne ≠ '.' := by
      rw [List.getLast_drop]
      subst hk
      rw [List.getLast_append_of_ne_nil _ Nat.toDigits_ne_nil]
      exact getLast_toDigits_odd hodd _
    rw [strip_point hFne hlast, decimalValue_point fun c hc => hdig c (List.mem_of_mem_take hc),
      List.take_append_drop, hval, hF]
    push_cast
    rw [show (10 : ℚ) = 5 * 2 by norm_num, mul_pow, mul_comm (n : ℚ),
      mul_div_mul_left _ _ (by positivity)]

/-- The denominator of a dyadic rational is its power of two. -/
theorem log2_den {f : ℚ} (h : ∃ k, f.den = 2 ^ k) : f.den = 2 ^ f.den.log2 := by
  obtain ⟨k, hk⟩ := h
  rw [hk, Nat.log2_two_pow]

theorem dyadicStr_ok {f : ℚ} (h : ∃ k, f.den = 2 ^ k) :
    dyadicStr f = .ok (String.ofList (decimal f.den.log2 (f.num * 5 ^ f.den.log2))) := by
  unfold dyadicStr
  dsimp only
  rw [assert_ok (log2_den h), ok_bind, pure_eq_ok]

theorem decimalValue_dyadic {f : ℚ} (h₀ : 0 ≤ f) (h : ∃ k, f.den = 2 ^ k) :
    decimalValue (decimal f.den.log2 (f.num * 5 ^ f.den.log2)) = f := by
  have hden := log2_den h
  obtain ⟨n, hn⟩ := Int.eq_ofNat_of_zero_le (Rat.num_nonneg.mpr h₀)
  have hcop := f.reduced
  have hval := Rat.num_div_den f
  rw [hn] at hcop hval ⊢
  generalize f.den.log2 = bits at *
  rw [hden] at hcop hval
  have hodd : bits = 0 ∨ n % 2 = 1 := by
    rcases Nat.eq_zero_or_pos bits with hzero | hpos
    · exact .inl hzero
    · right
      rw [Int.natAbs_natCast, Nat.coprime_pow_right_iff hpos, Nat.coprime_two_right] at hcop
      exact Nat.odd_iff.mp hcop
  push_cast at hval
  rw [decimalValue_decimal hodd, hval]

end Decimal

/-! ### The grid -/

/-- The number is a whole multiple of `2^-40`. -/
def OnGrid (f : ℚ) : Prop := (f * 2 ^ gridBits).den = 1

section Grid

variable {f : ℚ}

theorem OnGrid.eq_div (h : OnGrid f) : ∃ x : ℤ, f = x / 2 ^ 40 ∧ s40 f = .ok (Int.repr x) := by
  refine ⟨(f * 2 ^ gridBits).num, ?_, ?_⟩
  · have hnum : ((f * 2 ^ gridBits).num : ℚ) = f * 2 ^ gridBits := (Rat.den_eq_one_iff _).mp h
    rw [hnum, gridBits, mul_div_cancel_right₀ _ (by positivity)]
  · unfold s40
    dsimp only
    rw [assert_ok (show (f * 2 ^ gridBits).den = 1 from h), ok_bind, pure_eq_ok]

theorem OnGrid.den_eq (h : OnGrid f) : ∃ k, f.den = 2 ^ k := by
  obtain ⟨x, hx, -⟩ := h.eq_div
  have hdvd : f.den ∣ 2 ^ 40 := by
    have := Rat.den_dvd x (2 ^ 40)
    rw [Rat.divInt_eq_div, Int.cast_pow, Int.cast_ofNat, ← hx] at this
    exact_mod_cast this
  obtain ⟨k, -, hk⟩ := (Nat.dvd_prime_pow Nat.prime_two).mp hdvd
  exact ⟨k, hk⟩

/-- **Both spellings of a grid point denote it**: the decimal string is the
number with no digit lost, and the integer is read by the harness as the number
itself, at every scale from 40 on. -/
theorem spellings_denote (B : Build) (h40 : 40 ≤ B.scale) (hf : OnGrid f) (h₀ : 0 ≤ f)
    (h₁ : f < 2 ^ 67) :
    ∃ s t x, dyadicStr f = .ok s ∧ s40 f = .ok t ∧ s40ToFixed B t = .ok x ∧
      decimalValue s.toList = f ∧ (x.repr : ℚ) / 2 ^ B.scale = f := by
  obtain ⟨z, hz, hs40⟩ := hf.eq_div
  have hz₀ : 0 ≤ z := by
    rw [hz, le_div_iff₀ (by positivity), zero_mul] at h₀
    exact_mod_cast h₀
  have hz₁ : z < 2 ^ 107 := by
    rw [hz, div_lt_iff₀ (by positivity)] at h₁
    norm_num at h₁
    exact_mod_cast h₁
  refine ⟨_, _, _, dyadicStr_ok hf.den_eq, hs40,
    s40ToFixed_repr B h40 (grid_fits_domain hz₀ hz₁), ?_, ?_⟩
  · rw [String.toList_ofList]
    exact decimalValue_dyadic h₀ hf.den_eq
  · have hsplit : (2 : ℚ) ^ B.scale = 2 ^ 40 * 2 ^ (B.scale - 40) := by
      rw [← pow_add, Nat.add_sub_cancel' h40]
    have hne : (2 : ℚ) ^ (B.scale - 40) ≠ 0 := by positivity
    push_cast
    rw [hsplit, mul_div_mul_right _ _ hne, hz]

/-- Nine quarters. -/
theorem spellings_denote_nine_quarters :
    ∃ s t x, dyadicStr (9 / 4) = .ok s ∧ s40 (9 / 4) = .ok t ∧
      s40ToFixed (Build.kernel Profile.wrapping) t = .ok x ∧
      decimalValue s.toList = 9 / 4 ∧
      (x.repr : ℚ) / 2 ^ (Build.kernel Profile.wrapping).scale = 9 / 4 :=
  spellings_denote _ (by decide) (by norm_num [OnGrid, gridBits]) (by norm_num) (by norm_num)

end Grid

/-! ### Working precision -/

/-- What is relied on: every operation is right but for a relative `2^-250`, and
whole numbers of 128 bits are exact. -/
structure Mp.Accurate (mp : Mp) : Prop where
  round_near : ∀ x, Near (1 / 2 ^ 250) (mp.round x) x
  round_int : ∀ z : ℤ, |z| ≤ 2 ^ 128 → mp.round z = z
  power_near : ∀ x y, 0 < x → Near (1 / 2 ^ 250) (mp.power x y) ((x : ℝ) ^ (y : ℝ))
  log_near : ∀ x, 0 < x → Near (1 / 2 ^ 250) (mp.log x) (Real.log x)
  exp_near : ∀ x, Near (1 / 2 ^ 250) (mp.exp x) (Real.exp x)
  expm1_near : ∀ x, Near (1 / 2 ^ 250) (mp.expm1 x) (Real.exp x - 1)

section Accurate

variable {mp : Mp} {k : ℕ} {x y : ℚ} {a b e : ℝ}

/-- Bits that are lost. -/
theorem near_bits {c : ℝ} {j : ℕ} (h : Near (c * (1 / 2 ^ (k + j))) (x : ℝ) a) (hc : c ≤ 2 ^ j) :
    Near (1 / 2 ^ k) (x : ℝ) a := by
  refine h.mono ?_
  rw [pow_add, one_div, mul_inv, ← mul_assoc, mul_right_comm, one_div]
  refine mul_le_of_le_one_left (by positivity) ?_
  rwa [← div_eq_mul_inv, div_le_one (by positivity)]

theorem Mp.Accurate.round (h : mp.Accurate) (hx : Near (1 / 2 ^ (k + 2)) (x : ℝ) a)
    (hk : k + 2 ≤ 250) : Near (1 / 2 ^ k) (mp.round x : ℝ) a := by
  have hwork : (1 : ℝ) / 2 ^ 250 ≤ 1 / 2 ^ (k + 2) :=
    one_div_le_one_div_of_le (by positivity) (pow_le_pow_right₀ one_le_two hk)
  have hone : (1 : ℝ) / 2 ^ (k + 2) ≤ 1 := (div_le_one (by positivity)).mpr
    (one_le_pow₀ one_le_two)
  exact near_bits (((h.round_near x).mono hwork).trans hx (by positivity) hone) (by norm_num)

theorem Mp.Accurate.mul (h : mp.Accurate) (hx : Near (1 / 2 ^ (k + 4)) (x : ℝ) a)
    (hy : Near (1 / 2 ^ (k + 4)) (y : ℝ) b) (hk : k + 4 ≤ 250) :
    Near (1 / 2 ^ k) (mp.mul x y : ℝ) (a * b) := by
  have hone : (1 : ℝ) / 2 ^ (k + 4) ≤ 1 := (div_le_one (by positivity)).mpr
    (one_le_pow₀ one_le_two)
  refine h.round ?_ (by omega)
  push_cast
  have hprod := hx.mul hy hone
  rw [← Rat.cast_mul] at hprod ⊢
  exact near_bits (k := k + 2) (j := 2) hprod (by norm_num)

theorem Mp.Accurate.div (h : mp.Accurate) (hx : Near (1 / 2 ^ (k + 5)) (x : ℝ) a)
    (hy : Near (1 / 2 ^ (k + 5)) (y : ℝ) b) (hb : b ≠ 0) (hk : k + 5 ≤ 250) :
    Near (1 / 2 ^ k) (mp.div x y : ℝ) (a / b) := by
  have hhalf : (1 : ℝ) / 2 ^ (k + 5) ≤ 1 / 2 := by
    apply one_div_le_one_div_of_le (by norm_num)
    exact le_self_pow₀ one_le_two (by omega)
  refine h.round ?_ (by omega)
  push_cast
  have hquot := hx.div hy (by positivity) hhalf hb
  rw [← Rat.cast_div] at hquot ⊢
  exact near_bits (k := k + 2) (j := 3) hquot (by norm_num)

theorem Mp.Accurate.toMpf_near (h : mp.Accurate) (f : ℚ) :
    Near (1 / 2 ^ 245) (toMpf mp f : ℝ) (f : ℝ) := by
  have hden : ((f.den : ℚ) : ℝ) ≠ 0 := by exact_mod_cast f.den_nz
  have hdiv := h.div (k := 245) (h.round_near f.num) (h.round_near f.den) hden le_rfl
  rw [← Rat.cast_div, Rat.num_div_den] at hdiv
  exact hdiv

/-- A number that is one is known exactly. -/
theorem Mp.Accurate.toMpf_one (h : mp.Accurate) : toMpf mp 1 = 1 := by
  have hone : mp.round 1 = 1 := by
    have := h.round_int 1 (by norm_num)
    exact_mod_cast this
  show mp.round (mp.round ((1 : ℚ).num : ℚ) / mp.round ((1 : ℚ).den : ℚ)) = 1
  rw [Rat.num_one, Rat.den_one, Int.cast_one, Nat.cast_one, hone, div_one, hone]

theorem abs_log_le (ha₀ : 1 / 2 ^ 128 ≤ a) (ha₁ : a ≤ 1) : |Real.log a| ≤ 89 := by
  have hpos : 0 < a := lt_of_lt_of_le (by positivity) ha₀
  have hlow := Real.log_le_log (by positivity) ha₀
  have := Real.log_two_lt_d9
  rw [one_div, Real.log_inv, Real.log_pow] at hlow
  rw [abs_of_nonpos (Real.log_nonpos hpos.le ha₁)]
  norm_num at hlow
  linarith

/-- A power of numbers that are not too small. -/
theorem Mp.Accurate.power (h : mp.Accurate) (hx : Near (1 / 2 ^ 245) (x : ℝ) a)
    (ha₀ : 1 / 2 ^ 128 ≤ a) (ha₁ : a ≤ 1) (hy : |(y : ℝ) - b| ≤ 1 / 2 ^ 230) (hb : |b| ≤ 128) :
    Near (1 / 2 ^ 215) (mp.power x y : ℝ) (a ^ b) := by
  have hpos : 0 < a := lt_of_lt_of_le (by positivity) ha₀
  have hx₀ : (0 : ℝ) < x := hx.pos (by norm_num) hpos
  have hlog := abs_log_le ha₀ ha₁
  have hy₁ : |(y : ℝ)| ≤ 129 := by
    have := abs_sub_abs_le_abs_sub (y : ℝ) b
    have hsmall : (1 : ℝ) / 2 ^ 230 ≤ 1 := by norm_num
    linarith
  have hsmall : |(y : ℝ)| * (2 * (1 / 2 ^ 245)) + 1 / 2 ^ 230 * 89 ≤ (1 : ℝ) / 2 ^ 222 := by
    norm_num
    linarith
  have hpow := near_rpow hx (by positivity) (by norm_num) hpos hy hlog
    (hsmall.trans (by norm_num))
  have hwork := (h.power_near x y (by exact_mod_cast hx₀)).mono
    (show (1 : ℝ) / 2 ^ 250 ≤ 1 / 2 ^ 220 by norm_num)
  refine (hwork.trans (hpow.mono ?_) (by positivity) (by norm_num)).mono (by norm_num)
  norm_num at hsmall ⊢
  linarith

/-- The logarithm of a number up to one.  It has the right sign, and a relative
precision also next to one. -/
theorem Mp.Accurate.log_toMpf (h : mp.Accurate) {f : ℚ} (hf₀ : (1 : ℝ) / 2 ^ 128 ≤ f)
    (hf₁ : f = 1 ∨ (f : ℝ) ≤ 1 - 1 / 2 ^ 128) :
    (mp.log (toMpf mp f) : ℝ) ≤ 0 ∧ |(mp.log (toMpf mp f) : ℝ) - Real.log f| ≤ 1 / 2 ^ 240 ∧
      Near (1 / 2 ^ 110) (mp.log (toMpf mp f) : ℝ) (Real.log f) := by
  rcases hf₁ with rfl | hf₁
  · -- one is known exactly, and so is its logarithm
    have hzero : (mp.log 1 : ℝ) = 0 := by
      have hlog := h.log_near 1 one_pos
      rw [Rat.cast_one, Real.log_one] at hlog
      exact hlog.eq_zero
    rw [h.toMpf_one, hzero, Rat.cast_one, Real.log_one, sub_self, abs_zero]
    exact ⟨le_rfl, by positivity, near_self (by positivity) 0⟩
  · have hpos : (0 : ℝ) < f := lt_of_lt_of_le (by positivity) hf₀
    have hnear := h.toMpf_near f
    have hm₀ : (0 : ℝ) < toMpf mp f := hnear.pos (by norm_num) hpos
    have hm₁ : (toMpf mp f : ℝ) ≤ 1 := by
      have := (hnear.bounds hpos.le).2
      norm_num at this hf₁
      linarith
    have hlog₀ := Real.log_nonpos hm₀.le hm₁
    have hlow := neg_le_of_abs_le (abs_log_le hf₀ (hf₁.trans (by norm_num)))
    have habs := hnear.abs_log_sub_le (by positivity) (by norm_num) hpos
    have haway : (1 : ℝ) ≤ 2 ^ 128 * |Real.log f| := by
      have hone := Real.log_le_sub_one_of_pos hpos
      rw [abs_of_nonpos (by linarith)]
      norm_num at hf₁ ⊢
      linarith
    have hrel := hnear.log (by positivity) (by norm_num) hpos haway
    have hwork := h.log_near (toMpf mp f) (by exact_mod_cast hm₀)
    refine ⟨?_, ?_, ?_⟩
    · have := hwork.neg.nonneg (by norm_num) (neg_nonneg.mpr hlog₀)
      linarith
    · have hstep : |(mp.log (toMpf mp f) : ℝ) - Real.log (toMpf mp f)|
          ≤ 1 / 2 ^ 250 * |Real.log (toMpf mp f)| := hwork
      have htri := abs_sub_le (mp.log (toMpf mp f) : ℝ) (Real.log (toMpf mp f)) (Real.log f)
      have hmag := (abs_le.mp habs).1
      rw [abs_of_nonpos hlog₀] at hstep
      norm_num at hstep habs hmag ⊢
      linarith
    · have hwork' := hwork.mono (show (1 : ℝ) / 2 ^ 250 ≤ 1 / 2 ^ 116 by norm_num)
      have hrel' := hrel.mono (show 2 * (1 / 2 ^ 245) * 2 ^ 128 ≤ (1 : ℝ) / 2 ^ 116 by norm_num)
      exact (hwork'.trans hrel' (by positivity) (by norm_num)).mono (by norm_num)

end Accurate

/-- Correct rounding to the 734 bits of 220 digits. -/
noncomputable def Mp.nearest (nstr : ℚ → String) : Mp where
  round x := roundBits 733 x
  power x y := roundBits 733 ((x : ℝ) ^ (y : ℝ))
  log x := roundBits 733 (Real.log x)
  exp x := roundBits 733 (Real.exp x)
  expm1 x := roundBits 733 (Real.exp x - 1)
  nstr := nstr

theorem Mp.nearest_accurate (nstr : ℚ → String) : (Mp.nearest nstr).Accurate := by
  have hnear : ∀ a : ℝ, Near (1 / 2 ^ 250) (roundBits 733 a : ℝ) a := fun a =>
    (near_roundBits 733 a).mono
      (one_div_le_one_div_of_le (by positivity) (pow_le_pow_right₀ one_le_two (by norm_num)))
  exact {
    round_near := fun x => hnear x
    round_int := fun z hz => by
      have hbits : |z| ≤ 2 ^ 733 := hz.trans (pow_le_pow_right₀ one_le_two (by norm_num))
      have hint := roundBits_int hbits
      show roundBits 733 ((z : ℚ) : ℝ) = z
      rwa [Rat.cast_intCast]
    power_near := fun x y _ => hnear _
    log_near := fun x _ => hnear _
    exp_near := fun x => hnear _
    expm1_near := fun x => hnear _ }

/-! ### The kernel gates on generated fixtures -/

section Kernel

variable {mp : Mp} {b y : ℚ}

theorem qfmt_eq {v : ℚ} (h : 0 ≤ v) (bits : ℕ) : qfmt v bits = Nat.repr (qBits v bits) := by
  have hfloor : ⌊v * 2 ^ bits⌋ = (qBits v bits : ℤ) := by
    have hcast : (v : ℝ) * ((2 ^ bits : ℕ) : ℝ) = ((v * 2 ^ bits : ℚ) : ℝ) := by push_cast; rfl
    have hnonneg : (0 : ℝ) ≤ v := by exact_mod_cast h
    rw [qBits, Int.natCast_floor_eq_floor (by positivity), hcast, Rat.floor_cast]
  rw [qfmt, hfloor]
  rfl

theorem fracQfmt_eq (f : ℚ) (bits : ℕ) : fracQfmt f bits = qfmt f bits := by
  have hdiv : f * 2 ^ bits = ((f.num * 2 ^ bits : ℤ) : ℚ) / (f.den : ℕ) := by
    nth_rewrite 1 [← Rat.num_div_den f]
    push_cast
    ring
  rw [qfmt, hdiv, Rat.floor_intCast_div_natCast]
  rfl

/-- The positive grid starts at `2^-40`. -/
theorem OnGrid.ge (h : OnGrid y) (h₀ : 0 < y) : (1 : ℝ) / 2 ^ 40 ≤ y := by
  obtain ⟨x, hx, -⟩ := h.eq_div
  rw [hx, lt_div_iff₀ (by positivity), zero_mul] at h₀
  have hint : (1 : ℤ) ≤ x := Int.add_one_le_of_lt (by exact_mod_cast h₀)
  have hcast : (1 : ℝ) ≤ x := by exact_mod_cast hint
  rw [hx]
  push_cast
  exact div_le_div_of_nonneg_right hcast (by positivity)

theorem OnGrid.le_one_sub (h : OnGrid b) (h₁ : b < 1) : (b : ℝ) ≤ 1 - 1 / 2 ^ 40 := by
  obtain ⟨x, hx, -⟩ := h.eq_div
  rw [hx, div_lt_one (by positivity)] at h₁
  have hint : x ≤ 2 ^ 40 - 1 := Int.le_sub_one_of_lt (by exact_mod_cast h₁)
  have hcast : (x : ℝ) ≤ 2 ^ 40 - 1 := by exact_mod_cast hint
  rw [hx]
  push_cast
  rw [div_le_iff₀ (by positivity)]
  linarith

/-- The exponents in the domain are known well enough for a power. -/
theorem Mp.Accurate.toMpf_exponent (h : mp.Accurate) (hy₀ : 0 < y) (hy : y ≤ 99) :
    |(toMpf mp y : ℝ) - y| ≤ 1 / 2 ^ 230 ∧ |(y : ℝ)| ≤ 128 := by
  have hnear : |(toMpf mp y : ℝ) - y| ≤ 1 / 2 ^ 245 * |(y : ℝ)| := h.toMpf_near y
  have hpos : (0 : ℝ) < y := by exact_mod_cast hy₀
  have hle : (y : ℝ) ≤ 99 := by exact_mod_cast hy
  rw [abs_of_pos hpos] at hnear ⊢
  norm_num at hnear ⊢
  exact ⟨by linarith, by linarith⟩

/-- An integer exponent makes the power a fraction. -/
theorem cast_zpow_num (b : ℚ) (hden : y.den = 1) : ((b ^ y.num : ℚ) : ℝ) = (b : ℝ) ^ (y : ℝ) := by
  have hint : (y : ℝ) = ((y.num : ℤ) : ℝ) := by
    have := (Rat.den_eq_one_iff y).mp hden
    exact_mod_cast this.symm
  rw [hint, Real.rpow_intCast, Rat.cast_zpow]

/-- The truth of a case is the floor of a number that stands for the power. -/
theorem powTruth_near (h : mp.Accurate) (hb : OnGrid b) (hb₀ : 0 < b) (hb₁ : b < 1)
    (hy : OnGrid y) (hy₀ : 0 < y) (hy₁ : y ≤ 99) :
    ∃ v : ℝ, (powTruth mp b y).2 = Nat.repr (qBits v 128) ∧
      |v - (b : ℝ) ^ (y : ℝ)| ≤ 1 / 2 ^ 62 ∧ 0 ≤ v ∧ v < 1 := by
  have hge := hb.ge hb₀
  have hle := hb.le_one_sub hb₁
  have hpos : (0 : ℝ) < b := lt_of_lt_of_le (by positivity) hge
  have htop := rpow_le_one_sub hpos (by positivity) (by positivity) hle (hy.ge hy₀) (by norm_num)
  have hpow := Real.rpow_pos_of_pos hpos (y : ℝ)
  unfold powTruth
  split_ifs with hden
  · -- an integer exponent: the truth is exact
    rw [← cast_zpow_num b hden] at htop ⊢
    refine ⟨_, ?_, ?_, ?_, htop.trans_lt (by norm_num)⟩
    · dsimp only
      rw [fracQfmt_eq, qfmt_eq (zpow_nonneg hb₀.le _)]
    · rw [sub_self, abs_zero]
      positivity
    · exact_mod_cast (zpow_pos hb₀ y.num).le
  · obtain ⟨hy₂, hy₃⟩ := h.toMpf_exponent hy₀ hy₁
    have hnear := h.power (h.toMpf_near b) (hge.trans' (by norm_num)) (by linarith) hy₂ hy₃
    obtain ⟨hv, hv₀, hv₁⟩ := hnear.of_le_one_sub (by positivity) hpow.le
      (htop.trans (by norm_num))
    exact ⟨_, qfmt_eq (by exact_mod_cast hv₀) 128, hv.trans (by norm_num), hv₀, hv₁⟩

/-- A case that the generator writes is truthful. -/
theorem powCase_truthful (h : mp.Accurate) (zone : String) (hb : OnGrid b) (hb₀ : 0 < b)
    (hb₁ : b < 1) (hy : OnGrid y) (hy₀ : 0 < y) (hy₁ : y ≤ 99) :
    ∃ c, powCase mp zone b y = .ok c ∧ ∃ x z v, c.Truthful x z v := by
  obtain ⟨v, hq, hv, hv₀, hv₁⟩ := powTruth_near h hb hb₀ hb₁ hy hy₀ hy₁
  obtain ⟨x, hx, hsx⟩ := hb.eq_div
  obtain ⟨z, hz, hsz⟩ := hy.eq_div
  obtain ⟨base, hbase⟩ : ∃ s, dyadicStr b = .ok s := ⟨_, dyadicStr_ok hb.den_eq⟩
  obtain ⟨exponent, hexponent⟩ : ∃ s, dyadicStr y = .ok s := ⟨_, dyadicStr_ok hy.den_eq⟩
  have hcase : powCase mp zone b y = .ok ⟨zone, base, Int.repr x, exponent, Int.repr z,
      (powTruth mp b y).1, (powTruth mp b y).2⟩ := by
    unfold powCase
    rw [hbase, hsx, hexponent, hsz]
    rfl
  rw [hx, lt_div_iff₀ (by positivity), zero_mul] at hb₀
  rw [hx, div_lt_one (by positivity)] at hb₁
  rw [hz, lt_div_iff₀ (by positivity), zero_mul] at hy₀
  rw [hz, div_le_iff₀ (by positivity)] at hy₁
  refine ⟨_, hcase, x, z, v, ?_⟩
  exact {
    base_eq := rfl
    exponent_eq := rfl
    base_pos := by exact_mod_cast hb₀
    base_lt := by exact_mod_cast hb₁
    exponent_pos := by exact_mod_cast hy₀
    exponent_le := by exact_mod_cast hy₁
    truth_near := by
      rw [hx, hz] at hv
      push_cast at hv
      exact hv
    truth_nonneg := hv₀
    truth_lt := hv₁
    truth_eq := hq }

theorem lnCase_truthful (h : mp.Accurate) (hb : OnGrid b) (hb₀ : 0 < b) (hb₁ : b ≤ 1) :
    ∃ c, lnCase mp b = .ok c ∧ ∃ x v, c.Truthful x v := by
  obtain ⟨x, hx, hsx⟩ := hb.eq_div
  obtain ⟨dec, hdec⟩ : ∃ s, dyadicStr b = .ok s := ⟨_, dyadicStr_ok hb.den_eq⟩
  have hone : b = 1 ∨ (b : ℝ) ≤ 1 - 1 / 2 ^ 128 := by
    rcases hb₁.eq_or_lt with heq | hlt
    · exact .inl heq
    · exact .inr ((hb.le_one_sub hlt).trans (by norm_num))
  obtain ⟨hsign, hnear, -⟩ := h.log_toMpf ((hb.ge hb₀).trans' (by norm_num)) hone
  have hv : (0 : ℝ) ≤ (-mp.log (toMpf mp b) : ℚ) := by
    push_cast
    linarith
  have hcase : lnCase mp b = .ok ⟨dec, Int.repr x, mp.nstr (-mp.log (toMpf mp b)),
      qfmt (-mp.log (toMpf mp b)) 116⟩ := by
    unfold lnCase
    rw [hdec, hsx]
    rfl
  have hreal : (b : ℝ) = x / 2 ^ 40 := by
    rw [hx]
    push_cast
    rfl
  rw [hx, lt_div_iff₀ (by positivity), zero_mul] at hb₀
  rw [hx, div_le_one (by positivity)] at hb₁
  refine ⟨_, hcase, x, (-mp.log (toMpf mp b) : ℚ), ?_⟩
  exact {
    x_eq := rfl
    x_pos := by exact_mod_cast hb₀
    x_le := by exact_mod_cast hb₁
    truth_near := by
      rw [← hreal, Rat.cast_neg, neg_sub_neg, abs_sub_comm]
      exact hnear.trans (by norm_num)
    truth_nonneg := hv
    truth_eq := qfmt_eq (by exact_mod_cast hv) 116 }

/-- An exponential and its complement, while the latter is not one. -/
theorem Mp.Accurate.exp_toMpf (h : mp.Accurate) {t : ℚ} (ht₀ : (1 : ℝ) / 2 ^ 40 ≤ t)
    (ht₁ : (t : ℝ) ≤ 150) :
    Near (1 / 2 ^ 230) (mp.exp (-toMpf mp t) : ℝ) (Real.exp (-t)) ∧
      Near (1 / 2 ^ 230) (-(mp.expm1 (-toMpf mp t) : ℝ)) (1 - Real.exp (-t)) := by
  have hnear := h.toMpf_near t
  have hpos : (0 : ℝ) ≤ t := le_trans (by positivity) ht₀
  constructor
  · have harg : |((-toMpf mp t : ℚ) : ℝ) - -(t : ℝ)| ≤ 1 / 2 ^ 237 := by
      have hdiff : |(toMpf mp t : ℝ) - t| ≤ 1 / 2 ^ 245 * |(t : ℝ)| := hnear
      rw [abs_of_nonneg hpos] at hdiff
      push_cast
      rw [neg_sub_neg, abs_sub_comm]
      norm_num at hdiff ⊢
      linarith
    have hwork := (h.exp_near (-toMpf mp t)).mono (show (1 : ℝ) / 2 ^ 250 ≤ 1 / 2 ^ 236 by norm_num)
    have hexp := (near_exp harg (by norm_num)).mono
      (show 2 * (1 / 2 ^ 237) ≤ (1 : ℝ) / 2 ^ 236 by norm_num)
    exact (hwork.trans hexp (by positivity) (by norm_num)).mono (by norm_num)
  · have hwork := (h.expm1_near (-toMpf mp t)).neg.mono
      (show (1 : ℝ) / 2 ^ 250 ≤ 1 / 2 ^ 244 by norm_num)
    have hcomp := hnear.neg.one_sub_exp (by positivity) (by norm_num) (neg_nonpos.mpr hpos)
    rw [neg_sub, Rat.cast_neg] at hwork
    have hcomp' := hcomp.mono (show 2 * (1 / 2 ^ 245) ≤ (1 : ℝ) / 2 ^ 244 by norm_num)
    exact (hwork.trans hcomp' (by positivity) (by norm_num)).mono (by norm_num)

theorem exp_neg_ge {t : ℝ} (h : t ≤ 150) : (1 : ℝ) / 2 ^ 217 ≤ Real.exp (-t) := by
  have hlog : Real.log (1 / 2 ^ 217) ≤ -t := by
    have := Real.log_two_gt_d9
    rw [one_div, Real.log_inv, Real.log_pow]
    norm_num
    linarith
  rwa [← Real.log_le_iff_le_exp (by positivity)]

theorem expCase_truthful {t : ℚ} (h : mp.Accurate) (ht : OnGrid t) (ht₀ : 0 < t) (ht₁ : t ≤ 150) :
    ∃ c, expCase mp t = .ok c ∧ ∃ x v w, c.Truthful x v w := by
  obtain ⟨x, hx, hsx⟩ := ht.eq_div
  obtain ⟨dec, hdec⟩ : ∃ s, dyadicStr t = .ok s := ⟨_, dyadicStr_ok ht.den_eq⟩
  have htop : (t : ℝ) ≤ 150 := by exact_mod_cast ht₁
  obtain ⟨hexp, hexpm1⟩ := h.exp_toMpf (ht.ge ht₀) htop
  have hlow := exp_neg_ge htop
  have hhigh : Real.exp (-(t : ℝ)) ≤ 1 - 1 / 2 ^ 41 := by
    have hmono := Real.exp_le_exp.mpr (neg_le_neg (ht.ge ht₀))
    have hsmall := exp_neg_le (s := 1 / 2 ^ 40) (by positivity) (by norm_num)
    exact (hmono.trans hsmall).trans (by norm_num)
  have hcase : expCase mp t = .ok ⟨dec, Int.repr x, mp.nstr (mp.exp (-toMpf mp t)),
      qfmt (mp.exp (-toMpf mp t)) 128, mp.nstr (-mp.expm1 (-toMpf mp t)),
      qfmt (-mp.expm1 (-toMpf mp t)) 128⟩ := by
    unfold expCase
    rw [hdec, hsx]
    rfl
  have hreal : (t : ℝ) = x / 2 ^ 40 := by
    rw [hx]
    push_cast
    rfl
  rw [hx, lt_div_iff₀ (by positivity), zero_mul] at ht₀
  rw [hx, div_le_iff₀ (by positivity)] at ht₁
  rw [← Rat.cast_neg] at hexpm1
  rw [hreal] at hexp hexpm1 hlow hhigh
  have hx₁ : x ≤ 150 * 2 ^ 40 := by exact_mod_cast ht₁
  have hT : 0 ≤ Real.exp (-((x : ℝ) / 2 ^ 40)) := (Real.exp_pos _).le
  obtain ⟨hv, hv₀, hv₁⟩ := hexp.of_le_one_sub (by positivity) hT (hhigh.trans (by norm_num))
  obtain ⟨hw, hw₀, hw₁⟩ := hexpm1.of_le_one_sub (by positivity)
    (sub_nonneg.mpr (hhigh.trans (by norm_num))) (sub_le_sub_left (le_trans (by norm_num) hlow) 1)
  refine ⟨_, hcase, x, (mp.exp (-toMpf mp t) : ℚ), (-mp.expm1 (-toMpf mp t) : ℚ), ?_⟩
  exact {
    t_eq := rfl
    t_pos := by exact_mod_cast ht₀
    t_lt := by omega
    exp_near := hv.trans (by norm_num)
    exp_nonneg := hv₀
    exp_lt := hv₁
    exp_eq := qfmt_eq (by exact_mod_cast hv₀) 128
    expm1_near := hw.trans (by norm_num)
    expm1_nonneg := hw₀
    expm1_lt := hw₁
    expm1_eq := qfmt_eq (by exact_mod_cast hw₀) 128 }

/-- **Whatever grid is written down, the pow gate passes on it**: all bases
strictly between zero and one and all exponents up to 99, at every scale from the
fixture's own up to 54, by a library that is right to 250 bits. -/
theorem powCases_pass (B : Build) (h40 : 40 ≤ B.scale) (h54 : B.scale ≤ 54) (h : mp.Accurate)
    {zones : List PowZone}
    (hzones : ∀ z ∈ zones, (∀ b ∈ z.bases, OnGrid b ∧ 0 < b ∧ b < 1) ∧
      ∀ y ∈ z.exps, OnGrid y ∧ 0 < y ∧ y ≤ 99) :
    ∃ cases, powCases mp zones = .ok cases ∧ kernelPowGate B cases = .ok () := by
  have hzone : ∀ z ∈ zones, ∃ cs, z.add mp = .ok cs ∧ ∀ c ∈ cs, kernelPowCase B c = .ok () := by
    intro z hz
    obtain ⟨hbases, hexps⟩ := hzones z hz
    apply exists_mapM_ok_forall
    intro p hp
    obtain ⟨b, hb, hp⟩ := List.mem_flatMap.mp hp
    obtain ⟨y, hy, rfl⟩ := List.mem_map.mp hp
    obtain ⟨hbg, hb₀, hb₁⟩ := hbases b hb
    obtain ⟨hyg, hy₀, hy₁⟩ := hexps y hy
    obtain ⟨c, hc, x, w, v, hcase⟩ := powCase_truthful h z.zone hbg hb₀ hb₁ hyg hy₀ hy₁
    exact ⟨c, hc, kernelPowCase_ok h40 h54 hcase⟩
  obtain ⟨css, hcss, hpass⟩ := exists_mapM_ok_forall hzone
  refine ⟨css.flatten, ?_, ?_⟩
  · unfold powCases
    rw [hcss, ok_bind, pure_eq_ok]
  · apply forM_eq_ok.mpr
    intro c hc
    obtain ⟨cs, hcs, hc⟩ := List.mem_flatten.mp hc
    exact hpass cs hcs c hc

/-- A square root and a first power of a quarter. -/
theorem powCases_pass_quarter :
    ∃ cases, powCases (Mp.nearest fun v => if v = 1 / 4 then "0.25" else "0.5")
        [⟨"general", [1 / 4], [1 / 2, 1]⟩] = .ok cases ∧
      kernelPowGate (Build.kernel Profile.wrapping) cases = .ok () := by
  apply powCases_pass _ (by decide) (by decide) (Mp.nearest_accurate _)
  intro z hz
  obtain rfl := List.mem_singleton.mp hz
  constructor
  · intro b hb
    obtain rfl := List.mem_singleton.mp hb
    norm_num [OnGrid, gridBits]
  · intro y hy
    rcases List.mem_pair.mp hy with rfl | rfl <;> norm_num [OnGrid, gridBits]

/-- **And so does the diagnostic tier**, on all logarithms up to one and all
exponentials that leave their complement below one at 250 bits. -/
theorem lnExpCases_pass (B : Build) (h40 : 40 ≤ B.scale) (h54 : B.scale ≤ 54) (h : mp.Accurate)
    {lnInputs expInputs : List ℚ} (hln : ∀ x ∈ lnInputs, OnGrid x ∧ 0 < x ∧ x ≤ 1)
    (hexp : ∀ t ∈ expInputs, OnGrid t ∧ 0 < t ∧ t ≤ 150) :
    ∃ fixture, lnExpCases mp lnInputs expInputs = .ok fixture ∧
      kernelLnExpDiagnostics B fixture = .ok () := by
  obtain ⟨ln, hln₁, hln₂⟩ := exists_mapM_ok_forall (p := fun c => kernelLnCase B c = .ok ())
    fun x hx => by
      obtain ⟨hg, hx₀, hx₁⟩ := hln x hx
      obtain ⟨c, hc, z, v, hcase⟩ := lnCase_truthful h hg hx₀ hx₁
      exact ⟨c, hc, kernelLnCase_ok h40 h54 hcase⟩
  obtain ⟨exp, hexp₁, hexp₂⟩ := exists_mapM_ok_forall (p := fun c => kernelExpCase B c = .ok ())
    fun t ht => by
      obtain ⟨hg, ht₀, ht₁⟩ := hexp t ht
      obtain ⟨c, hc, z, v, w, hcase⟩ := expCase_truthful h hg ht₀ ht₁
      exact ⟨c, hc, kernelExpCase_ok h40 h54 hcase⟩
  refine ⟨⟨ln, exp⟩, ?_, ?_⟩
  · unfold lnExpCases
    rw [hln₁, ok_bind, hexp₁, ok_bind, pure_eq_ok]
  · unfold kernelLnExpDiagnostics
    rw [forM_eq_ok.mpr hln₂, ok_bind, forM_eq_ok.mpr hexp₂]

/-- The logarithm of one and the exponential of minus a half. -/
theorem lnExpCases_pass_half :
    ∃ fixture, lnExpCases (Mp.nearest fun v => if v = 0 then "0.0" else if v < 1 / 2 then
          "0.393469340287366576396200465008819546558081864512813044317107841264943480586252"
        else "0.606530659712633423603799534991180453441918135487186955682892158735056519413748")
        [1] [1 / 2] = .ok fixture ∧
      kernelLnExpDiagnostics (Build.kernel Profile.debug) fixture = .ok () := by
  apply lnExpCases_pass _ (by decide) (by decide) (Mp.nearest_accurate _)
  · intro x hx
    obtain rfl := List.mem_singleton.mp hx
    norm_num [OnGrid, gridBits]
  · intro t ht
    obtain rfl := List.mem_singleton.mp ht
    norm_num [OnGrid, gridBits]

end Kernel

end Oracle

end WeightedMath
