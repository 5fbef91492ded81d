/-
WeightedMath/WrapperGate.lean

The gate of the exact wrappers (`kernel_arith_wrappers`).

The gate shares no division with the wrappers it judges: it multiplies the
result back at double width and compares,

    down * d <= n < (down + 1) * d,        (up - 1) * d < n <= up * d,

with `d = 2^SCALE` and `n = a * b` for the products, and `d = b` and
`n = a * 2^SCALE` for the quotients.  So much is enough: each check passes
exactly on the floor, or the ceiling (`wrapper_checks_exact`), and the four
wrappers and the complement pass wherever their results are representable
(`kernelArithWrappers_ok`).
-/
import WeightedMath.Gates

namespace WeightedMath

open Machine

/-! ### The checks -/

/-- Is `down` the floor of `n / d`?  `times v` is `v * d` at double width. -/
def floorCheck (P : Profile) (times : ℕ → Exec (ℕ × ℕ)) (n : ℕ × ℕ) (down : ℕ) : Exec Bool := do
  let lo ← times down
  if wideLe lo n then do
    let next ← P.uadd 128 down 1
    let hi ← times next
    return wideLt n hi
  else return false

/-- Is `up` the ceiling of `n / d`? -/
def ceilCheck (P : Profile) (times : ℕ → Exec (ℕ × ℕ)) (n : ℕ × ℕ) (up : ℕ) : Exec Bool := do
  let hi ← times up
  if wideLe n hi then do
    if up = 0 then return true
    else do
      let prev ← P.usub 128 up 1
      let lo ← times prev
      return wideLt lo n
  else return false

structure ArithCase where
  a : String
  aS40 : String
  b : String
  bS40 : String

def ArithCase.debug (c : ArithCase) : String :=
  debugStruct "ArithCase" [("a", c.a), ("a_s40", c.aS40), ("b", c.b), ("b_s40", c.bS40)]

/-- mul: down = floor(a*b / 2^SCALE), up = ceil. -/
def mulWrappersCase (B : Build) (c : ArithCase) (a b : Fixed) (au bu : ℕ) : Exec Unit := do
  let product ← Harness.mulWide B.toProfile au bu
  let down ← Fixed.mulDown B a b
  let down ← B.asUnsigned 128 down.repr
  let up ← Fixed.mulUp B a b
  let up ← B.asUnsigned 128 up.repr
  let isFloor ← floorCheck B.toProfile (shlWide B.toProfile · B.scale) product down
  assert (isFloor = true) ("mul_down not the floor in " ++ c.debug)
  if product = (0, 0) then assertEq Nat.repr up 0 ("mul_up of exact zero in " ++ c.debug)
  else do
    let isCeil ← ceilCheck B.toProfile (shlWide B.toProfile · B.scale) product up
    assert (isCeil = true) ("mul_up not the ceiling in " ++ c.debug)

/-- div: down = floor(a * 2^SCALE / b), up = ceil. -/
def divWrappersCase (B : Build) (c : ArithCase) (a b : Fixed) (au bu : ℕ) : Exec Unit := do
  let numerator ← shlWide B.toProfile au B.scale
  let qd ← Fixed.divDown B a b
  let qd ← B.asUnsigned 128 qd.repr
  let qu ← Fixed.divUp B a b
  let qu ← B.asUnsigned 128 qu.repr
  let isFloor ← floorCheck B.toProfile (Harness.mulWide B.toProfile · bu) numerator qd
  assert (isFloor = true) ("div_down not the floor in " ++ c.debug)
  if numerator = (0, 0) then assertEq Nat.repr qu 0 ("div_up of exact zero in " ++ c.debug)
  else do
    let isCeil ← ceilCheck B.toProfile (Harness.mulWide B.toProfile · bu) numerator qu
    assert (isCeil = true) ("div_up not the ceiling in " ++ c.debug)

def kernelArithCase (B : Build) (one : ℕ) (c : ArithCase) : Exec Unit := do
  let a ← s40ToFixed B c.aS40
  let b ← s40ToFixed B c.bS40
  let au ← B.asUnsigned 128 a.repr
  let bu ← B.asUnsigned 128 b.repr
  mulWrappersCase B c a b au bu
  if bu ≠ 0 then divWrappersCase B c a b au bu
  -- complement: exact ONE - x, saturating at zero
  let comp ← Fixed.complement B a
  let comp ← B.asUnsigned 128 comp.repr
  assertEq Nat.repr comp (one - au) ("complement wrong in " ++ c.debug)

def kernelArithWrappers (B : Build) (cases : List ArithCase) : Exec Unit := do
  let one ← B.asUnsigned 128 B.one.repr
  cases.forM (kernelArithCase B one)

/-! ### What they pass -/

theorem eq_div_iff_bounds {n d down : ℕ} (hd : 0 < d) :
    down = n / d ↔ down * d ≤ n ∧ n < (down + 1) * d := by
  rw [← Nat.le_div_iff_mul_le hd, ← Nat.div_lt_iff_lt_mul hd]
  omega

theorem eq_ceilDiv_iff_bounds {n d up : ℕ} (hd : 0 < d) :
    up = n ⌈/⌉ d ↔ n ≤ up * d ∧ (up = 0 ∨ (up - 1) * d < n) := by
  have key : ∀ c, n ⌈/⌉ d ≤ c ↔ n ≤ c * d := by
    intro c
    rw [ceilDiv_le_iff_le_mul hd, mul_comm]
  rw [← key up, ← not_le, ← key (up - 1)]
  omega

section Checks

variable {P : Profile} {times : ℕ → Exec (ℕ × ℕ)} {n d : ℕ}

/-- **The floor check passes on the floor only.** -/
theorem floorCheck_eq (hd : 0 < d) (htimes : ∀ v, v < 2 ^ 128 → times v = .ok (words (v * d)))
    {down : ℕ} (h : down + 1 < 2 ^ 128) :
    floorCheck P times (words n) down = .ok (decide (down = n / d)) := by
  unfold floorCheck
  rw [htimes down (by omega), ok_bind]
  by_cases hlo : down * d ≤ n
  · rw [if_pos (wideLe_words.mpr hlo), Profile.uadd_ok h, ok_bind, htimes _ h, ok_bind, pure_eq_ok]
    congr 1
    rw [Bool.eq_iff_iff, wideLt_words, decide_eq_true_iff, eq_div_iff_bounds hd]
    exact (and_iff_right hlo).symm
  · rw [if_neg (mt wideLe_words.mp hlo), pure_eq_ok,
      decide_eq_false (mt (eq_div_iff_bounds hd).mp fun e => hlo e.1)]

/-- **The ceiling check passes on the ceiling only.** -/
theorem ceilCheck_eq (hd : 0 < d) (htimes : ∀ v, v < 2 ^ 128 → times v = .ok (words (v * d)))
    {up : ℕ} (h : up < 2 ^ 128) :
    ceilCheck P times (words n) up = .ok (decide (up = n ⌈/⌉ d)) := by
  unfold ceilCheck
  rw [htimes up h, ok_bind]
  by_cases hhi : n ≤ up * d
  · rw [if_pos (wideLe_words.mpr hhi)]
    by_cases hup : up = 0
    · rw [if_pos hup, pure_eq_ok, decide_eq_true ((eq_ceilDiv_iff_bounds hd).mpr ⟨hhi, .inl hup⟩)]
    · rw [if_neg hup, Profile.usub_ok (by omega), ok_bind, htimes _ (by omega), ok_bind, pure_eq_ok]
      congr 1
      rw [Bool.eq_iff_iff, wideLt_words, decide_eq_true_iff, eq_ceilDiv_iff_bounds hd]
      simp only [hhi, hup, true_and, false_or]
  · rw [if_neg (mt wideLe_words.mp hhi), pure_eq_ok,
      decide_eq_false (mt (eq_ceilDiv_iff_bounds hd).mp fun e => hhi e.1)]

end Checks

/-- **The wrapper checks are exact**, at double width and in every profile: on
the product of any two words against the shifted result, and on any shifted
word against the result times the divisor, the one check passes exactly on the
floor and the other exactly on the ceiling. -/
theorem wrapper_checks_exact (B : Build) {a b r : ℕ} (ha : a < 2 ^ 128) (hb : b < 2 ^ 128)
    (hr : r + 1 < 2 ^ 128) :
    (∃ product, Harness.mulWide B.toProfile a b = .ok product ∧
      floorCheck B.toProfile (shlWide B.toProfile · B.scale) product r
        = .ok (decide (r = a * b / 2 ^ B.scale)) ∧
      ceilCheck B.toProfile (shlWide B.toProfile · B.scale) product r
        = .ok (decide (r = (a * b) ⌈/⌉ 2 ^ B.scale))) ∧
    (0 < b → ∃ numerator, shlWide B.toProfile a B.scale = .ok numerator ∧
      floorCheck B.toProfile (Harness.mulWide B.toProfile · b) numerator r
        = .ok (decide (r = a * 2 ^ B.scale / b)) ∧
      ceilCheck B.toProfile (Harness.mulWide B.toProfile · b) numerator r
        = .ok (decide (r = (a * 2 ^ B.scale) ⌈/⌉ b))) := by
  have hshl : ∀ v, v < 2 ^ 128 → shlWide B.toProfile v B.scale = .ok (words (v * 2 ^ B.scale)) :=
    fun v hv => shlWide_ok hv B.scale_lt_word
  have hmul : ∀ v, v < 2 ^ 128 → Harness.mulWide B.toProfile v b = .ok (words (v * b)) :=
    fun v hv => Harness.mulWide_ok hv hb
  constructor
  · exact ⟨_, hmul a ha, floorCheck_eq (Nat.two_pow_pos _) hshl hr,
      ceilCheck_eq (Nat.two_pow_pos _) hshl (by omega)⟩
  · intro hpos
    exact ⟨_, hshl a ha, floorCheck_eq hpos hmul hr, ceilCheck_eq hpos hmul (by omega)⟩

/-- A seventh of a unit, at the largest words. -/
theorem wrapper_checks_exact_seventh :
    (∃ product, Harness.mulWide Profile.debug (2 ^ 128 - 1) 7 = .ok product ∧
      floorCheck Profile.debug (shlWide Profile.debug · 52) product 5
        = .ok (decide (5 = (2 ^ 128 - 1) * 7 / 2 ^ 52)) ∧
      ceilCheck Profile.debug (shlWide Profile.debug · 52) product 5
        = .ok (decide (5 = ((2 ^ 128 - 1) * 7) ⌈/⌉ 2 ^ 52))) ∧
    (0 < 7 → ∃ numerator, shlWide Profile.debug (2 ^ 128 - 1) 52 = .ok numerator ∧
      floorCheck Profile.debug (Harness.mulWide Profile.debug · 7) numerator 5
        = .ok (decide (5 = (2 ^ 128 - 1) * 2 ^ 52 / 7)) ∧
      ceilCheck Profile.debug (Harness.mulWide Profile.debug · 7) numerator 5
        = .ok (decide (5 = ((2 ^ 128 - 1) * 2 ^ 52) ⌈/⌉ 7))) :=
  wrapper_checks_exact (Build.kernel Profile.debug) (by norm_num) (by norm_num) (by norm_num)

/-! ### The gate -/

/-- The case is about the grid points `m` and `n` of the nonnegative line, which
fit, as do their product and, with a divisor, the dividend. -/
structure ArithCase.InRange (B : Build) (c : ArithCase) (m n : ℕ) : Prop where
  a_eq : c.aS40 = Int.repr m
  b_eq : c.bS40 = Int.repr n
  a_lt : m * 2 ^ (B.scale - 40) < 2 ^ 127
  b_lt : n * 2 ^ (B.scale - 40) < 2 ^ 127
  product_lt : (m * 2 ^ (B.scale - 40) * (n * 2 ^ (B.scale - 40))) ⌈/⌉ 2 ^ B.scale < 2 ^ 127
  dividend_lt : 0 < n → m * 2 ^ (B.scale - 40) < 2 ^ (127 - B.scale)

section Gate

variable {B : Build} {c : ArithCase} {a b : ℕ}

theorem natCast_asUnsigned_ok {P : Profile} {n : ℕ} (h : n < 2 ^ 128) :
    P.asUnsigned 128 (n : ℤ) = .ok n := by
  rw [Profile.asUnsigned_ok (Int.natCast_nonneg n) (by exact_mod_cast h), Int.toNat_natCast]

/-- A representable rounded-up product is returned in every profile. -/
theorem Fixed.mulUp_ok (ha : a < 2 ^ 127) (hb : b < 2 ^ 127)
    (h : (a * b) ⌈/⌉ 2 ^ B.scale < 2 ^ 127) :
    Fixed.mulUp B ⟨a⟩ ⟨b⟩ = .ok ⟨((a * b) ⌈/⌉ 2 ^ B.scale : ℕ)⟩ := by
  unfold Fixed.mulUp
  rw [nonneg_ok ha, ok_bind, nonneg_ok hb, ok_bind, mulShrUp_ok (ha.trans (by norm_num))
    (hb.trans (by norm_num)) B.scale_pos B.scale_lt_word (h.trans (by norm_num)), ok_bind]
  exact checkedRepr_bind_eq_ok.mpr ⟨h, rfl⟩

theorem mulWrappersCase_ok (ha : a < 2 ^ 127) (hb : b < 2 ^ 127)
    (h : (a * b) ⌈/⌉ 2 ^ B.scale < 2 ^ 127) : mulWrappersCase B c ⟨a⟩ ⟨b⟩ a b = .ok () := by
  have hfloor := (floor_le_ceil (a * b) (Nat.two_pow_pos B.scale)).trans_lt h
  have hdown : Fixed.mulDown B ⟨a⟩ ⟨b⟩ = .ok ⟨(a * b / 2 ^ B.scale : ℕ)⟩ :=
    (Fixed.mulDown_eq_ok (fitsI_natCast.mpr ha) (fitsI_natCast.mpr hb)).mpr
      ⟨a, b, rfl, rfl, hfloor, rfl⟩
  have hshl : ∀ v, v < 2 ^ 128 → shlWide B.toProfile v B.scale = .ok (words (v * 2 ^ B.scale)) :=
    fun v hv => shlWide_ok hv B.scale_lt_word
  unfold mulWrappersCase
  rw [Harness.mulWide_ok (ha.trans (by norm_num)) (hb.trans (by norm_num)), ok_bind, hdown, ok_bind,
    natCast_asUnsigned_ok (hfloor.trans (by norm_num)), ok_bind, Fixed.mulUp_ok ha hb h, ok_bind,
    natCast_asUnsigned_ok (h.trans (by norm_num)), ok_bind,
    floorCheck_eq (Nat.two_pow_pos _) hshl (by omega), ok_bind, assert_ok (decide_eq_true rfl),
    ok_bind]
  split_ifs with hzero
  · rw [words_eq_zero.mp hzero, zero_ceilDiv, assertEq_ok rfl]
  · rw [ceilCheck_eq (Nat.two_pow_pos _) hshl (by omega), ok_bind, assert_ok (decide_eq_true rfl)]

theorem divWrappersCase_ok (ha : a < 2 ^ (127 - B.scale)) (hb : b < 2 ^ 127) (hpos : 0 < b) :
    divWrappersCase B c ⟨a⟩ ⟨b⟩ a b = .ok () := by
  have hword := dividend_lt ha
  have ha' : a < 2 ^ 127 := (Nat.le_mul_of_pos_right a (Nat.two_pow_pos B.scale)).trans_lt hword
  have hfloor := (Nat.div_le_self (a * 2 ^ B.scale) b).trans_lt hword
  have hceil := (ceilDiv_le_self (a * 2 ^ B.scale) hpos).trans_lt hword
  have hdown : Fixed.divDown B ⟨a⟩ ⟨b⟩ = .ok ⟨(a * 2 ^ B.scale / b : ℕ)⟩ :=
    (Fixed.divDown_eq_ok (fitsI_natCast.mpr ha') (fitsI_natCast.mpr hb)).mpr
      ⟨a, b, rfl, rfl, hpos, ha, rfl⟩
  have hup : Fixed.divUp B ⟨a⟩ ⟨b⟩ = .ok ⟨((a * 2 ^ B.scale) ⌈/⌉ b : ℕ)⟩ :=
    (Fixed.divUp_eq_ok (fitsI_natCast.mpr ha') (fitsI_natCast.mpr hb)).mpr
      ⟨a, b, rfl, rfl, hpos, ha, rfl⟩
  have hmul : ∀ v, v < 2 ^ 128 → Harness.mulWide B.toProfile v b = .ok (words (v * b)) :=
    fun v hv => Harness.mulWide_ok hv (hb.trans (by norm_num))
  unfold divWrappersCase
  rw [shlWide_ok (ha'.trans (by norm_num)) B.scale_lt_word, ok_bind, hdown, ok_bind,
    natCast_asUnsigned_ok (hfloor.trans (by norm_num)), ok_bind, hup, ok_bind,
    natCast_asUnsigned_ok (hceil.trans (by norm_num)), ok_bind,
    floorCheck_eq hpos hmul (by omega), ok_bind, assert_ok (decide_eq_true rfl), ok_bind]
  split_ifs with hzero
  · rw [words_eq_zero.mp hzero, zero_ceilDiv, assertEq_ok rfl]
  · rw [ceilCheck_eq hpos hmul (by omega), ok_bind, assert_ok (decide_eq_true rfl)]

theorem kernelArithCase_ok (h40 : 40 ≤ B.scale) {m n : ℕ} (h : c.InRange B m n) :
    kernelArithCase B (2 ^ B.scale) c = .ok () := by
  obtain ⟨ha, hb, ha₁, hb₁, hprod, hdiv⟩ := h
  have hread : ∀ k : ℕ, k * 2 ^ (B.scale - 40) < 2 ^ 127 →
      s40ToFixed B (Int.repr k) = .ok ⟨(k * 2 ^ (B.scale - 40) : ℕ)⟩ := by
    intro k hk
    have hfit : FitsI 128 ((k : ℤ) * 2 ^ (B.scale - 40)) := by
      have := fitsI_natCast.mpr hk
      push_cast at this
      exact this
    rw [s40ToFixed_repr B h40 hfit]
    push_cast
    rfl
  have hn : 0 < n * 2 ^ (B.scale - 40) → 0 < n := fun hpos => Nat.pos_of_mul_pos_right hpos
  unfold kernelArithCase
  rw [ha, hread m ha₁, ok_bind, hb, hread n hb₁, ok_bind]
  generalize m * 2 ^ (B.scale - 40) = a at *
  generalize n * 2 ^ (B.scale - 40) = b at *
  have hcomp : Fixed.complement B ⟨a⟩ = .ok ⟨max (B.one.repr - a) 0⟩ :=
    (Fixed.complement_eq_ok (fitsI_natCast.mpr ha₁)).mpr ⟨Int.natCast_nonneg a, rfl⟩
  have hone : max (B.one.repr - (a : ℤ)) 0 = ((2 ^ B.scale - a : ℕ) : ℤ) := by
    rw [Build.one_repr]
    have : ((2 ^ B.scale : ℕ) : ℤ) = 2 ^ B.scale := by push_cast; rfl
    omega
  have hone₁ : 2 ^ B.scale - a < 2 ^ 128 :=
    (Nat.sub_le _ _).trans_lt (Nat.pow_lt_pow_right (by norm_num) B.scale_lt_word)
  dsimp only
  rw [natCast_asUnsigned_ok (ha₁.trans (by norm_num)), ok_bind,
    natCast_asUnsigned_ok (hb₁.trans (by norm_num)), ok_bind, mulWrappersCase_ok ha₁ hb₁ hprod,
    ok_bind]
  have hend : (do
      let comp ← Fixed.complement B ⟨a⟩
      let comp ← B.asUnsigned 128 comp.repr
      assertEq Nat.repr comp (2 ^ B.scale - a) ("complement wrong in " ++ c.debug)) = .ok () := by
    rw [hcomp, ok_bind, hone, natCast_asUnsigned_ok hone₁, ok_bind, assertEq_ok rfl]
  split_ifs with hzero
  · rw [divWrappersCase_ok (hdiv (hn (Nat.pos_of_ne_zero hzero))) hb₁ (Nat.pos_of_ne_zero hzero),
      ok_bind]
    exact hend
  · exact hend

/-- **The wrapper gate passes wherever the results are representable**: for
every list of pairs on the nonnegative grid, at every scale from 40 on, in every
profile. -/
theorem kernelArithWrappers_ok (h40 : 40 ≤ B.scale) {cases : List ArithCase}
    (h : ∀ c ∈ cases, ∃ m n, c.InRange B m n) : kernelArithWrappers B cases = .ok () := by
  have hone : B.asUnsigned 128 B.one.repr = .ok (2 ^ B.scale) := by
    have hlt : 2 ^ B.scale < 2 ^ 128 := Nat.pow_lt_pow_right (by norm_num) B.scale_lt_word
    have := natCast_asUnsigned_ok (P := B.toProfile) hlt
    rwa [Nat.cast_pow] at this
  unfold kernelArithWrappers
  rw [hone, ok_bind]
  apply forM_eq_ok.mpr
  intro c hc
  obtain ⟨m, n, hmn⟩ := h c hc
  exact kernelArithCase_ok h40 hmn

/-- A product that underflows, and a division of zero. -/
theorem kernelArithWrappers_ok_tiny :
    kernelArithWrappers (Build.kernel Profile.wrapping)
      [⟨"2^-40", "1", "2^-40", "1"⟩, ⟨"0", "0", "0.5", "549755813888"⟩] = .ok () := by
  apply kernelArithWrappers_ok (by decide)
  intro c hc
  rcases List.mem_pair.mp hc with rfl | rfl
  · refine ⟨1, 1, ?_⟩
    exact {
      a_eq := by decide +kernel
      b_eq := by decide +kernel
      a_lt := by norm_num
      b_lt := by norm_num
      product_lt := by decide +kernel
      dividend_lt := by norm_num }
  · refine ⟨0, 2 ^ 39, ?_⟩
    exact {
      a_eq := by decide +kernel
      b_eq := by decide +kernel
      a_lt := by norm_num
      b_lt := by norm_num
      product_lt := by decide +kernel
      dividend_lt := by norm_num }

end Gate

end WeightedMath
