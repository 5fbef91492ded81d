/-
WeightedMath/Wide.lean

The widening multiply (`wide.rs`): the full 128 × 128 → 256 product as a pair
of words, and the two shifted readings of it, floor and ceiling.

`mulWide_eq` is the exactness of the schoolbook recombination; after it nothing
looks inside `mulWide` again.  The two readings are then settled by one fit
test each:

    mulShr   a b s = floor (a * b / 2 ^ s)  if a * b < 2 ^ (128 + s), else halt
    mulShrUp a b s = ceil  (a * b / 2 ^ s)  settled in 128 bits, same test.

The ceiling is *settled*: its last addition has the type's own overflow
behaviour, because the fit test looks at the floor only.
-/
import WeightedMath.Machine

namespace WeightedMath

open Machine

/-! ### The wide product -/

/-- `u64::MAX as u128`. -/
def mask64 : ℕ := 2 ^ 64 - 1

/-- Full `128x128 -> 256`-bit product as `(hi, lo)`. -/
def mulWide (P : Profile) (a b : ℕ) : Exec (ℕ × ℕ) := do
  let aHi ← P.ushr 128 a 64
  let aLo := a &&& mask64
  let bHi ← P.ushr 128 b 64
  let bLo := b &&& mask64
  let ll ← P.umul 128 aLo bLo
  let lh ← P.umul 128 aLo bHi
  let hl ← P.umul 128 aHi bLo
  let hh ← P.umul 128 aHi bHi
  let (mid, carryMid) := overflowingAdd 128 lh hl
  -- `mid << 64` keeps the low half of `mid` on purpose: the high half enters
  -- `hi` by itself, so no bit is lost here
  let (lo, carryLo) := overflowingAdd 128 ll (mid <<< 64 % 2 ^ 128)
  let midHi ← P.ushr 128 mid 64
  let carryHi ← P.ushl 128 carryMid.toNat 64
  let h₁ ← P.uadd 128 hh midHi
  let h₂ ← P.uadd 128 h₁ carryHi
  let hi ← P.uadd 128 h₂ carryLo.toNat
  return (hi, lo)

theorem and_mask64 (a : ℕ) : a &&& mask64 = a % 2 ^ 64 :=
  Nat.and_two_pow_sub_one_eq_mod a 64

/-- A sum of two words is its low word plus its carry. -/
theorem overflowingAdd_eq {w a b : ℕ} (ha : a < 2 ^ w) (hb : b < 2 ^ w) :
    (overflowingAdd w a b).1 + (overflowingAdd w a b).2.toNat * 2 ^ w = a + b := by
  unfold overflowingAdd
  by_cases h : 2 ^ w ≤ a + b
  · have hmod : (a + b) % 2 ^ w = a + b - 2 ^ w := by
      rw [Nat.mod_eq_sub_mod h, Nat.mod_eq_of_lt (by omega)]
    simp only [h, decide_true, Bool.toNat_true, hmod]
    omega
  · simp only [h, decide_false, Bool.toNat_false, Nat.mod_eq_of_lt (not_le.mp h)]
    omega

theorem overflowingAdd_fst_lt (w a b : ℕ) : (overflowingAdd w a b).1 < 2 ^ w :=
  Nat.mod_lt _ (by positivity)

/-- Schoolbook recombination in radix `B`: the four partial products, the sum
`mid` of the two cross terms with its carry, and the sum `lo` of the low parts
with its carry, give the product back. -/
theorem schoolbook {B aHi aLo bHi bLo mid carryMid lo carryLo : ℕ}
    (hmid : mid + carryMid * (B * B) = aLo * bHi + aHi * bLo)
    (hlo : lo + carryLo * (B * B) = aLo * bLo + mid % B * B) :
    (B * aHi + aLo) * (B * bHi + bLo)
      = (aHi * bHi + mid / B + carryMid * B + carryLo) * (B * B) + lo := by
  have hsplit := Nat.div_add_mod mid B
  zify at *
  linear_combination (-(B : ℤ)) * hmid - hlo - (B : ℤ) * hsplit

/-- The product of two halves is a word. -/
theorem half_mul_half_lt {x y : ℕ} (hx : x < 2 ^ 64) (hy : y < 2 ^ 64) : x * y < 2 ^ 128 := by
  calc x * y < 2 ^ 64 * 2 ^ 64 := Nat.mul_lt_mul'' hx hy
    _ = 2 ^ 128 := by norm_num

/-- `mid << 64` in a word: the low half of `mid`, moved up. -/
theorem shiftLeft_half (mid : ℕ) : mid <<< 64 % 2 ^ 128 = mid % 2 ^ 64 * 2 ^ 64 := by
  rw [Nat.shiftLeft_eq, show (2 : ℕ) ^ 128 = 2 ^ 64 * 2 ^ 64 by norm_num, Nat.mul_mod_mul_right]

/-- The high word of a number below `n * n`. -/
theorem high_lt {hi lo n : ℕ} (h : hi * n + lo < n * n) : hi < n := by
  by_contra hge
  have := Nat.mul_le_mul_right n (not_lt.mp hge)
  omega

/-- **The wide product is exact**, in every profile: no partial product and no
step of the high-word sum leaves its type. -/
theorem mulWide_eq {P : Profile} {a b : ℕ} (ha : a < 2 ^ 128) (hb : b < 2 ^ 128) :
    mulWide P a b = .ok (a * b / 2 ^ 128, a * b % 2 ^ 128) := by
  have htop : a * b < 2 ^ 128 * 2 ^ 128 := Nat.mul_lt_mul'' ha hb
  have hsq : (2 : ℕ) ^ 128 = 2 ^ 64 * 2 ^ 64 := by norm_num
  -- the halves, with `a = 2 ^ 64 * aHi + aLo`
  have hda := Nat.div_add_mod a (2 ^ 64)
  have hdb := Nat.div_add_mod b (2 ^ 64)
  have haLo : a % 2 ^ 64 < 2 ^ 64 := Nat.mod_lt _ (by norm_num)
  have hbLo : b % 2 ^ 64 < 2 ^ 64 := Nat.mod_lt _ (by norm_num)
  have haHi : a / 2 ^ 64 < 2 ^ 64 := Nat.div_lt_of_lt_mul (by rwa [← hsq])
  have hbHi : b / 2 ^ 64 < 2 ^ 64 := Nat.div_lt_of_lt_mul (by rwa [← hsq])
  unfold mulWide
  simp only [Profile.ushr_ok (show 64 < 128 by norm_num), ok_bind, and_mask64,
    Nat.shiftRight_eq_div_pow]
  generalize a / 2 ^ 64 = aHi at *
  generalize a % 2 ^ 64 = aLo at *
  generalize b / 2 ^ 64 = bHi at *
  generalize b % 2 ^ 64 = bLo at *
  have hll := half_mul_half_lt haLo hbLo
  have hlh := half_mul_half_lt haLo hbHi
  have hhl := half_mul_half_lt haHi hbLo
  have hhh := half_mul_half_lt haHi hbHi
  rw [Profile.umul_ok hll, Profile.umul_ok hlh, Profile.umul_ok hhl, Profile.umul_ok hhh]
  simp only [ok_bind]
  -- the two additions with carry
  have hmid := overflowingAdd_eq hlh hhl
  generalize overflowingAdd 128 (aLo * bHi) (aHi * bLo) = m at *
  obtain ⟨mid, carryMid⟩ := m
  have hlowlt : mid % 2 ^ 64 * 2 ^ 64 < 2 ^ 128 := by
    rw [← shiftLeft_half]
    exact Nat.mod_lt _ (by norm_num)
  have hlo := overflowingAdd_eq hll hlowlt
  have hlolt := overflowingAdd_fst_lt 128 (aLo * bLo) (mid % 2 ^ 64 * 2 ^ 64)
  simp only [shiftLeft_half]
  generalize overflowingAdd 128 (aLo * bLo) (mid % 2 ^ 64 * 2 ^ 64) = l at *
  obtain ⟨lo, carryLo⟩ := l
  simp only at hmid hlo hlolt ⊢
  -- the recombined product; every partial sum is below its high word
  have hab := schoolbook (hsq ▸ hmid) (hsq ▸ hlo)
  rw [hda, hdb, ← hsq] at hab
  have hsum : aHi * bHi + mid / 2 ^ 64 + carryMid.toNat * 2 ^ 64 + carryLo.toNat < 2 ^ 128 := by
    rw [hab] at htop
    exact high_lt htop
  generalize aHi * bHi = hh at *
  generalize mid / 2 ^ 64 = midHi at *
  have hcarry : carryMid.toNat <<< 64 < 2 ^ 128 := by
    rw [Nat.shiftLeft_eq]
    exact (Nat.mul_le_mul_right _ (Bool.toNat_le carryMid)).trans_lt (by norm_num)
  have h₁ : hh + midHi < 2 ^ 128 := by omega
  have h₂ : hh + midHi + carryMid.toNat * 2 ^ 64 < 2 ^ 128 := by omega
  rw [Profile.ushl_ok (by norm_num) hcarry, ok_bind, Nat.shiftLeft_eq, Profile.uadd_ok h₁,
    ok_bind, Profile.uadd_ok h₂, ok_bind, Profile.uadd_ok hsum, ok_bind, pure_eq_ok, hab,
    Nat.add_comm _ lo, Nat.add_mul_div_right _ _ (by norm_num), Nat.div_eq_of_lt hlolt,
    Nat.add_mul_mod_self_right, Nat.mod_eq_of_lt hlolt, Nat.zero_add]

/-! ### Shifted products -/

/-- The message of the fit assertion. -/
def fitMsg : String := "widened product exceeds u128 after shift"

/-- `floor(a * b / 2^shift)` for `0 < shift < 128`. -/
def mulShr (P : Profile) (a b shift : ℕ) : Exec ℕ := do
  P.debugAssert (shift > 0 ∧ shift < 128) "shift > 0 && shift < 128"
  let (hi, lo) ← mulWide P a b
  let spill ← P.ushr 128 hi shift
  assert (spill = 0) fitMsg
  let up ← P.usub 32 128 shift
  let h ← P.ushl 128 hi up
  let l ← P.ushr 128 lo shift
  return h ||| l

/-- Ceiling variant of `mulShr`, same fit requirement. -/
def mulShrUp (P : Profile) (a b shift : ℕ) : Exec ℕ := do
  P.debugAssert (shift > 0 ∧ shift < 128) "shift > 0 && shift < 128"
  let (hi, lo) ← mulWide P a b
  let spill ← P.ushr 128 hi shift
  assert (spill = 0) fitMsg
  let up ← P.usub 32 128 shift
  let h ← P.ushl 128 hi up
  let l ← P.ushr 128 lo shift
  let floor := h ||| l
  let unit ← P.ushl 128 1 shift
  let low ← P.usub 128 unit 1
  P.uadd 128 floor (decide (lo &&& low ≠ 0)).toNat

/-- The high word passes the fit test iff the shifted product is a word. -/
theorem hi_shiftRight_eq_zero {n shift : ℕ} :
    (n / 2 ^ 128) >>> shift = 0 ↔ n < 2 ^ (128 + shift) := by
  rw [Nat.shiftRight_eq_div_pow, Nat.div_div_eq_div_mul, ← pow_add,
    Nat.div_eq_zero_iff_lt (by positivity)]

/-- A fitting product, reassembled from its two words. -/
theorem shifted_words {n shift : ℕ} (hs : shift < 128) (h : n < 2 ^ (128 + shift)) :
    (n / 2 ^ 128) <<< (128 - shift) < 2 ^ 128 ∧
      (n / 2 ^ 128) <<< (128 - shift) ||| (n % 2 ^ 128) >>> shift = n / 2 ^ shift := by
  obtain ⟨up, hup⟩ : ∃ up, 128 = up + shift := ⟨128 - shift, by omega⟩
  have hsub : 128 - shift = up := by omega
  have hpow : (2 : ℕ) ^ 128 = 2 ^ up * 2 ^ shift := by rw [← pow_add, ← hup]
  rw [hsub]
  constructor
  · rw [Nat.shiftLeft_eq, hpow, mul_comm]
    refine Nat.mul_lt_mul_of_pos_left ?_ (by positivity)
    rw [← hpow]
    exact Nat.div_lt_of_lt_mul (by rwa [← pow_add])
  · have hlow : (n % 2 ^ 128) >>> shift < 2 ^ up := by
      rw [Nat.shiftRight_eq_div_pow]
      refine Nat.div_lt_of_lt_mul ?_
      rw [mul_comm, ← hpow]
      exact Nat.mod_lt _ (by positivity)
    rw [← Nat.shiftLeft_add_eq_or_of_lt hlow, Nat.shiftLeft_eq, Nat.shiftRight_eq_div_pow]
    have e : n = 2 ^ shift * (n / 2 ^ 128 * 2 ^ up) + n % 2 ^ 128 := by
      conv_lhs => rw [← Nat.div_add_mod n (2 ^ 128), hpow]
      rw [hpow]; ring
    conv_rhs => rw [e]
    rw [Nat.mul_add_div (by positivity)]

section Shifted

variable {P : Profile} {a b shift : ℕ}

/-- **`mulShr` is the floor, or halts at its fit assertion.** -/
theorem mulShr_eq (ha : a < 2 ^ 128) (hb : b < 2 ^ 128) (h₀ : 0 < shift) (hs : shift < 128) :
    mulShr P a b shift =
      if a * b < 2 ^ (128 + shift) then .ok (a * b / 2 ^ shift)
      else .error (.assert fitMsg) := by
  unfold mulShr
  rw [Profile.debugAssert_ok ⟨h₀, hs⟩, mulWide_eq ha hb]
  simp only [ok_bind, Profile.ushr_ok hs]
  split_ifs with h
  · obtain ⟨hlt, heq⟩ := shifted_words hs h
    rw [assert_ok (hi_shiftRight_eq_zero.mpr h), ok_bind, Profile.usub_ok hs.le, ok_bind,
      Profile.ushl_ok (by omega) hlt, ok_bind, pure_eq_ok, heq]
  · rw [assert_error (mt hi_shiftRight_eq_zero.mp h), error_bind]

theorem mulShr_ok (ha : a < 2 ^ 128) (hb : b < 2 ^ 128) (h₀ : 0 < shift) (hs : shift < 128)
    (h : a * b < 2 ^ (128 + shift)) : mulShr P a b shift = .ok (a * b / 2 ^ shift) := by
  rw [mulShr_eq ha hb h₀ hs, if_pos h]

/-- The floor is returned iff it is a word. -/
theorem mulShr_eq_ok (ha : a < 2 ^ 128) (hb : b < 2 ^ 128) (h₀ : 0 < shift) (hs : shift < 128)
    {v : ℕ} :
    mulShr P a b shift = .ok v ↔ a * b / 2 ^ shift < 2 ^ 128 ∧ v = a * b / 2 ^ shift := by
  have hfit : a * b / 2 ^ shift < 2 ^ 128 ↔ a * b < 2 ^ (128 + shift) := by
    rw [Nat.div_lt_iff_lt_mul (Nat.two_pow_pos shift), ← pow_add]
  rw [hfit]
  constructor
  · intro hv
    rw [mulShr_eq ha hb h₀ hs] at hv
    split_ifs at hv with h
    exact ⟨h, (Except.ok.inj hv).symm⟩
  · rintro ⟨h, rfl⟩
    exact mulShr_ok ha hb h₀ hs h

/-- The rounding carry turns the floor into the ceiling. -/
theorem floor_add_carry (n : ℕ) (hs : shift < 128) :
    n / 2 ^ shift + (decide (n % 2 ^ 128 &&& (2 ^ shift - 1) ≠ 0)).toNat
      = n ⌈/⌉ 2 ^ shift := by
  have hdvd : 2 ^ shift ∣ 2 ^ 128 := pow_dvd_pow 2 hs.le
  rw [Nat.and_two_pow_sub_one_eq_mod, Nat.mod_mod_of_dvd _ hdvd]
  have h := divCeil_ok (a := n) (b := 2 ^ shift) (by positivity)
  unfold divCeil at h
  rw [if_neg (by positivity)] at h
  rw [← Except.ok.inj h]
  by_cases hr : 0 < n % 2 ^ shift
  · simp [hr, Nat.pos_iff_ne_zero.mp hr]
  · simp [Nat.eq_zero_of_not_pos hr]

/-- **`mulShrUp` is the ceiling settled in 128 bits, or halts at its fit
assertion.** -/
theorem mulShrUp_eq (ha : a < 2 ^ 128) (hb : b < 2 ^ 128) (h₀ : 0 < shift) (hs : shift < 128) :
    mulShrUp P a b shift =
      if a * b < 2 ^ (128 + shift) then P.settleU 128 (a * b ⌈/⌉ 2 ^ shift)
      else .error (.assert fitMsg) := by
  unfold mulShrUp
  rw [Profile.debugAssert_ok ⟨h₀, hs⟩, mulWide_eq ha hb]
  simp only [ok_bind, Profile.ushr_ok hs]
  split_ifs with h
  · obtain ⟨hlt, heq⟩ := shifted_words hs h
    rw [assert_ok (hi_shiftRight_eq_zero.mpr h), ok_bind, Profile.usub_ok hs.le, ok_bind,
      Profile.ushl_ok (by omega) hlt, ok_bind, Profile.ushl_one_ok hs, ok_bind,
      Profile.usub_ok Nat.one_le_two_pow, ok_bind, heq, Profile.uadd, floor_add_carry _ hs]
  · rw [assert_error (mt hi_shiftRight_eq_zero.mp h), error_bind]

/-- A product whose ceiling is a word passes the fit test. -/
theorem fits_of_ceil_lt {n : ℕ} (h : n ⌈/⌉ 2 ^ shift < 2 ^ 128) : n < 2 ^ (128 + shift) := by
  rw [pow_add, mul_comm (2 ^ 128)]
  exact (le_mul_ceilDiv n (Nat.two_pow_pos shift)).trans_lt
    (Nat.mul_lt_mul_of_pos_left h (Nat.two_pow_pos shift))

theorem mulShrUp_ok (ha : a < 2 ^ 128) (hb : b < 2 ^ 128) (h₀ : 0 < shift) (hs : shift < 128)
    (h : a * b ⌈/⌉ 2 ^ shift < 2 ^ 128) :
    mulShrUp P a b shift = .ok (a * b ⌈/⌉ 2 ^ shift) := by
  rw [mulShrUp_eq ha hb h₀ hs, if_pos (fits_of_ceil_lt h), Profile.settleU_ok h]

/-- With overflow checks the ceiling is returned iff it is a word. -/
theorem mulShrUp_eq_ok (ha : a < 2 ^ 128) (hb : b < 2 ^ 128) (h₀ : 0 < shift) (hs : shift < 128)
    (hP : P.overflowChecks = true) {v : ℕ} :
    mulShrUp P a b shift = .ok v ↔
      a * b ⌈/⌉ 2 ^ shift < 2 ^ 128 ∧ v = a * b ⌈/⌉ 2 ^ shift := by
  constructor
  · intro hv
    rw [mulShrUp_eq ha hb h₀ hs] at hv
    split_ifs at hv
    exact (Profile.settleU_eq_ok hP).mp hv
  · rintro ⟨h, rfl⟩
    exact mulShrUp_ok ha hb h₀ hs h

/-- With overflow checks a ceiling that is no word stops the run, at the fit
assertion or at the last addition. -/
theorem mulShrUp_panics (ha : a < 2 ^ 128) (hb : b < 2 ^ 128) (h₀ : 0 < shift)
    (hs : shift < 128) (hP : P.overflowChecks = true) (h : 2 ^ 128 ≤ a * b ⌈/⌉ 2 ^ shift) :
    mulShrUp P a b shift = .error (.assert fitMsg) ∨
      mulShrUp P a b shift = .error .overflow := by
  rw [mulShrUp_eq ha hb h₀ hs]
  by_cases hfit : a * b < 2 ^ (128 + shift)
  · -- the floor is the largest word, and the carry overflows it
    right
    rw [if_pos hfit, Profile.settleU, if_neg (not_lt.mpr h), if_pos hP]
  · left
    rw [if_neg hfit]

end Shifted

/-- **The widening primitives are exact.**  The words of the wide product are
those of `a * b` in every profile; the shifted readings are its floor and its
ceiling where these are words, and panics where they are not. -/
theorem wide_exact {a b : ℕ} (ha : a < 2 ^ 128) (hb : b < 2 ^ 128) :
    (∃ hi lo, (∀ P, mulWide P a b = .ok (hi, lo)) ∧ hi < 2 ^ 128 ∧ lo < 2 ^ 128 ∧
      hi * 2 ^ 128 + lo = a * b) ∧
    ∀ shift, 0 < shift → shift < 128 → ∀ P : Profile,
      (a * b / 2 ^ shift < 2 ^ 128 → mulShr P a b shift = .ok (a * b / 2 ^ shift)) ∧
      (2 ^ 128 ≤ a * b / 2 ^ shift → mulShr P a b shift = .error (.assert fitMsg)) ∧
      (a * b ⌈/⌉ 2 ^ shift < 2 ^ 128 → mulShrUp P a b shift = .ok (a * b ⌈/⌉ 2 ^ shift)) ∧
      (2 ^ 128 ≤ a * b ⌈/⌉ 2 ^ shift → P.overflowChecks = true →
        mulShrUp P a b shift = .error (.assert fitMsg) ∨
          mulShrUp P a b shift = .error .overflow) := by
  constructor
  · have hab : a * b < 2 ^ 128 * 2 ^ 128 := Nat.mul_lt_mul'' ha hb
    refine ⟨a * b / 2 ^ 128, a * b % 2 ^ 128, fun P => mulWide_eq ha hb, ?_, ?_, ?_⟩
    · exact Nat.div_lt_of_lt_mul hab
    · exact Nat.mod_lt _ (by norm_num)
    · rw [mul_comm]
      exact Nat.div_add_mod (a * b) (2 ^ 128)
  · intro shift h₀ hs P
    refine ⟨?_, ?_, ?_, ?_⟩
    · intro h
      exact (mulShr_eq_ok ha hb h₀ hs).mpr ⟨h, rfl⟩
    · intro h
      rw [mulShr_eq ha hb h₀ hs, if_neg]
      intro hfit
      rw [pow_add, mul_comm (2 ^ 128)] at hfit
      exact absurd (Nat.div_lt_of_lt_mul hfit) (not_lt.mpr h)
    · exact mulShrUp_ok ha hb h₀ hs
    · intro h hP
      exact mulShrUp_panics ha hb h₀ hs hP h

/-- `7 * 97223533405982418132392744980505203273 = 2^129 - 1`: halved, its floor
is the largest word and its ceiling is no word. -/
theorem wide_exact_carry :
    ((∃ hi lo, (∀ P, mulWide P 7 97223533405982418132392744980505203273 = .ok (hi, lo)) ∧
      hi < 2 ^ 128 ∧ lo < 2 ^ 128 ∧
      hi * 2 ^ 128 + lo = 7 * 97223533405982418132392744980505203273) ∧
    mulShr Profile.checked 7 97223533405982418132392744980505203273 1
      = .ok (7 * 97223533405982418132392744980505203273 / 2 ^ 1)) ∧
    (mulShrUp Profile.checked 7 97223533405982418132392744980505203273 1
        = .error (.assert fitMsg) ∨
      mulShrUp Profile.checked 7 97223533405982418132392744980505203273 1 = .error .overflow) := by
  have h := wide_exact (a := 7) (b := 97223533405982418132392744980505203273)
    (by norm_num) (by norm_num)
  obtain ⟨hfloor, -, -, hceil⟩ := h.2 1 one_pos (by norm_num) Profile.checked
  refine ⟨⟨h.1, hfloor (by norm_num)⟩, hceil ?_ rfl⟩
  rw [Nat.ceilDiv_eq_add_pred_div]
  norm_num

end WeightedMath
