/-
WeightedMath/Fixed.lean

The scalar type of `fixed.rs` and the build it is compiled in.

`SCALE` is a constant of the crate, but one that is meant to be swept: two
compile-time assertions (`pow.rs`, `weighted.rs`) admit `7 ≤ SCALE ≤ 60`.  A
`Build` is therefore a profile together with an admitted scale, and every
function of the kernel takes one.  `Build.kernel` is the build of this crate,
at `SCALE = 52`.

The wrappers of `Fixed` are defined on nonnegative operands.  Three assertions
can stop them, at three edges: the widened product against the 128-bit word,
the rounded result against `i128`, and the dividend against the bits that its
shift needs.  `wrappers_exact` says that these edges are where the exact result
stops being representable, and nowhere else.
-/
import WeightedMath.Wide

namespace WeightedMath

open Machine

/-- A profile and a `SCALE` that passes the compile-time assertions. -/
structure Build extends Profile where
  scale : ℕ
  seven_le_scale : 7 ≤ scale
  scale_le_sixty : scale ≤ 60

/-- The crate as it stands: `SCALE = 52`. -/
def Build.kernel (P : Profile) : Build where
  toProfile := P
  scale := 52
  seven_le_scale := by norm_num
  scale_le_sixty := by norm_num

@[simp] theorem Build.kernel_scale (P : Profile) : (Build.kernel P).scale = 52 := rfl

/-- A binary fixed-point number: `x` represents `x / 2 ^ SCALE`. -/
structure Fixed where
  repr : ℤ
  deriving DecidableEq, Repr

/-- The unit value `1.0`. -/
def Build.one (B : Build) : Fixed := ⟨2 ^ B.scale⟩

@[simp] theorem Build.one_repr (B : Build) : B.one.repr = 2 ^ B.scale := rfl

/-! ### The wrappers -/

/-- A nonnegative operand as a word. -/
def nonneg (B : Build) (x : Fixed) : Exec ℕ := do
  assert (x.repr ≥ 0) "fixed-point wrappers are defined on nonnegative values"
  B.asUnsigned 128 x.repr

/-- A word as a result, at most `Repr::MAX`. -/
def checkedRepr (B : Build) (v : ℕ) : Exec ℤ := do
  assert (v ≤ 2 ^ 127 - 1) "fixed-point result exceeds representation"
  B.asSigned 128 v

/-- The dividend `a * 2^SCALE`. -/
def numerator (B : Build) (a b : Fixed) : Exec ℕ := do
  let a ← nonneg B a
  let d ← nonneg B b
  assert (d > 0) "fixed-point division by zero"
  let top ← B.ushr 128 a (127 - B.scale)
  assert (top = 0) "fixed-point division numerator overflow"
  B.ushl 128 a B.scale

/-- `floor(self * rhs / 2^SCALE)`. -/
def Fixed.mulDown (B : Build) (self rhs : Fixed) : Exec Fixed := do
  let a ← nonneg B self
  let b ← nonneg B rhs
  let p ← mulShr B.toProfile a b B.scale
  let r ← checkedRepr B p
  return ⟨r⟩

/-- `ceil(self * rhs / 2^SCALE)`. -/
def Fixed.mulUp (B : Build) (self rhs : Fixed) : Exec Fixed := do
  let a ← nonneg B self
  let b ← nonneg B rhs
  let p ← mulShrUp B.toProfile a b B.scale
  let r ← checkedRepr B p
  return ⟨r⟩

/-- `floor(self * 2^SCALE / rhs)`. -/
def Fixed.divDown (B : Build) (self rhs : Fixed) : Exec Fixed := do
  let n ← numerator B self rhs
  let d ← nonneg B rhs
  let q ← udiv n d
  let r ← checkedRepr B q
  return ⟨r⟩

/-- `ceil(self * 2^SCALE / rhs)`. -/
def Fixed.divUp (B : Build) (self rhs : Fixed) : Exec Fixed := do
  let d ← nonneg B rhs
  let n ← numerator B self rhs
  let q ← divCeil n d
  let r ← checkedRepr B q
  return ⟨r⟩

/-- `ONE - self`, saturating at zero. -/
def Fixed.complement (B : Build) (self : Fixed) : Exec Fixed := do
  let n ← nonneg B self
  let z ← B.asSigned 128 n
  let c ← B.isub 128 B.one.repr z
  return ⟨max c 0⟩

section Operand

variable {B : Build}

/-- The wrappers take the words of `i128` that are not negative. -/
theorem nonneg_eq_ok {x : Fixed} (hx : FitsI 128 x.repr) {n : ℕ} :
    nonneg B x = .ok n ↔ x = ⟨n⟩ := by
  obtain ⟨z⟩ := x
  constructor
  · intro h
    obtain ⟨_, h₁, h⟩ := bind_eq_ok.mp h
    have h₀ : 0 ≤ z := assert_eq_ok.mp h₁
    rw [Profile.asUnsigned_ok h₀ (hx.2.trans (by norm_num))] at h
    cases h
    rw [Int.toNat_of_nonneg h₀]
  · rintro ⟨⟩
    unfold nonneg
    rw [assert_ok (Int.natCast_nonneg n), ok_bind,
      Profile.asUnsigned_ok (Int.natCast_nonneg n) (hx.2.trans (by norm_num)), Int.toNat_natCast]

theorem fitsI_natCast {n : ℕ} : FitsI 128 (n : ℤ) ↔ n < 2 ^ 127 := by
  rw [fitsI_128]
  omega

theorem nonneg_ok {n : ℕ} (h : n < 2 ^ 127) : nonneg B ⟨n⟩ = .ok n :=
  (nonneg_eq_ok (fitsI_natCast.mpr h)).mpr rfl

theorem checkedRepr_eq_ok {v : ℕ} {r : ℤ} : checkedRepr B v = .ok r ↔ v < 2 ^ 127 ∧ r = v := by
  constructor
  · intro h
    obtain ⟨_, h₁, h⟩ := bind_eq_ok.mp h
    have hv : v < 2 ^ 127 := by have := assert_eq_ok.mp h₁; omega
    rw [Profile.asSigned_ok (by norm_num) hv] at h
    cases h
    exact ⟨hv, rfl⟩
  · rintro ⟨hv, rfl⟩
    unfold checkedRepr
    rw [assert_ok (by omega), ok_bind, Profile.asSigned_ok (by norm_num) hv]

/-- The end of every wrapper: the result, if it is representable. -/
theorem checkedRepr_bind_eq_ok {v : ℕ} {r : Fixed} :
    (checkedRepr B v >>= fun z => pure (⟨z⟩ : Fixed)) = .ok r ↔ v < 2 ^ 127 ∧ r = ⟨v⟩ := by
  constructor
  · intro h
    obtain ⟨z, hz, hr⟩ := bind_eq_ok.mp h
    obtain ⟨hv, rfl⟩ := checkedRepr_eq_ok.mp hz
    cases hr
    exact ⟨hv, rfl⟩
  · rintro ⟨hv, rfl⟩
    rw [checkedRepr_eq_ok.mpr ⟨hv, rfl⟩, ok_bind, pure_eq_ok]

/-- **The dividend fits** exactly below `2^(127 - SCALE)`. -/
theorem numerator_eq_ok {a d n : ℕ} (ha : a < 2 ^ 127) (hd : d < 2 ^ 127) :
    numerator B ⟨a⟩ ⟨d⟩ = .ok n ↔
      0 < d ∧ a < 2 ^ (127 - B.scale) ∧ n = a * 2 ^ B.scale := by
  have hS := B.scale_le_sixty
  have htop : a >>> (127 - B.scale) = 0 ↔ a < 2 ^ (127 - B.scale) := by
    rw [Nat.shiftRight_eq_div_pow, Nat.div_eq_zero_iff_lt (Nat.two_pow_pos _)]
  have hshl : a < 2 ^ (127 - B.scale) → a <<< B.scale < 2 ^ 127 := by
    intro h
    rw [Nat.shiftLeft_eq, ← pow_sub_mul_pow 2 (show B.scale ≤ 127 by omega)]
    exact Nat.mul_lt_mul_of_pos_right h (Nat.two_pow_pos _)
  unfold numerator
  rw [nonneg_ok ha, ok_bind, nonneg_ok hd, ok_bind]
  constructor
  · intro h
    obtain ⟨_, h₁, h⟩ := bind_eq_ok.mp h
    rw [Profile.ushr_ok (by omega), ok_bind] at h
    obtain ⟨_, h₂, h⟩ := bind_eq_ok.mp h
    have hlt := htop.mp (assert_eq_ok.mp h₂)
    rw [Profile.ushl_ok (by omega) ((hshl hlt).trans (by norm_num)), Nat.shiftLeft_eq] at h
    cases h
    exact ⟨assert_eq_ok.mp h₁, hlt, rfl⟩
  · rintro ⟨hpos, hlt, rfl⟩
    rw [assert_ok hpos, ok_bind, Profile.ushr_ok (by omega), ok_bind,
      assert_ok (htop.mpr hlt), ok_bind,
      Profile.ushl_ok (by omega) ((hshl hlt).trans (by norm_num)), Nat.shiftLeft_eq]

/-! ### What they return -/

section Value

variable {a b r : Fixed}

/-- What the products share: a widened multiplication `f` that returns `V` where
`V` fits the word, and the check of the result. -/
theorem product_eq_ok {f : ℕ → ℕ → Exec ℕ} {V : ℕ → ℕ → ℕ}
    (hf : ∀ m n v, m < 2 ^ 128 → n < 2 ^ 128 → (f m n = .ok v ↔ V m n < 2 ^ 128 ∧ v = V m n))
    (ha : FitsI 128 a.repr) (hb : FitsI 128 b.repr) :
    (do
      let m ← nonneg B a
      let n ← nonneg B b
      let p ← f m n
      let z ← checkedRepr B p
      return (⟨z⟩ : Fixed)) = .ok r ↔
      ∃ m n : ℕ, a = ⟨m⟩ ∧ b = ⟨n⟩ ∧ V m n < 2 ^ 127 ∧ r = ⟨(V m n : ℕ)⟩ := by
  constructor
  · intro h
    obtain ⟨m, hm, h₁⟩ := bind_eq_ok.mp h
    obtain ⟨n, hn, h₂⟩ := bind_eq_ok.mp h₁
    obtain ⟨v, hv, h₃⟩ := bind_eq_ok.mp h₂
    obtain rfl := (nonneg_eq_ok ha).mp hm
    obtain rfl := (nonneg_eq_ok hb).mp hn
    have hm' : m < 2 ^ 128 := (fitsI_natCast.mp ha).trans (by norm_num)
    have hn' : n < 2 ^ 128 := (fitsI_natCast.mp hb).trans (by norm_num)
    obtain ⟨-, rfl⟩ := (hf m n v hm' hn').mp hv
    exact ⟨m, n, rfl, rfl, checkedRepr_bind_eq_ok.mp h₃⟩
  · rintro ⟨m, n, rfl, rfl, hlt, rfl⟩
    have hm := fitsI_natCast.mp ha
    have hn := fitsI_natCast.mp hb
    rw [nonneg_ok hm, ok_bind, nonneg_ok hn, ok_bind,
      (hf m n (V m n) (hm.trans (by norm_num)) (hn.trans (by norm_num))).mpr
        ⟨hlt.trans (by norm_num), rfl⟩, ok_bind]
    exact checkedRepr_bind_eq_ok.mpr ⟨hlt, rfl⟩

theorem Build.scale_pos (B : Build) : 0 < B.scale := by
  have := B.seven_le_scale
  omega

theorem Build.scale_lt_word (B : Build) : B.scale < 128 := by
  have := B.scale_le_sixty
  omega

theorem Fixed.mulDown_eq_ok (ha : FitsI 128 a.repr) (hb : FitsI 128 b.repr) :
    Fixed.mulDown B a b = .ok r ↔ ∃ m n : ℕ, a = ⟨m⟩ ∧ b = ⟨n⟩ ∧
      m * n / 2 ^ B.scale < 2 ^ 127 ∧ r = ⟨(m * n / 2 ^ B.scale : ℕ)⟩ :=
  product_eq_ok (fun _ _ _ hm hn => mulShr_eq_ok hm hn B.scale_pos B.scale_lt_word) ha hb

theorem Fixed.mulUp_eq_ok (hP : B.overflowChecks = true) (ha : FitsI 128 a.repr)
    (hb : FitsI 128 b.repr) :
    Fixed.mulUp B a b = .ok r ↔ ∃ m n : ℕ, a = ⟨m⟩ ∧ b = ⟨n⟩ ∧
      (m * n) ⌈/⌉ 2 ^ B.scale < 2 ^ 127 ∧ r = ⟨((m * n) ⌈/⌉ 2 ^ B.scale : ℕ)⟩ :=
  product_eq_ok (fun _ _ _ hm hn => mulShrUp_eq_ok hm hn B.scale_pos B.scale_lt_word hP) ha hb

/-- A dividend that fits is an `i128`, and so is every quotient of it. -/
theorem dividend_lt {m : ℕ} (h : m < 2 ^ (127 - B.scale)) : m * 2 ^ B.scale < 2 ^ 127 := by
  rw [← pow_sub_mul_pow 2 (show B.scale ≤ 127 by have := B.scale_le_sixty; omega)]
  exact Nat.mul_lt_mul_of_pos_right h (Nat.two_pow_pos _)

/-- What the quotients share: the dividend and the divisor as words, in either
order, an operation `f` that returns `V` on a positive divisor, and the check of
the result, which a quotient of a dividend always passes. -/
theorem quotient_eq_ok {f : ℕ → ℕ → Exec ℕ} {V : ℕ → ℕ → ℕ}
    (hf : ∀ k n, 0 < n → f k n = .ok (V k n)) (hV : ∀ k n, 0 < n → V k n ≤ k)
    (ha : FitsI 128 a.repr) (hb : FitsI 128 b.repr) :
    (∃ k n, numerator B a b = .ok k ∧ nonneg B b = .ok n ∧
      (f k n >>= fun q => checkedRepr B q >>= fun z => pure (⟨z⟩ : Fixed)) = .ok r) ↔
      ∃ m n : ℕ, a = ⟨m⟩ ∧ b = ⟨n⟩ ∧
        0 < n ∧ m < 2 ^ (127 - B.scale) ∧ r = ⟨(V (m * 2 ^ B.scale) n : ℕ)⟩ := by
  constructor
  · rintro ⟨k, n, hk, hn, h⟩
    obtain ⟨m, hm, -⟩ := bind_eq_ok.mp hk
    obtain rfl := (nonneg_eq_ok ha).mp hm
    obtain rfl := (nonneg_eq_ok hb).mp hn
    obtain ⟨hpos, hlt, rfl⟩ := (numerator_eq_ok (fitsI_natCast.mp ha) (fitsI_natCast.mp hb)).mp hk
    rw [hf _ n hpos, ok_bind] at h
    exact ⟨m, n, rfl, rfl, hpos, hlt, (checkedRepr_bind_eq_ok.mp h).2⟩
  · rintro ⟨m, n, rfl, rfl, hpos, hlt, rfl⟩
    have hm := fitsI_natCast.mp ha
    have hn := fitsI_natCast.mp hb
    refine ⟨m * 2 ^ B.scale, n, (numerator_eq_ok hm hn).mpr ⟨hpos, hlt, rfl⟩, nonneg_ok hn, ?_⟩
    rw [hf _ n hpos, ok_bind]
    exact checkedRepr_bind_eq_ok.mpr ⟨(hV _ n hpos).trans_lt (dividend_lt hlt), rfl⟩

theorem Fixed.divDown_eq_ok (ha : FitsI 128 a.repr) (hb : FitsI 128 b.repr) :
    Fixed.divDown B a b = .ok r ↔ ∃ m n : ℕ, a = ⟨m⟩ ∧ b = ⟨n⟩ ∧
      0 < n ∧ m < 2 ^ (127 - B.scale) ∧ r = ⟨(m * 2 ^ B.scale / n : ℕ)⟩ := by
  rw [← quotient_eq_ok (fun _ _ h => udiv_ok h) (fun k n _ => Nat.div_le_self k n) ha hb]
  constructor
  · intro h
    obtain ⟨k, hk, h₁⟩ := bind_eq_ok.mp h
    obtain ⟨n, hn, h₂⟩ := bind_eq_ok.mp h₁
    exact ⟨k, n, hk, hn, h₂⟩
  · rintro ⟨k, n, hk, hn, h⟩
    rw [Fixed.divDown, hk, ok_bind, hn, ok_bind]
    exact h

theorem Fixed.divUp_eq_ok (ha : FitsI 128 a.repr) (hb : FitsI 128 b.repr) :
    Fixed.divUp B a b = .ok r ↔ ∃ m n : ℕ, a = ⟨m⟩ ∧ b = ⟨n⟩ ∧
      0 < n ∧ m < 2 ^ (127 - B.scale) ∧ r = ⟨((m * 2 ^ B.scale) ⌈/⌉ n : ℕ)⟩ := by
  rw [← quotient_eq_ok (fun _ _ h => divCeil_ok h) (fun k _ h => ceilDiv_le_self k h) ha hb]
  constructor
  · intro h
    obtain ⟨n, hn, h₁⟩ := bind_eq_ok.mp h
    obtain ⟨k, hk, h₂⟩ := bind_eq_ok.mp h₁
    exact ⟨k, n, hk, hn, h₂⟩
  · rintro ⟨k, n, hk, hn, h⟩
    rw [Fixed.divUp, hn, ok_bind, hk, ok_bind]
    exact h

theorem Fixed.complement_eq_ok (ha : FitsI 128 a.repr) :
    Fixed.complement B a = .ok r ↔ 0 ≤ a.repr ∧ r = ⟨max (B.one.repr - a.repr) 0⟩ := by
  have hS : (2 : ℤ) ^ B.scale ≤ 2 ^ 60 := pow_le_pow_right₀ (by norm_num) B.scale_le_sixty
  have hpos : (0 : ℤ) < 2 ^ B.scale := by positivity
  constructor
  · intro h
    obtain ⟨n, hn, h₁⟩ := bind_eq_ok.mp h
    obtain rfl := (nonneg_eq_ok ha).mp hn
    have hlt := fitsI_natCast.mp ha
    rw [Profile.asSigned_ok (by norm_num) hlt, ok_bind, Build.one_repr,
      Profile.isub_ok (fitsI_128.mpr (by omega)), ok_bind] at h₁
    cases h₁
    exact ⟨Int.natCast_nonneg n, rfl⟩
  · rintro ⟨h₀, rfl⟩
    obtain ⟨z⟩ := a
    obtain ⟨n, rfl⟩ := Int.eq_ofNat_of_zero_le h₀
    have hlt := fitsI_natCast.mp ha
    unfold Fixed.complement
    rw [nonneg_ok hlt, ok_bind, Profile.asSigned_ok (by norm_num) hlt, ok_bind, Build.one_repr,
      Profile.isub_ok (fitsI_128.mpr (by omega)), ok_bind, pure_eq_ok]

end Value

end Operand

/-! ### Round trips -/

/-- Dividing and multiplying back, both rounded down. -/
theorem floor_round_trip (a : ℕ) {b u : ℕ} (hb : 0 < b) (hu : 0 < u) :
    a * u / b * b / u ≤ a ∧ a * u < (a * u / b * b / u + 1) * u + b := by
  have hq := Nat.div_mul_le_self (a * u) b
  have hq' := Nat.lt_mul_div_succ (a * u) hb
  have hm := Nat.lt_mul_div_succ (a * u / b * b) hu
  constructor
  · exact (Nat.div_le_div_right hq).trans (Nat.mul_div_cancel a hu).le
  · rw [mul_comm b, Nat.succ_mul] at hq'
    rw [mul_comm u] at hm
    omega

/-- Dividing and multiplying back, both rounded up. -/
theorem ceil_round_trip (a : ℕ) {b u : ℕ} (hb : 0 < b) (hu : 0 < u) :
    a ≤ ((a * u) ⌈/⌉ b * b) ⌈/⌉ u ∧ ((a * u) ⌈/⌉ b * b) ⌈/⌉ u * u < a * u + b + u := by
  have hq := le_mul_ceilDiv (a * u) hb
  have hq' := ceilDiv_mul_lt (a * u) hb
  have hm := le_mul_ceilDiv ((a * u) ⌈/⌉ b * b) hu
  have hm' := ceilDiv_mul_lt ((a * u) ⌈/⌉ b * b) hu
  constructor
  · rw [mul_comm b] at hq
    rw [mul_comm u] at hm
    exact Nat.le_of_mul_le_mul_right (hq.trans hm) hu
  · omega

/-- Where the wrappers return and what, in the exact arithmetic of the numbers
their operands stand for. -/
structure WrappersExact (P : Profile) (a b : Fixed) : Prop where
  mulDown : ∀ r : ℤ, Fixed.mulDown (Build.kernel P) a b = .ok ⟨r⟩ ↔
    0 ≤ a.repr ∧ 0 ≤ b.repr ∧ r = ⌊(a.repr : ℚ) * b.repr / 2 ^ 52⌋ ∧ r ≤ 2 ^ 127 - 1
  mulUp : ∀ r : ℤ, Fixed.mulUp (Build.kernel P) a b = .ok ⟨r⟩ ↔
    0 ≤ a.repr ∧ 0 ≤ b.repr ∧ r = ⌈(a.repr : ℚ) * b.repr / 2 ^ 52⌉ ∧ r ≤ 2 ^ 127 - 1
  divDown : ∀ r : ℤ, Fixed.divDown (Build.kernel P) a b = .ok ⟨r⟩ ↔
    0 ≤ a.repr ∧ 0 < b.repr ∧ a.repr < 2 ^ 75 ∧ r = ⌊(a.repr : ℚ) * 2 ^ 52 / b.repr⌋
  divUp : ∀ r : ℤ, Fixed.divUp (Build.kernel P) a b = .ok ⟨r⟩ ↔
    0 ≤ a.repr ∧ 0 < b.repr ∧ a.repr < 2 ^ 75 ∧ r = ⌈(a.repr : ℚ) * 2 ^ 52 / b.repr⌉
  roundTrip : 0 ≤ a.repr → 0 < b.repr → a.repr < 2 ^ 75 → ∃ q m q' m' : ℤ,
    Fixed.divDown (Build.kernel P) a b = .ok ⟨q⟩ ∧
    Fixed.mulDown (Build.kernel P) ⟨q⟩ b = .ok ⟨m⟩ ∧
    Fixed.divUp (Build.kernel P) a b = .ok ⟨q'⟩ ∧
    Fixed.mulUp (Build.kernel P) ⟨q'⟩ b = .ok ⟨m'⟩ ∧
    (a.repr : ℚ) - 1 - b.repr / 2 ^ 52 < m ∧ m ≤ a.repr ∧ a.repr ≤ m' ∧
    (m' : ℚ) < a.repr + 1 + b.repr / 2 ^ 52

section Exact

variable {P : Profile} {a b : Fixed}

/-- Nonnegative operands are words. -/
theorem Fixed.eq_natCast {x : Fixed} (h : 0 ≤ x.repr) : ∃ n : ℕ, x = ⟨n⟩ := by
  obtain ⟨z⟩ := x
  obtain ⟨n, rfl⟩ := Int.eq_ofNat_of_zero_le h
  exact ⟨n, rfl⟩

theorem floor_natCast_div (m n : ℕ) : ⌊(m : ℚ) / n⌋ = ((m / n : ℕ) : ℤ) := by
  exact_mod_cast Rat.floor_natCast_div_natCast m n

/-- From words to the numbers the operands stand for: a product whose value on
words is the rounding `R`. -/
theorem product_exact {x : Exec Fixed} {V : ℕ → ℕ → ℕ} {R : ℤ → ℤ → ℤ}
    (hx : ∀ r, x = .ok r ↔
      ∃ m n : ℕ, a = ⟨m⟩ ∧ b = ⟨n⟩ ∧ V m n < 2 ^ 127 ∧ r = ⟨(V m n : ℕ)⟩)
    (hR : ∀ m n : ℕ, R m n = V m n) (r : ℤ) :
    x = .ok ⟨r⟩ ↔ 0 ≤ a.repr ∧ 0 ≤ b.repr ∧ r = R a.repr b.repr ∧ r ≤ 2 ^ 127 - 1 := by
  rw [hx]
  constructor
  · rintro ⟨m, n, rfl, rfl, hlt, hr⟩
    cases hr
    exact ⟨Int.natCast_nonneg m, Int.natCast_nonneg n, (hR m n).symm, by omega⟩
  · rintro ⟨ha₀, hb₀, hr, hmax⟩
    obtain ⟨m, rfl⟩ := Fixed.eq_natCast ha₀
    obtain ⟨n, rfl⟩ := Fixed.eq_natCast hb₀
    rw [hR] at hr
    exact ⟨m, n, rfl, rfl, by omega, by rw [hr]⟩

/-- Likewise a quotient, at a positive divisor and a dividend that fits. -/
theorem quotient_exact {x : Exec Fixed} {V : ℕ → ℕ → ℕ} {R : ℤ → ℤ → ℤ}
    (hx : ∀ r, x = .ok r ↔
      ∃ m n : ℕ, a = ⟨m⟩ ∧ b = ⟨n⟩ ∧ 0 < n ∧ m < 2 ^ 75 ∧ r = ⟨(V m n : ℕ)⟩)
    (hR : ∀ m n : ℕ, 0 < n → R m n = V m n) (r : ℤ) :
    x = .ok ⟨r⟩ ↔ 0 ≤ a.repr ∧ 0 < b.repr ∧ a.repr < 2 ^ 75 ∧ r = R a.repr b.repr := by
  rw [hx]
  constructor
  · rintro ⟨m, n, rfl, rfl, hpos, hlt, hr⟩
    cases hr
    dsimp only
    exact ⟨Int.natCast_nonneg m, Int.natCast_pos.mpr hpos, by exact_mod_cast hlt,
      (hR m n hpos).symm⟩
  · rintro ⟨ha₀, hb₀, hlt, hr⟩
    obtain ⟨m, rfl⟩ := Fixed.eq_natCast ha₀
    obtain ⟨n, rfl⟩ := Fixed.eq_natCast hb₀.le
    dsimp only at hb₀ hlt
    have hn := Int.natCast_pos.mp hb₀
    rw [hR m n hn] at hr
    exact ⟨m, n, rfl, rfl, hn, by exact_mod_cast hlt, by rw [hr]⟩

theorem mulDown_exact (ha : FitsI 128 a.repr) (hb : FitsI 128 b.repr) (r : ℤ) :
    Fixed.mulDown (Build.kernel P) a b = .ok ⟨r⟩ ↔
      0 ≤ a.repr ∧ 0 ≤ b.repr ∧ r = ⌊(a.repr : ℚ) * b.repr / 2 ^ 52⌋ ∧ r ≤ 2 ^ 127 - 1 := by
  refine product_exact (R := fun x y => ⌊(x : ℚ) * y / 2 ^ 52⌋)
    (fun _ => Fixed.mulDown_eq_ok ha hb) (fun m n => ?_) r
  rw [Build.kernel_scale, ← floor_natCast_div]
  push_cast
  rfl

theorem mulUp_exact (hP : P.overflowChecks = true) (ha : FitsI 128 a.repr)
    (hb : FitsI 128 b.repr) (r : ℤ) :
    Fixed.mulUp (Build.kernel P) a b = .ok ⟨r⟩ ↔
      0 ≤ a.repr ∧ 0 ≤ b.repr ∧ r = ⌈(a.repr : ℚ) * b.repr / 2 ^ 52⌉ ∧ r ≤ 2 ^ 127 - 1 := by
  refine product_exact (R := fun x y => ⌈(x : ℚ) * y / 2 ^ 52⌉)
    (fun _ => Fixed.mulUp_eq_ok hP ha hb) (fun m n => ?_) r
  rw [Build.kernel_scale, ← ceil_natCast_div (K := ℚ) _ (Nat.two_pow_pos 52)]
  push_cast
  rfl

theorem divDown_exact (ha : FitsI 128 a.repr) (hb : FitsI 128 b.repr) (r : ℤ) :
    Fixed.divDown (Build.kernel P) a b = .ok ⟨r⟩ ↔
      0 ≤ a.repr ∧ 0 < b.repr ∧ a.repr < 2 ^ 75 ∧ r = ⌊(a.repr : ℚ) * 2 ^ 52 / b.repr⌋ := by
  refine quotient_exact (R := fun x y => ⌊(x : ℚ) * 2 ^ 52 / y⌋)
    (fun _ => Fixed.divDown_eq_ok ha hb) (fun m n _ => ?_) r
  rw [Build.kernel_scale, ← floor_natCast_div]
  push_cast
  rfl

theorem divUp_exact (ha : FitsI 128 a.repr) (hb : FitsI 128 b.repr) (r : ℤ) :
    Fixed.divUp (Build.kernel P) a b = .ok ⟨r⟩ ↔
      0 ≤ a.repr ∧ 0 < b.repr ∧ a.repr < 2 ^ 75 ∧ r = ⌈(a.repr : ℚ) * 2 ^ 52 / b.repr⌉ := by
  refine quotient_exact (R := fun x y => ⌈(x : ℚ) * 2 ^ 52 / y⌉)
    (fun _ => Fixed.divUp_eq_ok ha hb) (fun m n hn => ?_) r
  rw [Build.kernel_scale, ← ceil_natCast_div (K := ℚ) _ hn]
  push_cast
  rfl

/-- A dividend below `2^75` comes back within a unit and the divisor's. -/
theorem wrappers_roundTrip (hP : P.overflowChecks = true) (hb : FitsI 128 b.repr)
    (ha₀ : 0 ≤ a.repr) (hb₀ : 0 < b.repr) (hlt : a.repr < 2 ^ 75) :
    ∃ q m q' m' : ℤ,
      Fixed.divDown (Build.kernel P) a b = .ok ⟨q⟩ ∧
      Fixed.mulDown (Build.kernel P) ⟨q⟩ b = .ok ⟨m⟩ ∧
      Fixed.divUp (Build.kernel P) a b = .ok ⟨q'⟩ ∧
      Fixed.mulUp (Build.kernel P) ⟨q'⟩ b = .ok ⟨m'⟩ ∧
      (a.repr : ℚ) - 1 - b.repr / 2 ^ 52 < m ∧ m ≤ a.repr ∧ a.repr ≤ m' ∧
      (m' : ℚ) < a.repr + 1 + b.repr / 2 ^ 52 := by
  obtain ⟨x, rfl⟩ := Fixed.eq_natCast ha₀
  obtain ⟨y, rfl⟩ := Fixed.eq_natCast hb₀.le
  dsimp only at *
  have hx : x < 2 ^ 75 := by exact_mod_cast hlt
  have hy : 0 < y := Int.natCast_pos.mp hb₀
  have hy' := fitsI_natCast.mp hb
  have ha : FitsI 128 (x : ℤ) := fitsI_natCast.mpr (hx.trans (by norm_num))
  have hdiv : x * 2 ^ 52 < 2 ^ 127 := by omega
  have hq := (Nat.div_le_self (x * 2 ^ 52) y).trans_lt hdiv
  have hq' := (ceilDiv_le_self (x * 2 ^ 52) hy).trans_lt hdiv
  obtain ⟨hm, hm'⟩ := floor_round_trip x hy (Nat.two_pow_pos 52)
  obtain ⟨hn, hn'⟩ := ceil_round_trip x hy (Nat.two_pow_pos 52)
  refine ⟨_, _, _, _, (Fixed.divDown_eq_ok ha hb).mpr ⟨x, y, rfl, rfl, hy, hx, rfl⟩,
    (Fixed.mulDown_eq_ok (fitsI_natCast.mpr hq) hb).mpr ⟨_, y, rfl, rfl, ?_, rfl⟩,
    (Fixed.divUp_eq_ok ha hb).mpr ⟨x, y, rfl, rfl, hy, hx, rfl⟩,
    (Fixed.mulUp_eq_ok hP (fitsI_natCast.mpr hq') hb).mpr ⟨_, y, rfl, rfl, ?_, rfl⟩, ?_⟩
  all_goals rw [Build.kernel_scale]
  · exact hm.trans_lt (hx.trans (by norm_num))
  · generalize ((x * 2 ^ 52) ⌈/⌉ y * y) ⌈/⌉ 2 ^ 52 = m' at *
    omega
  · generalize x * 2 ^ 52 / y * y / 2 ^ 52 = m at *
    generalize ((x * 2 ^ 52) ⌈/⌉ y * y) ⌈/⌉ 2 ^ 52 = m' at *
    have hlo : ((x * 2 ^ 52 : ℕ) : ℚ) < (((m + 1) * 2 ^ 52 + y : ℕ) : ℚ) := by exact_mod_cast hm'
    have hhi : ((m' * 2 ^ 52 : ℕ) : ℚ) < ((x * 2 ^ 52 + y + 2 ^ 52 : ℕ) : ℚ) := by
      exact_mod_cast hn'
    push_cast at hlo hhi ⊢
    exact ⟨by linarith, by exact_mod_cast hm, by exact_mod_cast hn, by linarith⟩

/-- **The wrappers round exactly**, return exactly where their result is
representable, and a division followed by the multiplication back never
manufactures value. -/
theorem wrappers_exact (hP : P.overflowChecks = true) (ha : FitsI 128 a.repr)
    (hb : FitsI 128 b.repr) : WrappersExact P a b where
  mulDown := mulDown_exact ha hb
  mulUp := mulUp_exact hP ha hb
  divDown := divDown_exact ha hb
  divUp := divUp_exact ha hb
  roundTrip := wrappers_roundTrip hP hb

/-- A seventh of a unit. -/
theorem wrappers_exact_seventh : WrappersExact Profile.checked ⟨2 ^ 52⟩ ⟨7 * 2 ^ 52⟩ :=
  wrappers_exact rfl (by decide) (by decide)

end Exact

end WeightedMath
