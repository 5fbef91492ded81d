/-
WeightedMath/Machine.lean

Fixed-width integer arithmetic as a compiled program performs it, with the
compiler's build profile as a parameter.

An unsigned word of width `w` is a natural number below `2 ^ w`, a signed one
an integer in `[-2 ^ (w - 1), 2 ^ (w - 1))`.  What an operation does with a
result outside its type is the profile's business:

* `overflowChecks` — stop with `Panic.overflow`, or keep the low `w` bits;
* `debugAssertions` — evaluate `debug_assert!`, or skip it;
* `audit` — no compiler has this flag.  It marks the instrumented run in which
  a shift that drops set bits, or a cast that changes the value it casts, stops
  with `Panic.lossy`.  Both are silent in every real build.

A run that succeeds whatever the flags are, with one and the same value, has
therefore no overflow, no failing assertion and no lost bit in it.  That is the
form in which an overflow ledger is stated here: `f P x = .ok (v x)` for all
profiles `P`.  The `_ok` lemmas below prove one operation of such a run each.
-/
import Mathlib

namespace Machine

/-! ### Panics and profiles -/

/-- How a run can stop without a result. -/
inductive Panic
  | assert (msg : String)
  | expect (msg : String)
  | explicit (msg : String)
  | outOfBounds
  | debugAssert (cond : String)
  | overflow
  | divByZero
  | lossy
  | diverges
  deriving DecidableEq, Repr

/-- A computation that returns a value or panics. -/
abbrev Exec (α : Type) := Except Panic α

/-- The compiler flags a run depends on. -/
structure Profile where
  debugAssertions : Bool
  overflowChecks : Bool
  audit : Bool
  deriving DecidableEq, Repr

/-- Assertions and overflow checks on. -/
def Profile.debug : Profile := ⟨true, true, false⟩

/-- Optimised, overflow checks kept on. -/
def Profile.checked : Profile := ⟨false, true, false⟩

/-- Optimised, arithmetic wraps. -/
def Profile.wrapping : Profile := ⟨false, false, false⟩

@[simp] theorem ok_bind {α β : Type} (a : α) (f : α → Exec β) :
    (Except.ok a : Exec α) >>= f = f a := rfl

@[simp] theorem error_bind {α β : Type} (e : Panic) (f : α → Exec β) :
    (Except.error e : Exec α) >>= f = Except.error e := rfl

@[simp] theorem pure_eq_ok {α : Type} (a : α) : (pure a : Exec α) = Except.ok a := rfl

/-- A sequenced run returns iff both of its parts do. -/
theorem bind_eq_ok {α β : Type} {x : Exec α} {f : α → Exec β} {b : β} :
    x >>= f = .ok b ↔ ∃ a, x = .ok a ∧ f a = .ok b := by
  cases x with
  | error e => simp
  | ok a => simp

/-- Whatever the run returns satisfies `p`. -/
def Yields {α : Type} (x : Exec α) (p : α → Prop) : Prop := ∀ a, x = .ok a → p a

theorem Yields.ok {α : Type} {p : α → Prop} {a : α} (h : p a) : Yields (.ok a) p := by
  rintro b ⟨⟩
  exact h

theorem Yields.error {α : Type} (p : α → Prop) (e : Panic) : Yields (.error e) p := by
  rintro b ⟨⟩

/-- What the second part yields on every result of the first. -/
theorem Yields.bind {α β : Type} {x : Exec α} {f : α → Exec β} {p : β → Prop}
    (h : ∀ a, x = .ok a → Yields (f a) p) : Yields (x >>= f) p := by
  intro b hb
  obtain ⟨a, ha, hf⟩ := bind_eq_ok.mp hb
  exact h a ha b hf

/-- A loop whose steps all return is the loop of their values. -/
theorem foldlM_ok {α β : Type} {f : β → α → Exec β} {g : β → α → β} {xs : List α}
    (h : ∀ v, ∀ x ∈ xs, f v x = .ok (g v x)) (init : β) :
    xs.foldlM f init = .ok (xs.foldl g init) := by
  induction xs generalizing init with
  | nil => rfl
  | cons x xs ih =>
      rw [List.foldlM_cons, h init x List.mem_cons_self, ok_bind, List.foldl_cons]
      exact ih (fun v y hy => h v y (List.mem_cons_of_mem x hy)) (g init x)

/-- A loop of checks passes iff each of them does. -/
theorem forM_eq_ok {α : Type} {f : α → Exec Unit} {xs : List α} :
    xs.forM f = .ok () ↔ ∀ x ∈ xs, f x = .ok () := by
  induction xs with
  | nil => simp
  | cons x xs ih =>
      rw [List.forall_mem_cons, ← ih]
      show (f x >>= fun _ => xs.forM f) = .ok () ↔ _
      constructor
      · intro h
        obtain ⟨_, hx, hxs⟩ := bind_eq_ok.mp h
        exact ⟨hx, hxs⟩
      · rintro ⟨hx, hxs⟩
        rw [hx, ok_bind, hxs]

/-- A map whose steps may panic returns iff each of them does. -/
theorem mapM_eq_ok {α β : Type} {f : α → Exec β} {xs : List α} {ys : List β} :
    xs.mapM f = .ok ys ↔ List.Forall₂ (fun x y => f x = .ok y) xs ys := by
  induction xs generalizing ys with
  | nil =>
      rw [List.mapM_nil, List.forall₂_nil_left_iff]
      exact ⟨fun h => (Except.ok.inj h).symm, fun h => h ▸ rfl⟩
  | cons x xs ih =>
      rw [List.mapM_cons, List.forall₂_cons_left_iff, bind_eq_ok]
      constructor
      · rintro ⟨y, hy, h⟩
        obtain ⟨zs, hzs, h⟩ := bind_eq_ok.mp h
        exact ⟨y, zs, hy, ih.mp hzs, (Except.ok.inj h).symm⟩
      · rintro ⟨y, zs, hy, hzs, rfl⟩
        refine ⟨y, hy, ?_⟩
        rw [ih.mpr hzs]
        rfl

/-- A map whose steps return what is related to their arguments. -/
theorem exists_mapM_ok {α β : Type} {f : α → Exec β} {R : α → β → Prop} {xs : List α}
    (h : ∀ x ∈ xs, ∃ y, f x = .ok y ∧ R x y) : ∃ ys, xs.mapM f = .ok ys ∧ List.Forall₂ R xs ys := by
  induction xs with
  | nil => exact ⟨[], rfl, .nil⟩
  | cons x xs ih =>
      obtain ⟨y, hy, hxy⟩ := h x List.mem_cons_self
      obtain ⟨ys, hys, hrel⟩ := ih fun x' hx' => h x' (List.mem_cons_of_mem x hx')
      refine ⟨y :: ys, ?_, .cons hxy hrel⟩
      rw [List.mapM_cons, hy, ok_bind, hys]
      rfl

/-- What holds of all arguments, and what holds of all results. -/
theorem forall_mem_iff_of_forall₂ {α β : Type} {R : α → β → Prop} {p : α → Prop} {q : β → Prop}
    (hR : ∀ x y, R x y → (p x ↔ q y)) {xs : List α} {ys : List β} (h : List.Forall₂ R xs ys) :
    (∀ x ∈ xs, p x) ↔ ∀ y ∈ ys, q y := by
  induction h with
  | nil => simp
  | cons hxy _ ih => rw [List.forall_mem_cons, List.forall_mem_cons, hR _ _ hxy, ih]

theorem exists_mapM_ok_forall {α β : Type} {f : α → Exec β} {p : β → Prop} {xs : List α}
    (h : ∀ x ∈ xs, ∃ y, f x = .ok y ∧ p y) : ∃ ys, xs.mapM f = .ok ys ∧ ∀ y ∈ ys, p y := by
  obtain ⟨ys, hys, hrel⟩ := exists_mapM_ok (R := fun _ y => p y) h
  have hiff := forall_mem_iff_of_forall₂ (p := fun _ => True) (q := p)
    (fun _ _ hy => iff_of_true trivial hy) hrel
  exact ⟨ys, hys, hiff.mp fun _ _ => trivial⟩

/-! ### Assertions -/

/-- `assert!(c, msg)`: active in every profile. -/
def assert (c : Prop) [Decidable c] (msg : String) : Exec Unit :=
  if c then .ok () else .error (.assert msg)

/-- `debug_assert!(c)`. -/
def Profile.debugAssert (P : Profile) (c : Prop) [Decidable c] (cond : String) : Exec Unit :=
  if P.debugAssertions = true ∧ ¬ c then .error (.debugAssert cond) else .ok ()

/-- `xs[i]`. -/
def index {α : Type} (xs : List α) (i : ℕ) : Exec α :=
  match xs[i]? with
  | some x => .ok x
  | none => .error .outOfBounds

/-- `Option::expect`. -/
def expect {α : Type} (o : Option α) (msg : String) : Exec α :=
  match o with
  | some a => .ok a
  | none => .error (.expect msg)

theorem index_ok {α : Type} {xs : List α} {i : ℕ} (h : i < xs.length) :
    index xs i = .ok xs[i] := by
  rw [index, List.getElem?_eq_getElem h]

theorem index_mem {α : Type} {xs : List α} {i : ℕ} {x : α} (h : index xs i = .ok x) : x ∈ xs := by
  unfold index at h
  split at h
  · next hx =>
      cases h
      exact List.mem_of_getElem? hx
  · cases h

theorem assert_ok {c : Prop} [Decidable c] {msg : String} (h : c) : assert c msg = .ok () :=
  if_pos h

theorem assert_eq_ok {c : Prop} [Decidable c] {msg : String} {u : Unit} :
    assert c msg = .ok u ↔ c := by
  by_cases h : c <;> simp [assert, h]

theorem assert_error {c : Prop} [Decidable c] {msg : String} (h : ¬ c) :
    assert c msg = .error (.assert msg) :=
  if_neg h

theorem Profile.debugAssert_ok {P : Profile} {c : Prop} [Decidable c] {cond : String}
    (h : c) : P.debugAssert c cond = .ok () := by
  simp [Profile.debugAssert, h]

/-! ### Debug texts -/

/-- `char::escape_debug` inside a string: quotation mark, backslash and control
characters are escaped. -/
def escapeDebug (c : Char) : String :=
  match c.toNat with
  | 0 => "\\0"
  | 9 => "\\t"
  | 10 => "\\n"
  | 13 => "\\r"
  | 34 => "\\\""
  | 92 => "\\\\"
  | n =>
      if n < 32 ∨ 127 ≤ n ∧ n < 160 then
        "\\u\x7b" ++ String.ofList (Nat.toDigits 16 n) ++ "\x7d"
      else String.singleton c

/-- `{:?}` of a string. -/
def debugStr (s : String) : String := "\"" ++ String.join (s.toList.map escapeDebug) ++ "\""

/-! ### Ranges -/

/-- `z` is a value of the signed type of width `w`. -/
def FitsI (w : ℕ) (z : ℤ) : Prop := -2 ^ (w - 1) ≤ z ∧ z < 2 ^ (w - 1)

instance (w : ℕ) (z : ℤ) : Decidable (FitsI w z) := by
  unfold FitsI; infer_instance

theorem fitsI_of_abs_lt {w : ℕ} {z : ℤ} (h : |z| < 2 ^ (w - 1)) : FitsI w z :=
  ⟨(abs_lt.mp h).1.le, (abs_lt.mp h).2⟩

theorem fitsI_of_nonneg {w : ℕ} {z : ℤ} (h₀ : 0 ≤ z) (h : z < 2 ^ (w - 1)) : FitsI w z :=
  ⟨le_trans (neg_nonpos.mpr (by positivity)) h₀, h⟩

/-- The range of `i128` in numerals. -/
theorem fitsI_128 {z : ℤ} :
    FitsI 128 z ↔ -170141183460469231731687303715884105728 ≤ z ∧
      z < 170141183460469231731687303715884105728 := by
  unfold FitsI
  norm_num

/-! ### Settling an exact result in a type -/

/-- The exact result `n` of an unsigned operation, put into width `w`. -/
def Profile.settleU (P : Profile) (w n : ℕ) : Exec ℕ :=
  if n < 2 ^ w then .ok n
  else if P.overflowChecks then .error .overflow else .ok (n % 2 ^ w)

/-- The exact result `z` of a signed operation, put into width `w`. -/
def Profile.settleI (P : Profile) (w : ℕ) (z : ℤ) : Exec ℤ :=
  if FitsI w z then .ok z
  else if P.overflowChecks then .error .overflow else .ok (z.bmod (2 ^ w))

variable {P : Profile} {w : ℕ}

theorem Profile.settleU_ok {n : ℕ} (h : n < 2 ^ w) : P.settleU w n = .ok n := if_pos h

theorem Profile.settleI_ok {z : ℤ} (h : FitsI w z) : P.settleI w z = .ok z := if_pos h

/-- With overflow checks on, an operation returns iff its exact result fits. -/
theorem Profile.settleU_eq_ok (hP : P.overflowChecks = true) {n v : ℕ} :
    P.settleU w n = .ok v ↔ n < 2 ^ w ∧ v = n := by
  unfold Profile.settleU
  split_ifs with h
  · simp [h, eq_comm]
  · simp [h]

theorem Profile.settleU_wrap (hP : P.overflowChecks = false) (n : ℕ) :
    P.settleU w n = .ok (n % 2 ^ w) := by
  unfold Profile.settleU
  split_ifs with h h'
  · rw [Nat.mod_eq_of_lt h]
  · simp [hP] at h'
  · rfl

/-! ### Unsigned operations -/

def Profile.uadd (P : Profile) (w a b : ℕ) : Exec ℕ := P.settleU w (a + b)

def Profile.umul (P : Profile) (w a b : ℕ) : Exec ℕ := P.settleU w (a * b)

def Profile.usub (P : Profile) (w a b : ℕ) : Exec ℕ :=
  if b ≤ a then .ok (a - b)
  else if P.overflowChecks then .error .overflow else .ok ((a + 2 ^ w - b) % 2 ^ w)

def udiv (a b : ℕ) : Exec ℕ := if b = 0 then .error .divByZero else .ok (a / b)

def urem (a b : ℕ) : Exec ℕ := if b = 0 then .error .divByZero else .ok (a % b)

/-- `div_ceil`: the quotient, plus one if the division leaves a remainder. -/
def divCeil (a b : ℕ) : Exec ℕ :=
  if b = 0 then .error .divByZero
  else .ok (if 0 < a % b then a / b + 1 else a / b)

/-- `a << n`.  An oversized shift amount is an overflow; lost bits are not. -/
def Profile.ushl (P : Profile) (w a n : ℕ) : Exec ℕ :=
  if w ≤ n ∧ P.overflowChecks = true then .error .overflow
  else if P.audit = true ∧ ¬ a <<< (n % w) < 2 ^ w then .error .lossy
  else .ok (a <<< (n % w) % 2 ^ w)

def Profile.ushr (P : Profile) (w a n : ℕ) : Exec ℕ :=
  if w ≤ n ∧ P.overflowChecks = true then .error .overflow else .ok (a >>> (n % w))

/-- `checked_add`. -/
def checkedAdd (w a b : ℕ) : Option ℕ := if a + b < 2 ^ w then some (a + b) else none

/-- `checked_mul`. -/
def checkedMul (w a b : ℕ) : Option ℕ := if a * b < 2 ^ w then some (a * b) else none

/-- `saturating_add`. -/
def saturatingAdd (w a b : ℕ) : ℕ := min (a + b) (2 ^ w - 1)

/-- `overflowing_add`: the low word and the carry. -/
def overflowingAdd (w a b : ℕ) : ℕ × Bool := ((a + b) % 2 ^ w, decide (2 ^ w ≤ a + b))

/-- `leading_zeros`. -/
def leadingZeros (w n : ℕ) : ℕ := if n = 0 then w else w - 1 - n.log2

/-- `x as iN` for an unsigned `x`: the same bits, read as two's complement. -/
def Profile.asSigned (P : Profile) (w n : ℕ) : Exec ℤ :=
  if P.audit = true ∧ ¬ FitsI w n then .error .lossy else .ok ((n : ℤ).bmod (2 ^ w))

/-- `x as uN` for a signed `x`. -/
def Profile.asUnsigned (P : Profile) (w : ℕ) (z : ℤ) : Exec ℕ :=
  if P.audit = true ∧ z < 0 then .error .lossy else .ok (z % 2 ^ w).toNat

theorem checkedAdd_expect {a b : ℕ} {msg : String} (h : a + b < 2 ^ w) :
    expect (checkedAdd w a b) msg = .ok (a + b) := by
  rw [checkedAdd, if_pos h, expect]

theorem checkedAdd_expect_eq_ok {a b s : ℕ} {msg : String} :
    expect (checkedAdd w a b) msg = .ok s ↔ a + b < 2 ^ w ∧ s = a + b := by
  by_cases h : a + b < 2 ^ w <;> simp [checkedAdd, expect, h, eq_comm]

/-- The width less the leading zeros is the bit length. -/
theorem bitLength_bounds {n : ℕ} (h₀ : 0 < n) (h : n < 2 ^ w) :
    leadingZeros w n < w ∧ 2 ^ (w - leadingZeros w n - 1) ≤ n ∧
      n < 2 ^ (w - leadingZeros w n) := by
  have hlog := (Nat.log2_lt h₀.ne').mpr h
  rw [leadingZeros, if_neg h₀.ne', show w - (w - 1 - n.log2) = n.log2 + 1 by omega,
    Nat.add_sub_cancel]
  exact ⟨by omega, Nat.log2_self_le h₀.ne', Nat.lt_log2_self⟩

theorem Profile.uadd_ok {a b : ℕ} (h : a + b < 2 ^ w) : P.uadd w a b = .ok (a + b) :=
  settleU_ok h

theorem Profile.umul_ok {a b : ℕ} (h : a * b < 2 ^ w) : P.umul w a b = .ok (a * b) :=
  settleU_ok h

theorem Profile.usub_ok {a b : ℕ} (h : b ≤ a) : P.usub w a b = .ok (a - b) := if_pos h

theorem udiv_ok {a b : ℕ} (h : 0 < b) : udiv a b = .ok (a / b) := if_neg h.ne'

theorem urem_ok {a b : ℕ} (h : 0 < b) : urem a b = .ok (a % b) := if_neg h.ne'

theorem udiv_le {a b q : ℕ} (h : udiv a b = .ok q) : q ≤ a := by
  unfold udiv at h
  split_ifs at h
  cases h
  exact Nat.div_le_self a b

theorem divCeil_ok {a b : ℕ} (h : 0 < b) : divCeil a b = .ok (a ⌈/⌉ b) := by
  unfold divCeil
  rw [if_neg h.ne', Nat.ceilDiv_eq_add_pred_div]
  congr 1
  have hdiv := Nat.div_add_mod a b
  have hmod := Nat.mod_lt a h
  split_ifs with hr
  · have e : a + b - 1 = (a % b - 1) + b * (a / b + 1) := by
      rw [Nat.mul_succ]; omega
    rw [e, Nat.add_mul_div_left _ _ h, Nat.div_eq_of_lt (show a % b - 1 < b by omega)]
    exact (Nat.zero_add _).symm
  · have e : a + b - 1 = (b - 1) + b * (a / b) := by omega
    rw [e, Nat.add_mul_div_left _ _ h, Nat.div_eq_of_lt (show b - 1 < b by omega)]
    exact (Nat.zero_add _).symm

theorem le_mul_ceilDiv (a : ℕ) {b : ℕ} (hb : 0 < b) : a ≤ b * (a ⌈/⌉ b) :=
  le_smul_ceilDiv hb

theorem ceilDiv_pos {a b : ℕ} (ha : 0 < a) (hb : 0 < b) : 0 < a ⌈/⌉ b :=
  Nat.pos_of_mul_pos_left (ha.trans_le (le_mul_ceilDiv a hb))

theorem ceilDiv_le_self (a : ℕ) {b : ℕ} (hb : 0 < b) : a ⌈/⌉ b ≤ a := by
  rw [ceilDiv_le_iff_le_mul hb]
  exact Nat.le_mul_of_pos_left a hb

theorem ceilDiv_mul_lt (a : ℕ) {b : ℕ} (hb : 0 < b) : a ⌈/⌉ b * b < a + b := by
  have := Nat.div_mul_le_self (a + b - 1) b
  rw [Nat.ceilDiv_eq_add_pred_div]
  omega

theorem ceil_natCast_div {K : Type*} [Field K] [LinearOrder K] [IsStrictOrderedRing K]
    [FloorRing K] (a : ℕ) {b : ℕ} (hb : 0 < b) : ⌈(a : K) / b⌉ = ((a ⌈/⌉ b : ℕ) : ℤ) := by
  have hbK : (0 : K) < b := by exact_mod_cast hb
  have hlt : ((a ⌈/⌉ b * b : ℕ) : K) < ((a + b : ℕ) : K) := by
    exact_mod_cast ceilDiv_mul_lt a hb
  have hle : (a : K) ≤ ((b * (a ⌈/⌉ b) : ℕ) : K) := by exact_mod_cast le_mul_ceilDiv a hb
  push_cast at hlt hle
  rw [Int.ceil_eq_iff, Int.cast_natCast]
  constructor
  · rw [lt_div_iff₀ hbK, sub_mul, one_mul]
    linarith
  · rw [div_le_iff₀ hbK, mul_comm]
    exact hle

/-- Whole multiples of the divisor come out of a rounded-up quotient. -/
theorem add_mul_ceilDiv (a k : ℕ) {b : ℕ} (hb : 0 < b) : (a + b * k) ⌈/⌉ b = a ⌈/⌉ b + k := by
  rw [Nat.ceilDiv_eq_add_pred_div, Nat.ceilDiv_eq_add_pred_div,
    show a + b * k + b - 1 = a + b - 1 + b * k by omega, Nat.add_mul_div_left _ _ hb]

theorem Profile.ushl_ok {a n : ℕ} (hn : n < w) (h : a <<< n < 2 ^ w) :
    P.ushl w a n = .ok (a <<< n) := by
  unfold Profile.ushl
  rw [if_neg (by omega), Nat.mod_eq_of_lt hn, if_neg (by simp [h]), Nat.mod_eq_of_lt h]

/-- `1 << n`. -/
theorem Profile.ushl_one_ok {n : ℕ} (hn : n < w) : P.ushl w 1 n = .ok (2 ^ n) := by
  have h : 1 <<< n < 2 ^ w := by
    rw [Nat.one_shiftLeft]
    exact Nat.pow_lt_pow_right (by norm_num) hn
  rw [Profile.ushl_ok hn h, Nat.one_shiftLeft]

theorem Profile.ushr_ok {a n : ℕ} (hn : n < w) : P.ushr w a n = .ok (a >>> n) := by
  unfold Profile.ushr
  rw [if_neg (by omega), Nat.mod_eq_of_lt hn]

theorem bmod_eq_of_fitsI {z : ℤ} (hw : 0 < w) (h : FitsI w z) : z.bmod (2 ^ w) = z := by
  obtain ⟨k, rfl⟩ : ∃ k, w = k + 1 := ⟨w - 1, by omega⟩
  obtain ⟨h₁, h₂⟩ := h
  simp only [Nat.add_sub_cancel] at h₁ h₂
  have e : ((2 ^ (k + 1) : ℕ) : ℤ) = 2 * 2 ^ k := by push_cast; ring
  apply Int.bmod_eq_of_le <;> rw [e] <;> omega

theorem Profile.asSigned_ok {n : ℕ} (hw : 0 < w) (h : n < 2 ^ (w - 1)) :
    P.asSigned w n = .ok (n : ℤ) := by
  have hf : FitsI w (n : ℤ) := fitsI_of_nonneg (by positivity) (by exact_mod_cast h)
  unfold Profile.asSigned
  rw [if_neg (by simp [hf]), bmod_eq_of_fitsI hw hf]

theorem Profile.asUnsigned_ok {z : ℤ} (h₀ : 0 ≤ z) (h : z < 2 ^ w) :
    P.asUnsigned w z = .ok z.toNat := by
  unfold Profile.asUnsigned
  rw [if_neg (by omega), Int.emod_eq_of_lt h₀ h]

/-! ### Signed operations -/

def Profile.iadd (P : Profile) (w : ℕ) (a b : ℤ) : Exec ℤ := P.settleI w (a + b)

def Profile.isub (P : Profile) (w : ℕ) (a b : ℤ) : Exec ℤ := P.settleI w (a - b)

def Profile.imul (P : Profile) (w : ℕ) (a b : ℤ) : Exec ℤ := P.settleI w (a * b)

def Profile.ineg (P : Profile) (w : ℕ) (a : ℤ) : Exec ℤ := P.settleI w (-a)

/-- `a / b`, truncating toward zero.  Its one overflow stops every build. -/
def idiv (w : ℕ) (a b : ℤ) : Exec ℤ :=
  if b = 0 then .error .divByZero
  else if FitsI w (a.tdiv b) then .ok (a.tdiv b) else .error .overflow

def Profile.ishl (P : Profile) (w : ℕ) (a : ℤ) (n : ℕ) : Exec ℤ :=
  if w ≤ n ∧ P.overflowChecks = true then .error .overflow
  else if P.audit = true ∧ ¬ FitsI w (a * 2 ^ (n % w)) then .error .lossy
  else .ok ((a * 2 ^ (n % w)).bmod (2 ^ w))

/-- `a >> n` on a signed word: the floor of `a / 2 ^ n`. -/
def Profile.ishr (P : Profile) (w : ℕ) (a : ℤ) (n : ℕ) : Exec ℤ :=
  if w ≤ n ∧ P.overflowChecks = true then .error .overflow else .ok (a >>> (n % w))

/-- `a >> k` with the amount in a signed word: below zero is an overflow as well,
and a build that wraps keeps the low bits of the amount. -/
def Profile.ishrBy (P : Profile) (w : ℕ) (a k : ℤ) : Exec ℤ :=
  if (k < 0 ∨ w ≤ k) ∧ P.overflowChecks = true then .error .overflow
  else .ok (a >>> (k % w).toNat)

/-- Truncation shrinks the magnitude to the floor of the magnitudes' quotient. -/
theorem abs_tdiv {a b : ℤ} (hb : 0 < b) : |a.tdiv b| = |a| / b := by
  rcases le_total 0 a with h | h
  · rw [Int.tdiv_eq_ediv_of_nonneg h, abs_of_nonneg h, abs_of_nonneg (Int.ediv_nonneg h hb.le)]
  · obtain ⟨c, rfl⟩ : ∃ c, a = -c := ⟨-a, (neg_neg a).symm⟩
    have hc : 0 ≤ c := by omega
    rw [Int.neg_tdiv, abs_neg, abs_neg, Int.tdiv_eq_ediv_of_nonneg hc, abs_of_nonneg hc,
      abs_of_nonneg (Int.ediv_nonneg hc hb.le)]

theorem tdiv_nonpos {a b : ℤ} (ha : a ≤ 0) (hb : 0 < b) : a.tdiv b ≤ 0 := by
  obtain ⟨c, rfl⟩ : ∃ c, a = -c := ⟨-a, (neg_neg a).symm⟩
  rw [Int.neg_tdiv, Int.tdiv_eq_ediv_of_nonneg (by omega)]
  exact neg_nonpos.mpr (Int.ediv_nonneg (by omega) hb.le)

theorem tdiv_nonneg {a b : ℤ} (ha : 0 ≤ a) (hb : 0 < b) : 0 ≤ a.tdiv b := by
  rw [Int.tdiv_eq_ediv_of_nonneg ha]
  exact Int.ediv_nonneg ha hb.le

theorem Profile.iadd_ok {a b : ℤ} (h : FitsI w (a + b)) : P.iadd w a b = .ok (a + b) :=
  settleI_ok h

theorem Profile.isub_ok {a b : ℤ} (h : FitsI w (a - b)) : P.isub w a b = .ok (a - b) :=
  settleI_ok h

theorem Profile.imul_ok {a b : ℤ} (h : FitsI w (a * b)) : P.imul w a b = .ok (a * b) :=
  settleI_ok h

theorem Profile.ineg_ok {a : ℤ} (h : FitsI w (-a)) : P.ineg w a = .ok (-a) :=
  settleI_ok h

theorem idiv_ok {a b : ℤ} (hb : b ≠ 0) (h : FitsI w (a.tdiv b)) :
    idiv w a b = .ok (a.tdiv b) := by
  unfold idiv
  rw [if_neg hb, if_pos h]

theorem Profile.ishl_ok {a : ℤ} {n : ℕ} (hn : n < w) (h : FitsI w (a * 2 ^ n)) :
    P.ishl w a n = .ok (a * 2 ^ n) := by
  unfold Profile.ishl
  rw [if_neg (by omega), Nat.mod_eq_of_lt hn, if_neg (by simp [h]),
    bmod_eq_of_fitsI (by omega) h]

theorem Profile.ishr_ok {a : ℤ} {n : ℕ} (hn : n < w) : P.ishr w a n = .ok (a / 2 ^ n) := by
  unfold Profile.ishr
  rw [if_neg (by omega), Nat.mod_eq_of_lt hn, Int.shiftRight_eq_div_pow]
  norm_cast

theorem Profile.ishrBy_ok {a k : ℤ} (h₀ : 0 ≤ k) (h : k < w) :
    P.ishrBy w a k = .ok (a / 2 ^ k.toNat) := by
  unfold Profile.ishrBy
  rw [if_neg (by omega), Int.emod_eq_of_lt h₀ h, Int.shiftRight_eq_div_pow]
  norm_cast

/-- A difference past the top of `i128` stops the run, or comes out negative. -/
theorem Profile.settleI_above {z : ℤ} (h₀ : 2 ^ 127 ≤ z) (h₁ : z < 2 ^ 128) :
    P.settleI 128 z = if P.overflowChecks then .error .overflow else .ok (z - 2 ^ 128) := by
  have hz : ¬ FitsI 128 z := by rw [fitsI_128]; omega
  have hmod : z.bmod (2 ^ 128) = z - 2 ^ 128 := by
    rw [Int.bmod_def]
    split <;> omega
  rw [Profile.settleI, if_neg hz, hmod]

/-- A difference below the bottom of `i128` stops the run, or comes out positive. -/
theorem Profile.settleI_below {z : ℤ} (h₀ : -2 ^ 128 ≤ z) (h₁ : z < -2 ^ 127) :
    P.settleI 128 z = if P.overflowChecks then .error .overflow else .ok (z + 2 ^ 128) := by
  have hz : ¬ FitsI 128 z := by rw [fitsI_128]; omega
  have hmod : z.bmod (2 ^ 128) = z + 2 ^ 128 := by
    rw [Int.bmod_def]
    split <;> omega
  rw [Profile.settleI, if_neg hz, hmod]

/-- When a settled difference of two words is negative. -/
theorem Profile.settleI_neg_iff {z : ℤ} (h₀ : -2 ^ 128 ≤ z) (h₁ : z < 2 ^ 128) :
    (∃ e, P.settleI 128 z = .ok e ∧ e < 0) ↔
      -2 ^ 127 ≤ z ∧ z < 0 ∨ 2 ^ 127 ≤ z ∧ P.overflowChecks = false := by
  rcases lt_or_ge z (-2 ^ 127) with hlo | hlo
  · rw [settleI_below h₀ hlo]
    cases hP : P.overflowChecks with
    | true => simp; omega
    | false => simp; omega
  rcases lt_or_ge z (2 ^ 127) with hhi | hhi
  · rw [settleI_ok (fitsI_128.mpr (by omega))]
    simp
    omega
  · rw [settleI_above hhi h₁]
    cases hP : P.overflowChecks with
    | true => simp; omega
    | false => simp; omega

/-! ### Bit patterns

A cast that is meant to reinterpret, not to keep, the value: `as` between the
signed and the unsigned type of one width. -/

/-- The signed value of a bit pattern. -/
def ofBits (w n : ℕ) : ℤ := (n : ℤ).bmod (2 ^ w)

/-- The bit pattern of a signed value, in two's complement. -/
def toBits (w : ℕ) (z : ℤ) : ℕ := (z % 2 ^ w).toNat

theorem toBits_lt (w : ℕ) (z : ℤ) : toBits w z < 2 ^ w := by
  have hpos : (0 : ℤ) < 2 ^ w := by positivity
  have h₀ := Int.emod_nonneg z hpos.ne'
  have h₁ := Int.emod_lt_of_pos z hpos
  rw [toBits, Int.toNat_lt h₀]
  exact_mod_cast h₁

/-! ### Portable runs -/

/-- What a build with overflow checks returns, every build returns. -/
def Portable {α : Type} (f : Profile → Exec α) : Prop :=
  ∀ ⦃P Q : Profile⦄, P.overflowChecks = true → ∀ ⦃v⦄, f P = .ok v → f Q = .ok v

/-- A run that does not look at the profile. -/
theorem Portable.const {α : Type} (x : Exec α) : Portable fun _ => x :=
  fun _ _ _ _ h => h

theorem Portable.bind {α β : Type} {f : Profile → Exec α} {g : Profile → α → Exec β}
    (hf : Portable f) (hg : ∀ P a, P.overflowChecks = true → f P = .ok a → Portable (g · a)) :
    Portable fun P => f P >>= g P := by
  intro P Q hP v h
  obtain ⟨a, ha, hv⟩ := bind_eq_ok.mp h
  have ha' : f Q = .ok a := hf hP ha
  show f Q >>= g Q = .ok v
  rw [ha', ok_bind]
  exact hg P a hP ha hP hv

/-- A run whose value, where it returns at all, is the same in every profile. -/
theorem Portable.of_value {α : Type} {f : Profile → Exec α} {p : Prop} {v : α}
    (hdom : ∀ P a, f P = .ok a → p) (hval : p → ∀ P, f P = .ok v) : Portable f := by
  intro P Q _ a h
  have hp := hdom P a h
  rw [hval hp P] at h
  cases h
  exact hval hp Q

end Machine
