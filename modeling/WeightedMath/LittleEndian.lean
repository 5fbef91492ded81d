/-
WeightedMath/LittleEndian.lean

Fixed-width little-endian codecs over lists of naturals.

`digits b k n` is the record of `k` digits of `n` in base `b`, lowest first, and
Mathlib's `Nat.ofDigits` reads a record back.  A batch is the concatenation of
records of one length; it can be read by position (`getElem?_flatMap`) or cut
into its records again (`chunksExact_flatMap`), and regrouping the digits of
digits does not change what they denote (`ofDigits_flatMap_digits`).  Two words
compare as the number they denote (`value_lt_iff`).
-/
import Mathlib

namespace LittleEndian

/-- The `k` low digits of `n` in base `b`, lowest first. -/
def digits (b k n : ℕ) : List ℕ := (List.range k).map fun i => n / b ^ i % b

@[simp] theorem length_digits (b k n : ℕ) : (digits b k n).length = k := by
  simp [digits]

theorem digits_lt {b k n d : ℕ} (hb : 0 < b) (h : d ∈ digits b k n) : d < b := by
  obtain ⟨i, -, rfl⟩ := List.mem_map.mp h
  exact Nat.mod_lt _ hb

/-- Reading a record gives the number, up to what `k` digits can hold. -/
theorem ofDigits_digits (b k n : ℕ) : Nat.ofDigits b (digits b k n) = n % b ^ k := by
  induction k with
  | zero => simp [digits, Nat.mod_one]
  | succ k ih =>
      unfold digits at *
      rw [List.range_succ, List.map_append, Nat.ofDigits_append, ih, List.length_map,
        List.length_range, Nat.mod_pow_succ]
      simp

/-- Digits of digits: a record of wide digits written in narrow ones. -/
theorem ofDigits_flatMap_digits {b k : ℕ} {ws : List ℕ} (h : ∀ w ∈ ws, w < b ^ k) :
    Nat.ofDigits b (ws.flatMap (digits b k)) = Nat.ofDigits (b ^ k) ws := by
  induction ws with
  | nil => rfl
  | cons w ws ih =>
      rw [List.flatMap_cons, Nat.ofDigits_append, length_digits, ofDigits_digits,
        Nat.mod_eq_of_lt (h w List.mem_cons_self), ih fun v hv => h v (List.mem_cons_of_mem w hv),
        Nat.ofDigits_cons]

/-- A digit or-ed into its place extends the number read so far. -/
theorem mod_or_shiftLeft (n s t : ℕ) :
    n % 2 ^ s ||| (n / 2 ^ s % 2 ^ t) <<< s = n % 2 ^ (s + t) := by
  rw [Nat.or_comm, ← Nat.shiftLeft_add_eq_or_of_lt (Nat.mod_lt n (Nat.two_pow_pos s)),
    Nat.shiftLeft_eq, pow_add, Nat.mod_mul]
  ring

/-- Or-ing all digits into their places reads the record. -/
theorem foldl_or_digits (n t k : ℕ) :
    (List.range k).foldl (fun v i => v ||| (n / (2 ^ t) ^ i % 2 ^ t) <<< (t * i)) 0
      = n % 2 ^ (t * k) := by
  induction k with
  | zero => simp [Nat.mod_one]
  | succ k ih =>
      rw [List.range_succ, List.foldl_append, ih, List.foldl_cons, List.foldl_nil, ← pow_mul,
        mod_or_shiftLeft, Nat.mul_succ]

/-! ### Two words

A number below the square of the base, as the pair of its high and its low
word. -/

/-- The number of a pair of words. -/
def value (b : ℕ) (w : ℕ × ℕ) : ℕ := w.1 * b + w.2

@[simp] theorem value_divMod (b n : ℕ) : value b (n / b, n % b) = n :=
  Nat.div_add_mod' n b

/-- **Pairs of words compare as their numbers**: by the high word, and by the low
one where the high words agree. -/
theorem value_lt_iff {b : ℕ} {v w : ℕ × ℕ} (hv : v.2 < b) (hw : w.2 < b) :
    value b v < value b w ↔ v.1 < w.1 ∨ v.1 = w.1 ∧ v.2 < w.2 := by
  unfold value
  rcases lt_trichotomy v.1 w.1 with h | h | h
  · have := Nat.mul_le_mul_right b (Nat.succ_le_of_lt h)
    rw [Nat.succ_mul] at this
    omega
  · rw [h]
    omega
  · have := Nat.mul_le_mul_right b (Nat.succ_le_of_lt h)
    rw [Nat.succ_mul] at this
    omega

theorem value_le_iff {b : ℕ} {v w : ℕ × ℕ} (hv : v.2 < b) (hw : w.2 < b) :
    value b v ≤ value b w ↔ v.1 < w.1 ∨ v.1 = w.1 ∧ v.2 ≤ w.2 := by
  rw [← not_lt, value_lt_iff hw hv]
  omega

section Records

variable {α β : Type} {f : α → List β} {k : ℕ}

theorem length_flatMap_records {xs : List α} (h : ∀ x ∈ xs, (f x).length = k) :
    (xs.flatMap f).length = xs.length * k := by
  induction xs with
  | nil => simp
  | cons x xs ih =>
      rw [List.flatMap_cons, List.length_append, h x List.mem_cons_self,
        ih fun y hy => h y (List.mem_cons_of_mem x hy), List.length_cons]
      ring

/-- Reading a batch by position: entry `j` of record `i`. -/
theorem getElem?_flatMap {xs : List α} (h : ∀ x ∈ xs, (f x).length = k) {i j : ℕ}
    (hi : i < xs.length) (hj : j < k) : (xs.flatMap f)[i * k + j]? = (f xs[i])[j]? := by
  induction xs generalizing i with
  | nil => exact absurd hi (Nat.not_lt_zero i)
  | cons x xs ih =>
      have hx := h x List.mem_cons_self
      rw [List.flatMap_cons]
      cases i with
      | zero =>
          rw [Nat.zero_mul, Nat.zero_add, List.getElem?_append_left (by omega)]
          rfl
      | succ i =>
          have e : (i + 1) * k + j - (f x).length = i * k + j := by
            rw [hx, Nat.succ_mul]
            omega
          rw [List.getElem?_append_right (by rw [hx, Nat.succ_mul]; omega), e]
          exact ih (fun y hy => h y (List.mem_cons_of_mem x hy)) (Nat.lt_of_succ_lt_succ hi)

/-- `chunks_exact(k)`: the consecutive full chunks. -/
def chunksExact (k : ℕ) (xs : List β) : List (List β) :=
  (List.range (xs.length / k)).map fun i => (xs.drop (i * k)).take k

/-- **Cutting a batch gives its records back.** -/
theorem chunksExact_flatMap {xs : List α} (hk : 0 < k) (h : ∀ x ∈ xs, (f x).length = k) :
    chunksExact k (xs.flatMap f) = xs.map f := by
  unfold chunksExact
  rw [length_flatMap_records h, Nat.mul_div_cancel _ hk]
  induction xs with
  | nil => rfl
  | cons x xs ih =>
      have hx := h x List.mem_cons_self
      rw [List.length_cons, List.range_succ_eq_map, List.map_cons, List.map_map, List.map_cons,
        ← ih fun y hy => h y (List.mem_cons_of_mem x hy), List.flatMap_cons]
      congr 1
      · rw [Nat.zero_mul, List.drop_zero, List.take_append_of_le_length hx.ge,
          List.take_of_length_le hx.le]
      · refine List.map_congr_left fun i _ => ?_
        show ((f x ++ xs.flatMap f).drop ((i + 1) * k)).take k = _
        rw [show (i + 1) * k = k + i * k by ring, ← List.drop_drop, List.drop_left' hx]

end Records

end LittleEndian
