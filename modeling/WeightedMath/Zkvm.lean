/-
WeightedMath/Zkvm.lean

The word protocol between the zkVM host runner and its guest.

The host flattens a batch into 32-bit words, `[op, n_cases]` and then the limbs
of every argument; the guest reads it record by record into a reused buffer,
evaluates each case and commits six words per case, the result and the cycle
delta; the host cuts the journal, by then bytes, into records of 24 and reads
them back.

Two programs, two dispatch tables, and possibly two build profiles.  That the
tables agree on one build is `guestEval_eq`; that a result of the host, which
is built with overflow checks, is the result of every build is
`hostEval_portable`.  `guestLoop_ok` is then an induction over the batch, and
`batch_faithful` reads the journal back.
-/
import WeightedMath.ExactIn
import WeightedMath.ExactOut
import WeightedMath.LittleEndian

namespace WeightedMath

open Machine LittleEndian

/-! ### Words -/

/-- The four limbs of a `u128`, `(v >> (32 * limb)) as u32`, low to high. -/
def limbs (v : ℕ) : List ℕ := (List.range 4).map fun limb => v >>> (32 * limb) % 2 ^ 32

/-- A word as little-endian bytes. -/
def leBytes (w : ℕ) : List ℕ := digits 256 4 w

/-! ### The guest -/

/-- What the guest sees of the executor: the input words it has not read, the
journal bytes it has committed, and how often it has read the cycle counter. -/
structure Env where
  input : List ℕ
  journal : List ℕ
  reads : ℕ

/-- `env::read_slice` into a slice of `n` words. -/
def Env.readSlice (e : Env) (n : ℕ) : Exec (List ℕ × Env) :=
  if n ≤ e.input.length then .ok (e.input.take n, { e with input := e.input.drop n })
  else .error .outOfBounds

/-- `env::cycle_count`, reading `clock`. -/
def Env.cycleCount (clock : ℕ → ℕ) (e : Env) : ℕ × Env :=
  (clock e.reads, { e with reads := e.reads + 1 })

/-- `env::commit_slice`. -/
def Env.commitSlice (e : Env) (ws : List ℕ) : Env :=
  { e with journal := e.journal ++ ws.flatMap leBytes }

def wordsFor (op : ℕ) : Exec ℕ :=
  match op with
  | 0 | 1 | 2 | 9 => .ok 4
  | 3 | 4 | 5 | 8 => .ok 8
  | 6 | 7 => .ok 20
  | _ => .error (.explicit s!"unknown op {op}")

def u128At (P : Profile) (words : List ℕ) (i : ℕ) : Exec ℕ :=
  (List.range 4).foldlM (fun v limb => do
    let w ← index words (i * 4 + limb)
    let s ← P.ushl 128 w (32 * limb)
    return v ||| s) 0

/-- The guest's dispatch table. -/
def guestEval (P : Profile) (op : ℕ) (case : List ℕ) : Exec ℕ :=
  let B := Build.kernel P
  let a := u128At P case
  match op with
  | 0 => do
      let x ← a 0
      let r ← ln B ⟨ofBits 128 x⟩
      return toBits 128 r.repr
  | 1 => do
      let x ← a 0
      let r ← exp B ⟨ofBits 128 x⟩
      return toBits 128 r.repr
  | 2 => do
      let x ← a 0
      let r ← expm1 B ⟨ofBits 128 x⟩
      return toBits 128 r.repr
  | 3 => do
      let x ← a 0
      let y ← a 1
      let r ← pow B ⟨ofBits 128 x⟩ ⟨ofBits 128 y⟩
      return toBits 128 r.repr
  | 4 => do
      let x ← a 0
      let y ← a 1
      let r ← powUp B ⟨ofBits 128 x⟩ ⟨ofBits 128 y⟩
      return toBits 128 r.repr
  | 5 => do
      let x ← a 0
      let y ← a 1
      let r ← powDown B ⟨ofBits 128 x⟩ ⟨ofBits 128 y⟩
      return toBits 128 r.repr
  | 6 => do
      let bi ← a 0
      let wi ← a 1
      let bo ← a 2
      let wo ← a 3
      let amount ← a 4
      calcOutGivenIn B bi wi bo wo amount
  | 7 => do
      let bi ← a 0
      let wi ← a 1
      let bo ← a 2
      let wo ← a 3
      let amount ← a 4
      calcInGivenOut B bi wi bo wo amount
  | 8 => do
      let x ← a 0
      let y ← a 1
      udiv x y
  | 9 => a 0
  | _ => .error (.explicit "internal error: entered unreachable code")

/-- The body of the guest's loop: one case. -/
def guestCase (P : Profile) (clock : ℕ → ℕ) (op words : ℕ) (buf : List ℕ) (e : Env) :
    Exec (List ℕ × Env) := do
  let (case, e) ← e.readSlice words
  let buf := case ++ buf.drop words
  let (start, e) := e.cycleCount clock
  let result ← guestEval P op (buf.take words)
  let (stop, e) := e.cycleCount clock
  let cycles ← P.usub 64 stop start
  let out := limbs result ++ [cycles % 2 ^ 32, cycles >>> 32 % 2 ^ 32]
  return (buf, e.commitSlice out)

def guestLoop (P : Profile) (clock : ℕ → ℕ) (op words : ℕ) : ℕ → List ℕ → Env → Exec Env
  | 0, _, e => .ok e
  | n + 1, buf, e => do
      let (buf, e) ← guestCase P clock op words buf e
      guestLoop P clock op words n buf e

/-- The guest's `main`, from the input words to the final environment. -/
def guestMain (P : Profile) (clock : ℕ → ℕ) (input : List ℕ) : Exec Env := do
  let (header, e) ← Env.readSlice ⟨input, [], 0⟩ 2
  let op ← index header 0
  let n ← index header 1
  let words ← wordsFor op
  guestLoop P clock op words n (List.replicate 20 0) e

/-! ### The host -/

/-- The host's dispatch table. -/
def hostEval (P : Profile) (op : ℕ) (c : List ℕ) : Exec ℕ :=
  let B := Build.kernel P
  match op with
  | 0 => do
      let x ← index c 0
      let r ← ln B ⟨ofBits 128 x⟩
      return toBits 128 r.repr
  | 1 => do
      let x ← index c 0
      let r ← exp B ⟨ofBits 128 x⟩
      return toBits 128 r.repr
  | 2 => do
      let x ← index c 0
      let r ← expm1 B ⟨ofBits 128 x⟩
      return toBits 128 r.repr
  | 3 => do
      let x ← index c 0
      let y ← index c 1
      let r ← pow B ⟨ofBits 128 x⟩ ⟨ofBits 128 y⟩
      return toBits 128 r.repr
  | 4 => do
      let x ← index c 0
      let y ← index c 1
      let r ← powUp B ⟨ofBits 128 x⟩ ⟨ofBits 128 y⟩
      return toBits 128 r.repr
  | 5 => do
      let x ← index c 0
      let y ← index c 1
      let r ← powDown B ⟨ofBits 128 x⟩ ⟨ofBits 128 y⟩
      return toBits 128 r.repr
  | 6 => do
      let bi ← index c 0
      let wi ← index c 1
      let bo ← index c 2
      let wo ← index c 3
      let amount ← index c 4
      calcOutGivenIn B bi wi bo wo amount
  | 7 => do
      let bi ← index c 0
      let wi ← index c 1
      let bo ← index c 2
      let wo ← index c 3
      let amount ← index c 4
      calcInGivenOut B bi wi bo wo amount
  | 8 => do
      let x ← index c 0
      let y ← index c 1
      udiv x y
  | 9 => index c 0
  | _ => .error (.explicit "internal error: entered unreachable code")

/-- What `run_guest` reads out of the journal. -/
structure BatchResult where
  outputs : List ℕ
  cycles : List ℕ

/-- How `run_guest` fails: in the executor, or at its length check. -/
inductive RunError
  | executing (p : Panic) (op : ℕ)
  | journalLength (found expected op : ℕ)

/-- The input words of a batch. -/
def batchInput (op : ℕ) (cases : List (List ℕ)) : List ℕ :=
  [op, cases.length % 2 ^ 32] ++ cases.flatMap fun case => case.flatMap limbs

/-- The journal, cut into records of 24 bytes and read back. -/
def decodeJournal (bytes : List ℕ) : BatchResult where
  outputs := (chunksExact 24 bytes).map fun r => Nat.ofDigits 256 (r.take 16)
  cycles := (chunksExact 24 bytes).map fun r => Nat.ofDigits 256 ((r.drop 16).take 8)

/-- `run_guest`, with the executor running `guestMain`. -/
def runGuest (P : Profile) (clock : ℕ → ℕ) (op : ℕ) (cases : List (List ℕ)) :
    Except RunError BatchResult :=
  match guestMain P clock (batchInput op cases) with
  | .error p => .error (.executing p op)
  | .ok e =>
      if e.journal.length ≠ cases.length * 24 then
        .error (.journalLength e.journal.length (cases.length * 24) op)
      else .ok (decodeJournal e.journal)

/-! ### Limbs and bytes -/

theorem limbs_eq (v : ℕ) : limbs v = digits (2 ^ 32) 4 v := by
  refine List.map_congr_left fun i _ => ?_
  rw [Nat.shiftRight_eq_div_pow, pow_mul]

theorem length_limbs (v : ℕ) : (limbs v).length = 4 := by
  rw [limbs_eq, length_digits]

/-- A word that came from a record fits one, and so does its place in a `u128`. -/
theorem limb_shl {P : Profile} (v : ℕ) {i : ℕ} (hi : i < 4) :
    P.ushl 128 (v / (2 ^ 32) ^ i % 2 ^ 32) (32 * i)
      = .ok ((v / (2 ^ 32) ^ i % 2 ^ 32) <<< (32 * i)) := by
  refine Profile.ushl_ok (by omega) ?_
  rw [Nat.shiftLeft_eq]
  calc v / (2 ^ 32) ^ i % 2 ^ 32 * 2 ^ (32 * i) < 2 ^ 32 * 2 ^ (32 * i) :=
        Nat.mul_lt_mul_of_pos_right (Nat.mod_lt _ (by norm_num)) (Nat.two_pow_pos _)
    _ = 2 ^ (32 + 32 * i) := (pow_add 2 32 (32 * i)).symm
    _ ≤ 2 ^ 128 := Nat.pow_le_pow_right two_pos (by omega)

/-- **Argument `i` of a flattened case is read back.** -/
theorem u128At_limbs {P : Profile} {xs : List ℕ} (hxs : ∀ v ∈ xs, v < 2 ^ 128) {i : ℕ}
    (hi : i < xs.length) : u128At P (xs.flatMap limbs) i = index xs i := by
  have hword : ∀ j ∈ List.range 4, index (xs.flatMap limbs) (i * 4 + j)
      = .ok (xs[i] / (2 ^ 32) ^ j % 2 ^ 32) := by
    intro j hj
    have hj4 := List.mem_range.mp hj
    rw [index, getElem?_flatMap (fun v _ => length_limbs v) hi hj4, limbs_eq, digits,
      List.getElem?_map, List.getElem?_range hj4]
    rfl
  have hstep : ∀ v, ∀ j ∈ List.range 4,
      (do
        let w ← index (xs.flatMap limbs) (i * 4 + j)
        let s ← P.ushl 128 w (32 * j)
        return v ||| s : Exec ℕ) = .ok (v ||| (xs[i] / (2 ^ 32) ^ j % 2 ^ 32) <<< (32 * j)) := by
    intro v j hj
    rw [hword j hj, ok_bind, limb_shl _ (List.mem_range.mp hj), ok_bind, pure_eq_ok]
  rw [index_ok hi, u128At, foldlM_ok hstep, foldl_or_digits,
    Nat.mod_eq_of_lt (hxs _ (List.getElem_mem hi))]

/-- **The two dispatch tables agree**, on one build. -/
theorem guestEval_eq {P : Profile} {op : ℕ} {xs : List ℕ} (hxs : ∀ v ∈ xs, v < 2 ^ 128)
    (hw : wordsFor op = .ok (xs.length * 4)) :
    guestEval P op (xs.flatMap limbs) = hostEval P op xs := by
  unfold wordsFor at hw
  split at hw
  all_goals simp only [Except.ok.injEq, reduceCtorEq] at hw
  all_goals
    simp (disch := omega) only [guestEval, hostEval, u128At_limbs hxs]

/-! ### One result in every build -/

section Portable

variable (x y bi wi bo wo amount : ℕ)

theorem ln_portable (z : ℤ) : Portable fun P => ln (Build.kernel P) ⟨z⟩ := by
  refine Portable.of_value (p := 0 < z ∧ z ≤ 2 ^ 52) (v := ⟨lnOut 52 z⟩) ?_ ?_
  · intro P r h
    obtain ⟨_, h₁, -⟩ := bind_eq_ok.mp h
    exact assert_eq_ok.mp h₁
  · rintro ⟨h₀, h₁⟩ P
    exact ln_ok (Build.kernel P) h₀ h₁

theorem exp_portable (z : ℤ) : Portable fun P => exp (Build.kernel P) ⟨z⟩ := by
  refine Portable.of_value (p := z ≤ 0) (v := ⟨expOut 52 z⟩) ?_ fun h P => exp_ok (Build.kernel P) h
  intro P r h
  obtain ⟨_, h₁, -⟩ := bind_eq_ok.mp h
  exact assert_eq_ok.mp h₁

theorem expm1_portable (z : ℤ) : Portable fun P => expm1 (Build.kernel P) ⟨z⟩ := by
  refine Portable.of_value (p := z ≤ 0) (v := ⟨expm1Out 52 z⟩) ?_
    fun h P => expm1_ok (Build.kernel P) h
  intro P r h
  obtain ⟨_, h₁, -⟩ := bind_eq_ok.mp h
  exact assert_eq_ok.mp h₁

theorem powRaw_portable (b e : ℤ) : Portable fun P => powRaw (Build.kernel P) ⟨b⟩ ⟨e⟩ :=
  Portable.of_value (p := PowDomain 52 b e) (v := powOut 52 b e) (fun _ _ h => powRaw_domain h)
    fun h P => powRaw_ok (Build.kernel P) h

theorem pow_portable (b e : ℤ) : Portable fun P => pow (Build.kernel P) ⟨b⟩ ⟨e⟩ :=
  (powRaw_portable b e).bind fun _ _ _ _ => Portable.const _

/-- The pads of `powUp` and `powDown` are taken in the domain only. -/
theorem powUp_portable (b e : ℤ) : Portable fun P => powUp (Build.kernel P) ⟨b⟩ ⟨e⟩ := by
  refine Portable.of_value (p := PowDomain 52 b e) (v := ⟨min (powOut 52 b e + 2) (2 ^ 52)⟩) ?_
    fun h P => powUp_ok (Build.kernel P) h
  intro P r h
  obtain ⟨_, h₁, -⟩ := bind_eq_ok.mp h
  exact powRaw_domain h₁

theorem powDown_portable (b e : ℤ) : Portable fun P => powDown (Build.kernel P) ⟨b⟩ ⟨e⟩ := by
  refine Portable.of_value (p := PowDomain 52 b e) (v := ⟨max (powOut 52 b e - 2) 0⟩) ?_
    fun h P => powDown_ok (Build.kernel P) h
  intro P r h
  obtain ⟨_, h₁, -⟩ := bind_eq_ok.mp h
  exact powRaw_domain h₁

variable {bi wi bo wo amount}

theorem calcOutGivenIn_portable (hbo : bo < 2 ^ 128) :
    Portable fun P => calcOutGivenIn (Build.kernel P) bi wi bo wo amount :=
  Portable.of_value (v := outVal 52 bi wi bo wo amount) (fun _ _ h => calcOutGivenIn_envelope h)
    fun h P => calcOutGivenIn_ok (Build.kernel P) hbo h

/-- The one call whose value depends on the profile, and only where a checked
build does not return. -/
theorem calcInGivenOut_portable (hbi : bi < 2 ^ 128) (hbo : bo < 2 ^ 128) :
    Portable fun P => calcInGivenOut (Build.kernel P) bi wi bo wo amount := by
  intro P Q hP c h
  have henv := calcInGivenOut_envelope hbo h
  dsimp only at h ⊢
  rcases Nat.eq_zero_or_pos amount with rfl | hpos
  · rw [calcInGivenOut_zero _ hbo henv] at h
    cases h
    exact calcInGivenOut_zero _ hbo henv
  · obtain ⟨hfit, rfl⟩ := (calcInGivenOut_eq_ok hP hbi hbo henv hpos).mp h
    exact calcInGivenOut_ok Q hbi hbo henv hpos hfit

end Portable

/-- **What the host computes, every build of the guest computes.** -/
theorem hostEval_portable (op : ℕ) {xs : List ℕ} (hxs : ∀ v ∈ xs, v < 2 ^ 128) :
    Portable fun P => hostEval P op xs := by
  have hval : ∀ {i v}, index xs i = .ok v → v < 2 ^ 128 := fun h => hxs _ (index_mem h)
  unfold hostEval
  split
  · exact (Portable.const _).bind fun _ x _ _ =>
      (ln_portable _).bind fun _ _ _ _ => Portable.const _
  · exact (Portable.const _).bind fun _ x _ _ =>
      (exp_portable _).bind fun _ _ _ _ => Portable.const _
  · exact (Portable.const _).bind fun _ x _ _ =>
      (expm1_portable _).bind fun _ _ _ _ => Portable.const _
  · exact (Portable.const _).bind fun _ x _ _ => (Portable.const _).bind fun _ y _ _ =>
      (pow_portable _ _).bind fun _ _ _ _ => Portable.const _
  · exact (Portable.const _).bind fun _ x _ _ => (Portable.const _).bind fun _ y _ _ =>
      (powUp_portable _ _).bind fun _ _ _ _ => Portable.const _
  · exact (Portable.const _).bind fun _ x _ _ => (Portable.const _).bind fun _ y _ _ =>
      (powDown_portable _ _).bind fun _ _ _ _ => Portable.const _
  · exact (Portable.const _).bind fun _ bi _ _ => (Portable.const _).bind fun _ wi _ _ =>
      (Portable.const _).bind fun _ bo _ hbo => (Portable.const _).bind fun _ wo _ _ =>
      (Portable.const _).bind fun _ amount _ _ => calcOutGivenIn_portable (hval hbo)
  · exact (Portable.const _).bind fun _ bi _ hbi => (Portable.const _).bind fun _ wi _ _ =>
      (Portable.const _).bind fun _ bo _ hbo => (Portable.const _).bind fun _ wo _ _ =>
      (Portable.const _).bind fun _ amount _ _ => calcInGivenOut_portable (hval hbi) (hval hbo)
  · exact Portable.const _
  · exact Portable.const _
  · exact Portable.const _

/-- A signed result travels as a `u128`. -/
theorem yields_toBits (x : Exec Fixed) :
    Yields (x >>= fun r => pure (toBits 128 r.repr)) (· < 2 ^ 128) :=
  .bind fun r _ => .ok (toBits_lt 128 r.repr)

/-- **A result is a `u128`.** -/
theorem hostEval_lt {P : Profile} (hP : P.overflowChecks = true) (op : ℕ) {xs : List ℕ}
    (hxs : ∀ v ∈ xs, v < 2 ^ 128) : Yields (hostEval P op xs) (· < 2 ^ 128) := by
  have hval : ∀ {i v}, index xs i = .ok v → v < 2 ^ 128 := fun h => hxs _ (index_mem h)
  unfold hostEval
  split
  · exact .bind fun x _ => yields_toBits _
  · exact .bind fun x _ => yields_toBits _
  · exact .bind fun x _ => yields_toBits _
  · exact .bind fun x _ => .bind fun y _ => yields_toBits _
  · exact .bind fun x _ => .bind fun y _ => yields_toBits _
  · exact .bind fun x _ => .bind fun y _ => yields_toBits _
  · refine .bind fun bi _ => .bind fun wi _ => .bind fun bo hbo => .bind fun wo _ =>
      .bind fun amount _ => ?_
    intro out h
    exact (calcOutGivenIn_lt (hval hbo) h).trans (hval hbo)
  · refine .bind fun bi hbi => .bind fun wi _ => .bind fun bo hbo => .bind fun wo _ =>
      .bind fun amount _ => ?_
    intro c h
    exact calcInGivenOut_lt hP (hval hbi) (hval hbo) h
  · refine .bind fun x hx => .bind fun y _ => ?_
    intro q h
    exact (udiv_le h).trans_lt (hval hx)
  · intro v h
    exact hval h
  · exact .error _ _

/-! ### The batch -/

/-- The 24 bytes a case leaves in the journal. -/
def record (result cycles : ℕ) : List ℕ :=
  (limbs result ++ [cycles % 2 ^ 32, cycles >>> 32 % 2 ^ 32]).flatMap leBytes

theorem length_record (v y : ℕ) : (record v y).length = 24 := by
  rw [record, length_flatMap_records (f := leBytes) (k := 4) fun w _ => length_digits 256 4 w,
    List.length_append, length_limbs]
  rfl

/-- One case: its words are consumed, its record is committed, whatever the
buffer held before. -/
theorem guestCase_ok {P : Profile} {clock : ℕ → ℕ} {op v y r : ℕ} {xs : List ℕ}
    (buf rest journal : List ℕ) (heval : guestEval P op (xs.flatMap limbs) = .ok v)
    (hclock : P.usub 64 (clock (r + 1)) (clock r) = .ok y) :
    guestCase P clock op (xs.length * 4) buf ⟨xs.flatMap limbs ++ rest, journal, r⟩
      = .ok (xs.flatMap limbs ++ buf.drop (xs.length * 4),
          ⟨rest, journal ++ record v y, r + 2⟩) := by
  have hlen : (xs.flatMap limbs).length = xs.length * 4 :=
    length_flatMap_records fun w _ => length_limbs w
  have hread : xs.length * 4 ≤ (xs.flatMap limbs ++ rest).length := by
    rw [List.length_append, hlen]
    exact Nat.le_add_right _ _
  unfold guestCase Env.readSlice
  rw [if_pos hread, ok_bind]
  dsimp only
  rw [List.take_left' hlen, List.drop_left' hlen, List.take_left' hlen, heval, ok_bind]
  unfold Env.cycleCount
  dsimp only
  rw [hclock, ok_bind]
  rfl

/-- **The loop over a batch**, by induction on its cases. -/
theorem guestLoop_ok {P : Profile} {clock : ℕ → ℕ} {op words : ℕ} {cases : List (List ℕ)}
    {vs : List ℕ}
    (hclock : ∀ r, ∃ y, P.usub 64 (clock (2 * r + 1)) (clock (2 * r)) = .ok y ∧ y < 2 ^ 64)
    (hlen : ∀ xs ∈ cases, xs.length * 4 = words)
    (heval : List.Forall₂ (fun xs v => guestEval P op (xs.flatMap limbs) = .ok v) cases vs)
    (buf journal : List ℕ) (r : ℕ) :
    ∃ ys : List ℕ, ys.length = vs.length ∧ (∀ y ∈ ys, y < 2 ^ 64) ∧
      ∃ r', guestLoop P clock op words cases.length buf
          ⟨cases.flatMap fun xs => xs.flatMap limbs, journal, 2 * r⟩
        = .ok ⟨[], journal ++ (vs.zip ys).flatMap fun p => record p.1 p.2, r'⟩ := by
  induction heval generalizing buf journal r with
  | nil => exact ⟨[], rfl, by simp, 2 * r, by simp [guestLoop]⟩
  | @cons xs v cases vs hv _ ih =>
      obtain rfl := hlen xs List.mem_cons_self
      obtain ⟨y, hy, hlt⟩ := hclock r
      have hcase := guestCase_ok buf (cases.flatMap fun xs => xs.flatMap limbs) journal hv hy
      obtain ⟨ys, hys, hlts, r', hloop⟩ := ih (fun zs hz => hlen zs (List.mem_cons_of_mem xs hz))
        (xs.flatMap limbs ++ buf.drop (xs.length * 4)) (journal ++ record v y) (r + 1)
      refine ⟨y :: ys, by simp [hys], ?_, r', ?_⟩
      · intro z hz
        rcases List.mem_cons.mp hz with rfl | hz
        · exact hlt
        · exact hlts z hz
      · rw [List.length_cons, guestLoop, List.flatMap_cons, hcase, ok_bind]
        dsimp only
        rw [← Nat.mul_succ, hloop, List.zip_cons_cons, List.flatMap_cons, List.append_assoc]

/-! ### The journal -/

/-- **A record reads back**: the result and the cycle delta. -/
theorem record_decode {v y : ℕ} (hv : v < 2 ^ 128) (hy : y < 2 ^ 64) :
    Nat.ofDigits 256 ((record v y).take 16) = v ∧
      Nat.ofDigits 256 (((record v y).drop 16).take 8) = y := by
  have hwords : ∀ {k n : ℕ}, n < (2 ^ 32) ^ k →
      Nat.ofDigits 256 ((digits (2 ^ 32) k n).flatMap leBytes) = n := by
    intro k n hn
    have hlt : ∀ w ∈ digits (2 ^ 32) k n, w < 256 ^ 4 := by
      intro w hw
      exact (digits_lt (by norm_num) hw).trans_le (by norm_num)
    show Nat.ofDigits 256 ((digits (2 ^ 32) k n).flatMap (digits 256 4)) = n
    rw [ofDigits_flatMap_digits hlt, show 256 ^ 4 = 2 ^ 32 by norm_num, ofDigits_digits,
      Nat.mod_eq_of_lt hn]
  have hlen : ∀ k n : ℕ, ((digits (2 ^ 32) k n).flatMap leBytes).length = k * 4 := by
    intro k n
    rw [length_flatMap_records (f := leBytes) (k := 4) fun w _ => length_digits 256 4 w,
      length_digits]
  have hcyc : [y % 2 ^ 32, y >>> 32 % 2 ^ 32] = digits (2 ^ 32) 2 y := by
    rw [Nat.shiftRight_eq_div_pow]
    simp [digits, List.range_succ]
  rw [record, hcyc, limbs_eq, List.flatMap_append, List.take_left' (hlen 4 v),
    List.drop_left' (hlen 4 v), List.take_of_length_le (hlen 2 y).le]
  exact ⟨hwords (hv.trans_le (by norm_num)), hwords (hy.trans_le (by norm_num))⟩

/-- The journal of a batch reads back as its results and its cycle deltas. -/
theorem decodeJournal_records {vs ys : List ℕ} (hlen : ys.length = vs.length)
    (hvs : ∀ v ∈ vs, v < 2 ^ 128) (hys : ∀ y ∈ ys, y < 2 ^ 64) :
    decodeJournal ((vs.zip ys).flatMap fun p => record p.1 p.2) = ⟨vs, ys⟩ := by
  have hdec : ∀ p ∈ vs.zip ys, Nat.ofDigits 256 ((record p.1 p.2).take 16) = p.1 ∧
      Nat.ofDigits 256 (((record p.1 p.2).drop 16).take 8) = p.2 := by
    intro p hp
    obtain ⟨hv, hy⟩ := List.of_mem_zip hp
    exact record_decode (hvs _ hv) (hys _ hy)
  unfold decodeJournal
  rw [chunksExact_flatMap (by norm_num) fun p _ => length_record p.1 p.2, List.map_map,
    List.map_map]
  congr 1
  · exact (List.map_congr_left fun p hp => (hdec p hp).1).trans (List.map_fst_zip hlen.ge)
  · exact (List.map_congr_left fun p hp => (hdec p hp).2).trans (List.map_snd_zip hlen.le)

/-! ### The protocol -/

/-- The two reads of the cycle counter around a call give a delta that is a
`u64`: a wrapped one if the build wraps, and otherwise no panic as long as the
call did not take a negative time. -/
theorem cycles_ok {P : Profile} {clock : ℕ → ℕ} (hclock : ∀ i, clock i < 2 ^ 64)
    (hmono : P.overflowChecks = true → ∀ i, clock (2 * i) ≤ clock (2 * i + 1)) (r : ℕ) :
    ∃ y, P.usub 64 (clock (2 * r + 1)) (clock (2 * r)) = .ok y ∧ y < 2 ^ 64 := by
  by_cases hle : clock (2 * r) ≤ clock (2 * r + 1)
  · exact ⟨_, Profile.usub_ok hle, (Nat.sub_le _ _).trans_lt (hclock (2 * r + 1))⟩
  · have hP : ¬ P.overflowChecks = true := fun hP => hle (hmono hP r)
    refine ⟨(clock (2 * r + 1) + 2 ^ 64 - clock (2 * r)) % 2 ^ 64, ?_,
      Nat.mod_lt _ (by norm_num)⟩
    rw [Profile.usub, if_neg hle, if_neg hP]

theorem wordsFor_ok {op : ℕ} (h : op ≤ 9) : ∃ words, wordsFor op = .ok words := by
  interval_cases op <;> exact ⟨_, rfl⟩

/-- **A batch in the guest.**  On cases that each hold the arguments of their
operation, and on which the host's call returns, `main` leaves no word unread
and commits a record for each of the host's results. -/
theorem guestMain_ok {P Q : Profile} {clock : ℕ → ℕ} {op : ℕ} {cases : List (List ℕ)}
    (hP : P.overflowChecks = true) (hclock : ∀ i, clock i < 2 ^ 64)
    (hmono : Q.overflowChecks = true → ∀ i, clock (2 * i) ≤ clock (2 * i + 1)) (hop : op ≤ 9)
    (hcases : cases.length < 2 ^ 32)
    (hargs : ∀ xs ∈ cases, wordsFor op = .ok (xs.length * 4) ∧ ∀ v ∈ xs, v < 2 ^ 128)
    (hret : ∀ xs ∈ cases, ∃ v, hostEval P op xs = .ok v) :
    ∃ (journal : List ℕ) (reads : ℕ),
      guestMain Q clock (batchInput op cases) = .ok ⟨[], journal, reads⟩ ∧
      journal.length = cases.length * 24 ∧
      (decodeJournal journal).outputs.map Except.ok = cases.map (hostEval P op) := by
  obtain ⟨words, hwords⟩ := wordsFor_ok hop
  choose! f hf using hret
  have hlen : ∀ xs ∈ cases, xs.length * 4 = words := by
    intro xs hx
    have := (hargs xs hx).1
    rw [hwords] at this
    exact (Except.ok.inj this).symm
  have heval : List.Forall₂ (fun xs v => guestEval Q op (xs.flatMap limbs) = .ok v) cases
      (cases.map f) := by
    rw [List.forall₂_map_right_iff, List.forall₂_same]
    intro xs hx
    rw [guestEval_eq (hargs xs hx).2 (hargs xs hx).1]
    exact hostEval_portable op (hargs xs hx).2 hP (hf xs hx)
  have hvs : ∀ v ∈ cases.map f, v < 2 ^ 128 := by
    intro v hv
    obtain ⟨xs, hx, rfl⟩ := List.mem_map.mp hv
    exact hostEval_lt hP op (hargs xs hx).2 _ (hf xs hx)
  obtain ⟨ys, hys, hlts, reads, hloop⟩ :=
    guestLoop_ok (cycles_ok hclock hmono) hlen heval (List.replicate 20 0) [] 0
  refine ⟨((cases.map f).zip ys).flatMap fun p => record p.1 p.2, reads, ?_, ?_, ?_⟩
  · unfold guestMain Env.readSlice batchInput
    rw [Nat.mod_eq_of_lt hcases, if_pos (by simp)]
    show (wordsFor op >>= fun words => guestLoop Q clock op words cases.length
      (List.replicate 20 0) ⟨cases.flatMap fun xs => xs.flatMap limbs, [], 0⟩) = _
    rw [hwords, ok_bind, hloop, List.nil_append]
  · rw [length_flatMap_records fun p _ => length_record p.1 p.2, List.length_zip, hys, min_self,
      List.length_map]
  · rw [decodeJournal_records hys hvs hlts, List.map_map]
    exact List.map_congr_left fun xs hx => (hf xs hx).symm

/-- **The word protocol is faithful for every batch.**  Let the host be built
with overflow checks (`P`) and the guest in any profile (`Q`); let the cycle
counter give any `u64` values, of which, if the guest checks its subtraction,
the two around one call are in order.  For every operation and every batch of
fewer than `2^32` cases that each hold the arguments `words_for` asks for and on
which the kernel call returns, the guest's `main` ends with no input word left
over and a journal of 24 bytes per case, `run_guest` passes its length check,
and its outputs are, in order, exactly the host's own results. -/
theorem batch_faithful (P Q : Profile) (clock : ℕ → ℕ) (op : ℕ) (cases : List (List ℕ))
    (hP : P.overflowChecks = true) (hclock : ∀ i, clock i < 2 ^ 64)
    (hmono : Q.overflowChecks = true → ∀ i, clock (2 * i) ≤ clock (2 * i + 1)) (hop : op ≤ 9)
    (hcases : cases.length < 2 ^ 32)
    (hargs : ∀ xs ∈ cases, wordsFor op = .ok (xs.length * 4) ∧ ∀ v ∈ xs, v < 2 ^ 128)
    (hret : ∀ xs ∈ cases, ∃ v, hostEval P op xs = .ok v) :
    ∃ (e : Env) (b : BatchResult),
      guestMain Q clock (batchInput op cases) = .ok e ∧ e.input = [] ∧
      e.journal.length = cases.length * 24 ∧
      runGuest Q clock op cases = .ok b ∧
      b.outputs.map Except.ok = cases.map (hostEval P op) := by
  obtain ⟨journal, reads, hmain, hjournal, houts⟩ :=
    guestMain_ok hP hclock hmono hop hcases hargs hret
  refine ⟨_, decodeJournal journal, hmain, rfl, hjournal, ?_, houts⟩
  rw [runGuest, hmain]
  dsimp only
  rw [if_neg (not_not.mpr hjournal)]

/-- A sale and an empty call, with a saturating tick counter. -/
theorem batch_faithful_sale :
    ∃ (e : Env) (b : BatchResult),
      guestMain Profile.checked (min (2 ^ 64 - 1))
        (batchInput 6 [[1000, 1, 1000, 1, 1000], [1, 1, 1, 1, 0]]) = .ok e ∧ e.input = [] ∧
      e.journal.length = [[1000, 1, 1000, 1, 1000], [1, 1, 1, 1, 0]].length * 24 ∧
      runGuest Profile.checked (min (2 ^ 64 - 1)) 6
        [[1000, 1, 1000, 1, 1000], [1, 1, 1, 1, 0]] = .ok b ∧
      b.outputs.map Except.ok
        = [[1000, 1, 1000, 1, 1000], [1, 1, 1, 1, 0]].map (hostEval Profile.debug 6) := by
  have hclock : ∀ i, min (2 ^ 64 - 1) i < 2 ^ 64 := by omega
  have hmono : Profile.checked.overflowChecks = true →
      ∀ i, min (2 ^ 64 - 1) (2 * i) ≤ min (2 ^ 64 - 1) (2 * i + 1) := by omega
  have hargs : ∀ xs ∈ [[1000, 1, 1000, 1, 1000], [1, 1, 1, 1, 0]],
      wordsFor 6 = .ok (xs.length * 4) ∧ ∀ v ∈ xs, v < 2 ^ 128 := by decide
  have hsale : hostEval Profile.debug 6 [1000, 1, 1000, 1, 1000] = .ok 499 := by decide +kernel
  have hempty : hostEval Profile.debug 6 [1, 1, 1, 1, 0] = .ok 0 := by decide +kernel
  have hret : ∀ xs ∈ [[1000, 1, 1000, 1, 1000], [1, 1, 1, 1, 0]],
      ∃ v, hostEval Profile.debug 6 xs = .ok v := by
    intro xs hx
    rcases List.mem_pair.mp hx with rfl | rfl
    · exact ⟨499, hsale⟩
    · exact ⟨0, hempty⟩
  exact batch_faithful Profile.debug Profile.checked (min (2 ^ 64 - 1)) 6 _ rfl hclock hmono
    (by norm_num) (by norm_num) hargs hret

end WeightedMath
