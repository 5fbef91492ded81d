/-
WeightedMath/Runner.lean

The host runner's `main`: it reads the fixtures of the harness, runs each
operation's batch in the zkVM, compares every result with its own, and fails on
any difference.

The executor is a parameter, and so is what runs in it.  Nothing that the guest
does in a batch can make the runner succeed with a wrong result: if `hostMain`
returns, the journals of the batches had the right length and every record in
them held the host's own result (`hostMain_certifies`).  The results of the three
single-call sessions at the end are not looked at.  And with the real guest in
the executor, in any build of it that can take its cycle deltas, it returns
exactly if the host's own calls do, with no mismatch (`hostMain_ok_iff`).

The loop also picks the case with the median cycle count of each operation, for
the single-call sessions at the end.  It always finds one, because a median of
an odd or even number of counts, as `stats` takes it, is one of the counts.
-/
import WeightedMath.Gates
import WeightedMath.OrderStatistic
import WeightedMath.Zkvm

namespace WeightedMath

open Machine LittleEndian

/-! ### Reading the fixtures -/

def IntErrorKind.debug : IntErrorKind → String
  | .empty => "Empty"
  | .invalidDigit => "InvalidDigit"
  | .posOverflow => "PosOverflow"

/-- `{:?}` of the error of `str::parse`. -/
def ParseIntError.debug (e : ParseIntError) : String :=
  let kind :=
    match e with
    | .kind k => k.debug
    | .negOverflow => "NegOverflow"
  "ParseIntError \x7b kind: " ++ kind ++ " \x7d"

namespace Runner

/-- `s.parse().expect(field)`, after the parse. -/
def parsed {α : Type} (field : String) : Except ParseIntError α → Exec α
  | .ok x => .ok x
  | .error e => .error (.expect (field ++ ": " ++ e.debug))

/-- An input of the grid, as the bits of an `i128`. -/
def s40 (B : Build) (s : String) : Exec ℕ := do
  let raw ← parsed "s40 field" (i128FromStr s)
  let n ← B.usub 32 B.scale s40Bits
  let z ← B.ishl 128 raw n
  return toBits 128 z

def wei (s : String) : Exec ℕ :=
  parsed "u128 field" ((u128FromStr s).mapError .kind)

structure PowCase where
  baseS40 : String
  exponentS40 : String

structure LnCase where
  xS40 : String

structure ExpCase where
  negXS40 : String

structure OutGivenInCase where
  balanceIn : String
  amountIn : String
  balanceOut : String
  weightIn : String
  weightOut : String

structure InGivenOutCase where
  balanceIn : String
  amountOut : String
  balanceOut : String
  weightIn : String
  weightOut : String

/-- The fixture files, as far as the guest needs them. -/
structure Fixtures where
  pow : List PowCase
  ln : List LnCase
  exp : List ExpCase
  outGivenIn : List OutGivenInCase
  inGivenOut : List InGivenOutCase

def powInput (B : Build) (c : PowCase) : Exec (List ℕ) := do
  let base ← s40 B c.baseS40
  let expo ← s40 B c.exponentS40
  return [base, expo]

def lnInput (B : Build) (c : LnCase) : Exec (List ℕ) := do
  let x ← s40 B c.xS40
  return [x]

def expInput (B : Build) (c : ExpCase) : Exec (List ℕ) := do
  let t ← s40 B c.negXS40
  let x ← B.ineg 128 (ofBits 128 t)
  return [toBits 128 x]

def outInput (c : OutGivenInCase) : Exec (List ℕ) := do
  let balanceIn ← wei c.balanceIn
  let weightIn ← wei c.weightIn
  let balanceOut ← wei c.balanceOut
  let weightOut ← wei c.weightOut
  let amountIn ← wei c.amountIn
  return [balanceIn, weightIn, balanceOut, weightOut, amountIn]

def inInput (c : InGivenOutCase) : Exec (List ℕ) := do
  let balanceIn ← wei c.balanceIn
  let weightIn ← wei c.weightIn
  let balanceOut ← wei c.balanceOut
  let weightOut ← wei c.weightOut
  let amountOut ← wei c.amountOut
  return [balanceIn, weightIn, balanceOut, weightOut, amountOut]

/-- Operand magnitudes matching the kernel's actual divisions. -/
def divInputs : List (List ℕ) :=
  [[2 ^ 123 + 12345, 2 ^ 63 + 987], [2 ^ 116 + 5, 2 ^ 64 - 59], [2 ^ 126 + 7, 2 ^ 74 + 3],
    [2 ^ 90 + 1, 2 ^ 60 + 1], [2 ^ 50 + 9, 2 ^ 30 + 2], [(2 ^ 128 - 1) / 3, 2 ^ 64]]

/-- The batches, one an operation. -/
def batches (B : Build) (f : Fixtures) : Exec (List (ℕ × List (List ℕ))) := do
  let powInputs ← f.pow.mapM (powInput B)
  let lnInputs ← f.ln.mapM (lnInput B)
  let expInputs ← f.exp.mapM (expInput B)
  let outInputs ← f.outGivenIn.mapM outInput
  let inInputs ← f.inGivenOut.mapM inInput
  let baselineInputs := (List.range 16).map fun i => [i]
  return [(0, lnInputs), (1, expInputs), (2, expInputs), (3, powInputs), (4, powInputs),
    (5, powInputs), (6, outInputs), (7, inInputs), (8, divInputs), (9, baselineInputs)]

/-! ### The main loop -/

/-- How `main` fails. -/
inductive HostError
  | panic (p : Panic)
  | run (e : RunError)
  | parity (mismatches : ℕ)

/-- What the executor reports of a session: the journal, and of each segment the
logarithm of its padded length. -/
structure SessionInfo where
  journal : List ℕ
  segments : List ℕ

structure Batch extends BatchResult where
  totalCycles : ℕ
  segments : ℕ

/-- What proving actually pays: segments are padded to `2^po2`. -/
def totalCycles (P : Profile) (segments : List ℕ) : Exec ℕ :=
  segments.foldlM (fun sum po2 => do
    let cycles ← P.ushl 64 1 po2
    P.uadd 64 sum cycles) 0

/-- `run_guest`, on any executor: from input words to what it reports. -/
def runGuestOn (P : Profile) (execute : List ℕ → Exec SessionInfo) (op : ℕ)
    (cases : List (List ℕ)) : Except HostError Batch :=
  match execute (batchInput op cases) with
  | .error p => .error (.run (.executing p op))
  | .ok info =>
      if info.journal.length ≠ cases.length * 24 then
        .error (.run (.journalLength info.journal.length (cases.length * 24) op))
      else do
        let total ← (totalCycles P info.segments).mapError .panic
        return ⟨decodeJournal info.journal, total, info.segments.length⟩

/-- The guest in the executor, with the cycle counter of its session and the
segments it is cut into. -/
def session (Q : Profile) (clock : ℕ → ℕ) (segments : List ℕ) (input : List ℕ) :
    Exec SessionInfo := do
  let e ← guestMain Q clock input
  return ⟨e.journal, segments⟩

structure CycleStats where
  min : ℕ
  median : ℕ
  max : ℕ

def stats (P : Profile) (cycles : List ℕ) : Exec CycleStats := do
  let sorted := cycles.insertionSort (· ≤ ·)
  let min ← index sorted 0
  let median ← index sorted (sorted.length / 2)
  let last ← P.usub 64 sorted.length 1
  let max ← index sorted last
  return ⟨min, median, max⟩

/-- What `main` has collected. -/
structure Tally where
  mismatches : ℕ
  results : List (ℕ × ℕ × CycleStats)
  baselineMedian : ℕ
  medianCase : List (List ℕ)
  divBench : List (ℕ × ℕ × ℕ)

/-- Before the first batch, with a median case for each of the ten names. -/
def Tally.start : Tally := ⟨0, [], 0, List.replicate 10 [], []⟩

/-- Results of the guest that are not the host's. -/
def countMismatches (P : Profile) (op : ℕ) (pairs : List (List ℕ × ℕ)) (n : ℕ) : Exec ℕ :=
  pairs.foldlM (fun n p => do
    let hostOut ← hostEval P op p.1
    if hostOut ≠ p.2 then P.uadd 64 n 1 else return n) n

/-- A case with the median count, if the counts have one. -/
def recordMedian (inputs : List (List ℕ)) (cycles : List ℕ) (median op : ℕ)
    (medianCase : List (List ℕ)) : Exec (List (List ℕ)) :=
  match cycles.findIdx? (· == median) with
  | none => return medianCase
  | some i => do
      let case ← index inputs i
      if op < medianCase.length then return medianCase.set op case else .error .outOfBounds

/-- The operand widths of a division, with its cycles. -/
def divEntry (P : Profile) (p : List ℕ × ℕ) : Exec (ℕ × ℕ × ℕ) := do
  let a ← index p.1 0
  let n ← P.usub 32 128 (leadingZeros 128 a)
  let b ← index p.1 1
  let d ← P.usub 32 128 (leadingZeros 128 b)
  return (n, d, p.2)

/-- The division microbench, which only its own batch replaces. -/
def divBench (P : Profile) (op : ℕ) (pairs : List (List ℕ × ℕ)) (bench : List (ℕ × ℕ × ℕ)) :
    Exec (List (ℕ × ℕ × ℕ)) :=
  if op = 8 then pairs.mapM (divEntry P) else .ok bench

/-- The body of the main loop after `run_guest`. -/
def tallyBatch (P : Profile) (op : ℕ) (inputs : List (List ℕ)) (batch : Batch) (t : Tally) :
    Exec Tally := do
  let st ← stats P batch.cycles
  let medianCase ← recordMedian inputs batch.cycles st.median op t.medianCase
  let mismatches ← countMismatches P op (inputs.zip batch.outputs) t.mismatches
  let st ← stats P batch.cycles
  let baselineMedian := if op = 9 then st.median else t.baselineMedian
  let bench ← divBench P op (inputs.zip batch.cycles) t.divBench
  return ⟨mismatches, t.results ++ [(op, inputs.length, st)], baselineMedian, medianCase, bench⟩

/-- One turn of the main loop.  `execute k` is the `k`-th session. -/
def runBatch (P : Profile) (execute : ℕ → List ℕ → Exec SessionInfo) (t : Tally)
    (b : ℕ × List (List ℕ)) : Except HostError Tally := do
  let batch ← runGuestOn P (execute t.results.length) b.1 b.2
  (tallyBatch P b.1 b.2 batch t).mapError .panic

/-- A session with the median case of an operation alone. -/
def singleCall (P : Profile) (execute : ℕ → List ℕ → Exec SessionInfo) (t : Tally) (k op : ℕ) :
    Except HostError Unit := do
  let case ← (index t.medianCase op).mapError .panic
  let _ ← runGuestOn P (execute (t.results.length + k)) op [case]
  return ()

/-- `main`, from the parsed fixtures to its exit. -/
def hostMain (P : Profile) (execute : ℕ → List ℕ → Exec SessionInfo) (f : Fixtures) :
    Except HostError Tally := do
  let ops ← (batches (Build.kernel P) f).mapError .panic
  let t ← ops.foldlM (runBatch P execute) Tally.start
  singleCall P execute t 0 3
  singleCall P execute t 1 6
  singleCall P execute t 2 7
  if t.mismatches > 0 then .error (.parity t.mismatches) else return t

/-! ### Statistics -/

theorem index_eq_ok {α : Type} {xs : List α} {i : ℕ} {x : α} (h : index xs i = .ok x) :
    ∃ hi : i < xs.length, x = xs[i] := by
  by_cases hi : i < xs.length
  · rw [index_ok hi] at h
    exact ⟨hi, (Except.ok.inj h).symm⟩
  · rw [index, List.getElem?_eq_none (not_lt.mp hi)] at h
    cases h

/-- **The statistics of a batch**: no count is outside, and the median has at
most half of them below it and at most half above. -/
theorem stats_ok (P : Profile) {cycles : List ℕ} (h : cycles ≠ []) :
    ∃ st, stats P cycles = .ok st ∧ (∀ c ∈ cycles, st.min ≤ c ∧ c ≤ st.max) ∧
      OrderStatistic.IsRank cycles (cycles.length / 2) st.median := by
  have hpos := List.length_pos_of_ne_nil h
  have hlen := List.length_insertionSort (· ≤ ·) cycles
  have h₀ : 0 < (cycles.insertionSort (· ≤ ·)).length := by omega
  have h₁ : cycles.length / 2 < (cycles.insertionSort (· ≤ ·)).length := by omega
  have h₂ : cycles.length - 1 < (cycles.insertionSort (· ≤ ·)).length := by omega
  have hrank : ∀ k (hk : k < (cycles.insertionSort (· ≤ ·)).length),
      OrderStatistic.IsRank cycles k _ := fun k hk =>
    OrderStatistic.rank (List.perm_insertionSort (· ≤ ·) cycles)
      (List.pairwise_insertionSort (· ≤ ·) cycles) hk
  refine ⟨⟨_, _, _⟩, ?_, fun c hc => ⟨(hrank 0 h₀).le hc, (hrank _ h₂).ge hc⟩, hrank _ h₁⟩
  unfold stats
  dsimp only
  rw [hlen, index_ok h₀, ok_bind, index_ok h₁, ok_bind, Profile.usub_ok hpos, ok_bind, index_ok h₂,
    ok_bind, pure_eq_ok]

theorem stats_ne_nil {P : Profile} {cycles : List ℕ} {st : CycleStats}
    (h : stats P cycles = .ok st) : cycles ≠ [] := by
  rintro rfl
  obtain ⟨_, h₀, -⟩ := bind_eq_ok.mp h
  obtain ⟨hlt, -⟩ := index_eq_ok h₀
  simp at hlt

/-! ### What the runner certifies -/

section Certify

variable {P : Profile} {execute : ℕ → List ℕ → Exec SessionInfo} {op : ℕ}

/-- What a batch session has to do. -/
def Faithful (P : Profile) (execute : List ℕ → Exec SessionInfo) (b : ℕ × List (List ℕ)) : Prop :=
  ∃ r, runGuestOn P execute b.1 b.2 = .ok r ∧ r.outputs.map Except.ok = b.2.map (hostEval P b.1)

theorem mapError_eq_ok {ε δ α : Type} {f : ε → δ} {x : Except ε α} {a : α} :
    x.mapError f = .ok a ↔ x = .ok a := by
  cases x with
  | error e => simp [Except.mapError]
  | ok b => simp [Except.mapError]

theorem host_bind_eq_ok {α β : Type} {x : Except HostError α} {f : α → Except HostError β} {b : β} :
    x >>= f = .ok b ↔ ∃ a, x = .ok a ∧ f a = .ok b := by
  cases x with
  | error e => exact ⟨fun h => (by cases h), fun ⟨_, h, _⟩ => by cases h⟩
  | ok a => exact ⟨fun h => ⟨a, rfl, h⟩, fun ⟨_, ha, h⟩ => by cases ha; exact h⟩

/-- A session that `run_guest` accepts. -/
theorem runGuestOn_eq_ok {execute : List ℕ → Exec SessionInfo} {cases : List (List ℕ)} {r : Batch} :
    runGuestOn P execute op cases = .ok r ↔
      ∃ info total, execute (batchInput op cases) = .ok info ∧
        info.journal.length = cases.length * 24 ∧ totalCycles P info.segments = .ok total ∧
        r = ⟨decodeJournal info.journal, total, info.segments.length⟩ := by
  unfold runGuestOn
  constructor
  · intro h
    split at h
    · cases h
    · next info hinfo =>
        split_ifs at h with hlen
        obtain ⟨total, htotal, h⟩ := host_bind_eq_ok.mp h
        cases h
        exact ⟨info, total, hinfo, not_not.mp hlen, mapError_eq_ok.mp htotal, rfl⟩
  · rintro ⟨info, total, hinfo, hlen, htotal, rfl⟩
    rw [hinfo]
    dsimp only
    rw [if_neg (not_not.mpr hlen)]
    exact host_bind_eq_ok.mpr ⟨total, mapError_eq_ok.mpr htotal, rfl⟩

/-- A journal of the right length is a record a case. -/
theorem runGuestOn_length {execute : List ℕ → Exec SessionInfo} {cases : List (List ℕ)} {r : Batch}
    (h : runGuestOn P execute op cases = .ok r) :
    r.outputs.length = cases.length ∧ r.cycles.length = cases.length := by
  obtain ⟨info, total, -, hlen, -, rfl⟩ := runGuestOn_eq_ok.mp h
  have hdiv : info.journal.length / 24 = cases.length := by omega
  constructor <;> simp [decodeJournal, chunksExact, hdiv]

/-- The count never falls, and where it stays the results agree. -/
theorem countMismatches_eq_ok (hP : P.overflowChecks = true) {pairs : List (List ℕ × ℕ)} {n m : ℕ}
    (h : countMismatches P op pairs n = .ok m) :
    n ≤ m ∧ (m = n → ∀ p ∈ pairs, hostEval P op p.1 = .ok p.2) := by
  induction pairs generalizing n with
  | nil =>
      cases h
      exact ⟨le_rfl, fun _ p hp => absurd hp List.not_mem_nil⟩
  | cons p pairs ih =>
      unfold countMismatches at h
      rw [List.foldlM_cons] at h
      obtain ⟨n', hn', hrest⟩ := bind_eq_ok.mp h
      obtain ⟨out, hout, hn'⟩ := bind_eq_ok.mp hn'
      obtain ⟨hle, hall⟩ := ih hrest
      split_ifs at hn' with hne
      · obtain ⟨-, rfl⟩ := (Profile.settleU_eq_ok hP).mp hn'
        exact ⟨by omega, fun e => by omega⟩
      · cases hn'
        refine ⟨hle, fun e => List.forall_mem_cons.mpr ⟨?_, hall e⟩⟩
        rw [hout, not_not.mp hne]

/-- Results that agree pair by pair agree as lists. -/
theorem map_ok_eq {inputs : List (List ℕ)} {outputs : List ℕ}
    (hlen : outputs.length = inputs.length)
    (h : ∀ p ∈ inputs.zip outputs, hostEval P op p.1 = .ok p.2) :
    outputs.map Except.ok = inputs.map (hostEval P op) := by
  have hall : List.Forall₂ (fun xs v => Except.ok v = hostEval P op xs) inputs outputs :=
    List.forall₂_iff_zip.mpr ⟨hlen.symm, fun hp => (h _ hp).symm⟩
  induction hall with
  | nil => rfl
  | cons hx _ ih =>
      rw [List.map_cons, List.map_cons, hx, ih]
      · simpa using hlen
      · intro p hp
        exact h p (List.mem_cons_of_mem _ hp)

/-- One turn of the loop. -/
theorem runBatch_eq_ok (hP : P.overflowChecks = true) {t t' : Tally} {b : ℕ × List (List ℕ)}
    (h : runBatch P execute t b = .ok t') :
    t'.results.length = t.results.length + 1 ∧ b.2 ≠ [] ∧ t.mismatches ≤ t'.mismatches ∧
      (t'.mismatches = t.mismatches → Faithful P (execute t.results.length) b) := by
  obtain ⟨r, hr, h⟩ := host_bind_eq_ok.mp h
  rw [mapError_eq_ok] at h
  obtain ⟨houts, hcycles⟩ := runGuestOn_length hr
  obtain ⟨st, hst, h⟩ := bind_eq_ok.mp h
  obtain ⟨_, -, h⟩ := bind_eq_ok.mp h
  obtain ⟨m, hm, h⟩ := bind_eq_ok.mp h
  obtain ⟨_, -, h⟩ := bind_eq_ok.mp h
  obtain ⟨_, -, h⟩ := bind_eq_ok.mp h
  cases h
  obtain ⟨hle, hall⟩ := countMismatches_eq_ok hP hm
  refine ⟨by simp, ?_, hle, fun e => ⟨r, hr, map_ok_eq houts (hall e)⟩⟩
  intro hnil
  exact stats_ne_nil hst (List.eq_nil_of_length_eq_zero (by rw [hcycles, hnil]; rfl))

/-- The whole loop, by induction on the batches. -/
theorem runBatches_eq_ok (hP : P.overflowChecks = true) {ops : List (ℕ × List (List ℕ))}
    {t t' : Tally} (h : ops.foldlM (runBatch P execute) t = .ok t') :
    (∀ b ∈ ops, b.2 ≠ []) ∧ t.mismatches ≤ t'.mismatches ∧
      (t'.mismatches = t.mismatches →
        ∀ k b, ops[k]? = some b → Faithful P (execute (t.results.length + k)) b) := by
  induction ops generalizing t with
  | nil =>
      cases h
      exact ⟨by simp, le_rfl, fun _ k b hb => by simp at hb⟩
  | cons b ops ih =>
      rw [List.foldlM_cons] at h
      obtain ⟨t₁, h₁, hrest⟩ := host_bind_eq_ok.mp h
      obtain ⟨hlen, hne, hle, hfaith⟩ := runBatch_eq_ok hP h₁
      obtain ⟨hnes, hles, hfaiths⟩ := ih hrest
      refine ⟨List.forall_mem_cons.mpr ⟨hne, hnes⟩, hle.trans hles, ?_⟩
      intro e k c hc
      cases k with
      | zero =>
          cases hc
          exact hfaith (by omega)
      | succ k =>
          have := hfaiths (by omega) k c hc
          rwa [hlen, Nat.add_assoc, Nat.add_comm 1 k] at this

/-- A run of `main` that succeeds. -/
theorem hostMain_eq_ok (hP : P.overflowChecks = true) {f : Fixtures} {t : Tally}
    (h : hostMain P execute f = .ok t) :
    ∃ ops, batches (Build.kernel P) f = .ok ops ∧ (∀ b ∈ ops, b.2 ≠ []) ∧
      ∀ k b, ops[k]? = some b → Faithful P (execute k) b := by
  obtain ⟨ops, hops, h⟩ := host_bind_eq_ok.mp h
  obtain ⟨t₁, hloop, h⟩ := host_bind_eq_ok.mp h
  obtain ⟨_, -, h⟩ := host_bind_eq_ok.mp h
  obtain ⟨_, -, h⟩ := host_bind_eq_ok.mp h
  obtain ⟨_, -, h⟩ := host_bind_eq_ok.mp h
  obtain ⟨hne, -, hfaith⟩ := runBatches_eq_ok hP hloop
  split_ifs at h with hm
  refine ⟨ops, mapError_eq_ok.mp hops, hne, ?_⟩
  intro k b hb
  have := hfaith (Nat.eq_zero_of_not_pos hm) k b hb
  rwa [show Tally.start.results.length + k = k from Nat.zero_add k] at this

/-- What a faithful session has left in its journal. -/
theorem Faithful.journal {execute : List ℕ → Exec SessionInfo} {cases : List (List ℕ)}
    (h : Faithful P execute (op, cases)) :
    ∃ info, execute (batchInput op cases) = .ok info ∧
      info.journal.length = cases.length * 24 ∧
      ∀ i (hi : i < cases.length), hostEval P op cases[i]
        = .ok (Nat.ofDigits 256 ((info.journal.drop (i * 24)).take 16)) := by
  obtain ⟨r, hr, houts⟩ := h
  obtain ⟨info, total, hinfo, hlen, -, rfl⟩ := runGuestOn_eq_ok.mp hr
  refine ⟨info, hinfo, hlen, ?_⟩
  intro i hi
  have hdiv : i < info.journal.length / 24 := by
    dsimp only at hlen
    omega
  have hentry := congrArg (·[i]?) houts
  dsimp only [decodeJournal, chunksExact] at hentry
  rw [List.map_map, List.map_map, List.getElem?_map, List.getElem?_map,
    List.getElem?_range hdiv, List.getElem?_eq_getElem hi] at hentry
  have hvalue := Option.some.inj hentry
  simp only [Function.comp_apply, List.take_take] at hvalue
  exact hvalue.symm

/-- **If the runner succeeds the guest is the same function.**  Whatever ran in
the executor: in every batch session the journal had 24 bytes a case, and the
first 16 bytes of each record are the host's own result for that case; and no
batch was empty. -/
theorem hostMain_certifies (hP : P.overflowChecks = true) {f : Fixtures} {t : Tally}
    (h : hostMain P execute f = .ok t) :
    ∃ ops, batches (Build.kernel P) f = .ok ops ∧
      ∀ k op cases, ops[k]? = some (op, cases) → cases ≠ [] ∧
        ∃ info, execute k (batchInput op cases) = .ok info ∧
          info.journal.length = cases.length * 24 ∧
          ∀ i (hi : i < cases.length), hostEval P op cases[i]
            = .ok (Nat.ofDigits 256 ((info.journal.drop (i * 24)).take 16)) := by
  obtain ⟨ops, hops, hne, hfaith⟩ := hostMain_eq_ok hP h
  refine ⟨ops, hops, ?_⟩
  intro k op cases hk
  exact ⟨hne _ (List.mem_of_getElem? hk), (hfaith k _ hk).journal⟩

end Certify

/-- A case of each kind. -/
def sampleFixtures : Fixtures where
  pow := [⟨"549755813888", "1099511627776"⟩]
  ln := [⟨"549755813888"⟩]
  exp := [⟨"1099511627776"⟩]
  outGivenIn := [⟨"1000", "100", "1000", "1", "1"⟩]
  inGivenOut := [⟨"1000", "100", "1000", "1", "1"⟩]

theorem exists_ok_of_isSome {ε α : Type} {x : Except ε α} (h : x.toOption.isSome = true) :
    ∃ a, x = .ok a := by
  cases x with
  | error e => cases h
  | ok a => exact ⟨a, rfl⟩

/-- A guest without overflow checks, certified by a host that has them. -/
theorem hostMain_certifies_sample :
    ∃ ops, batches (Build.kernel Profile.checked) sampleFixtures = .ok ops ∧
      ∀ (k op : ℕ) (cases : List (List ℕ)), ops[k]? = some (op, cases) → cases ≠ [] ∧
        ∃ info, session Profile.wrapping id [20, 13] (batchInput op cases) = .ok info ∧
          info.journal.length = cases.length * 24 ∧
          ∀ i (hi : i < cases.length), hostEval Profile.checked op cases[i]
            = .ok (Nat.ofDigits 256 ((info.journal.drop (i * 24)).take 16)) := by
  obtain ⟨t, ht⟩ : ∃ t, hostMain Profile.checked (fun _ => session Profile.wrapping id [20, 13])
      sampleFixtures = .ok t := exists_ok_of_isSome (by decide +kernel)
  exact hostMain_certifies rfl ht

/-! ### The real guest -/

/-- An input with as many arguments as its operation takes, on which the host's
call returns. -/
structure Callable (P : Profile) (op : ℕ) (xs : List ℕ) : Prop where
  words_eq : wordsFor op = .ok (xs.length * 4)
  lt : ∀ v ∈ xs, v < 2 ^ 128
  returns : ∃ v, hostEval P op xs = .ok v

section Guest

variable {P Q : Profile}

/-- The padded lengths of the segments add up to a `u64`. -/
def SegmentsFit (segments : List ℕ) : Prop := (segments.map fun po2 => 2 ^ po2).sum < 2 ^ 64

/-- Then each shift is in range, and so is the sum. -/
theorem totalCycles_ok {segments : List ℕ} (h : SegmentsFit segments) :
    totalCycles P segments = .ok (segments.map fun po2 => 2 ^ po2).sum := by
  have hloop : ∀ n, n + (segments.map fun po2 => 2 ^ po2).sum < 2 ^ 64 →
      segments.foldlM (fun sum po2 => do
        let cycles ← P.ushl 64 1 po2
        P.uadd 64 sum cycles) n = .ok (n + (segments.map fun po2 => 2 ^ po2).sum) := by
    clear h
    induction segments with
    | nil =>
        intro n _
        rfl
    | cons po2 segments ih =>
        intro n hn
        rw [List.map_cons, List.sum_cons, ← Nat.add_assoc] at hn ⊢
        have hpo2 : po2 < 64 := by
          refine (Nat.pow_lt_pow_iff_right (show 1 < 2 by norm_num)).mp ?_
          exact (Nat.le_add_left _ n).trans_lt ((Nat.le_add_right _ _).trans_lt hn)
        rw [List.foldlM_cons, Profile.ushl_one_ok hpo2, ok_bind,
          Profile.uadd_ok ((Nat.le_add_right _ _).trans_lt hn), ok_bind]
        exact ih _ hn
  have h₀ := hloop 0 (by rw [Nat.zero_add]; exact h)
  rwa [Nat.zero_add] at h₀

/-- **A session of the guest is faithful.** -/
theorem session_faithful {clock : ℕ → ℕ} {segments : List ℕ} (hP : P.overflowChecks = true)
    (hclock : ∀ i, clock i < 2 ^ 64)
    (hmono : Q.overflowChecks = true → ∀ i, clock (2 * i) ≤ clock (2 * i + 1))
    (hsegments : SegmentsFit segments) {b : ℕ × List (List ℕ)} (hop : b.1 ≤ 9)
    (hlen : b.2.length < 2 ^ 32) (hb : ∀ xs ∈ b.2, Callable P b.1 xs) :
    Faithful P (session Q clock segments) b := by
  obtain ⟨journal, reads, hmain, hjournal, houts⟩ :=
    guestMain_ok hP hclock hmono hop hlen (fun xs hx => ⟨(hb xs hx).words_eq, (hb xs hx).lt⟩)
      fun xs hx => (hb xs hx).returns
  have hsession : session Q clock segments (batchInput b.1 b.2) = .ok ⟨journal, segments⟩ := by
    rw [session, hmain, ok_bind, pure_eq_ok]
  exact ⟨_, runGuestOn_eq_ok.mpr ⟨_, _, hsession, hjournal, totalCycles_ok hsegments, rfl⟩, houts⟩

/-! ### The loop goes through -/

theorem countMismatches_ok {op : ℕ} {pairs : List (List ℕ × ℕ)}
    (h : ∀ p ∈ pairs, hostEval P op p.1 = .ok p.2) (n : ℕ) :
    countMismatches P op pairs n = .ok n := by
  induction pairs with
  | nil => rfl
  | cons p pairs ih =>
      obtain ⟨hp, hps⟩ := List.forall_mem_cons.mp h
      unfold countMismatches at ih ⊢
      rw [List.foldlM_cons, hp, ok_bind, if_neg (not_not.mpr rfl), pure_eq_ok, ok_bind]
      exact ih hps

/-- A count of the batch has a case. -/
theorem recordMedian_ok {inputs medianCase : List (List ℕ)} {cycles : List ℕ} {median op : ℕ}
    (hlen : cycles.length = inputs.length) (hm : median ∈ cycles) (hop : op < medianCase.length) :
    ∃ case ∈ inputs, recordMedian inputs cycles median op medianCase
      = .ok (medianCase.set op case) := by
  unfold recordMedian
  have hsome : (cycles.findIdx? (· == median)).isSome := by
    rw [List.findIdx?_isSome, List.any_eq_true]
    exact ⟨median, hm, beq_self_eq_true median⟩
  obtain ⟨i, hi⟩ := Option.isSome_iff_exists.mp hsome
  have hlt : i < inputs.length := by
    rw [← hlen]
    exact (List.findIdx?_eq_some_iff_findIdx_eq.mp hi).1
  refine ⟨inputs[i], List.getElem_mem hlt, ?_⟩
  rw [hi]
  dsimp only
  rw [index_ok hlt, ok_bind, if_pos hop, pure_eq_ok]

theorem leadingZeros_le (w n : ℕ) : leadingZeros w n ≤ w := by
  unfold leadingZeros
  split_ifs <;> omega

/-- The microbench has two operands a case. -/
theorem divBench_ok {op : ℕ} {pairs : List (List ℕ × ℕ)}
    (h : ∀ p ∈ pairs, wordsFor op = .ok (p.1.length * 4)) (bench : List (ℕ × ℕ × ℕ)) :
    ∃ bench', divBench P op pairs bench = .ok bench' := by
  unfold divBench
  split_ifs with hop
  · subst hop
    refine ⟨pairs.map fun p => (128 - leadingZeros 128 (p.1.getD 0 0),
      128 - leadingZeros 128 (p.1.getD 1 0), p.2), mapM_eq_ok.mpr ?_⟩
    rw [List.forall₂_map_right_iff, List.forall₂_same]
    intro p hp
    have hlen : 8 = p.1.length * 4 := Except.ok.inj (h p hp)
    have h₀ : 0 < p.1.length := by omega
    have h₁ : 1 < p.1.length := by omega
    unfold divEntry
    rw [index_ok h₀, ok_bind, Profile.usub_ok (leadingZeros_le 128 _), ok_bind, index_ok h₁,
      ok_bind, Profile.usub_ok (leadingZeros_le 128 _), ok_bind, pure_eq_ok,
      List.getD_eq_getElem _ _ h₀, List.getD_eq_getElem _ _ h₁]
  · exact ⟨bench, rfl⟩

/-- One turn of the loop, on a batch that the host can run. -/
theorem runBatch_ok {execute : ℕ → List ℕ → Exec SessionInfo} {t : Tally} {b : ℕ × List (List ℕ)}
    (hfaith : Faithful P (execute t.results.length) b) (hop : b.1 < t.medianCase.length)
    (hne : b.2 ≠ []) (hb : ∀ xs ∈ b.2, Callable P b.1 xs) :
    ∃ t' case, case ∈ b.2 ∧ runBatch P execute t b = .ok t' ∧ t'.mismatches = t.mismatches ∧
      t'.medianCase = t.medianCase.set b.1 case := by
  obtain ⟨r, hr, houts⟩ := hfaith
  obtain ⟨hlen, hcycles⟩ := runGuestOn_length hr
  have hcne : r.cycles ≠ [] := by
    intro hnil
    rw [hnil] at hcycles
    exact hne (List.eq_nil_of_length_eq_zero hcycles.symm)
  obtain ⟨st, hst, -, hmedian⟩ := stats_ok P hcne
  obtain ⟨case, hcase, hrecord⟩ := recordMedian_ok hcycles hmedian.mem hop
  have hpairs : ∀ p ∈ b.2.zip r.outputs, hostEval P b.1 p.1 = .ok p.2 := by
    have hall : List.Forall₂ (fun xs v => hostEval P b.1 xs = .ok v) b.2 r.outputs := by
      rw [← List.forall₂_map_left_iff (f := hostEval P b.1)
        (R := fun x (v : ℕ) => x = Except.ok v), ← houts, List.forall₂_map_left_iff,
        List.forall₂_same]
      exact fun _ _ => rfl
    intro p hp
    exact (List.forall₂_iff_zip.mp hall).2 hp
  have hwords : ∀ p ∈ b.2.zip r.cycles, wordsFor b.1 = .ok (p.1.length * 4) :=
    fun p hp => (hb _ (List.of_mem_zip hp).1).words_eq
  obtain ⟨bench, hbench⟩ := divBench_ok (P := P) hwords t.divBench
  refine ⟨⟨t.mismatches, t.results ++ [(b.1, b.2.length, st)],
    if b.1 = 9 then st.median else t.baselineMedian, t.medianCase.set b.1 case, bench⟩,
    case, hcase, ?_, rfl, rfl⟩
  unfold runBatch
  rw [hr]
  show (tallyBatch P b.1 b.2 r t).mapError HostError.panic = _
  rw [mapError_eq_ok]
  unfold tallyBatch
  rw [hst, ok_bind, hrecord, ok_bind, countMismatches_ok hpairs, ok_bind, ok_bind, hbench, ok_bind,
    pure_eq_ok]

/-- An operation has a case for its single-call session. -/
def Ready (P : Profile) (t : Tally) (op : ℕ) : Prop :=
  ∃ case, t.medianCase[op]? = some case ∧ Callable P op case

/-- Recording another case leaves an operation ready. -/
theorem Ready.set {t t' : Tally} {op op' : ℕ} {case : List ℕ} (h : Ready P t op)
    (hcase : Callable P op' case) (ht' : t'.medianCase = t.medianCase.set op' case) :
    Ready P t' op := by
  obtain ⟨c, hc, hcall⟩ := h
  by_cases heq : op' = op
  · subst heq
    refine ⟨case, ?_, hcase⟩
    rw [ht', List.getElem?_set_self (List.getElem?_eq_some_iff.mp hc).1]
  · refine ⟨c, ?_, hcall⟩
    rw [ht', List.getElem?_set_ne heq, hc]

/-- The whole loop, by induction on the batches: no mismatch is counted, and every
operation that has had its batch is ready. -/
theorem runBatches_ok {execute : ℕ → List ℕ → Exec SessionInfo} {ops : List (ℕ × List (List ℕ))}
    (hfaith : ∀ k, ∀ b ∈ ops, Faithful P (execute k) b) (hne : ∀ b ∈ ops, b.2 ≠ [])
    (hop : ∀ b ∈ ops, b.1 < 10) (hb : ∀ b ∈ ops, ∀ xs ∈ b.2, Callable P b.1 xs) (t : Tally)
    (ht : t.medianCase.length = 10) :
    ∃ t', ops.foldlM (runBatch P execute) t = .ok t' ∧ t'.mismatches = t.mismatches ∧
      (∀ op, Ready P t op → Ready P t' op) ∧ ∀ b ∈ ops, Ready P t' b.1 := by
  induction ops generalizing t with
  | nil => exact ⟨t, rfl, rfl, fun _ h => h, by simp⟩
  | cons b ops ih =>
      obtain ⟨hne₀, hne⟩ := List.forall_mem_cons.mp hne
      obtain ⟨hop₀, hop⟩ := List.forall_mem_cons.mp hop
      obtain ⟨hb₀, hb⟩ := List.forall_mem_cons.mp hb
      obtain ⟨t₁, case, hcase, hturn, hm, hset⟩ := runBatch_ok
        (hfaith t.results.length b List.mem_cons_self) (by omega) hne₀ hb₀
      have ht₁ : t₁.medianCase.length = 10 := by rw [hset, List.length_set, ht]
      obtain ⟨t', hrest, hm', hkeep, hready⟩ :=
        ih (fun k c hc => hfaith k c (List.mem_cons_of_mem b hc)) hne hop hb t₁ ht₁
      have hself : Ready P t₁ b.1 := by
        refine ⟨case, ?_, hb₀ case hcase⟩
        rw [hset, List.getElem?_set_self (by omega)]
      refine ⟨t', ?_, by rw [hm', hm], ?_, ?_⟩
      · rw [List.foldlM_cons, hturn]
        exact hrest
      · intro op h
        exact hkeep op (h.set (hb₀ case hcase) hset)
      · exact List.forall_mem_cons.mpr ⟨hkeep _ hself, hready⟩

theorem singleCall_ok {execute : ℕ → List ℕ → Exec SessionInfo} {t : Tally} {op : ℕ} (k : ℕ)
    (hready : Ready P t op)
    (hfaith : ∀ k case, Callable P op case → Faithful P (execute k) (op, [case])) :
    singleCall P execute t k op = .ok () := by
  obtain ⟨case, hcase, hcall⟩ := hready
  obtain ⟨r, hr, -⟩ := hfaith (t.results.length + k) case hcall
  unfold singleCall index
  rw [hcase]
  show runGuestOn P (execute (t.results.length + k)) op [case] >>= _ = _
  rw [show runGuestOn P (execute (t.results.length + k)) op [case] = .ok r from hr]
  rfl

/-! ### What is read from the fixtures -/

theorem parseDigits_lt {cs : List Char} {n m : ℕ} (hn : n < 2 ^ 128)
    (h : parseDigits cs n = .ok m) : m < 2 ^ 128 := by
  induction cs generalizing n with
  | nil =>
      cases h
      exact hn
  | cons c cs ih =>
      rw [parseDigits] at h
      split_ifs at h with hdigit hfit
      exact ih hfit h

theorem wei_lt (s : String) : Yields (wei s) (· < 2 ^ 128) := by
  intro n h
  unfold wei parsed at h
  split at h
  · next m hm =>
      cases h
      rw [mapError_eq_ok] at hm
      unfold u128FromStr at hm
      split at hm
      · cases hm
      · cases hm
      · cases hm
      · exact parseDigits_lt (by norm_num) hm
      · exact parseDigits_lt (by norm_num) hm
  · cases h

theorem s40_lt (B : Build) (s : String) : Yields (s40 B s) (· < 2 ^ 128) := by
  intro n h
  obtain ⟨_, -, h⟩ := bind_eq_ok.mp h
  obtain ⟨_, -, h⟩ := bind_eq_ok.mp h
  obtain ⟨z, -, h⟩ := bind_eq_ok.mp h
  cases h
  exact toBits_lt 128 z

/-- `k` arguments, each a word. -/
structure Args (k : ℕ) (xs : List ℕ) : Prop where
  length_eq : xs.length = k
  lt : ∀ v ∈ xs, v < 2 ^ 128

theorem Args.nil : Args 0 [] := ⟨rfl, by simp⟩

theorem Args.cons {k v : ℕ} {xs : List ℕ} (hv : v < 2 ^ 128) (h : Args k xs) :
    Args (k + 1) (v :: xs) :=
  ⟨congrArg Nat.succ h.length_eq, List.forall_mem_cons.mpr ⟨hv, h.lt⟩⟩

theorem powInput_args (B : Build) (c : PowCase) : Yields (powInput B c) (Args 2) :=
  .bind fun _ hx => .bind fun _ hy =>
    .ok (.cons (s40_lt B _ _ hx) (.cons (s40_lt B _ _ hy) .nil))

theorem lnInput_args (B : Build) (c : LnCase) : Yields (lnInput B c) (Args 1) :=
  .bind fun _ hx => .ok (.cons (s40_lt B _ _ hx) .nil)

theorem expInput_args (B : Build) (c : ExpCase) : Yields (expInput B c) (Args 1) :=
  .bind fun _ _ => .bind fun _ _ => .ok (.cons (toBits_lt 128 _) .nil)

theorem outInput_args (c : OutGivenInCase) : Yields (outInput c) (Args 5) :=
  .bind fun _ h₁ => .bind fun _ h₂ => .bind fun _ h₃ => .bind fun _ h₄ => .bind fun _ h₅ =>
    .ok (.cons (wei_lt _ _ h₁) (.cons (wei_lt _ _ h₂) (.cons (wei_lt _ _ h₃)
      (.cons (wei_lt _ _ h₄) (.cons (wei_lt _ _ h₅) .nil)))))

theorem inInput_args (c : InGivenOutCase) : Yields (inInput c) (Args 5) :=
  .bind fun _ h₁ => .bind fun _ h₂ => .bind fun _ h₃ => .bind fun _ h₄ => .bind fun _ h₅ =>
    .ok (.cons (wei_lt _ _ h₁) (.cons (wei_lt _ _ h₂) (.cons (wei_lt _ _ h₃)
      (.cons (wei_lt _ _ h₄) (.cons (wei_lt _ _ h₅) .nil)))))

theorem mapM_args {α : Type} {g : α → Exec (List ℕ)} {k : ℕ} (hg : ∀ x, Yields (g x) (Args k))
    {xs : List α} {ys : List (List ℕ)} (h : xs.mapM g = .ok ys) : ∀ y ∈ ys, Args k y := by
  have hall := mapM_eq_ok.mp h
  clear h
  induction hall with
  | nil => simp
  | cons hx _ ih => exact List.forall_mem_cons.mpr ⟨hg _ _ hx, ih⟩

/-- What the guest expects of a batch. -/
def WellFormed (b : ℕ × List (List ℕ)) : Prop :=
  b.1 < 10 ∧ ∀ xs ∈ b.2, wordsFor b.1 = .ok (xs.length * 4) ∧ ∀ v ∈ xs, v < 2 ^ 128

theorem wellFormed_of_args {op k : ℕ} {cases : List (List ℕ)} (hop : op < 10)
    (hwords : wordsFor op = .ok (k * 4)) (h : ∀ xs ∈ cases, Args k xs) :
    WellFormed (op, cases) := by
  refine ⟨hop, ?_⟩
  intro xs hx
  exact ⟨by rw [hwords, (h xs hx).length_eq], (h xs hx).lt⟩

theorem divInputs_args : ∀ xs ∈ divInputs, Args 2 xs := by
  have hlen : ∀ xs ∈ divInputs, xs.length = 2 := by decide
  have hlt : ∀ xs ∈ divInputs, ∀ v ∈ xs, v < 2 ^ 128 := by decide
  intro xs hx
  exact ⟨hlen xs hx, hlt xs hx⟩

/-- **Every batch has the shape that the guest expects**, and the three
operations of the single-call sessions have one. -/
theorem batches_wellFormed {f : Fixtures} {ops : List (ℕ × List (List ℕ))}
    (h : batches (Build.kernel P) f = .ok ops) :
    (∀ b ∈ ops, WellFormed b) ∧
      ∀ op ∈ [3, 6, 7], ∃ cases, (op, cases) ∈ ops := by
  obtain ⟨powInputs, h₁, h⟩ := bind_eq_ok.mp h
  obtain ⟨lnInputs, h₂, h⟩ := bind_eq_ok.mp h
  obtain ⟨expInputs, h₃, h⟩ := bind_eq_ok.mp h
  obtain ⟨outInputs, h₄, h⟩ := bind_eq_ok.mp h
  obtain ⟨inInputs, h₅, h⟩ := bind_eq_ok.mp h
  cases h
  have hpow := mapM_args (powInput_args _) h₁
  have hln := mapM_args (lnInput_args _) h₂
  have hexp := mapM_args (expInput_args _) h₃
  have hout := mapM_args outInput_args h₄
  have hin := mapM_args inInput_args h₅
  have hbase : ∀ xs ∈ (List.range 16).map fun i => [i], Args 1 xs := by
    intro xs hx
    obtain ⟨i, hi, rfl⟩ := List.mem_map.mp hx
    exact .cons ((List.mem_range.mp hi).trans (by norm_num)) .nil
  constructor
  · simp only [List.forall_mem_cons]
    refine ⟨wellFormed_of_args (by decide) rfl hln, wellFormed_of_args (by decide) rfl hexp,
      wellFormed_of_args (by decide) rfl hexp, wellFormed_of_args (by decide) rfl hpow,
      wellFormed_of_args (by decide) rfl hpow, wellFormed_of_args (by decide) rfl hpow,
      wellFormed_of_args (by decide) rfl hout, wellFormed_of_args (by decide) rfl hin,
      wellFormed_of_args (by decide) rfl divInputs_args, wellFormed_of_args (by decide) rfl hbase,
      by simp⟩
  · intro op hop
    simp only [List.mem_cons, List.not_mem_nil, or_false] at hop
    rcases hop with rfl | rfl | rfl
    · exact ⟨powInputs, by simp⟩
    · exact ⟨outInputs, by simp⟩
    · exact ⟨inInputs, by simp⟩

/-- Fixture files of fewer than `2^32` cases, which the header of an input can
count. -/
structure Fixtures.Short (f : Fixtures) : Prop where
  pow : f.pow.length < 2 ^ 32
  ln : f.ln.length < 2 ^ 32
  exp : f.exp.length < 2 ^ 32
  outGivenIn : f.outGivenIn.length < 2 ^ 32
  inGivenOut : f.inGivenOut.length < 2 ^ 32

theorem batches_length {f : Fixtures} (hf : f.Short) {ops : List (ℕ × List (List ℕ))}
    (h : batches (Build.kernel P) f = .ok ops) : ∀ b ∈ ops, b.2.length < 2 ^ 32 := by
  obtain ⟨powInputs, h₁, h⟩ := bind_eq_ok.mp h
  obtain ⟨lnInputs, h₂, h⟩ := bind_eq_ok.mp h
  obtain ⟨expInputs, h₃, h⟩ := bind_eq_ok.mp h
  obtain ⟨outInputs, h₄, h⟩ := bind_eq_ok.mp h
  obtain ⟨inInputs, h₅, h⟩ := bind_eq_ok.mp h
  cases h
  have hpow := (mapM_eq_ok.mp h₁).length_eq ▸ hf.pow
  have hln := (mapM_eq_ok.mp h₂).length_eq ▸ hf.ln
  have hexp := (mapM_eq_ok.mp h₃).length_eq ▸ hf.exp
  have hout := (mapM_eq_ok.mp h₄).length_eq ▸ hf.outGivenIn
  have hin := (mapM_eq_ok.mp h₅).length_eq ▸ hf.inGivenOut
  simp only [List.forall_mem_cons]
  exact ⟨hln, hexp, hexp, hpow, hpow, hpow, hout, hin, by decide, by decide, by simp⟩

/-- **When the runner succeeds.**  With the real guest in the executor, in any
build and with any readings of its cycle counters that are words, and of which a
checked guest sees no second one below the first, and with segments whose padded
lengths add up to a word: `main` returns exactly if the fixtures are read, no
batch is empty and the host's own calls return, and then without a mismatch. -/
theorem hostMain_ok_iff {clock : ℕ → ℕ → ℕ} {segments : ℕ → List ℕ} (hP : P.overflowChecks = true)
    (hclock : ∀ k i, clock k i < 2 ^ 64)
    (hmono : Q.overflowChecks = true → ∀ k i, clock k (2 * i) ≤ clock k (2 * i + 1))
    (hsegments : ∀ k, SegmentsFit (segments k)) {f : Fixtures} (hf : f.Short) :
    (∃ t, hostMain P (fun k => session Q (clock k) (segments k)) f = .ok t ∧ t.mismatches = 0) ↔
      ∃ ops, batches (Build.kernel P) f = .ok ops ∧
        ∀ b ∈ ops, b.2 ≠ [] ∧ ∀ xs ∈ b.2, ∃ v, hostEval P b.1 xs = .ok v := by
  constructor
  · -- where no mismatch is counted, each result of the guest is one of the host
    rintro ⟨t, ht, -⟩
    obtain ⟨ops, hops, hne, hfaith⟩ := hostMain_eq_ok hP ht
    refine ⟨ops, hops, ?_⟩
    intro b hb
    refine ⟨hne b hb, ?_⟩
    intro xs hx
    obtain ⟨k, hk, rfl⟩ := List.getElem_of_mem hb
    obtain ⟨r, -, houts⟩ := hfaith k _ (List.getElem?_eq_getElem hk)
    have hmem := List.mem_map_of_mem (f := hostEval P ops[k].1) hx
    rw [← houts] at hmem
    obtain ⟨v, -, hv⟩ := List.mem_map.mp hmem
    exact ⟨v, hv.symm⟩
  · -- the batches one by one, and then the three median cases
    rintro ⟨ops, hops, h⟩
    obtain ⟨hwf, hsingle⟩ := batches_wellFormed hops
    have hlen := batches_length hf hops
    have hcall : ∀ b ∈ ops, ∀ xs ∈ b.2, Callable P b.1 xs := by
      intro b hb xs hx
      exact ⟨((hwf b hb).2 xs hx).1, ((hwf b hb).2 xs hx).2, (h b hb).2 xs hx⟩
    have hfaith : ∀ k, ∀ b ∈ ops, Faithful P (session Q (clock k) (segments k)) b := by
      intro k b hb
      exact session_faithful hP (hclock k) (fun hQ => hmono hQ k) (hsegments k)
        (Nat.le_of_lt_succ (hwf b hb).1) (hlen b hb) (hcall b hb)
    have hone : ∀ op < 10, ∀ k case, Callable P op case →
        Faithful P (session Q (clock k) (segments k)) (op, [case]) := by
      intro op hop k case hcase
      refine session_faithful hP (hclock k) (fun hQ => hmono hQ k) (hsegments k)
        (Nat.le_of_lt_succ hop) (by norm_num) ?_
      intro xs hx
      obtain rfl := List.mem_singleton.mp hx
      exact hcase
    obtain ⟨t, hloop, hm, -, hready⟩ := runBatches_ok hfaith (fun b hb => (h b hb).1)
      (fun b hb => (hwf b hb).1) hcall Tally.start rfl
    have hsession : ∀ k, ∀ op ∈ [3, 6, 7],
        singleCall P (fun k => session Q (clock k) (segments k)) t k op = .ok () := by
      intro k op hop
      obtain ⟨cases, hcases⟩ := hsingle op hop
      exact singleCall_ok k (hready _ hcases) (hone op (hwf _ hcases).1)
    refine ⟨t, ?_, hm⟩
    unfold hostMain
    rw [hops]
    show (ops.foldlM (runBatch P fun k => session Q (clock k) (segments k)) Tally.start >>= _) = _
    rw [hloop]
    show (singleCall _ _ t 0 3 >>= _) = _
    rw [hsession 0 3 (by decide)]
    show (singleCall _ _ t 1 6 >>= _) = _
    rw [hsession 1 6 (by decide)]
    show (singleCall _ _ t 2 7 >>= _) = _
    rw [hsession 2 7 (by decide)]
    show (if t.mismatches > 0 then _ else _) = _
    rw [if_neg (by rw [hm]; exact lt_irrefl 0)]
    rfl

end Guest

/-- A counter that counts its own readings, and a session of two segments. -/
theorem hostMain_ok_iff_sample :
    ∃ t, hostMain Profile.checked
      (fun _ => session Profile.checked (fun i => min i (2 ^ 64 - 1)) [20, 13])
      sampleFixtures = .ok t ∧ t.mismatches = 0 := by
  obtain ⟨ops, hops⟩ := exists_ok_of_isSome
    (x := batches (Build.kernel Profile.checked) sampleFixtures) (by decide +kernel)
  have hall : ∀ b ∈ (batches (Build.kernel Profile.checked) sampleFixtures).toOption.getD [],
      b.2 ≠ [] ∧ ∀ xs ∈ b.2, (hostEval Profile.checked b.1 xs).toOption.isSome = true := by
    decide +kernel
  rw [hops] at hall
  refine (hostMain_ok_iff rfl (fun _ i => by omega) (fun _ _ i => by omega)
    (fun _ => by norm_num [SegmentsFit])
    ⟨by decide, by decide, by decide, by decide, by decide⟩).mpr ⟨ops, hops, ?_⟩
  intro b hb
  exact ⟨(hall b hb).1, fun xs hx => exists_ok_of_isSome ((hall b hb).2 xs hx)⟩

end Runner

end WeightedMath
