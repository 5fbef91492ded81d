/-
WeightedMath/Monotone.lean

Paying more in never yields less out, and asking for more never costs less.

`exp_inner` is not monotone at single units: its floors fluctuate, and the seam
of the range reduction can step up.  It is monotone over gaps of ten
(`expVal_anti`), and what makes the swap monotone is that its arguments never
come closer than that.  Two neighbouring bases are `2^-52` apart, which moves
the logarithm by at least 1018 units of 62 bits (`lnVal_gap`); the smallest
exponent a pair of weights can produce is a ninety-ninth, and `1018 / 99 > 10`
(`argVal_gap`).

The base falls as the deposit grows, also where the total crosses a power of
two and `ratio_up` starts to shift one bit more (`ratioUpVal_anti`): both sides
of that seam round up to the same multiple, because the numerator is shifted
*after* it was given its bias.  On the other side of the trade the divisor of
the ratio is the reserve itself and never moves, so the quote grows with the
amount asked for by one monotone step after another (`ExactOut.quote_mono`).

Between powers at different exponents no such gap exists, and what is left is
the accuracy of the pipeline: three quarters of an ulp each way, hence one ulp
over integers (`powOut_le_add_one`).
-/
import WeightedMath.ExactIn
import WeightedMath.ExactOut

namespace WeightedMath

open Machine

/-! ### The power along its base -/

section Base

variable {b b' y : ℤ}

/-- Neighbouring bases: a gap of one unit in `x` is at least `1 / x'` in `-ln`. -/
theorem negLog_gap (h₀ : 0 < b) (h : b < b') :
    1 / (b' : ℝ) ≤ negLog 52 b - negLog 52 b' := by
  have hb : (0 : ℝ) < b := by exact_mod_cast h₀
  have hb' : (0 : ℝ) < b' := by exact_mod_cast h₀.trans h
  have hstep : (b : ℝ) + 1 ≤ b' := by exact_mod_cast h
  have e : negLog 52 b - negLog 52 b' = Real.log (b' / b) := by
    rw [negLog, negLog, Real.log_div hb.ne' (by positivity), Real.log_div hb'.ne' (by positivity),
      Real.log_div hb'.ne' hb.ne']
    ring
  rw [e]
  calc 1 / (b' : ℝ) ≤ 1 - ((b' : ℝ) / b)⁻¹ := by
        rw [inv_div, one_sub_div hb'.ne']
        exact div_le_div_of_nonneg_right (by linarith) hb'.le
    _ ≤ Real.log (b' / b) := Real.one_sub_inv_le_log_of_pos (by positivity)

/-- **`ln_inner` separates neighbouring bases** by a thousand units. -/
theorem lnVal_gap (h₀ : 0 < b) (h : b < b') (h₁ : b' ≤ 2 ^ 52) :
    lnVal 52 b' + 1018 ≤ lnVal 52 b := by
  have hb' : (0 : ℝ) < b' := by exact_mod_cast h₀.trans h
  have hle : (b' : ℝ) ≤ 2 ^ 52 := by exact_mod_cast h₁
  have hgap := negLog_gap h₀ h
  have hlo := (abs_le.mp (abs_lnVal_sub_le (show 52 ≤ 60 by norm_num) h₀ (h.le.trans h₁))).1
  have hhi := (abs_le.mp (abs_lnVal_sub_le (show 52 ≤ 60 by norm_num) (h₀.trans h) h₁)).2
  -- `q`, how far `b'` is below one, bounds its logarithm and scales the gap
  obtain ⟨q, hq⟩ : ∃ q : ℝ, q = 2 ^ 52 / b' := ⟨_, rfl⟩
  have hq₁ : 1 ≤ q := by rw [hq, le_div_iff₀ hb']; linarith
  have hlog : negLog 52 b' ≤ q - 1 := by
    rw [negLog, ← Real.log_inv, inv_div, ← hq]
    exact Real.log_le_sub_one_of_pos (by linarith)
  have hscaled : q ≤ 2 ^ 52 * (negLog 52 b - negLog 52 b') := by
    rw [hq, div_eq_mul_one_div]
    exact mul_le_mul_of_nonneg_left hgap (by positivity)
  have : ((lnVal 52 b' + 1018 : ℤ) : ℝ) ≤ lnVal 52 b := by
    push_cast
    linarith
  exact_mod_cast this

/-- At exponents of a ninety-ninth and up the gap survives the product. -/
theorem argVal_gap (hy : 2 ^ 52 ≤ 99 * (y + 1)) (h₀ : 0 < b) (h : b < b') (h₁ : b' ≤ 2 ^ 52) :
    argVal 52 b' y + 10 ≤ argVal 52 b y := by
  have hln := lnVal_gap h₀ h h₁
  have hy₀ : 0 ≤ y := by omega
  unfold argVal
  rw [← Int.add_mul_ediv_right _ _ (show (2 : ℤ) ^ 52 ≠ 0 by norm_num)]
  refine Int.ediv_le_ediv (by positivity) ?_
  calc y * lnVal 52 b' + 10 * 2 ^ 52 ≤ y * lnVal 52 b' + y * 1018 := by omega
    _ = y * (lnVal 52 b' + 1018) := by ring
    _ ≤ y * lnVal 52 b := mul_le_mul_of_nonneg_left hln hy₀

/-- **The power is monotone in its base**, exactly, at every exponent a swap
can produce. -/
theorem powVal_mono (hy : 2 ^ 52 ≤ 99 * (y + 1)) (h₀ : 0 < b) (h : b ≤ b') (h₁ : b' ≤ 2 ^ 52) :
    powVal 52 b y ≤ powVal 52 b' y := by
  rcases h.eq_or_lt with rfl | hlt
  · exact le_rfl
  · refine expVal_anti ?_ (argVal_gap hy h₀ hlt h₁)
    exact Int.ediv_nonneg
      (mul_nonneg (by omega) (lnVal_nonneg (by norm_num) (h₀.trans hlt) h₁)) (by positivity)

end Base

/-- The exponent of a swap is a ninety-ninth, up to its rounding. -/
theorem Weights.ninety_ninth_le {wi wo : ℕ} (h : Weights wi wo) (S : ℕ) :
    2 ^ S ≤ 99 * (exponentDown S wi wo + 1) := by
  have hlt : wi * 2 ^ S < wo * (exponentDown S wi wo + 1) := Nat.lt_mul_div_succ _ h.out_pos
  refine Nat.le_of_mul_le_mul_left (hlt.le.trans ?_) h.in_pos
  calc wo * (exponentDown S wi wo + 1) ≤ 99 * wi * (exponentDown S wi wo + 1) :=
        Nat.mul_le_mul_right _ h.out_ratio
    _ = wi * (99 * (exponentDown S wi wo + 1)) := by ring

/-- So is the exponent of a purchase, which rounds up. -/
theorem Weights.ninety_ninth_le_up {wi wo : ℕ} (h : Weights wi wo) (S : ℕ) :
    2 ^ S ≤ 99 * exponentUp S wi wo := by
  have hle := le_mul_ceilDiv (wo * 2 ^ S) (show 0 < wi from h.in_pos)
  refine Nat.le_of_mul_le_mul_left (hle.trans ?_) h.out_pos
  calc wi * exponentUp S wi wo ≤ 99 * wo * exponentUp S wi wo :=
        Nat.mul_le_mul_right _ h.in_ratio
    _ = wo * (99 * exponentUp S wi wo) := by ring

/-! ### `pow` in both arguments -/

section Both

variable {b b' y y' : ℤ}

theorem nearest_mono (S : ℕ) {v v' : ℤ} (h : v ≤ v') : nearest S v ≤ nearest S v' :=
  Int.ediv_le_ediv (by positivity) (by omega)

/-- The real power grows with the base and falls with the exponent. -/
theorem PowDomain.truePow_mono {S : ℕ} (h : PowDomain S b y) (h' : PowDomain S b' y')
    (hb : b ≤ b') (hy : y' ≤ y) : truePow S b y ≤ truePow S b' y' := by
  have hbase : (b : ℝ) / 2 ^ S ≤ (b' : ℝ) / 2 ^ S :=
    div_le_div_of_nonneg_right (by exact_mod_cast hb) (by positivity)
  have hexp : (y' : ℝ) / 2 ^ S ≤ (y : ℝ) / 2 ^ S :=
    div_le_div_of_nonneg_right (by exact_mod_cast hy) (by positivity)
  unfold truePow
  calc ((b : ℝ) / 2 ^ S) ^ ((y : ℝ) / 2 ^ S) ≤ ((b : ℝ) / 2 ^ S) ^ ((y' : ℝ) / 2 ^ S) :=
        Real.rpow_le_rpow_of_exponent_ge h.ratio_pos h.ratio_le_one hexp
    _ ≤ ((b' : ℝ) / 2 ^ S) ^ ((y' : ℝ) / 2 ^ S) :=
        Real.rpow_le_rpow h.ratio_pos.le hbase h'.quotient_bounds.1.le

/-- Over any distance a rounded power steps back by at most one ulp. -/
theorem powOut_le_add_one (h : PowDomain 52 b y) (h' : PowDomain 52 b' y') (hb : b ≤ b')
    (hy : y' ≤ y) : powOut 52 b y ≤ powOut 52 b' y' + 1 := by
  have htrue := h.truePow_mono h' hb hy
  have hhi := (abs_le.mp h.abs_powOut_kernel).2
  have hlo := (abs_le.mp h'.abs_powOut_kernel).1
  -- two errors of three quarters are less than two, and both sides are integers
  have hlt : powOut 52 b y < powOut 52 b' y' + 2 := by
    have : (powOut 52 b y : ℝ) < ((powOut 52 b' y' + 2 : ℤ) : ℝ) := by
      push_cast
      linarith
    exact_mod_cast this
  omega

theorem powOut_mono (hy : 2 ^ 52 ≤ 99 * (y + 1)) (h₀ : 0 < b) (h : b ≤ b') (h₁ : b' ≤ 2 ^ 52) :
    powOut 52 b y ≤ powOut 52 b' y :=
  nearest_mono 52 (powVal_mono hy h₀ h h₁)

/-- **`pow`, `pow_down` and `pow_up` are monotone in both arguments**, up to one
ulp; and without that ulp at equal exponents, from a ninety-ninth up.  In every
profile. -/
theorem pow_monotone (P : Profile) (h : PowDomain 52 b y) (h' : PowDomain 52 b' y') (hb : b ≤ b')
    (hy : y' ≤ y) :
    ∀ f ∈ [pow, powDown, powUp], ∃ u v : ℤ,
      f (Build.kernel P) ⟨b⟩ ⟨y⟩ = .ok ⟨u⟩ ∧ f (Build.kernel P) ⟨b'⟩ ⟨y'⟩ = .ok ⟨v⟩ ∧
      u ≤ v + 1 ∧ (y = y' → (Build.kernel P).one.repr / 99 ≤ y → u ≤ v) := by
  have hB : PowDomain (Build.kernel P).scale b y := h
  have hB' : PowDomain (Build.kernel P).scale b' y' := h'
  have hslack := powOut_le_add_one h h' hb hy
  have hexact : y = y' → (2 : ℤ) ^ 52 / 99 ≤ y → powOut 52 b y ≤ powOut 52 b' y' := by
    rintro rfl hfloor
    exact powOut_mono (by omega) h.base_pos hb h'.base_le
  -- the pads of two ulps, and their clamps, keep the order and the slack
  intro f hf
  simp only [List.mem_cons, List.not_mem_nil, or_false] at hf
  rw [Build.one_repr, Build.kernel_scale]
  rcases hf with rfl | rfl | rfl
  · exact ⟨_, _, pow_ok _ hB, pow_ok _ hB', hslack, hexact⟩
  · refine ⟨_, _, powDown_ok _ hB, powDown_ok _ hB', ?_, fun he hfloor => ?_⟩
    · simp only [Build.kernel_scale]
      omega
    · exact max_le_max (sub_le_sub_right (hexact he hfloor) 2) le_rfl
  · refine ⟨_, _, powUp_ok _ hB, powUp_ok _ hB', ?_, fun he hfloor => ?_⟩
    · simp only [Build.kernel_scale]
      omega
    · exact min_le_min (add_le_add_left (hexact he hfloor) 2) le_rfl

/-- `pow_down` across an octave of the base, at the smallest exponent of a
swap. -/
theorem pow_monotone_octave :
    ∃ u v : ℤ, powDown (Build.kernel Profile.debug) ⟨2 ^ 51 - 1⟩ ⟨2 ^ 52 / 99⟩ = .ok ⟨u⟩ ∧
      powDown (Build.kernel Profile.debug) ⟨2 ^ 51⟩ ⟨2 ^ 52 / 99⟩ = .ok ⟨v⟩ ∧ u ≤ v + 1 ∧
      ((2 : ℤ) ^ 52 / 99 = 2 ^ 52 / 99 →
        (Build.kernel Profile.debug).one.repr / 99 ≤ 2 ^ 52 / 99 → u ≤ v) :=
  pow_monotone Profile.debug ⟨by norm_num, by norm_num, by norm_num, by norm_num⟩
    ⟨by norm_num, by norm_num, by norm_num, by norm_num⟩ (by norm_num) le_rfl powDown (by simp)

end Both

/-! ### The base along the deposit -/

section Ratio

variable {S num den den' : ℕ}

theorem excessBits_mono (h₀ : 0 < den) (h : den ≤ den') (h₁ : den' < 2 ^ 128) :
    excessBits S den ≤ excessBits S den' := by
  obtain ⟨-, hle, -⟩ := bitLength_bounds h₀ (h.trans_lt h₁)
  obtain ⟨-, -, hlt⟩ := bitLength_bounds (h₀.trans_le h) h₁
  have := (Nat.pow_lt_pow_iff_right (show 1 < 2 by norm_num)).mp ((hle.trans h).trans_lt hlt)
  unfold excessBits
  omega

theorem ceilDiv_anti (a : ℕ) {d d' : ℕ} (hd : 0 < d) (h : d ≤ d') : a ⌈/⌉ d' ≤ a ⌈/⌉ d := by
  rw [ceilDiv_le_iff_le_mul (hd.trans_le h)]
  exact (le_mul_ceilDiv a hd).trans (Nat.mul_le_mul_right _ h)

/-- On the near side of a seam the quotient has passed the last multiple of
`2^(126 - 2·S)` below the shifted numerator. -/
theorem seam_le_ceilDiv (hS : S ≤ 60) {N n D : ℕ} (hN : N ≤ n) (hn : 0 < n) (hD₀ : 0 < D)
    (hD : D < 2 ^ (126 - S)) : N / 2 ^ (126 - 2 * S) + 1 ≤ (n * 2 ^ S) ⌈/⌉ D := by
  by_contra hlt
  have hle := (ceilDiv_le_iff_le_mul hD₀).mp (Nat.lt_succ_iff.mp (not_le.mp hlt))
  have hpow : 2 ^ (126 - 2 * S) * 2 ^ S = 2 ^ (126 - S) := by rw [← pow_add]; congr 1; omega
  have hdiv := Nat.div_mul_le_self N (2 ^ (126 - 2 * S))
  generalize N / 2 ^ (126 - 2 * S) = j at *
  have hpos : 0 < n * 2 ^ S := Nat.mul_pos hn (Nat.two_pow_pos S)
  have hj : 0 < j := Nat.pos_of_mul_pos_left (hpos.trans_le hle)
  refine absurd hle (not_le.mpr ?_)
  calc D * j < 2 ^ (126 - S) * j := Nat.mul_lt_mul_of_pos_right hD hj
    _ = j * 2 ^ (126 - 2 * S) * 2 ^ S := by rw [← hpow]; ring
    _ ≤ n * 2 ^ S := Nat.mul_le_mul_right _ (hdiv.trans hN)

/-- On the far side it has not passed the next one: the bias is added after the
extra shift. -/
theorem ceilDiv_le_seam (num : ℕ) (hS : S ≤ 60) {e e' D : ℕ} (he : e < e')
    (hD : 2 ^ (125 - S) ≤ D) :
    ((num / 2 ^ e' + 1) * 2 ^ S) ⌈/⌉ D ≤ num / 2 ^ e / 2 ^ (126 - 2 * S) + 1 := by
  have hhalf : num / 2 ^ e' ≤ num / 2 ^ e / 2 := by
    rw [Nat.div_div_eq_div_mul, ← pow_succ]
    exact Nat.div_le_div_left (Nat.pow_le_pow_right two_pos he) (Nat.two_pow_pos _)
  have hpow : 2 ^ (126 - 2 * S) = 2 * 2 ^ (125 - 2 * S) := by rw [← pow_succ']; congr 1; omega
  have hpow' : 2 ^ (125 - 2 * S) * 2 ^ S = 2 ^ (125 - S) := by rw [← pow_add]; congr 1; omega
  have hlt := Nat.lt_mul_div_succ (num / 2 ^ e) (Nat.two_pow_pos (126 - 2 * S))
  rw [ceilDiv_le_iff_le_mul ((Nat.two_pow_pos _).trans_le hD)]
  generalize num / 2 ^ e / 2 ^ (126 - 2 * S) + 1 = j at *
  have hn : num / 2 ^ e' + 1 ≤ 2 ^ (125 - 2 * S) * j := by
    rw [hpow, Nat.mul_assoc] at hlt
    omega
  calc (num / 2 ^ e' + 1) * 2 ^ S ≤ 2 ^ (125 - 2 * S) * j * 2 ^ S := Nat.mul_le_mul_right _ hn
    _ = 2 ^ (125 - S) * j := by rw [← hpow']; ring
    _ ≤ D * j := Nat.mul_le_mul_right _ hD

/-- **The base falls as the total grows**, across every change of the
pre-shift. -/
theorem ratioUpVal_anti (hS : S ≤ 60) (hn : 0 < num) (h : num ≤ den) (h' : den ≤ den')
    (h₁ : den' < 2 ^ 128) : ratioUpVal S num den' ≤ ratioUpVal S num den := by
  have h₀ : 0 < den := by omega
  have h₀' : 0 < den' := by omega
  have hlt := h'.trans_lt h₁
  rcases (excessBits_mono (S := S) h₀ h' h₁).eq_or_lt with heq | hgt
  · -- one and the same shift
    unfold ratioUpVal
    rw [← heq]
    split_ifs with he
    · have hd := (Nat.two_pow_pos _).trans_le (shifted_den_bounds hS h₀ hlt he).1
      exact ceilDiv_anti _ hd (Nat.div_le_div_right h')
    · exact ceilDiv_anti _ h₀ h'
  · -- a larger shift on the far side
    have he' : 0 < excessBits S den' := by omega
    have hfar := ceilDiv_le_seam num hS hgt (shifted_den_bounds hS h₀' h₁ he').1
    rw [ratioUpVal, if_pos he']
    refine hfar.trans ?_
    unfold ratioUpVal
    split_ifs with he
    · obtain ⟨hd₀, hd₁⟩ := shifted_den_bounds hS h₀ hlt he
      exact seam_le_ceilDiv hS (Nat.le_succ _) (Nat.succ_pos _)
        ((Nat.two_pow_pos _).trans_le hd₀) hd₁
    · have hz := Nat.eq_zero_of_not_pos he
      rw [hz, pow_zero, Nat.div_one]
      exact seam_le_ceilDiv hS le_rfl hn h₀ (den_lt_of_excess_zero h₀ hlt hz)

end Ratio

/-! ### The payout along the deposit -/

section Payout

variable {bi wi bo wo a a' : ℕ}

theorem ExactIn.of_le (h : ExactIn bi wi bo wo a') (ha : a ≤ a') : ExactIn bi wi bo wo a :=
  ⟨h.in_pos, h.out_pos, lt_of_le_of_lt (Nat.add_le_add_left ha bi) h.total_lt, h.weights⟩

theorem outFraction_mono (h : ExactIn bi wi bo wo a') (ha : a ≤ a')
    (hbase : ratioUpVal 52 bi (bi + a) < 2 ^ 52) :
    outFraction 52 bi wi wo a ≤ outFraction 52 bi wi wo a' := by
  have hin : 0 < bi := h.in_pos
  have hanti := ratioUpVal_anti (S := 52) (by norm_num) hin (Nat.le_add_right bi a)
    (Nat.add_le_add_left ha bi) h.total_lt
  have hdom' := h.powDomain (S := 52) (by norm_num) (by norm_num) (hanti.trans_lt hbase)
  have hy : (2 : ℤ) ^ 52 ≤ 99 * (exponentDown 52 wi wo + 1) := by
    exact_mod_cast h.weights.ninety_ninth_le 52
  have hpow := powVal_mono hy hdom'.base_pos (Int.ofNat_le.mpr hanti) (by exact_mod_cast hbase.le)
  exact max_le_max (by omega) le_rfl

/-- **Paying more in never yields less out**, without an ulp of slack, in every
profile. -/
theorem payout_monotone (P : Profile) (hbo : bo < 2 ^ 128) (h : ExactIn bi wi bo wo a')
    (ha : a ≤ a') :
    ∃ out out', calcOutGivenIn (Build.kernel P) bi wi bo wo a = .ok out ∧
      calcOutGivenIn (Build.kernel P) bi wi bo wo a' = .ok out' ∧ out ≤ out' := by
  refine ⟨_, _, calcOutGivenIn_ok _ hbo (h.of_le ha), calcOutGivenIn_ok _ hbo h, ?_⟩
  rw [Build.kernel_scale]
  unfold outVal
  by_cases hbase : 2 ^ 52 ≤ ratioUpVal 52 bi (bi + a)
  · rw [if_pos hbase]
    exact Nat.zero_le _
  · have hanti := ratioUpVal_anti (S := 52) (by norm_num) h.in_pos (Nat.le_add_right bi a)
      (Nat.add_le_add_left ha bi) h.total_lt
    rw [if_neg hbase, if_neg (by omega)]
    refine Nat.div_le_div_right (Nat.mul_le_mul_left _ (Int.toNat_le_toNat ?_))
    exact outFraction_mono h ha (not_le.mp hbase)

/-- Across the power of two at which the total starts to be shifted. -/
theorem payout_monotone_seam :
    ∃ out out', calcOutGivenIn (Build.kernel Profile.debug) (2 ^ 73) 1 (2 ^ 100) 99 (2 ^ 73 - 1)
        = .ok out ∧
      calcOutGivenIn (Build.kernel Profile.debug) (2 ^ 73) 1 (2 ^ 100) 99 (2 ^ 73) = .ok out' ∧
      out ≤ out' :=
  payout_monotone Profile.debug (by norm_num)
    ⟨by norm_num, by norm_num, by norm_num, by norm_num, by norm_num, by norm_num, by norm_num,
      by norm_num, by norm_num⟩ (by norm_num)

end Payout

/-! ### The payment along the amount -/

section Payment

variable {S bi wi bo wo o o' : ℕ}

theorem ratioDownVal_mono (S den : ℕ) {n n' : ℕ} (h : n ≤ n') :
    ratioDownVal S n den ≤ ratioDownVal S n' den := by
  unfold ratioDownVal
  split_ifs
  · exact Nat.div_le_div_right (Nat.mul_le_mul_right _ (Nat.div_le_div_right h))
  · exact Nat.div_le_div_right (Nat.mul_le_mul_right _ h)

theorem ExactOut.of_le (h : ExactOut bi wi bo wo o') (ho : o ≤ o') : ExactOut bi wi bo wo o :=
  ⟨h.in_pos, h.out_pos, h.weights, ho.trans h.amount_le⟩

theorem ExactOut.paddedPower_anti (h : ExactOut bi wi bo wo o') (hbo : bo < 2 ^ 128)
    (ho : o ≤ o') : paddedPower 52 wi bo wo o' ≤ paddedPower 52 wi bo wo o := by
  have hdom := (h.of_le ho).powDomain (S := 52) (by norm_num) (by norm_num) hbo
  have hdom' := h.powDomain (S := 52) (by norm_num) (by norm_num) hbo
  have hratio := ratioDownVal_mono 52 bo (Nat.sub_le_sub_left ho bo)
  have hy : (2 : ℤ) ^ 52 ≤ 99 * (exponentUp 52 wi wo + 1) := by
    exact_mod_cast (h.weights.ninety_ninth_le_up 52).trans (Nat.mul_le_mul_left _ (Nat.le_succ _))
  have hpow := powVal_mono hy hdom'.base_pos (Int.ofNat_le.mpr hratio) hdom.base_le
  exact Int.toNat_le_toNat (max_le_max (sub_le_sub_right hpow 512) le_rfl)

/-- The quote `(1 - p) / p` grows as the power falls. -/
theorem ExactOut.quote_mono (h : ExactOut bi wi bo wo o') (hbo : bo < 2 ^ 128) (ho : o ≤ o') :
    quote 52 wi bo wo o ≤ quote 52 wi bo wo o' := by
  have hpos := h.paddedPower_pos hbo
  have hanti := h.paddedPower_anti hbo ho
  unfold quote
  generalize paddedPower 52 wi bo wo o = p at *
  generalize paddedPower 52 wi bo wo o' = p' at *
  calc ((2 ^ 62 - p) * 2 ^ 62) ⌈/⌉ p ≤ ((2 ^ 62 - p) * 2 ^ 62) ⌈/⌉ p' := ceilDiv_anti _ hpos hanti
    _ ≤ ((2 ^ 62 - p') * 2 ^ 62) ⌈/⌉ p' :=
        (gc_mul_ceilDiv hpos).monotone_l (Nat.mul_le_mul_right _ (Nat.sub_le_sub_left hanti _))

/-- **Asking for more never costs less**, and refusals are upward closed: with
overflow checks on, where a call returns so does every call for a smaller
amount, with a payment that is no larger. -/
theorem cost_monotone {P : Profile} {c' : ℕ} (hP : P.overflowChecks = true) (hbi : bi < 2 ^ 128)
    (hbo : bo < 2 ^ 128) (ho : o ≤ o')
    (hc : calcInGivenOut (Build.kernel P) bi wi bo wo o' = .ok c') :
    ∃ c, calcInGivenOut (Build.kernel P) bi wi bo wo o = .ok c ∧ c ≤ c' := by
  have h := calcInGivenOut_envelope hbo hc
  rcases Nat.eq_zero_or_pos o with rfl | hpos
  · exact ⟨0, calcInGivenOut_zero _ hbo (h.of_le ho), Nat.zero_le _⟩
  · obtain ⟨hfit, rfl⟩ := (calcInGivenOut_eq_ok hP hbi hbo h (hpos.trans_le ho)).mp hc
    have hle : (bi * quote 52 wi bo wo o) ⌈/⌉ 2 ^ 62 ≤ (bi * quote 52 wi bo wo o') ⌈/⌉ 2 ^ 62 :=
      (gc_mul_ceilDiv (Nat.two_pow_pos 62)).monotone_l
        (Nat.mul_le_mul_left _ (h.quote_mono hbo ho))
    exact ⟨_, calcInGivenOut_ok P hbi hbo (h.of_le ho) hpos (hle.trans_lt hfit), hle⟩

/-- Two units instead of three. -/
theorem cost_monotone_three :
    ∃ c, calcInGivenOut (Build.kernel Profile.checked) 10 1 10 1 2 = .ok c ∧ c ≤ 5 :=
  cost_monotone (P := Profile.checked) rfl (by norm_num) (by norm_num) (show 2 ≤ 3 by norm_num)
    (show calcInGivenOut (Build.kernel Profile.checked) 10 1 10 1 3 = .ok 5 by decide +kernel)

end Payment

end WeightedMath
