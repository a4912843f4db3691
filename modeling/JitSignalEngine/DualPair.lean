import JitSignalEngine.DualOps

/-!
# Pairs over dual numbers

`rolling_corr` and `rolling_beta` against their recurrences over dual numbers.

* `PairModel` — the rings and sums over dual numbers, of which the three states are views.
* `PairModel.Holds` — the sums are sums over the window of the pairs.
* `PairModel.correlation_agrees`, `PairModel.beta_agrees` — the readouts. That no correlation
  leaves `[-1, 1]`, so that its clamps do nothing, is the Cauchy–Schwarz inequality.
-/

namespace JitSignalEngine

open Fp Widen Exact DualNumber TrivSqZeroExt

variable {K : Type} [Field K] [LinearOrder K] [IsStrictOrderedRing K] [Transcendental K]

/-- A view that sums and products may be taken through. -/
structure RingView {R : Type} [Fp (Exact R)] (g : K[ε] → Exact R) : Prop extends AdditiveView g where
  mul : ∀ x y, Fp.mul (g x) (g y) = g (x * y)

omit [IsStrictOrderedRing K] in
theorem ringView_dual : RingView (K := K) (Exact.val (K := K[ε])) :=
  ⟨additiveView_dual, fun _ _ => rfl⟩

omit [IsStrictOrderedRing K] in
theorem ringView_value : RingView fun x : K[ε] => Exact.val x.fst :=
  ⟨additiveView_value, fun _ _ => rfl⟩

/-! ## Rings and sums -/

/-- The rings and sums over dual numbers. -/
structure PairModel (K : Type) where
  /-- the first components -/
  xs : List K[ε]
  /-- the second components -/
  ys : List K[ε]
  /-- next slot to write -/
  head : Nat
  /-- pairs held -/
  count : Nat
  /-- running sum of `x` -/
  sumX : K[ε]
  /-- running sum of `y` -/
  sumY : K[ε]
  /-- running sum of `x * y` -/
  sumXy : K[ε]
  /-- running sum of `x * x` -/
  sumXx : K[ε]
  /-- running sum of `y * y` -/
  sumYy : K[ε]

namespace PairModel

/-- Nothing pushed yet. -/
def empty (n : Nat) : PairModel K := ⟨.replicate n 0, .replicate n 0, 0, 0, 0, 0, 0, 0, 0⟩

/-- A sum after a push: of a full window the oldest term leaves. -/
def slideSum (full : Prop) [Decidable full] (sum old new : K[ε]) : K[ε] :=
  (if full then sum - old else sum) + new

/-- A push into rings of `n` cells. -/
def push (n : Nat) (m : PairModel K) (x y : K[ε]) : PairModel K :=
  let ox := m.xs.getD m.head 0
  let oy := m.ys.getD m.head 0
  { xs := m.xs.set m.head x
    ys := m.ys.set m.head y
    head := (m.head + 1) % n
    count := if m.count = n then m.count else m.count + 1
    sumX := slideSum (m.count = n) m.sumX ox x
    sumY := slideSum (m.count = n) m.sumY oy y
    sumXy := slideSum (m.count = n) m.sumXy (ox * oy) (x * y)
    sumXx := slideSum (m.count = n) m.sumXx (ox * ox) (x * x)
    sumYy := slideSum (m.count = n) m.sumYy (oy * oy) (y * y) }

/-- What a view makes of it. -/
def view {R : Type} (g : K[ε] → Exact R) (n : Nat) (m : PairModel K) :
    RollingPairState (Exact R) (Exact R) :=
  ⟨m.xs.map g, m.ys.map g, n, m.head, m.count, g m.sumX, g m.sumY, g m.sumXy, g m.sumXx, g m.sumYy⟩

/-- The state of the tangents. -/
def tangents (n : Nat) (m : PairModel K) : RollingPairSensitivityState (Exact K) :=
  ⟨m.xs.map fun x => .val x.snd, m.ys.map fun x => .val x.snd, n, m.head, m.count,
    .val m.sumX.snd, .val m.sumY.snd, .val m.sumXy.snd, .val m.sumXx.snd, .val m.sumYy.snd⟩

omit [LinearOrder K] [IsStrictOrderedRing K] [Transcendental K] in
theorem push_view {R : Type} [Fp (Exact R)] {g : K[ε] → Exact R} (hg : RingView g) (n : Nat)
    (m : PairModel K) (x y : K[ε]) :
    rollingPairSlide (m.view g n) (g x) (g y) = (m.push n x y).view g n := by
  have hslide : ∀ sum old new, Fp.add (if m.count = n then Fp.sub (g sum) (g old) else g sum) (g new) =
      g (slideSum (m.count = n) sum old new) := by
    intro sum old new
    rw [slideSum, ← hg.add]
    split
    · rw [hg.sub]
    · rfl
  simp only [rollingPairSlide, view, widen_eq, hg.zero, List.getD_map, hg.mul, hslide, push,
    List.map_set]
  rfl

omit [IsStrictOrderedRing K] in
theorem push_tangents (n : Nat) (m : PairModel K) (x y : K[ε]) :
    rollingPairGradSlide (m.view (fun x => .val x.fst) n) (m.tangents n) (ofDual x) (ofDual y) =
      (m.push n x y).tangents n := by
  have hslide : ∀ sum old new : K[ε],
      Fp.add (if m.count = n then Fp.sub (.val sum.snd) (.val old.snd) else .val sum.snd)
        (.val new.snd) = Exact.val (slideSum (m.count = n) sum old new).snd := by
    intro sum old new
    rw [slideSum, TrivSqZeroExt.snd_add]
    split <;> rfl
  have hvalue : ∀ (cells : List K[ε]) (i : Nat),
      (cells.map fun x => Exact.val x.fst).getD i (.val 0) = .val (cells.getD i 0).fst :=
    fun cells _ => List.getD_map cells 0 fun x => Exact.val x.fst
  have htangent : ∀ (cells : List K[ε]) (i : Nat),
      (cells.map fun x => Exact.val x.snd).getD i (.val 0) = .val (cells.getD i 0).snd :=
    fun cells _ => List.getD_map cells 0 fun x => Exact.val x.snd
  -- the product rule, as the two products and the squares are written
  have hproduct : ∀ x y : K[ε], x.snd * y.fst + x.fst * y.snd = (x * y).snd :=
    fun x y => by rw [DualNumber.snd_mul, add_comm]
  have hsquare : ∀ x : K[ε], 2 * x.fst * x.snd = (x * x).snd := by
    intro x
    rw [DualNumber.snd_mul]
    ring
  simp only [rollingPairGradSlide, view, tangents, widen_eq, ofNat_val, Nat.cast_zero,
    Nat.cast_ofNat, hvalue, htangent, ofDual_value, ofDual_gradient, mul_val, add_val, hproduct,
    hsquare, hslide, push, List.map_set]
  rfl

/-! ## Readouts -/

/-- A sum of products of deviations, from the three sums. -/
def deviations (sumXy sumX sumY : K[ε]) (n : Nat) : K[ε] := sumXy - sumX * sumY * (inl (n : K))⁻¹

section Deviations

variable (sumXy sumX sumY : K[ε]) {n : Nat} (hn : (n : K) ≠ 0)

omit [LinearOrder K] [IsStrictOrderedRing K] [Transcendental K] in
theorem fst_deviations :
    (deviations sumXy sumX sumY n).fst = sumXy.fst - sumX.fst * sumY.fst / n := by
  rw [deviations, TrivSqZeroExt.fst_sub, fst_quotient, TrivSqZeroExt.fst_mul, fst_inl]

omit [LinearOrder K] [IsStrictOrderedRing K] [Transcendental K] in
include hn in
theorem snd_deviations :
    (deviations sumXy sumX sumY n).snd =
      sumXy.snd - (sumX.snd * sumY.fst + sumX.fst * sumY.snd) / n := by
  rw [deviations, TrivSqZeroExt.snd_sub, snd_quotient _ _ (by simpa using hn), DualNumber.snd_mul,
    fst_inl, snd_inl]
  field_simp
  ring

include hn

omit [IsStrictOrderedRing K] in
theorem unnormalized_dual :
    unnormalized (.val sumXy) (.val sumX) (.val sumY) (ofNat n) =
      Exact.val (deviations sumXy sumX sumY n) := by
  rw [unnormalized, ofNat_dual, mul_dual, div_dual _ (by simpa using hn), sub_dual]
  rfl

omit [IsStrictOrderedRing K] in
theorem unnormalized_value :
    unnormalized (.val sumXy.fst) (.val sumX.fst) (.val sumY.fst) (ofNat n) =
      Exact.val (deviations sumXy sumX sumY n).fst := by
  rw [unnormalized, ofNat_val, mul_val, div_val _ hn, sub_val, fst_deviations]

omit [IsStrictOrderedRing K] in
theorem varPrime_eq :
    varPrime (.val sumXy.snd) (.val sumX.fst) (.val sumX.snd) (ofNat n) =
      Exact.val (deviations sumXy sumX sumX n).snd := by
  rw [varPrime, ofNat_val, ofNat_val, mul_val, mul_val, div_val _ hn, sub_val,
    snd_deviations _ _ _ hn]
  congr 3
  push_cast
  ring

end Deviations

/-- The covariance, times the number of pairs. -/
def cov (m : PairModel K) : K[ε] := deviations m.sumXy m.sumX m.sumY m.count

/-- The variance of `x`, times the number of pairs. -/
def varX (m : PairModel K) : K[ε] := deviations m.sumXx m.sumX m.sumX m.count

/-- The variance of `y`, times the number of pairs. -/
def varY (m : PairModel K) : K[ε] := deviations m.sumYy m.sumY m.sumY m.count

/-- The correlation is divided by this. -/
def denom (m : PairModel K) : K[ε] :=
  inl (Transcendental.sqrt (m.varX.fst * m.varY.fst)) +
    inr ((m.varX * m.varY).snd / (2 * Transcendental.sqrt (m.varX.fst * m.varY.fst)))

omit [Field K] [LinearOrder K] [IsStrictOrderedRing K] [Transcendental K] in
theorem full_view {R : Type} (g : K[ε] → Exact R) {n : Nat} {m : PairModel K} :
    rollingPairFull (m.view g n) = true ↔ m.count = n ∧ 0 < n := by
  rw [rollingPairFull, Bool.and_eq_true, decide_eq_true_iff, decide_eq_true_iff]
  rfl

omit [Transcendental K] in
theorem count_ne_zero {n : Nat} {m : PairModel K} (hfull : m.count = n ∧ 0 < n) :
    (m.count : K) ≠ 0 := Nat.cast_ne_zero.2 (by omega)

/-! ### `rolling_beta` -/

section Beta

variable {n : Nat} {m : PairModel K} (hfull : m.count = n ∧ 0 < n)
include hfull

theorem beta_dual : rollingPairBeta (m.view Exact.val n) =
    if m.varX.fst ≤ 0 then .nan else .val (m.cov * m.varX⁻¹) := by
  have hguard := (full_view Exact.val).2 hfull
  rw [rollingPairBeta, if_neg (by simp [hguard])]
  simp only [view, unnormalized_dual _ _ _ (count_ne_zero hfull)]
  rw [← cov, ← varX, ofNat_dual, le_dual]
  by_cases h : m.varX.fst ≤ 0
  · simp [h]
    rfl
  · simp [h, div_dual _ (not_le.1 h).ne']

theorem beta_value : rollingPairBeta (m.view (fun x => .val x.fst) n) =
    if m.varX.fst ≤ 0 then .nan else .val (m.cov.fst / m.varX.fst) := by
  have hguard := (full_view fun x : K[ε] => Exact.val x.fst).2 hfull
  rw [rollingPairBeta, if_neg (by simp [hguard])]
  simp only [view, unnormalized_value _ _ _ (count_ne_zero hfull)]
  rw [← cov, ← varX, ofNat_val, le_val]
  by_cases h : m.varX.fst ≤ 0
  · simp [h]
    rfl
  · simp [h, div_val _ (not_le.1 h).ne']

theorem covPrime_eq : covPrime ⟨m.view (fun x => .val x.fst) n, m.tangents n⟩ = .val m.cov.snd := by
  have hcount := count_ne_zero hfull
  rw [cov, snd_deviations _ _ _ hcount]
  simp [covPrime, view, tangents, div_val _ hcount]

theorem betaGrad_eq : rollingBetaGradReadout ⟨m.view (fun x => .val x.fst) n, m.tangents n⟩ =
    ⟨rollingPairBeta (m.view (fun x => .val x.fst) n),
      Fp.div (.val (m.cov.snd * m.varX.fst - m.cov.fst * m.varX.snd))
        (.val (m.varX.fst * m.varX.fst))⟩ := by
  have hguard := (full_view fun x : K[ε] => Exact.val x.fst).2 hfull
  have hcount := count_ne_zero hfull
  rw [rollingBetaGradReadout, if_neg (by simp [hguard])]
  simp only [covPrime_eq hfull]
  simp only [view, tangents, unnormalized_value _ _ _ hcount, varPrime_eq _ _ hcount]
  rw [← cov, ← varX]
  rfl

end Beta

/-- **`rolling_beta`.** The gradient operator writes the quotient rule out. -/
theorem beta_agrees (n : Nat) (m : PairModel K) :
    AgreesWith (rollingBetaGradReadout ⟨m.view (fun x => .val x.fst) n, m.tangents n⟩)
      (rollingPairBeta (m.view Exact.val n)) := by
  by_cases hfull : m.count = n ∧ 0 < n
  · rw [betaGrad_eq hfull, beta_value hfull, beta_dual hfull]
    by_cases h : m.varX.fst ≤ 0
    · rw [if_pos h, if_pos h]
      exact .inr ⟨rfl, rfl⟩
    · have hvar : m.varX.fst ≠ 0 := (not_le.1 h).ne'
      rw [if_neg h, if_neg h, div_val _ (mul_ne_zero hvar hvar)]
      exact .inl ⟨_, rfl, by rw [ofDual, fst_quotient, snd_quotient _ _ hvar]⟩
  · have hguard := (full_view fun x : K[ε] => Exact.val x.fst).not.2 hfull
    have hguard' := (full_view (Exact.val (K := K[ε]))).not.2 hfull
    rw [rollingBetaGradReadout, if_pos (by simpa using hguard), rollingPairBeta,
      if_pos (by simpa using hguard')]
    exact .inr ⟨rfl, rfl⟩

/-! ### `rolling_corr` -/

section Correlation

variable {n : Nat} {m : PairModel K} (hfull : m.count = n ∧ 0 < n)
include hfull

/-- A window without variance has no correlation. -/
theorem correlation_nan (h : m.varX.fst ≤ 0 ∨ m.varY.fst ≤ 0) :
    rollingPairCorrelation (m.view Exact.val n) = .nan ∧
      rollingPairCorrelation (m.view (fun x => .val x.fst) n) = .nan := by
  have hcount := count_ne_zero (K := K) hfull
  constructor
  · have hguard := (full_view Exact.val).2 hfull
    rw [rollingPairCorrelation, if_neg (by simp [hguard])]
    simp only [view, unnormalized_dual _ _ _ hcount]
    rw [← varX, ← varY, ofNat_dual, le_dual, le_dual]
    exact if_pos (by simpa using h)
  · have hguard := (full_view fun x : K[ε] => Exact.val x.fst).2 hfull
    rw [rollingPairCorrelation, if_neg (by simp [hguard])]
    simp only [view, unnormalized_value _ _ _ hcount]
    rw [← varX, ← varY, ofNat_val, le_val, le_val]
    exact if_pos (by simpa using h)

theorem corrGrad_eq : rollingCorrGradReadout ⟨m.view (fun x => .val x.fst) n, m.tangents n⟩ =
    ⟨rollingPairCorrelation (m.view (fun x => .val x.fst) n),
      let denom := Fp.sqrt (.val (m.varX.fst * m.varY.fst))
      let denomPrime := Fp.div (.val (m.varX.snd * m.varY.fst + m.varX.fst * m.varY.snd))
        (Fp.mul (ofNat 2) denom)
      Fp.sub (Fp.div (.val m.cov.snd) denom)
        (Fp.div (Fp.mul (.val m.cov.fst) denomPrime) (Fp.mul denom denom))⟩ := by
  have hguard := (full_view fun x : K[ε] => Exact.val x.fst).2 hfull
  have hcount := count_ne_zero (K := K) hfull
  rw [rollingCorrGradReadout, if_neg (by simp [hguard])]
  simp only [covPrime_eq hfull]
  simp only [view, tangents, unnormalized_value _ _ _ hcount, varPrime_eq _ _ hcount]
  rw [← cov, ← varX, ← varY]
  rfl

variable (hX : 0 < m.varX.fst) (hY : 0 < m.varY.fst)
  (hsqrt : ∀ v : K, 0 < v → 0 < Transcendental.sqrt v ∧
    Transcendental.sqrt v * Transcendental.sqrt v = v)
  (hcov : m.cov.fst * m.cov.fst ≤ m.varX.fst * m.varY.fst)

omit hfull [LinearOrder K] [IsStrictOrderedRing K] in
theorem fst_denom : m.denom.fst = Transcendental.sqrt (m.varX.fst * m.varY.fst) := by
  simp [denom]

include hX hY hsqrt hcov

omit hfull in
/-- Cauchy–Schwarz, as a bound of the quotient. -/
theorem correlation_bounds : ¬ 1 < m.cov.fst / m.denom.fst ∧ ¬ m.cov.fst / m.denom.fst < -1 := by
  obtain ⟨hpos, hsquare⟩ := hsqrt _ (mul_pos hX hY)
  have habs : |m.cov.fst| ≤ m.denom.fst := by
    refine abs_le_of_sq_le_sq ?_ (by rw [fst_denom]; exact hpos.le)
    rw [fst_denom, sq, sq, hsquare]
    exact hcov
  rw [abs_le] at habs
  rw [← fst_denom] at hpos
  constructor
  · rw [not_lt, div_le_one hpos]
    exact habs.2
  · rw [not_lt, le_div_iff₀ hpos]
    linarith [habs.1]

theorem correlation_dual : rollingPairCorrelation (m.view Exact.val n) =
    .val (m.cov * m.denom⁻¹) := by
  have hguard := (full_view Exact.val).2 hfull
  obtain ⟨hpos, -⟩ := hsqrt _ (mul_pos hX hY)
  obtain ⟨hle, hge⟩ := correlation_bounds hX hY hsqrt hcov
  rw [← fst_quotient] at hle hge
  have hroot : Fp.sqrt (.val (m.varX * m.varY)) = Exact.val m.denom :=
    if_neg (by simpa using mul_pos hX hY)
  have hdenom : m.denom.fst ≠ 0 := by
    rw [fst_denom]
    exact hpos.ne'
  rw [rollingPairCorrelation, if_neg (by simp [hguard])]
  simp only [view, unnormalized_dual _ _ _ (count_ne_zero hfull)]
  rw [← varX, ← varY, ← cov]
  simp only [ofNat_dual, ofRat_dual, le_dual, eq_dual, lt_dual, mul_dual, hroot, div_dual _ hdenom,
    Nat.cast_zero, Nat.cast_one, inl_zero, fst_zero, fst_inl, not_le.2 hX, not_le.2 hY, hdenom, hle,
    decide_false, Bool.or_self, Bool.false_eq_true, if_false, Rat.cast_neg, Rat.cast_one, hge]
  rfl

theorem correlation_value : rollingPairCorrelation (m.view (fun x => .val x.fst) n) =
    .val (m.cov.fst / m.denom.fst) := by
  have hguard := (full_view fun x : K[ε] => Exact.val x.fst).2 hfull
  obtain ⟨hpos, -⟩ := hsqrt _ (mul_pos hX hY)
  obtain ⟨hle, hge⟩ := correlation_bounds hX hY hsqrt hcov
  have hroot : Fp.sqrt (.val (m.varX.fst * m.varY.fst)) = Exact.val m.denom.fst := by
    rw [fst_denom]
    exact if_neg (not_lt.2 (mul_pos hX hY).le)
  have hdenom : m.denom.fst ≠ 0 := by
    rw [fst_denom]
    exact hpos.ne'
  rw [rollingPairCorrelation, if_neg (by simp [hguard])]
  simp only [view, unnormalized_value _ _ _ (count_ne_zero hfull)]
  rw [← varX, ← varY, ← cov]
  simp only [ofNat_val, ofRat_val, le_val, eq_val, lt_val, mul_val, hroot, div_val _ hdenom,
    Nat.cast_zero, Nat.cast_one, not_le.2 hX, not_le.2 hY, hdenom, hle, decide_false, Bool.or_self,
    Bool.false_eq_true, if_false, Rat.cast_neg, Rat.cast_one, hge]
  rfl

end Correlation

/-- **`rolling_corr`.** -/
theorem correlation_agrees (n : Nat) (m : PairModel K)
    (hsqrt : ∀ v : K, 0 < v → 0 < Transcendental.sqrt v ∧
      Transcendental.sqrt v * Transcendental.sqrt v = v)
    (hcov : m.count = n → m.cov.fst * m.cov.fst ≤ m.varX.fst * m.varY.fst) :
    AgreesWith (rollingCorrGradReadout ⟨m.view (fun x => .val x.fst) n, m.tangents n⟩)
      (rollingPairCorrelation (m.view Exact.val n)) := by
  by_cases hfull : m.count = n ∧ 0 < n
  · rw [corrGrad_eq hfull]
    by_cases hvar : m.varX.fst ≤ 0 ∨ m.varY.fst ≤ 0
    · exact .inr (correlation_nan hfull hvar)
    · push Not at hvar
      obtain ⟨hX, hY⟩ := hvar
      obtain ⟨hpos, -⟩ := hsqrt _ (mul_pos hX hY)
      rw [correlation_dual hfull hX hY hsqrt (hcov hfull.1),
        correlation_value hfull hX hY hsqrt (hcov hfull.1)]
      have hroot : Fp.sqrt (.val (m.varX.fst * m.varY.fst)) = Exact.val m.denom.fst := by
        rw [fst_denom]
        exact if_neg (not_lt.2 (mul_pos hX hY).le)
      have hdenom : m.denom.fst ≠ 0 := by
        rw [fst_denom]
        exact hpos.ne'
      refine .inl ⟨_, rfl, ?_⟩
      rw [ofDual, fst_quotient, snd_quotient _ _ hdenom]
      have htwo : ((2 : Nat) : K) * m.denom.fst ≠ 0 := mul_ne_zero (by norm_num) hdenom
      have hprime : (m.varX.snd * m.varY.fst + m.varX.fst * m.varY.snd) /
          (((2 : Nat) : K) * m.denom.fst) = m.denom.snd := by
        have hsnd : m.denom.snd = (m.varX * m.varY).snd / (2 * m.denom.fst) := by
          rw [fst_denom]
          simp [denom]
        rw [hsnd, DualNumber.snd_mul, Nat.cast_ofNat, add_comm]
      simp only [hroot, ofNat_val, mul_val, div_val _ hdenom, div_val _ htwo, hprime,
        div_val _ (mul_ne_zero hdenom hdenom), sub_val]
      congr 2
      field_simp
  · have hguard := (full_view fun x : K[ε] => Exact.val x.fst).not.2 hfull
    have hguard' := (full_view (Exact.val (K := K[ε]))).not.2 hfull
    rw [rollingCorrGradReadout, if_pos (by simpa using hguard), rollingPairCorrelation,
      if_pos (by simpa using hguard')]
    exact .inr ⟨rfl, rfl⟩

/-! ## The window -/

/-- The sum of a quantity over the window. -/
def windowSum (n : Nat) (ws : List (K[ε] × K[ε])) (f : K[ε] × K[ε] → K[ε]) : K[ε] :=
  ((window n ws).map f).sum

/-- The rings hold the last `n` pairs, and the sums are sums over them. -/
structure Holds (n : Nat) (ws : List (K[ε] × K[ε])) (m : PairModel K) : Prop where
  xs : HoldsWindow n (ws.map Prod.fst) m.xs
  ys : HoldsWindow n (ws.map Prod.snd) m.ys
  head : m.head = ws.length % n
  count : m.count = min ws.length n
  sumX : m.sumX = windowSum n ws Prod.fst
  sumY : m.sumY = windowSum n ws Prod.snd
  sumXy : m.sumXy = windowSum n ws fun w => w.1 * w.2
  sumXx : m.sumXx = windowSum n ws fun w => w.1 * w.1
  sumYy : m.sumYy = windowSum n ws fun w => w.2 * w.2

omit [LinearOrder K] [IsStrictOrderedRing K] [Transcendental K] in
theorem holds_empty (n : Nat) : (empty n : PairModel K).Holds n [] where
  xs := by simpa [empty] using HoldsWindow.empty (List.replicate n (0 : K[ε]))
  ys := by simpa [empty] using HoldsWindow.empty (List.replicate n (0 : K[ε]))
  head := by simp [empty]
  count := by simp [empty]
  sumX := by simp [empty, windowSum]
  sumY := by simp [empty, windowSum]
  sumXy := by simp [empty, windowSum]
  sumXx := by simp [empty, windowSum]
  sumYy := by simp [empty, windowSum]

omit [LinearOrder K] [IsStrictOrderedRing K] [Transcendental K] in
/-- A sum after a push. `old` need only be the oldest pair when the window is full. -/
theorem slideSum_window {n : Nat} (hn : 0 < n) {ws : List (K[ε] × K[ε])} {old : K[ε] × K[ε]}
    (hold : n ≤ ws.length → ws[ws.length - n]? = some old) (f : K[ε] × K[ε] → K[ε])
    (w : K[ε] × K[ε]) :
    slideSum (min ws.length n = n) (windowSum n ws f) (f old) (f w) =
      windowSum n (ws ++ [w]) f := by
  rcases Nat.lt_or_ge ws.length n with hlt | hge
  · rw [slideSum, if_neg (by omega), windowSum, windowSum, window_fill w hlt]
    simp
  · obtain ⟨old', rest, hold', hwindow, hnext⟩ := window_slide w hn hge
    obtain rfl : old = old' := Option.some.inj ((hold hge).symm.trans hold')
    rw [slideSum, if_pos (by omega), windowSum, windowSum, hwindow, hnext]
    simp

omit [LinearOrder K] [IsStrictOrderedRing K] [Transcendental K] in
/-- A push keeps the window. -/
theorem Holds.push {n : Nat} (hn : 0 < n) {ws : List (K[ε] × K[ε])} {m : PairModel K}
    (h : m.Holds n ws) (x y : K[ε]) : (m.push n x y).Holds n (ws ++ [(x, y)]) := by
  have hold : n ≤ ws.length →
      ws[ws.length - n]? = some (m.xs.getD m.head 0, m.ys.getD m.head 0) := by
    intro hge
    have hlt : ws.length - n < ws.length := by omega
    have hx := h.xs.oldest hn (by simpa using hge)
    have hy := h.ys.oldest hn (by simpa using hge)
    simp only [List.length_map, List.getElem?_map, List.getElem?_eq_getElem hlt, Option.map_some]
      at hx hy
    rw [h.head, List.getD_eq_getElem?_getD, List.getD_eq_getElem?_getD, hx, hy,
      List.getElem?_eq_getElem hlt]
    rfl
  have hslide := fun f => slideSum_window hn hold f (x, y)
  have hxs := h.xs.push x hn
  have hys := h.ys.push y hn
  rw [List.length_map, ← h.head] at hxs hys
  refine ⟨by simpa [PairModel.push] using hxs, by simpa [PairModel.push] using hys,
    ?_, ?_, ?_, ?_, ?_, ?_, ?_⟩
  · simp [PairModel.push, h.head]
  · simp only [PairModel.push, h.count, List.length_append, List.length_singleton]
    split <;> omega
  · simpa only [PairModel.push, h.count, h.sumX] using hslide Prod.fst
  · simpa only [PairModel.push, h.count, h.sumY] using hslide Prod.snd
  · simpa only [PairModel.push, h.count, h.sumXy] using hslide fun w => w.1 * w.2
  · simpa only [PairModel.push, h.count, h.sumXx] using hslide fun w => w.1 * w.1
  · simpa only [PairModel.push, h.count, h.sumYy] using hslide fun w => w.2 * w.2

omit [LinearOrder K] [IsStrictOrderedRing K] [Transcendental K] in
theorem fst_windowSum (n : Nat) (ws : List (K[ε] × K[ε])) (f : K[ε] × K[ε] → K[ε]) :
    (windowSum n ws f).fst = total (fun w => (f w).fst) (window n ws) := by
  rw [windowSum]
  induction window n ws with
  | nil => simp
  | cons w ws ih => simp [ih]

omit [Transcendental K] in
/-- Of a full window, `deviations` are deviations. -/
theorem Holds.fst_deviations {n : Nat} {ws : List (K[ε] × K[ε])} {m : PairModel K}
    (h : m.Holds n ws) (hcount : m.count = n) (f g : K[ε] × K[ε] → K[ε]) :
    (deviations (windowSum n ws fun w => f w * g w) (windowSum n ws f) (windowSum n ws g)
      m.count).fst = comoment (fun w => (f w).fst) (fun w => (g w).fst) (window n ws) := by
  have hlength : (window n ws).length = n := by
    rw [length_window]
    have := h.count
    omega
  rw [PairModel.fst_deviations, fst_windowSum, fst_windowSum, fst_windowSum, comoment_eq, hlength,
    hcount]
  rfl

omit [Transcendental K] in
/-- **No correlation leaves `[-1, 1]`.** -/
theorem Holds.cov_le {n : Nat} {ws : List (K[ε] × K[ε])} {m : PairModel K} (h : m.Holds n ws)
    (hcount : m.count = n) : m.cov.fst * m.cov.fst ≤ m.varX.fst * m.varY.fst := by
  rw [cov, varX, varY, h.sumXy, h.sumXx, h.sumYy, h.sumX, h.sumY,
    h.fst_deviations hcount Prod.fst Prod.snd, h.fst_deviations hcount Prod.fst Prod.fst,
    h.fst_deviations hcount Prod.snd Prod.snd]
  exact comoment_mul_self_le _ _ _

end PairModel

/-! ## A tick -/

/-- The state, or an empty one of the right size. -/
def RollingPairState.sized {D L : Type} [Fp D] [Fp L] (st : RollingPairState D L) (n : Nat) :
    RollingPairState D L := if st.capacity = n then st else .reset n

/-- The state, or an empty one of the right size. -/
def RollingPairSensitivityState.sized {L : Type} [Fp L] (st : RollingPairSensitivityState L)
    (n : Nat) : RollingPairSensitivityState L := if st.capacity = n then st else .reset n

/-- The states of the two runs are views of one window. -/
def PairAgrees (n : Nat) (primal : RollingPairState (Exact K) (Exact K))
    (grad : RollingPairSensitivityState (Exact K))
    (dual : RollingPairState (Exact K[ε]) (Exact K[ε])) : Prop :=
  ∃ ws m, PairModel.Holds n ws m ∧ primal.sized n = m.view (fun x => .val x.fst) n ∧
    grad.sized n = m.tangents n ∧ dual.sized n = m.view .val n

omit [IsStrictOrderedRing K] in
theorem PairAgrees.next {n : Nat} (hn : 0 < n)
    (st : WithTangent (RollingPairState (Exact K) (Exact K)) (RollingPairSensitivityState (Exact K)))
    {dual : RollingPairState (Exact K[ε]) (Exact K[ε])} (h : PairAgrees n st.primal st.grad dual)
    (x y : K[ε]) :
    ∃ ws m, PairModel.Holds n ws m ∧
      rollingPairGradStep st n (ofDual x) (ofDual y) =
        ⟨m.view (fun x => .val x.fst) n, m.tangents n⟩ ∧
      rollingPairPush dual n (.val x) (.val y) = .ok (m.view .val n) := by
  obtain ⟨ws, m, hm, hprimal, hgrad, hdual⟩ := h
  refine ⟨_, _, hm.push hn x y, ?_, ?_⟩
  · have hprepare : rollingPairGradPrepare st n =
        ⟨m.view (fun x => .val x.fst) n, m.tangents n⟩ := by
      rw [← hprimal, ← hgrad]
      rfl
    rw [rollingPairGradStep, hprepare, ← PairModel.push_tangents,
      ← PairModel.push_view ringView_value]
    rfl
  · rw [rollingPairPush, if_neg (by omega), ← PairModel.push_view ringView_dual, ← hdual]
    rfl

omit [Field K] [LinearOrder K] [IsStrictOrderedRing K] [Transcendental K] in
theorem pairModel_sized {R : Type} [Fp (Exact R)] (g : K[ε] → Exact R) (n : Nat) (m : PairModel K) :
    (m.view g n).sized n = m.view g n := if_pos rfl

theorem corr_agrees (path : GradientPath) {n : Nat} (hn : 0 < n) (x y : K[ε])
    (hsqrt : ∀ v : K, 0 < v → 0 < Transcendental.sqrt v ∧
      Transcendental.sqrt v * Transcendental.sqrt v = v)
    {slots : GradSlots (Exact K) (Exact K)} {dual : NodeSlot (Exact K[ε]) (Exact K[ε])}
    (h : PairAgrees n slots.primal.rollingCorr slots.grad.rollingCorr dual.rollingCorr) :
    ∃ out slots' d dual',
      TangentOp.gradStep path (.rollingCorr n) slots [ofDual x, ofDual y] = .ok (out, slots') ∧
      TangentOp.step (.rollingCorr n) dual [.val x, .val y] = .ok (d, dual') ∧ AgreesWith out d ∧
      PairAgrees n slots'.primal.rollingCorr slots'.grad.rollingCorr dual'.rollingCorr := by
  obtain ⟨ws, m, hm, hgrad, hdual⟩ :=
    PairAgrees.next hn ⟨slots.primal.rollingCorr, slots.grad.rollingCorr⟩ h x y
  have hstep : TangentOp.step (.rollingCorr n) dual [.val x, .val y] =
      .ok (rollingPairCorrelation (m.view .val n), { dual with rollingCorr := m.view .val n }) := by
    rw [TangentOp.step, Interpreter.rollingCorrStep, hdual]
    rfl
  have hgradStep : TangentOp.gradStep path (.rollingCorr n) slots [ofDual x, ofDual y] =
      .ok (rollingCorrGradReadout ⟨m.view (fun x => .val x.fst) n, m.tangents n⟩,
        ⟨{ slots.primal with rollingCorr := m.view (fun x => .val x.fst) n },
          { slots.grad with rollingCorr := m.tangents n }⟩) := by
    rw [TangentOp.gradStep, jitRtRollingCorrGrad, hgrad]
  exact ⟨_, _, _, _, hgradStep, hstep, m.correlation_agrees n hsqrt hm.cov_le, ws, m, hm,
    pairModel_sized _ _ _, if_pos rfl, pairModel_sized _ _ _⟩

theorem beta_agrees (path : GradientPath) {n : Nat} (hn : 0 < n) (x y : K[ε])
    {slots : GradSlots (Exact K) (Exact K)} {dual : NodeSlot (Exact K[ε]) (Exact K[ε])}
    (h : PairAgrees n slots.primal.rollingBeta slots.grad.rollingBeta dual.rollingBeta) :
    ∃ out slots' d dual',
      TangentOp.gradStep path (.rollingBeta n) slots [ofDual x, ofDual y] = .ok (out, slots') ∧
      TangentOp.step (.rollingBeta n) dual [.val x, .val y] = .ok (d, dual') ∧ AgreesWith out d ∧
      PairAgrees n slots'.primal.rollingBeta slots'.grad.rollingBeta dual'.rollingBeta := by
  obtain ⟨ws, m, hm, hgrad, hdual⟩ :=
    PairAgrees.next hn ⟨slots.primal.rollingBeta, slots.grad.rollingBeta⟩ h x y
  have hstep : TangentOp.step (.rollingBeta n) dual [.val x, .val y] =
      .ok (rollingPairBeta (m.view .val n), { dual with rollingBeta := m.view .val n }) := by
    rw [TangentOp.step, Interpreter.rollingBetaStep, hdual]
    rfl
  have hgradStep : TangentOp.gradStep path (.rollingBeta n) slots [ofDual x, ofDual y] =
      .ok (rollingBetaGradReadout ⟨m.view (fun x => .val x.fst) n, m.tangents n⟩,
        ⟨{ slots.primal with rollingBeta := m.view (fun x => .val x.fst) n },
          { slots.grad with rollingBeta := m.tangents n }⟩) := by
    rw [TangentOp.gradStep, jitRtRollingBetaGrad, hgrad]
  exact ⟨_, _, _, _, hgradStep, hstep, m.beta_agrees n, ws, m, hm, pairModel_sized _ _ _,
    if_pos rfl, pairModel_sized _ _ _⟩

end JitSignalEngine
