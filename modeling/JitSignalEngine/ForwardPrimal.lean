import JitSignalEngine.AllocatedRun
import JitSignalEngine.Autodiff

/-!
# The forward evaluator computes what the interpreter computes

`EvaluateSignalGradient` runs the recurrences of the operators a second time, next to those of
the tangents. Over any sequence of evaluations the values are those of `Interpreter::Evaluate`, in
any arithmetic.

* `NodeSlot.withAlpha` — neither evaluator reads the factor that `ema` keeps.
* `SlotsFollow` — the counters of the tangents go along with those of the operators.
* `StepAgrees` — a step of an operator, with and without a tangent.
* `evalExpr_agrees` — an expression.
* `forward_computes_interpreted` — a sequence of evaluations.

`kalman1d` skips an update from a denominator of `stddevFloor` on, the interpreter from zero on.
The two agree where the measurement noise is above the floor.
-/

namespace JitSignalEngine

open Fp Widen

variable {D L : Type}

/-! ## States -/

section States

variable [Fp D]

/-- A slot with another factor in `ema`. -/
def NodeSlot.withAlpha (slot : NodeSlot D L) (alpha : D) : NodeSlot D L :=
  { slot with ema := { slot.ema with alpha := alpha } }

/-- **The counters of `rolling_std`**: the refresh of the tangents is due when that of the operator
is. -/
structure RefreshInStep (primal : RingStatsState D L) (grad : RollingStdSensitivityState L) :
    Prop where
  /-- there is a tangent for every sample -/
  buffer : grad.buffer.length = grad.capacity
  /-- the windows have slid as often -/
  slides : grad.capacity = primal.capacity → grad.slidesSinceRefresh = primal.slidesSinceRefresh
  /-- windows that differ have not slid -/
  fresh : grad.capacity ≠ primal.capacity →
    primal.slidesSinceRefresh = 0 ∧ grad.slidesSinceRefresh = 0

/-- **The slots of a call**: those with a tangent have the states of the one without, and the
counters are in step. -/
structure SlotsFollow (slots : GradSlots D L) (slot : NodeSlot D L) : Prop where
  /-- the states but for the factor of `ema` -/
  primal : ∃ alpha, slots.primal = slot.withAlpha alpha
  /-- `rolling_std` -/
  rollingStd : RefreshInStep slot.rollingStd slots.grad.rollingStd
  /-- `zscore` -/
  zscore : RefreshInStep slot.zscore slots.grad.zscore
  /-- the variance of `kalman1d` -/
  kalman1d : lt slot.kalman1d.p (ofNat 0) = false

end States

/-! ## `rolling_std` and `zscore` -/

section RollingStd

variable [Fp D] [Fp L] [Widen D L] {primal : RingStatsState D L}
  {grad : RollingStdSensitivityState L}

omit [Fp D] in
/-- What the mean and `m2` are updated from stays. -/
theorem rollingStdGradOnAdd_fields (x : ValueGradient D) :
    (rollingStdGradOnAdd primal grad x).buffer = grad.buffer ∧
      (rollingStdGradOnAdd primal grad x).capacity = grad.capacity ∧
      (rollingStdGradOnAdd primal grad x).slidesSinceRefresh = grad.slidesSinceRefresh :=
  ⟨rfl, rfl, rfl⟩

theorem rollingStdGradOnSlide_fields (x : ValueGradient D) :
    (rollingStdGradOnSlide primal grad x).buffer = grad.buffer ∧
      (rollingStdGradOnSlide primal grad x).capacity = grad.capacity ∧
      (rollingStdGradOnSlide primal grad x).slidesSinceRefresh = grad.slidesSinceRefresh := by
  unfold rollingStdGradOnSlide
  split
  · exact ⟨rfl, rfl, rfl⟩
  · exact ⟨rfl, rfl, rfl⟩

theorem ringStatsAdmit_fields (x : D) :
    (ringStatsAdmit primal x).capacity = primal.capacity ∧
      (ringStatsAdmit primal x).slidesSinceRefresh = primal.slidesSinceRefresh := by
  unfold ringStatsAdmit ringStatsUpdateMeanM2OnSlide
  split
  · dsimp only
    split
    · exact ⟨rfl, rfl⟩
    · exact ⟨rfl, rfl⟩
  · exact ⟨rfl, rfl⟩

omit [Fp D] [Widen D L] in
variable (primal) in
/-- The tangents of a window, or new ones. -/
theorem refreshInStep_sized (hbuffer : grad.buffer.length = grad.capacity)
    (hslides : grad.capacity = primal.capacity →
      grad.slidesSinceRefresh = primal.slidesSinceRefresh)
    (hfresh : grad.capacity ≠ primal.capacity → primal.slidesSinceRefresh = 0) :
    (if grad.capacity = primal.capacity then grad else .reset primal.capacity).capacity =
        primal.capacity ∧
      RefreshInStep primal
        (if grad.capacity = primal.capacity then grad else .reset primal.capacity) := by
  split
  · rename_i hsize
    exact ⟨hsize, hbuffer, fun _ => hslides hsize, fun hne => absurd hsize hne⟩
  · rename_i hsize
    exact ⟨rfl, List.length_replicate, fun _ => (hfresh hsize).symm, fun hne => absurd rfl hne⟩

omit [Fp D] in
/-- Windows of one size are refreshed together. -/
theorem rollingStdGradTick_primal (hsize : grad.capacity = primal.capacity)
    (h : RefreshInStep primal grad) :
    (rollingStdGradTick ⟨primal, grad⟩).primal = ringStatsTick primal ∧
      (rollingStdGradTick ⟨primal, grad⟩).grad.capacity =
        (rollingStdGradTick ⟨primal, grad⟩).primal.capacity ∧
      RefreshInStep (rollingStdGradTick ⟨primal, grad⟩).primal
        (rollingStdGradTick ⟨primal, grad⟩).grad := by
  have hslides := h.slides hsize
  unfold rollingStdGradTick ringStatsTick ringStatsRefreshInterval
  dsimp only
  rw [hsize, hslides]
  split
  · exact ⟨rfl, rfl, h.buffer.trans hsize, fun _ => rfl, fun hne => absurd rfl hne⟩
  · exact ⟨rfl, rfl, h.buffer.trans hsize, fun _ => rfl, fun hne => absurd rfl hne⟩

/-- Windows of one size slide together. -/
theorem rollingStdGradSlide_primal (hsize : grad.capacity = primal.capacity)
    (hpos : 0 < primal.capacity) (h : RefreshInStep primal grad) (x : ValueGradient D) :
    (rollingStdGradSlide ⟨primal, grad⟩ x).primal = ringStatsSlide primal x.value ∧
      RefreshInStep (rollingStdGradSlide ⟨primal, grad⟩ x).primal
        (rollingStdGradSlide ⟨primal, grad⟩ x).grad := by
  obtain ⟨hcap, hslides⟩ := @ringStatsAdmit_fields D L _ _ _ primal x.value
  -- the tangent of the sample is written
  have hwrite : ∀ grad₁ : RollingStdSensitivityState L, grad₁.buffer = grad.buffer →
      grad₁.capacity = grad.capacity → grad₁.slidesSinceRefresh = grad.slidesSinceRefresh →
      grad₁.buffer.isEmpty = false ∧
        (rollingStdGradWrite grad₁ x.gradient).capacity =
          (ringStatsWrite (ringStatsAdmit primal x.value) x.value).capacity ∧
        RefreshInStep (ringStatsWrite (ringStatsAdmit primal x.value) x.value)
          (rollingStdGradWrite grad₁ x.gradient) := by
    intro grad₁ hbuffer hcapacity hcount
    have hsize' : grad₁.capacity = (ringStatsAdmit primal x.value).capacity := by
      rw [hcapacity, hcap, hsize]
    refine ⟨?_, hsize', ?_, fun _ => ?_, fun hne => absurd hsize' hne⟩
    · rw [hbuffer, List.isEmpty_eq_false_iff, ← List.length_pos_iff, h.buffer, hsize]
      exact hpos
    · rw [rollingStdGradWrite, List.length_set, hbuffer, hcapacity]
      exact h.buffer
    · exact hcount.trans ((h.slides hsize).trans hslides.symm)
  unfold rollingStdGradSlide ringStatsSlide
  dsimp only
  by_cases hslid : primal.count = primal.capacity
  · obtain ⟨hb, hc, hn⟩ := @rollingStdGradOnSlide_fields D L _ _ _ primal grad x
    obtain ⟨hempty, hsize', hstep⟩ := hwrite _ hb hc hn
    rw [if_pos hslid, if_pos hslid, if_pos hslid, if_neg (by rw [hempty]; decide)]
    obtain ⟨hprimal, -, hstep'⟩ := rollingStdGradTick_primal hsize' hstep
    exact ⟨hprimal, hstep'⟩
  · obtain ⟨hb, hc, hn⟩ := @rollingStdGradOnAdd_fields D L _ _ primal grad x
    obtain ⟨hempty, -, hstep⟩ := hwrite _ hb hc hn
    rw [if_neg hslid, if_neg hslid, if_neg hslid, if_neg (by rw [hempty]; decide)]
    exact ⟨rfl, hstep⟩

/-- **A push with a tangent** is a push of the operator, and keeps the counters in step. -/
theorem rollingStdGradStep_primal (h : RefreshInStep primal grad) {period : Nat}
    (hperiod : 0 < period) (x : ValueGradient D) :
    (rollingStdGradStep ⟨primal, grad⟩ period x).primal =
        ringStatsSlide (if primal.capacity = period then primal else .reset period) x.value ∧
      RefreshInStep (rollingStdGradStep ⟨primal, grad⟩ period x).primal
        (rollingStdGradStep ⟨primal, grad⟩ period x).grad := by
  unfold rollingStdGradStep rollingStdGradPrepare
  dsimp only
  by_cases hcap : primal.capacity = period
  · rw [if_pos hcap]
    obtain ⟨hsize, hstep⟩ := refreshInStep_sized primal h.buffer h.slides fun hne => (h.fresh hne).1
    exact rollingStdGradSlide_primal hsize (by rwa [hcap]) hstep x
  · rw [if_neg hcap]
    -- both windows are new
    obtain ⟨hsize, hstep⟩ := refreshInStep_sized (.reset period : RingStatsState D L) h.buffer
      (fun hsize => (h.fresh fun heq => hcap (heq.symm.trans hsize)).2) fun _ => rfl
    exact rollingStdGradSlide_primal hsize hperiod hstep x

end RollingStd

/-! ## What is read out -/

section Readouts

variable [Fp D] [Fp L] [Widen D L] {x : ValueGradient D}

theorem rollingStdGradReadout_value
    (st : WithTangent (RingStatsState D L) (RollingStdSensitivityState L)) :
    (rollingStdGradReadout st : ValueGradient D).value = rollingStdReadout st.primal := by
  unfold rollingStdGradReadout rollingStdReadout
  cases ringStatsFull st.primal with
  | false => rfl
  | true =>
    simp only [Bool.not_true, Bool.false_eq_true, if_false]
    by_cases hcount : st.primal.count < 2
    · rw [if_pos hcount, ringStatsStddevSample, if_pos hcount]
      rfl
    · rw [if_neg hcount]

theorem zscoreGradReadout_value
    (st : WithTangent (RingStatsState D L) (RollingStdSensitivityState L)) :
    (zscoreGradReadout st x).value = zscoreReadout st.primal x.value := by
  unfold zscoreGradReadout zscoreReadout
  cases ringStatsFull st.primal with
  | false => rfl
  | true =>
    simp only [Bool.not_true, Bool.false_eq_true, if_false]
    split
    · rfl
    · rfl

theorem rollingCorrGradReadout_value
    (st : WithTangent (RollingPairState D L) (RollingPairSensitivityState L)) :
    (rollingCorrGradReadout st : ValueGradient D).value = rollingPairCorrelation st.primal := by
  unfold rollingCorrGradReadout
  cases hfull : rollingPairFull st.primal with
  | false =>
    rw [rollingPairCorrelation, hfull]
    rfl
  | true => rfl

theorem rollingBetaGradReadout_value
    (st : WithTangent (RollingPairState D L) (RollingPairSensitivityState L)) :
    (rollingBetaGradReadout st : ValueGradient D).value = rollingPairBeta st.primal := by
  unfold rollingBetaGradReadout
  cases hfull : rollingPairFull st.primal with
  | false =>
    rw [rollingPairBeta, hfull]
    rfl
  | true => rfl

omit [Fp L] [Widen D L] in
theorem minMaxGradStep_value (ring : LagState D) (period beforeIdx : Nat) (xGrad : D)
    (out : D × RollingMinMaxState D) :
    (minMaxGradStep ring period beforeIdx xGrad out).1.value = (minMaxReadout period out).1 := by
  unfold minMaxGradStep minMaxReadout
  dsimp only
  split
  · rfl
  · rfl

end Readouts

/-! ## `kalman1d` -/

section Kalman

variable [Fp D]

/-- **A measurement noise above the floor**: whatever the variance and the process noise are, the
denominator is above both thresholds. -/
structure NoiseAboveFloor (r : D) : Prop where
  /-- the noise is not negative -/
  nonneg : lt r (ofNat 0) = false
  /-- neither evaluator skips the update -/
  denominator : ∀ p q, lt p (ofNat 0) = false → lt q (ofNat 0) = false →
    le (add (add p q) r) (ofNat 0) = false ∧ le (add (add p q) r) stddevFloor = false

/-- **An update with a tangent** is the update, and the variance stays nonnegative. -/
theorem kalman1dGradStep_primal (hzero : lt (ofNat 0 : D) (ofNat 0) = false)
    {st : WithTangent (Kalman1dState D) (Kalman1dSensitivityState D)} {x q r : ValueGradient D}
    (hp : lt st.primal.p (ofNat 0) = false) (hq : lt q.value (ofNat 0) = false)
    (hr : NoiseAboveFloor r.value) :
    (kalman1dGradStep stddevFloor st x q r).1.value =
        (kalman1dStep st.primal x.value q.value r.value).1 ∧
      (kalman1dGradStep stddevFloor st x q r).2.primal =
        (kalman1dStep st.primal x.value q.value r.value).2 ∧
      lt (kalman1dStep st.primal x.value q.value r.value).2.p (ofNat 0) = false := by
  unfold kalman1dGradStep kalman1dStep
  dsimp only
  cases st.primal.initialized with
  | false => exact ⟨rfl, rfl, hr.nonneg⟩
  | true =>
    obtain ⟨hpos, hfloor⟩ := hr.denominator _ _ hp hq
    rw [hpos, hfloor]
    refine ⟨rfl, rfl, ?_⟩
    simp only [Bool.not_true, Bool.false_eq_true, if_false]
    -- what falls below zero is set to zero
    split
    · exact hzero
    · exact Bool.eq_false_iff.mpr ‹_›

/-- In exact arithmetic the noise has to be above the floor. -/
theorem noiseAboveFloor_exact {K : Type} [Field K] [LinearOrder K] [IsStrictOrderedRing K]
    [Transcendental K] {r : K} (h : ((1 / 1000000000000000000 : ℚ) : K) < r) :
    NoiseAboveFloor (Exact.val r) := by
  have hfloor : (0 : K) < ((1 / 1000000000000000000 : ℚ) : K) := by
    exact_mod_cast (by norm_num : (0 : ℚ) < 1 / 1000000000000000000)
  have hpos := hfloor.trans h
  refine ⟨by simpa using hpos.le, fun p q hp hq => ?_⟩
  cases p with
  | nan => exact ⟨rfl, rfl⟩
  | val p =>
    cases q with
    | nan => exact ⟨rfl, rfl⟩
    | val q =>
      rw [Exact.ofNat_val, Exact.lt_val, Nat.cast_zero, decide_eq_false_iff_not, not_lt] at hp hq
      have hsum : r ≤ p + q + r := le_add_of_nonneg_left (add_nonneg hp hq)
      constructor
      · rw [Exact.ofNat_val, Exact.add_val, Exact.add_val, Exact.le_val, Nat.cast_zero,
          decide_eq_false_iff_not, not_le]
        exact hpos.trans_le hsum
      · rw [stddevFloor, Exact.ofRat_val, Exact.add_val, Exact.add_val, Exact.le_val,
          decide_eq_false_iff_not, not_le]
        exact h.trans_le hsum

end Kalman

/-! ## Operators -/

section Operators

variable [Fp D]

/-- **A step of an operator, with and without a tangent**: where the step without returns, the
step with a tangent returns the same value, and the states follow. -/
def StepAgrees (step : NodeSlot D L → Except String (D × NodeSlot D L))
    (gradStep : GradSlots D L → Except String (ValueGradient D × GradSlots D L)) : Prop :=
  ∀ slots slot, SlotsFollow slots slot → ∀ v slot', step slot = .ok (v, slot') →
    ∃ out slots', gradStep slots = .ok (out, slots') ∧ out.value = v ∧ SlotsFollow slots' slot'

section Narrow

variable (period : Nat) (x y : ValueGradient D)

theorem ema_stepAgrees : StepAgrees (L := L) (Interpreter.emaStep period x.value)
    fun slots => .ok (forwardEma slots x ⟨emaAlphaOfPeriod period, ofNat 0⟩) := by
  intro slots slot h v slot' hv
  obtain ⟨⟨alpha, hprimal⟩, hstd, hz, hk⟩ := h
  obtain ⟨primal, grad⟩ := slots
  subst hprimal
  unfold Interpreter.emaStep at hv
  unfold forwardEma emaGradStep
  dsimp only [NodeSlot.withAlpha] at hv ⊢
  cases hinit : slot.ema.initialized <;> rw [hinit] at hv <;> cases hv
  · exact ⟨_, _, rfl, rfl, ⟨_, rfl⟩, hstd, hz, hk⟩
  · exact ⟨_, _, rfl, rfl, ⟨_, rfl⟩, hstd, hz, hk⟩

theorem emaAlpha_stepAgrees : StepAgrees (L := L) (Interpreter.emaAlphaStep x.value y.value)
    fun slots => .ok (forwardEma slots x y) := by
  intro slots slot h v slot' hv
  obtain ⟨⟨alpha, hprimal⟩, hstd, hz, hk⟩ := h
  obtain ⟨primal, grad⟩ := slots
  subst hprimal
  unfold Interpreter.emaAlphaStep at hv
  unfold forwardEma emaGradStep
  dsimp only [NodeSlot.withAlpha] at hv ⊢
  cases hinit : slot.ema.initialized <;> rw [hinit] at hv <;> cases hv
  · exact ⟨_, _, rfl, rfl, ⟨_, rfl⟩, hstd, hz, hk⟩
  · exact ⟨_, _, rfl, rfl, ⟨_, rfl⟩, hstd, hz, hk⟩

theorem lag_stepAgrees : StepAgrees (L := L) (Interpreter.lagStep period x.value)
    fun slots => forwardLag slots x period := by
  intro slots slot h v slot' hv
  obtain ⟨⟨alpha, hprimal⟩, hstd, hz, hk⟩ := h
  obtain ⟨primal, grad⟩ := slots
  subst hprimal
  unfold Interpreter.lagStep lagPush at hv
  by_cases hperiod : period = 0
  · rw [if_pos hperiod] at hv
    cases hv
  rw [if_neg hperiod] at hv
  cases hv
  dsimp only
  unfold forwardLag lagPush
  rw [if_neg hperiod, if_neg hperiod]
  exact ⟨_, _, rfl, rfl, ⟨alpha, rfl⟩, hstd, hz, hk⟩

theorem rollingMin_stepAgrees : StepAgrees (L := L) (Interpreter.rollingMinStep period x.value)
    fun slots => .ok (forwardRollingMin slots x period) := by
  intro slots slot h v slot' hv
  obtain ⟨⟨alpha, hprimal⟩, hstd, hz, hk⟩ := h
  obtain ⟨primal, grad⟩ := slots
  subst hprimal
  cases hv
  exact ⟨_, _, rfl, minMaxGradStep_value .., ⟨alpha, rfl⟩, hstd, hz, hk⟩

theorem rollingMax_stepAgrees : StepAgrees (L := L) (Interpreter.rollingMaxStep period x.value)
    fun slots => .ok (forwardRollingMax slots x period) := by
  intro slots slot h v slot' hv
  obtain ⟨⟨alpha, hprimal⟩, hstd, hz, hk⟩ := h
  obtain ⟨primal, grad⟩ := slots
  subst hprimal
  cases hv
  exact ⟨_, _, rfl, minMaxGradStep_value .., ⟨alpha, rfl⟩, hstd, hz, hk⟩

theorem crossAbove_stepAgrees : StepAgrees (L := L) (Interpreter.crossAboveStep x.value y.value)
    fun slots => .ok (jitRtCrossAboveGrad slots x y) := by
  intro slots slot h v slot' hv
  obtain ⟨⟨alpha, hprimal⟩, hstd, hz, hk⟩ := h
  obtain ⟨primal, grad⟩ := slots
  subst hprimal
  cases hv
  exact ⟨_, _, rfl, rfl, ⟨alpha, rfl⟩, hstd, hz, hk⟩

theorem crossBelow_stepAgrees : StepAgrees (L := L) (Interpreter.crossBelowStep x.value y.value)
    fun slots => .ok (jitRtCrossBelowGrad slots x y) := by
  intro slots slot h v slot' hv
  obtain ⟨⟨alpha, hprimal⟩, hstd, hz, hk⟩ := h
  obtain ⟨primal, grad⟩ := slots
  subst hprimal
  cases hv
  exact ⟨_, _, rfl, rfl, ⟨alpha, rfl⟩, hstd, hz, hk⟩

theorem kalman1d_stepAgrees (hzero : lt (ofNat 0 : D) (ofNat 0) = false) {q r : ValueGradient D}
    (hq : lt q.value (ofNat 0) = false) (hr : NoiseAboveFloor r.value) :
    StepAgrees (L := L) (Interpreter.kalmanStep x.value q.value r.value)
      fun slots => .ok (forwardKalman1d slots x q r) := by
  intro slots slot h v slot' hv
  obtain ⟨⟨alpha, hprimal⟩, hstd, hz, hk⟩ := h
  obtain ⟨primal, grad⟩ := slots
  subst hprimal
  cases hv
  obtain ⟨hvalue, hstate, hp⟩ :=
    @kalman1dGradStep_primal D _ hzero ⟨slot.kalman1d, grad.kalman1d⟩ x q r hk hq hr
  exact ⟨_, _, rfl, hvalue, ⟨alpha, congrArg (fun k => { slot.withAlpha alpha with kalman1d := k })
    hstate⟩, hstd, hz, hp⟩

end Narrow

section Wide

variable [Fp L] [Widen D L] (period : Nat) (x y : ValueGradient D)

theorem sma_stepAgrees : StepAgrees (L := L) (Interpreter.smaStep period x.value)
    fun slots => forwardSma slots x period := by
  intro slots slot h v slot' hv
  obtain ⟨⟨alpha, hprimal⟩, hstd, hz, hk⟩ := h
  obtain ⟨primal, grad⟩ := slots
  subst hprimal
  unfold Interpreter.smaStep ringStatsPush at hv
  by_cases hperiod : period = 0
  · rw [if_pos hperiod] at hv
    cases hv
  rw [if_neg hperiod] at hv
  cases hv
  dsimp only
  unfold forwardSma ringStatsPush smaReadout
  rw [if_neg hperiod, if_neg hperiod]
  -- neither has a mean before the window is full
  exact ⟨_, _, rfl, apply_ite ValueGradient.value _ _ _, ⟨alpha, rfl⟩, hstd, hz, hk⟩

theorem rollingStd_stepAgrees : StepAgrees (L := L) (Interpreter.rollingStdStep period x.value)
    fun slots => .ok (jitRtRollingStdGrad slots x period) := by
  intro slots slot h v slot' hv
  obtain ⟨⟨alpha, hprimal⟩, hstd, hz, hk⟩ := h
  obtain ⟨primal, grad⟩ := slots
  subst hprimal
  unfold Interpreter.rollingStdStep ringStatsPush at hv
  by_cases hperiod : period = 0
  · rw [if_pos hperiod] at hv
    cases hv
  rw [if_neg hperiod] at hv
  cases hv
  obtain ⟨hpush, hstep⟩ := rollingStdGradStep_primal hstd (Nat.pos_of_ne_zero hperiod) x
  rw [hpush] at hstep
  refine ⟨_, _, rfl, ?_, ⟨alpha, ?_⟩, hstep, hz, hk⟩
  · rw [← hpush]
    exact rollingStdGradReadout_value _
  · dsimp only [NodeSlot.withAlpha]
    rw [hpush]

theorem zscore_stepAgrees : StepAgrees (L := L) (Interpreter.zscoreStep period x.value)
    fun slots => .ok (jitRtZscoreGrad slots x period) := by
  intro slots slot h v slot' hv
  obtain ⟨⟨alpha, hprimal⟩, hstd, hz, hk⟩ := h
  obtain ⟨primal, grad⟩ := slots
  subst hprimal
  unfold Interpreter.zscoreStep ringStatsPush at hv
  by_cases hperiod : period = 0
  · rw [if_pos hperiod] at hv
    cases hv
  rw [if_neg hperiod] at hv
  cases hv
  obtain ⟨hpush, hstep⟩ := rollingStdGradStep_primal hz (Nat.pos_of_ne_zero hperiod) x
  rw [hpush] at hstep
  refine ⟨_, _, rfl, ?_, ⟨alpha, ?_⟩, hstd, hstep, hk⟩
  · rw [← hpush]
    exact zscoreGradReadout_value _
  · dsimp only [NodeSlot.withAlpha]
    rw [hpush]

theorem rollingCorr_stepAgrees :
    StepAgrees (L := L) (Interpreter.rollingCorrStep period x.value y.value)
      fun slots => .ok (jitRtRollingCorrGrad slots x y period) := by
  intro slots slot h v slot' hv
  obtain ⟨⟨alpha, hprimal⟩, hstd, hz, hk⟩ := h
  obtain ⟨primal, grad⟩ := slots
  subst hprimal
  unfold Interpreter.rollingCorrStep rollingPairPush at hv
  by_cases hperiod : period = 0
  · rw [if_pos hperiod] at hv
    cases hv
  rw [if_neg hperiod] at hv
  cases hv
  exact ⟨_, _, rfl, rollingCorrGradReadout_value _, ⟨alpha, rfl⟩, hstd, hz, hk⟩

theorem rollingBeta_stepAgrees :
    StepAgrees (L := L) (Interpreter.rollingBetaStep period x.value y.value)
      fun slots => .ok (jitRtRollingBetaGrad slots x y period) := by
  intro slots slot h v slot' hv
  obtain ⟨⟨alpha, hprimal⟩, hstd, hz, hk⟩ := h
  obtain ⟨primal, grad⟩ := slots
  subst hprimal
  unfold Interpreter.rollingBetaStep rollingPairPush at hv
  by_cases hperiod : period = 0
  · rw [if_pos hperiod] at hv
    cases hv
  rw [if_neg hperiod] at hv
  cases hv
  exact ⟨_, _, rfl, rollingBetaGradReadout_value _, ⟨alpha, rfl⟩, hstd, hz, hk⟩

end Wide

end Operators

/-! ## Evaluations in step -/

section Agreement

variable [Fp D]

/-- **The states of the two evaluators**, for the tangents by the parameter `target` of `n`. -/
structure ForwardFollows (params : List D) (n target : Nat) (fs : ForwardState D L)
    (s : EvalState D L) : Prop where
  /-- the parameters of the interpreter -/
  ctxParams : s.ctx.params = params
  /-- those of the forward evaluator -/
  forwardParams : fs.ctx.params = params
  /-- `gradient_param_count` -/
  paramCount : fs.gradientParamCount = n
  /-- the slots of every call -/
  slots : ∀ j, SlotsFollow ⟨fs.ctx.slots j, fs.sensitivities (j * n + target)⟩ (s.ctx.slots j)
  /-- the caches -/
  cache : ∀ j, (fs.cache j).map ValueGradient.value = s.cache j

/-- The two slots of a call. -/
def slotsOf (n target : Nat) (nodeId : Int) : ForwardGradient.SlotIds :=
  ⟨nodeId.toNat, nodeId.toNat * n + target⟩

/-- **Two computations agree**: where the interpreter returns, the forward evaluator returns the
same value, and its state follows. -/
def Agrees (params : List D) (n target : Nat) (m : EvalM D L D)
    (gm : ForwardM D L (ValueGradient D)) : Prop :=
  ∀ fs s, ForwardFollows params n target fs s → ∀ v s', m s = (.ok v, s') →
    ∃ out fs', gm.exec fs = (.ok out, fs') ∧ out.value = v ∧ ForwardFollows params n target fs' s'

variable {params : List D} {n target : Nat}

namespace ForwardFollows

/-- The trace of the interpreter is not looked at. -/
theorem withTrace {fs : ForwardState D L} {s : EvalState D L}
    (h : ForwardFollows params n target fs s) (trace : List (Event D)) :
    ForwardFollows params n target fs { s with trace := trace } :=
  ⟨h.ctxParams, h.forwardParams, h.paramCount, h.slots, h.cache⟩

end ForwardFollows

namespace Agrees

variable {m : EvalM D L D} {gm : ForwardM D L (ValueGradient D)}

theorem pure (out : ValueGradient D) :
    Agrees (L := L) params n target (Pure.pure out.value) (Pure.pure out) := by
  intro fs s h v s' hv
  cases hv
  exact ⟨out, fs, rfl, rfl, h⟩

/-- Application. -/
theorem apply (h : Agrees params n target m gm) {fs : ForwardState D L} {s s' : EvalState D L}
    {v : D} (hs : ForwardFollows params n target fs s) (hv : m s = (.ok v, s')) :
    ∃ out fs', gm.exec fs = (.ok out, fs') ∧ out.value = v ∧
      ForwardFollows params n target fs' s' := h fs s hs v s' hv

/-- What throws agrees with everything. -/
theorem throw (e : String) : Agrees params n target (EvalM.throw e) gm := by
  intro fs s h v s' hv
  cases hv

/-- Sequencing. -/
theorem bind (h : Agrees params n target m gm) {k : D → EvalM D L D}
    {gk : ValueGradient D → ForwardM D L (ValueGradient D)}
    (hk : ∀ out, Agrees params n target (k out.value) (gk out)) :
    Agrees params n target (m >>= k) (gm >>= gk) := by
  intro fs s hs v s' hv
  obtain ⟨w, s₁, hw, hv⟩ := EvalM.bind_eq_ok hv
  obtain ⟨out, fs₁, hout, rfl, hs₁⟩ := h fs s hs w s₁ hw
  rw [ForwardM.exec_bind hout]
  exact hk out fs₁ s₁ hs₁ v s' hv

/-- A check of the interpreter. -/
theorem lift_bind {α : Type} {r : Except String α} {k : α → EvalM D L D}
    (h : ∀ a, r = .ok a → Agrees params n target (k a) gm) :
    Agrees params n target (EvalM.lift r >>= k) gm := by
  cases r with
  | error e => exact throw e
  | ok a => exact h a rfl

/-- The check of the node id. -/
theorem requireNodeId_bind {call : CallView D L} {label : String}
    (h : Agrees params n target m gm) :
    Agrees params n target (Interpreter.requireNodeId call label >>= fun _ => m) gm := by
  unfold Interpreter.requireNodeId
  split
  · exact throw _
  · exact h

/-- **An update of a slot.** -/
theorem updateSlot (htarget : target < n) {fn : StatefulFn} {nodeId : Int}
    {step : NodeSlot D L → Except String (D × NodeSlot D L)}
    {gradStep : GradSlots D L → Except String (ValueGradient D × GradSlots D L)}
    (h : StepAgrees step gradStep) :
    Agrees params n target (Interpreter.updateSlot fn nodeId step)
      (ForwardGradient.updateSlots (slotsOf n target nodeId) gradStep) := by
  intro fs s hs v s' hv
  unfold Interpreter.updateSlot at hv
  cases hstep : step (s.ctx.slots nodeId.toNat) with
  | error e =>
    rw [hstep] at hv
    cases hv
  | ok r =>
    obtain ⟨w, slot'⟩ := r
    rw [hstep] at hv
    cases hv
    have hread := hs.slots nodeId.toNat
    obtain ⟨out, slots', hgrad, hvalue, hfollow⟩ := h _ _ hread _ _ hstep
    have hrun : (ForwardGradient.updateSlots (slotsOf n target nodeId) gradStep).exec fs =
        (.ok out, { fs with
          ctx := fs.ctx.setSlot nodeId.toNat slots'.primal
          sensitivities := fun j => if j = nodeId.toNat * n + target then slots'.grad
            else fs.sensitivities j }) := by
      rw [ForwardGradient.updateSlots, ForwardM.exec_get_bind]
      simp only [slotsOf, hgrad, ForwardM.lift_ok]
      rfl
    refine ⟨out, _, hrun, hvalue, hs.ctxParams, hs.forwardParams, hs.paramCount, fun j => ?_,
      hs.cache⟩
    dsimp only
    by_cases hj : j = nodeId.toNat
    · subst hj
      rw [SignalContext.setSlot_slots_self, SignalContext.setSlot_slots_self, if_pos rfl]
      exact hfollow
    · -- no other node has this sensitivity state
      have hindex : j * n + target ≠ nodeId.toNat * n + target := fun heq =>
        hj (Nat.eq_of_mul_eq_mul_right (Nat.zero_lt_of_lt htarget) (Nat.add_right_cancel heq))
      rw [SignalContext.setSlot_slots_ne _ _ hj, SignalContext.setSlot_slots_ne _ _ hj,
        if_neg hindex]
      exact hs.slots j

end Agrees

/-! ## Calls -/

/-- An argument of a call, for the one evaluator and for the other. -/
structure ArgAgrees (params : List D) (n target : Nat) (a : CallArg D L) (b : GradArg D L) :
    Prop where
  /-- the expression -/
  expr : b.expr = a.expr
  /-- its evaluators -/
  eval : Agrees params n target a.eval b.eval

theorem parsePositiveIntegerPeriod_agrees {e : Expr D} {label label' : String} {period : Nat}
    (h : Interpreter.parsePositiveIntegerPeriod e label = .ok period) :
    ForwardGradient.parsePositiveIntegerPeriod e label' = .ok period := by
  unfold Interpreter.parsePositiveIntegerPeriod at h
  unfold ForwardGradient.parsePositiveIntegerPeriod
  cases hnum : e.asNumber with
  | none =>
    rw [hnum] at h
    cases h
  | some v =>
    rw [hnum] at h
    dsimp only at h ⊢
    split at h
    · cases h
    · rw [if_neg ‹_›]
      exact h

variable {a b c : CallArg D L} {ga gb gc : GradArg D L} {nodeId sid : Int}

/-- A series and a window. -/
theorem evalWindowed_agrees (htarget : target < n) {fn : StatefulFn} {label usage glabel : String}
    (short gshort : Option String)
    {step : Nat → D → NodeSlot D L → Except String (D × NodeSlot D L)}
    {gradStep : GradSlots D L → ValueGradient D → Nat →
      Except String (ValueGradient D × GradSlots D L)}
    (hshort : gshort.isSome → short.isSome)
    (hstep : ∀ period x, StepAgrees (step period x.value) fun slots => gradStep slots x period)
    (ha : ArgAgrees params n target a ga) (hb : ArgAgrees params n target b gb) :
    Agrees params n target
      (Interpreter.evalWindowed fn label usage short step ⟨[a, b], nodeId, sid⟩)
      (ForwardGradient.evalWindowed glabel gshort gradStep (slotsOf n target nodeId) [ga, gb]) := by
  have hrest : ∀ period, Agrees params n target
      (do
        let x ← a.eval
        Interpreter.requireNodeId ⟨[a, b], nodeId, sid⟩ label
        Interpreter.updateSlot fn nodeId (step period x))
      (do
        let x ← ga.eval
        ForwardGradient.updateSlots (slotsOf n target nodeId) fun slots =>
          gradStep slots x period) := fun period =>
    ha.eval.bind fun x => .requireNodeId_bind (.updateSlot htarget (hstep period x))
  unfold Interpreter.evalWindowed ForwardGradient.evalWindowed
  apply Agrees.lift_bind
  intro period hperiod
  dsimp only
  rw [hb.expr, parsePositiveIntegerPeriod_agrees hperiod, ForwardM.lift_ok, pure_bind]
  cases short with
  | none =>
    cases gshort with
    | none => exact hrest period
    | some ge => cases hshort rfl
  | some e =>
    dsimp only
    split
    · exact .throw e
    · cases gshort with
      | none => exact hrest period
      | some ge => exact hrest period

/-- `ema`: the forward evaluator looks at the window after the series. -/
theorem evalEma_agrees (htarget : target < n) (ha : ArgAgrees params n target a ga)
    (hb : ArgAgrees params n target b gb) :
    Agrees params n target (Interpreter.evalEma ⟨[a, b], nodeId, sid⟩)
      (ForwardGradient.evalEma (slotsOf n target nodeId) [ga, gb]) := by
  unfold Interpreter.evalEma Interpreter.evalWindowed ForwardGradient.evalEma
  apply Agrees.lift_bind
  intro period hperiod
  dsimp only
  refine ha.eval.bind fun x => ?_
  rw [hb.expr, parsePositiveIntegerPeriod_agrees hperiod, ForwardM.lift_ok, pure_bind]
  exact .requireNodeId_bind (.updateSlot htarget (ema_stepAgrees period x))

theorem evalEmaAlpha_agrees (htarget : target < n) (ha : ArgAgrees params n target a ga)
    (hb : ArgAgrees params n target b gb) :
    Agrees params n target (Interpreter.evalEmaAlpha ⟨[a, b], nodeId, sid⟩)
      (ForwardGradient.evalEmaAlpha (slotsOf n target nodeId) [ga, gb]) := by
  unfold Interpreter.evalEmaAlpha ForwardGradient.evalEmaAlpha
  dsimp only
  refine ha.eval.bind fun x => hb.eval.bind fun alpha => ?_
  split
  · exact .throw _
  · exact .requireNodeId_bind (.updateSlot htarget (emaAlpha_stepAgrees x alpha))

/-- Two series and a window. -/
theorem evalPair_agrees (htarget : target < n) {fn : StatefulFn} {label usage glabel : String}
    {step : Nat → D → D → NodeSlot D L → Except String (D × NodeSlot D L)}
    {gradStep : GradSlots D L → ValueGradient D → ValueGradient D → Nat →
      ValueGradient D × GradSlots D L}
    (hstep : ∀ period x y, StepAgrees (step period x.value y.value) fun slots =>
      .ok (gradStep slots x y period))
    (ha : ArgAgrees params n target a ga) (hb : ArgAgrees params n target b gb)
    (hc : ArgAgrees params n target c gc) :
    Agrees params n target (Interpreter.evalPair fn label usage step ⟨[a, b, c], nodeId, sid⟩)
      (ForwardGradient.evalPair glabel gradStep (slotsOf n target nodeId) [ga, gb, gc]) := by
  unfold Interpreter.evalPair ForwardGradient.evalPair
  apply Agrees.lift_bind
  intro period hperiod
  dsimp only
  rw [hc.expr, parsePositiveIntegerPeriod_agrees hperiod, ForwardM.lift_ok, pure_bind]
  exact ha.eval.bind fun x => hb.eval.bind fun y =>
    .requireNodeId_bind (.updateSlot htarget (hstep period x y))

/-- Two series. -/
theorem evalCross_agrees (htarget : target < n) {fn : StatefulFn} {label : String}
    {step : D → D → NodeSlot D L → Except String (D × NodeSlot D L)}
    {gradStep : GradSlots D L → ValueGradient D → ValueGradient D → ValueGradient D × GradSlots D L}
    (hstep : ∀ x y, StepAgrees (step x.value y.value) fun slots => .ok (gradStep slots x y))
    (ha : ArgAgrees params n target a ga) (hb : ArgAgrees params n target b gb) :
    Agrees params n target (Interpreter.evalCross fn label step ⟨[a, b], nodeId, sid⟩)
      (ForwardGradient.evalCross gradStep (slotsOf n target nodeId) [ga, gb]) := by
  unfold Interpreter.evalCross ForwardGradient.evalCross
  dsimp only
  exact ha.eval.bind fun x => hb.eval.bind fun y =>
    .requireNodeId_bind (.updateSlot htarget (hstep x y))

/-- `kalman1d`: the noise is evaluated to what lies above the floor. -/
theorem evalKalman1d_agrees (htarget : target < n) (hzero : lt (ofNat 0 : D) (ofNat 0) = false)
    (hnoise : ∀ s : EvalState D L, s.ctx.params = params → ∀ r s', c.eval s = (.ok r, s') →
      NoiseAboveFloor r)
    (ha : ArgAgrees params n target a ga) (hb : ArgAgrees params n target b gb)
    (hc : ArgAgrees params n target c gc) :
    Agrees params n target (Interpreter.evalKalman1d ⟨[a, b, c], nodeId, sid⟩)
      (ForwardGradient.evalKalman1d (slotsOf n target nodeId) [ga, gb, gc]) := by
  unfold Interpreter.evalKalman1d ForwardGradient.evalKalman1d
  dsimp only
  refine hb.eval.bind fun q => ?_
  -- the value of the noise is needed, so the state it is read in
  intro fs s hs v s' hv
  obtain ⟨r, s₁, hr, hv⟩ := EvalM.bind_eq_ok hv
  obtain ⟨out, fs₁, hout, rfl, hs₁⟩ := hc.eval fs s hs r s₁ hr
  have habove := hnoise s hs.ctxParams _ _ hr
  rw [ForwardM.exec_bind hout]
  refine Agrees.apply ?_ hs₁ hv
  split
  · exact .throw _
  · rename_i hcheck
    rw [Bool.or_eq_true, not_or, Bool.not_eq_true] at hcheck
    exact ha.eval.bind fun x =>
      .requireNodeId_bind (.updateSlot htarget (kalman1d_stepAgrees x hzero hcheck.1 habove))

/-- The value of a literal or a parameter. -/
def Expr.fixedValue (params : List D) : Expr D → Option D
  | .numberLiteral _ v => some v
  | .parameterExpr _ _ id => if id < 0 then none else params[id.toNat]?
  | _ => none

/-- **A call the two evaluators agree on**, its id as the set-up passes leave it. -/
structure Call.ForwardReads (params : List D) (c : Call D) : Prop where
  /-- `vwap` has no tangent -/
  noVwap : Builtin.ofName c.name ≠ some (.stateful .vwap)
  /-- a stateful call has an id -/
  stateful : isStatefulOp c.name = true → 0 ≤ c.nodeId
  /-- no other call has one that the caches look at -/
  stateless : isStatefulOp c.name = false → c.nodeId ≤ 0
  /-- the measurement noise of `kalman1d` -/
  noise : Builtin.ofName c.name = some (.stateful .kalman1d) → ∀ x q r, c.args = [x, q, r] →
    ∃ v, r.fixedValue params = some v ∧ NoiseAboveFloor v

variable [Fp L] [Widen D L] {symbols : SymbolTable} {market : MarketState D}

omit [Fp D] [Fp L] [Widen D L] in
theorem visitParameter_eq_ok {name : String} {id : Int} {s s' : EvalState D L} {v : D}
    (h : Interpreter.visitParameter name id s = (.ok v, s')) :
    s' = s ∧ (if id < 0 then none else s.ctx.params[id.toNat]?) = some v := by
  unfold Interpreter.visitParameter at h
  split at h
  · cases h
  · rename_i hparams
    split at h
    · cases h
    · rw [hparams, if_neg ‹_›]
      split at h
      · cases h
        exact ⟨rfl, ‹_›⟩
      · cases h

theorem visit_fixedValue {e : Expr D} {s s' : EvalState D L} {v w : D}
    (hs : s.ctx.params = params) (hv : e.fixedValue params = some v)
    (h : Interpreter.visit symbols market e s = (.ok w, s')) : w = v := by
  subst hs
  cases e with
  | numberLiteral loc x =>
    cases hv
    cases h
    rfl
  | parameterExpr loc name id =>
    obtain ⟨-, hread⟩ := visitParameter_eq_ok h
    exact Option.some.inj (hread.symm.trans hv)
  | identifierExpr | unaryOp | binaryOp | conditional | functionCall => cases hv

/-- **A stateful call**, past its slots. -/
theorem evalStateful_agrees (htarget : target < n) (hzero : lt (ofNat 0 : D) (ofNat 0) = false)
    {fn : StatefulFn} (hfn : fn ≠ .vwap) {args : List (Expr D)}
    (hargs : ∀ a ∈ args, Agrees params n target (Interpreter.visit (L := L) symbols market a)
      (ForwardGradient.evalExpr symbols market target a))
    (hnoise : fn = .kalman1d → ∀ x q r, args = [x, q, r] →
      ∃ v, r.fixedValue params = some v ∧ NoiseAboveFloor v) :
    Agrees params n target
      (Interpreter.evalStateful symbols market fn
        ⟨Interpreter.visitArgs symbols market args, nodeId, sid⟩)
      (ForwardGradient.evalStateful fn (slotsOf n target nodeId)
        (ForwardGradient.evalArgs symbols market target args)) := by
  have harg : ∀ a ∈ args, ArgAgrees params n target ⟨a, Interpreter.visit symbols market a⟩
      ⟨a, ForwardGradient.evalExpr symbols market target a⟩ := fun a ha => ⟨rfl, hargs a ha⟩
  -- the interpreter checks the number of arguments
  rcases args with _ | ⟨a, _ | ⟨b, _ | ⟨c, _ | ⟨d, rest⟩⟩⟩⟩
  · cases fn <;> exact .throw _
  · cases fn <;> exact .throw _
  · have ha := harg a List.mem_cons_self
    have hb := harg b (List.mem_cons_of_mem _ List.mem_cons_self)
    cases fn with
    | lag =>
      unfold Interpreter.evalStateful Interpreter.evalLag ForwardGradient.evalStateful
      exact evalWindowed_agrees htarget none none id lag_stepAgrees ha hb
    | sma =>
      unfold Interpreter.evalStateful Interpreter.evalSma ForwardGradient.evalStateful
      exact evalWindowed_agrees htarget none none id sma_stepAgrees ha hb
    | ema => exact evalEma_agrees htarget ha hb
    | emaAlpha => exact evalEmaAlpha_agrees htarget ha hb
    | rollingStd =>
      unfold Interpreter.evalStateful Interpreter.evalRollingStd ForwardGradient.evalStateful
      exact evalWindowed_agrees htarget (some _) (some _) (fun _ => rfl) rollingStd_stepAgrees ha hb
    | zscore =>
      unfold Interpreter.evalStateful Interpreter.evalZscore ForwardGradient.evalStateful
      exact evalWindowed_agrees htarget (some _) (some _) (fun _ => rfl) zscore_stepAgrees ha hb
    | rollingMin =>
      unfold Interpreter.evalStateful Interpreter.evalRollingMin ForwardGradient.evalStateful
      exact evalWindowed_agrees htarget none none id rollingMin_stepAgrees ha hb
    | rollingMax =>
      unfold Interpreter.evalStateful Interpreter.evalRollingMax ForwardGradient.evalStateful
      exact evalWindowed_agrees htarget none none id rollingMax_stepAgrees ha hb
    | crossAbove => exact evalCross_agrees htarget crossAbove_stepAgrees ha hb
    | crossBelow => exact evalCross_agrees htarget crossBelow_stepAgrees ha hb
    | vwap => exact absurd rfl hfn
    | rollingCorr | rollingBeta | kalman1d => exact .throw _
  · have ha := harg a List.mem_cons_self
    have hb := harg b (List.mem_cons_of_mem _ List.mem_cons_self)
    have hc := harg c (List.mem_cons_of_mem _ (List.mem_cons_of_mem _ List.mem_cons_self))
    cases fn with
    | rollingCorr =>
      unfold Interpreter.evalStateful Interpreter.evalRollingCorr ForwardGradient.evalStateful
      exact evalPair_agrees htarget rollingCorr_stepAgrees ha hb hc
    | rollingBeta =>
      unfold Interpreter.evalStateful Interpreter.evalRollingBeta ForwardGradient.evalStateful
      exact evalPair_agrees htarget rollingBeta_stepAgrees ha hb hc
    | kalman1d =>
      obtain ⟨v, hv, habove⟩ := hnoise rfl _ _ _ rfl
      refine evalKalman1d_agrees htarget hzero (fun s hs r s' hr => ?_) ha hb hc
      rw [visit_fixedValue hs hv hr]
      exact habove
    | vwap => exact absurd rfl hfn
    | lag | sma | ema | emaAlpha | rollingStd | zscore | rollingMin | rollingMax | crossAbove
    | crossBelow => exact .throw _
  · cases fn <;> exact .throw _

omit [Fp L] [Widen D L] in
/-- The slots of a call with an id. -/
theorem slotIds_agrees (htarget : target < n) (hid : 0 ≤ nodeId) {m : EvalM D L D} (name : String)
    {f : ForwardGradient.SlotIds → ForwardM D L (ValueGradient D)}
    (h : Agrees params n target m (f (slotsOf n target nodeId))) :
    Agrees params n target m (ForwardGradient.slotIds name nodeId target >>= f) := by
  intro fs s hs v s' hv
  have hrun : (ForwardGradient.slotIds (D := D) (L := L) name nodeId target).exec fs =
      (.ok (slotsOf n target nodeId), fs) := by
    unfold ForwardGradient.slotIds
    rw [if_neg (not_lt.mpr hid)]
    dsimp only
    rw [ForwardM.exec_get_bind, ForwardGradient.gradientSlot,
      hs.paramCount, if_neg (Nat.ne_of_gt (Nat.zero_lt_of_lt htarget))]
    rfl
  rw [ForwardM.exec_bind hrun]
  exact h fs s hs v s' hv

omit [Fp L] [Widen D L] in
/-- **The caches**: a call is evaluated once for an id. -/
theorem evalCall_agrees {m : EvalM D L D} {gm : ForwardM D L (ValueGradient D)} (nodeId : Int)
    (h : Agrees params n target m gm) :
    Agrees params n target
      (fun s => match if 0 < nodeId then s.cache nodeId else none with
        | some v => Interpreter.noteReturn nodeId v s
        | none => (m >>= Interpreter.cacheAndReturn nodeId) s)
      (ForwardGradient.evalCall nodeId gm) := by
  intro fs s hs v s' hv
  unfold ForwardGradient.evalCall
  by_cases hid : 0 < nodeId
  · rw [if_pos hid, ForwardM.exec_get_bind]
    have hcache := hs.cache nodeId
    cases hread : fs.cache nodeId with
    | some out =>
      rw [hread] at hcache
      dsimp only at hv
      rw [if_pos hid, ← hcache] at hv
      cases hv
      exact ⟨out, fs, rfl, rfl, hs.withTrace _⟩
    | none =>
      rw [hread] at hcache
      dsimp only at hv
      rw [if_pos hid, ← hcache] at hv
      obtain ⟨w, s₁, hw, hv⟩ := EvalM.bind_eq_ok hv
      obtain ⟨out, fs₁, hout, rfl, hs₁⟩ := h fs s hs w s₁ hw
      unfold Interpreter.cacheAndReturn at hv
      rw [if_pos hid] at hv
      cases hv
      dsimp only
      rw [ForwardM.exec_bind hout]
      refine ⟨out, _, rfl, rfl, hs₁.ctxParams, hs₁.forwardParams, hs₁.paramCount, hs₁.slots,
        fun j => ?_⟩
      dsimp only
      split
      · rfl
      · exact hs₁.cache j
  · rw [if_neg hid]
    dsimp only at hv
    rw [if_neg hid] at hv
    obtain ⟨w, s₁, hw, hv⟩ := EvalM.bind_eq_ok hv
    obtain ⟨out, fs₁, hout, rfl, hs₁⟩ := h fs s hs w s₁ hw
    unfold Interpreter.cacheAndReturn at hv
    rw [if_neg hid] at hv
    cases hv
    exact ⟨out, fs₁, hout, rfl, hs₁.withTrace _⟩

/-- **A call.** -/
theorem visitCall_agrees (htarget : target < n) (hzero : lt (ofNat 0 : D) (ofNat 0) = false)
    {name : String} {args : List (Expr D)}
    (hcall : Call.ForwardReads params ⟨name, args, nodeId, sid⟩)
    (hargs : ∀ a ∈ args, Agrees params n target (Interpreter.visit (L := L) symbols market a)
      (ForwardGradient.evalExpr symbols market target a)) :
    Agrees params n target
      (Interpreter.visitCall symbols market name
        ⟨Interpreter.visitArgs symbols market args, nodeId, sid⟩)
      (ForwardGradient.evalCall nodeId (ForwardGradient.evalFunction symbols market target name
        (ForwardGradient.evalArgs symbols market target args) nodeId sid)) := by
  -- a call that is not stateful has no id that the caches look at
  have hstateless : isStatefulOp name = false → ∀ {m : EvalM D L D}
      {gm : ForwardM D L (ValueGradient D)}, Agrees params n target m gm →
      Agrees params n target (fun s => match if 0 < nodeId then s.cache nodeId else none with
        | some v => Interpreter.noteReturn nodeId v s
        | none => m s) (ForwardGradient.evalCall nodeId gm) := by
    intro hname m gm h
    have hid := not_lt.mpr (hcall.stateless hname)
    unfold ForwardGradient.evalCall
    simp only [if_neg hid]
    exact h
  unfold Interpreter.visitCall Interpreter.dispatch ForwardGradient.evalFunction
  cases hname : Builtin.ofName name with
  | none => exact hstateless (by rw [isStatefulOp, hname]) (.throw _)
  | some b =>
    cases b with
    | market fn =>
      refine hstateless (by rw [isStatefulOp, hname]) ?_
      rcases args with _ | ⟨a, _ | ⟨b, rest⟩⟩
      · exact .throw _
      · dsimp only [Interpreter.evalMarket, Interpreter.visitArgs, ForwardGradient.evalMarketRead,
          ForwardGradient.evalArgs]
        apply Agrees.lift_bind
        intro id hid
        rw [List.map_cons, List.map_nil, hid, ForwardM.lift_ok, pure_bind]
        exact .pure ⟨(market id).read fn, ofNat 0⟩
      · exact .throw _
    | math fn =>
      refine hstateless (by rw [isStatefulOp, hname]) ?_
      rcases args with _ | ⟨a, _ | ⟨b, rest⟩⟩
      · exact .throw _
      · exact (hargs a List.mem_cons_self).bind fun x => .pure (fn.forward x)
      · exact .throw _
    | stateful fn =>
      have hst : isStatefulOp name = true := by rw [isStatefulOp, hname]
      refine evalCall_agrees nodeId (slotIds_agrees htarget (hcall.stateful hst) name ?_)
      refine evalStateful_agrees htarget hzero ?_ hargs ?_
      · rintro rfl
        exact hcall.noVwap hname
      · rintro rfl
        exact hcall.noise hname

/-- **An expression**, by induction on it. -/
theorem evalExpr_agrees (htarget : target < n) (hzero : lt (ofNat 0 : D) (ofNat 0) = false)
    {e : Expr D} (h : ∀ c ∈ e.calls, c.ForwardReads params) :
    Agrees params n target (Interpreter.visit (L := L) symbols market e)
      (ForwardGradient.evalExpr symbols market target e) := by
  induction e using Expr.induct with
  | numberLiteral loc v => exact .pure ⟨v, ofNat 0⟩
  | identifierExpr loc name => exact .throw _
  | parameterExpr loc name id =>
    intro fs s hs v s' hv
    obtain ⟨rfl, -⟩ := visitParameter_eq_ok hv
    have hparams : fs.ctx.params = s'.ctx.params := hs.forwardParams.trans hs.ctxParams.symm
    exact ⟨_, fs, evalParameter_eq hparams hv, rfl, hs⟩
  | unaryOp loc k e ih =>
    rw [Interpreter.visit, ForwardGradient.evalExpr]
    refine (ih h).bind fun x => ?_
    cases k with
    | plus => exact .pure x
    | minus => exact .pure ⟨neg x.value, neg x.gradient⟩
  | binaryOp loc k l r ihl ihr =>
    rw [Interpreter.visit, ForwardGradient.evalExpr]
    have hl := ihl fun c hc => h c (List.mem_append_left _ hc)
    have hr := ihr fun c hc => h c (List.mem_append_right _ hc)
    exact hl.bind fun x => hr.bind fun y => .pure (k.forward x y)
  | conditional loc c t e ihc iht ihe =>
    rw [Interpreter.visit, ForwardGradient.evalExpr]
    refine (ihc fun d hd => h d (List.mem_append_left _ (List.mem_append_left _ hd))).bind
      fun x => ?_
    -- both take the same branch
    split
    · exact iht fun d hd => h d (List.mem_append_left _ (List.mem_append_right _ hd))
    · exact ihe fun d hd => h d (List.mem_append_right _ hd)
  | functionCall loc name args nid sid ih =>
    rw [Interpreter.visit, ForwardGradient.evalExpr]
    refine visitCall_agrees htarget hzero (h _ List.mem_cons_self) fun a ha =>
      ih a ha fun c hc => ?_
    exact h c (List.mem_cons_of_mem _ (Expr.mem_callsArgs.mpr ⟨a, ha, hc⟩))

end Agreement

/-! ## Runs -/

section Runs

variable [Fp D] [Fp L] [Widen D L]

/-- `Interpreter::Evaluate` on one body and market snapshot after the other, up to the first
exception. -/
def Interpreter.evaluateAll (symbols : SymbolTable) :
    List (Expr D × MarketState D) → SignalContext D (NodeSlot D L) → Except String (List D)
  | [], _ => .ok []
  | (body, market) :: rest, ctx => do
    let (r, ctx) := evaluate symbols body market ctx
    let v ← r
    let vs ← evaluateAll symbols rest ctx
    .ok (v :: vs)

/-- `EvaluateSignalGradient` on one body and market snapshot after the other, up to the first
exception. -/
def ForwardGradient.evaluateAll (symbols : SymbolTable) (paramId : Int) :
    List (Expr D × MarketState D) → ForwardState D L → Except String (List (ValueGradient D))
  | [], _ => .ok []
  | (body, market) :: rest, s => do
    let (r, s) := evaluateSignalGradient symbols body market s paramId
    let v ← r
    let vs ← evaluateAll symbols paramId rest s
    .ok (v :: vs)

/-- A context with parameters, prewarmed for a program. -/
def preparedContext (params : List D) (signals : List (SignalDef D)) :
    SignalContext D (NodeSlot D L) :=
  signals.foldl prewarmSignalContext (.fresh params)

/-- An evaluator in such a context, with the sensitivities `SetStandaloneParameters` leaves. -/
def preparedForward (params : List D) (signals : List (SignalDef D)) : ForwardState D L :=
  ⟨preparedContext params signals, fun _ => .empty, params.length, fun _ => none⟩

variable {params : List D} {signals : List (SignalDef D)}

/-- A slot that no evaluation has written. -/
structure NodeSlot.Unused (slot : NodeSlot D L) : Prop where
  /-- `rolling_std` did not slide -/
  rollingStd : slot.rollingStd.slidesSinceRefresh = 0
  /-- `zscore` did not slide -/
  zscore : slot.zscore.slidesSinceRefresh = 0
  /-- `kalman1d` has its first variance -/
  kalman1d : slot.kalman1d.p = ofNat 0

omit [Widen D L] in
theorem RingStatsState.prewarm_slides (st : RingStatsState D L) (period : Nat) :
    (st.prewarm period).slidesSinceRefresh = st.slidesSinceRefresh := by
  unfold RingStatsState.prewarm
  split
  · rfl
  · rfl

omit [Widen D L] in
theorem NodeSlot.Unused.prewarm {slot : NodeSlot D L} (h : slot.Unused) (fn : StatefulFn)
    (literal : Option D) : (slot.prewarm fn literal).Unused := by
  obtain ⟨hstd, hz, hk⟩ := h
  unfold NodeSlot.prewarm
  cases fn with
  | rollingStd => exact ⟨(slot.rollingStd.prewarm_slides _).trans hstd, hz, hk⟩
  | zscore => exact ⟨hstd, (slot.zscore.prewarm_slides _).trans hz, hk⟩
  | kalman1d => exact ⟨hstd, hz, rfl⟩
  | sma | emaAlpha | crossAbove | crossBelow => exact ⟨hstd, hz, hk⟩
  | ema | vwap | lag | rollingMin | rollingMax | rollingCorr | rollingBeta =>
    dsimp only
    split
    · exact ⟨hstd, hz, hk⟩
    · exact ⟨hstd, hz, hk⟩

omit [Widen D L] in
/-- What a prewarmed context holds. -/
theorem preparedContext_unused (params : List D) (signals : List (SignalDef D)) :
    (preparedContext (L := L) params signals).params = params ∧
      ∀ m, ((preparedContext (L := L) params signals).slots m).Unused := by
  have hfold : ∀ ctx : SignalContext D (NodeSlot D L), (∀ m, (ctx.slots m).Unused) →
      (signals.foldl prewarmSignalContext ctx).params = ctx.params ∧
        ∀ m, ((signals.foldl prewarmSignalContext ctx).slots m).Unused := by
    induction signals with
    | nil => exact fun ctx h => ⟨rfl, h⟩
    | cons s rest ih =>
      intro ctx h
      obtain ⟨hparams, hslots⟩ := ih (prewarmSignalContext ctx s)
        (prewarmExpr_keeps (fun _ fn literal hs => hs.prewarm fn literal) s.body ctx h)
      exact ⟨hparams.trans (prewarmExpr_params s.body ctx), hslots⟩
  exact hfold _ fun _ => ⟨rfl, rfl, rfl⟩

omit [Widen D L] in
/-- The two evaluators start alike. -/
theorem preparedForward_follows (hzero : lt (ofNat 0 : D) (ofNat 0) = false) (params : List D)
    (signals : List (SignalDef D)) (target : Nat) :
    ForwardFollows (L := L) params params.length target (preparedForward params signals)
      ⟨preparedContext params signals, fun _ => none, []⟩ := by
  obtain ⟨hparams, hslots⟩ := preparedContext_unused (L := L) params signals
  refine ⟨hparams, hparams, rfl, fun j => ⟨⟨_, rfl⟩, ?_, ?_, ?_⟩, fun _ => rfl⟩
  · exact ⟨rfl, fun _ => (hslots j).rollingStd.symm, fun _ => ⟨(hslots j).rollingStd, rfl⟩⟩
  · exact ⟨rfl, fun _ => (hslots j).zscore.symm, fun _ => ⟨(hslots j).zscore, rfl⟩⟩
  · dsimp only
    rw [(hslots j).kalman1d]
    exact hzero

/-- **A run**, by induction on the evaluations: each starts with empty caches. -/
theorem evaluateAll_agrees {symbols : SymbolTable} {target : Nat} (htarget : target < params.length)
    (hzero : lt (ofNat 0 : D) (ofNat 0) = false) {evals : List (Expr D × MarketState D)}
    (h : ∀ e ∈ evals, ∀ c ∈ e.1.calls, c.ForwardReads params) {fs : ForwardState D L}
    {ctx : SignalContext D (NodeSlot D L)}
    (hs : ForwardFollows params params.length target { fs with cache := fun _ => none }
      ⟨ctx, fun _ => none, []⟩) {vs : List D}
    (hvs : Interpreter.evaluateAll symbols evals ctx = .ok vs) :
    ∃ outs, ForwardGradient.evaluateAll symbols target evals fs = .ok outs ∧
      outs.map ValueGradient.value = vs := by
  induction evals generalizing fs ctx vs with
  | nil =>
    cases hvs
    exact ⟨[], rfl, rfl⟩
  | cons eval rest ih =>
    obtain ⟨body, market⟩ := eval
    obtain ⟨v, hv, hvs⟩ := except_bind_ok.mp hvs
    obtain ⟨ws, hws, hvs⟩ := except_bind_ok.mp hvs
    cases hvs
    -- one evaluation
    have hstep : Agrees (L := L) params params.length target (Interpreter.visit symbols market body)
        (ForwardGradient.evalExpr symbols market target body) :=
      evalExpr_agrees htarget hzero (h _ List.mem_cons_self)
    obtain ⟨out, fs', hout, rfl, hs'⟩ := hstep _ _ hs v _ (Prod.ext hv rfl)
    have hne : fs.ctx.params ≠ [] := by
      rw [show fs.ctx.params = params from hs.forwardParams]
      exact List.ne_nil_of_length_pos (Nat.zero_lt_of_lt htarget)
    have hrange : ¬((target : Int) < 0 ∨ (fs.ctx.params.length : Int) ≤ target) := by
      rw [show fs.ctx.params = params from hs.forwardParams]
      omega
    have heval : ForwardGradient.evaluateSignalGradient symbols body market fs target =
        (.ok out, fs') := by
      rw [ForwardGradient.evaluateSignalGradient, if_neg hne, if_neg hrange, Int.toNat_natCast]
      exact hout
    -- the rest
    have hnext : ForwardFollows params params.length target { fs' with cache := fun _ => none }
        ⟨(Interpreter.evaluate symbols body market ctx).2, fun _ => none, []⟩ :=
      ⟨hs'.ctxParams, hs'.forwardParams, hs'.paramCount, hs'.slots, fun _ => rfl⟩
    obtain ⟨outs, houts, hmap⟩ := ih (fun e he => h e (List.mem_cons_of_mem _ he)) hnext hws
    refine ⟨out :: outs, ?_, congrArg (out.value :: ·) hmap⟩
    rw [ForwardGradient.evaluateAll, heval]
    exact except_bind_ok.mpr ⟨out, rfl, except_bind_ok.mpr ⟨outs, houts, rfl⟩⟩

end Runs

section Example

open Concrete

/-- `p * lag(mid(A), 1) + kalman1d(mid(A), 0, 1)` -/
def lagAndKalman : Expr (Exact ℚ) :=
  plus (.binaryOp {} .mul (.parameterExpr {} "p" 0) (app "lag" [mid "A", num 1] 1))
    (app "kalman1d" [mid "A", num 0, num 1] 2)

theorem lagAndKalman_reads (params : List (Exact ℚ)) :
    ∀ c ∈ lagAndKalman.calls, c.ForwardReads params := by
  intro c hc
  have hcalls : c = ⟨"lag", [mid "A", num 1], 1, -1⟩ ∨ c = ⟨"mid", [ident "A"], -1, -1⟩ ∨
      c = ⟨"kalman1d", [mid "A", num 0, num 1], 2, -1⟩ ∨ c = ⟨"mid", [ident "A"], -1, -1⟩ := by
    simpa [lagAndKalman, plus, mid, app, num, ident, Expr.calls, Expr.callsArgs] using hc
  rcases hcalls with rfl | rfl | rfl | rfl
  · exact ⟨by decide, by decide, by decide, fun hname => absurd hname (by decide)⟩
  · exact ⟨by decide, by decide, by decide, fun hname => absurd hname (by decide)⟩
  · refine ⟨by decide, by decide, by decide, fun _ x q r hargs => ⟨.val 1, ?_, ?_⟩⟩
    · cases hargs
      rfl
    · exact noiseAboveFloor_exact (by norm_num)
  · exact ⟨by decide, by decide, by decide, fun hname => absurd hname (by decide)⟩

end Example

end JitSignalEngine
