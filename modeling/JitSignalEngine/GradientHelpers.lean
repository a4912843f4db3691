import JitSignalEngine.ForwardPrimal
import JitSignalEngine.GradientCode
import JitSignalEngine.PreparedOperators

/-!
# The gradient helpers do what the forward evaluator does

A `jit_rt_*_grad` helper relies on the prewarm where the case of `EvalFunction` sets its state up, it
stores a period that nobody reads, and it skips an update of `kalman1d` from another denominator on.
On slots that the prewarm has set up, the two return the same value and the same gradient.

* `NodeSlot.SizedFor` — what the prewarm leaves for the operators that rely on it.
* `HelperFollows` — the slots of a helper and those of the evaluator.
* `HelperAgrees` — a step of the one and a step of the other.
-/

namespace JitSignalEngine

open Fp Widen

variable {D L : Type}

/-! ## Slots -/

/-- A slot with another period in `ema`. -/
def NodeSlot.withEmaPeriod (slot : NodeSlot D L) (period : Int) : NodeSlot D L :=
  { slot with ema := { slot.ema with period := period } }

/-- **What the helper of an operator relies on**: the size of its ring or deque. -/
def NodeSlot.SizedFor (fn : StatefulFn) (period : Nat) (slot : NodeSlot D L) : Prop :=
  0 < period → match fn with
  | .sma => slot.sma.Prepared period
  | .lag => slot.lag.Prepared period
  | .rollingMin => slot.rollingMin.dq.cap = period + 1
  | .rollingMax => slot.rollingMax.dq.cap = period + 1
  | _ => True

section Agreement

variable [Fp D]

/-- **The slots of a helper and of the evaluator.** -/
structure HelperFollows (code fwd : GradSlots D L) : Prop where
  /-- the states but for the period of `ema` -/
  primal : ∃ period, code.primal = fwd.primal.withEmaPeriod period
  /-- the sensitivity states -/
  grad : code.grad = fwd.grad
  /-- the variance of `kalman1d` -/
  kalman1d : lt fwd.primal.kalman1d.p (ofNat 0) = false

variable [Fp L] [Widen D L]

/-- **A step of a helper**: where the evaluator returns, the helper returns the same, and the slots
follow. -/
def HelperAgrees (fn : StatefulFn) (window : Nat) (helper : GradientFn) (args : List D) (period : Nat)
    (step : GradSlots D L → Except String (ValueGradient D × GradSlots D L)) : Prop :=
  ∀ code fwd, HelperFollows code fwd → fwd.primal.SizedFor fn window →
    ∀ v fwd', step fwd = .ok (v, fwd') → ∃ code', helper.apply args period code = .ok (v, code') ∧
      HelperFollows code' fwd' ∧ fwd'.primal.SizedFor fn window

namespace HelperAgrees

variable {fn : StatefulFn} {window : Nat} {helper : GradientFn} {args : List D} {period : Nat}
  {step : GradSlots D L → Except String (ValueGradient D × GradSlots D L)}

/-- The slots of the helper are those of the evaluator, but for the period. -/
theorem of_slots (h : ∀ (primal : NodeSlot D L) grad p, lt primal.kalman1d.p (ofNat 0) = false →
    primal.SizedFor fn window → ∀ v fwd', step ⟨primal, grad⟩ = .ok (v, fwd') →
    ∃ code', helper.apply args period ⟨primal.withEmaPeriod p, grad⟩ = .ok (v, code') ∧
      HelperFollows code' fwd' ∧ fwd'.primal.SizedFor fn window) :
    HelperAgrees fn window helper args period step := by
  rintro ⟨primal, grad⟩ ⟨fprimal, fgrad⟩ ⟨⟨p, hprimal⟩, hgrad, hk⟩ hsized v fwd' hv
  dsimp only at hprimal hgrad
  subst hprimal
  subst hgrad
  exact h fprimal grad p hk hsized v fwd' hv

/-- A helper that runs the statements of the evaluator, on states that the prewarm need not set
up. -/
theorem of_same {f : GradSlots D L → ValueGradient D × GradSlots D L}
    (happly : ∀ slots, helper.apply args period slots = .ok (f slots))
    (hvalue : ∀ primal grad p, (f ⟨primal.withEmaPeriod p, grad⟩).1 = (f ⟨primal, grad⟩).1)
    (hslots : ∀ primal grad p, (f ⟨primal.withEmaPeriod p, grad⟩).2 =
      ⟨(f ⟨primal, grad⟩).2.primal.withEmaPeriod p, (f ⟨primal, grad⟩).2.grad⟩)
    (hkalman : ∀ slots, (f slots).2.primal.kalman1d = slots.primal.kalman1d)
    (hsized : ∀ slot : NodeSlot D L, slot.SizedFor fn window) :
    HelperAgrees fn window helper args period fun slots => .ok (f slots) := by
  refine of_slots fun primal grad p hk _ v fwd' hv => ?_
  obtain rfl : (f ⟨primal, grad⟩).1 = v := congrArg Prod.fst (Except.ok.inj hv)
  obtain rfl : (f ⟨primal, grad⟩).2 = fwd' := congrArg Prod.snd (Except.ok.inj hv)
  refine ⟨(f ⟨primal.withEmaPeriod p, grad⟩).2,
    (happly _).trans (congrArg Except.ok (Prod.ext (hvalue primal grad p) rfl)),
    ⟨⟨p, ?_⟩, ?_, ?_⟩, hsized _⟩
  · rw [hslots]
  · rw [hslots]
  · rw [hkalman]
    exact hk

end HelperAgrees

open HelperAgrees

variable (window period : Nat) (x y : ValueGradient D)

omit [Fp L] [Widen D L] in
/-- Nobody reads the period. -/
theorem emaGradStep_period (st : WithTangent (EMAState D) D) (alpha : ValueGradient D) (p : Int) :
    emaGradStep ⟨{ st.primal with period := p }, st.grad⟩ x alpha =
      ((emaGradStep st x alpha).1,
        ⟨{ (emaGradStep st x alpha).2.primal with period := p }, (emaGradStep st x alpha).2.grad⟩) := by
  unfold emaGradStep
  dsimp only
  cases st.primal.initialized with
  | false => rfl
  | true => rfl

theorem ema_helperAgrees (alpha : ValueGradient D) {fn : StatefulFn}
    (hfn : fn = .ema ∨ fn = .emaAlpha) :
    HelperAgrees (L := L) fn window .emaAlpha [x.value, x.gradient, alpha.value, alpha.gradient] period
      fun slots => .ok (forwardEma slots x alpha) := by
  have hsized : ∀ slot : NodeSlot D L, slot.SizedFor fn window := by
    rcases hfn with rfl | rfl
    · exact fun _ _ => trivial
    · exact fun _ _ => trivial
  refine of_slots fun primal grad p hk _ v fwd' hv => ?_
  obtain rfl : (forwardEma ⟨primal, grad⟩ x alpha).1 = v := congrArg Prod.fst (Except.ok.inj hv)
  obtain rfl : (forwardEma ⟨primal, grad⟩ x alpha).2 = fwd' := congrArg Prod.snd (Except.ok.inj hv)
  refine ⟨⟨NodeSlot.withEmaPeriod _ period, _⟩, congrArg Except.ok ?_, ⟨⟨period, rfl⟩, rfl, hk⟩,
    hsized _⟩
  unfold jitRtEmaAlphaGrad
  dsimp only [NodeSlot.withEmaPeriod]
  rw [emaGradStep_period x ⟨primal.ema, grad.ema⟩]
  rfl

theorem sma_helperAgrees (hperiod : 0 < period) :
    HelperAgrees (L := L) .sma period .sma [x.value, x.gradient] period
      fun slots => forwardSma slots x period := by
  refine of_slots fun primal grad p hk hsized v fwd' hv => ?_
  obtain ⟨hpush, hprepared⟩ := RingStatsState.Prepared.push (hsized hperiod) hperiod x.value
  unfold forwardSma at hv
  rw [hpush] at hv
  obtain ⟨ring, hring, hv⟩ := except_bind_ok.mp hv
  cases hring
  obtain ⟨gring, hgring, hv⟩ := except_bind_ok.mp hv
  cases hv
  refine ⟨⟨NodeSlot.withEmaPeriod _ p, _⟩, ?_, ⟨⟨p, rfl⟩, rfl, hk⟩,
    fun h => RingStatsState.Prepared.slide (hsized h) x.value⟩
  exact except_bind_ok.mpr ⟨_, hprepared, except_bind_ok.mpr ⟨gring, hgring, rfl⟩⟩

theorem lag_helperAgrees (hperiod : 0 < period) :
    HelperAgrees (L := L) .lag period .lag [x.value, x.gradient] period
      fun slots => forwardLag slots x period := by
  refine of_slots fun primal grad p hk hsized v fwd' hv => ?_
  obtain ⟨hpush, hprepared⟩ := LagState.Prepared.push (hsized hperiod) hperiod x.value
  unfold forwardLag at hv
  rw [hpush] at hv
  obtain ⟨ring, hring, hv⟩ := except_bind_ok.mp hv
  cases hring
  obtain ⟨gring, hgring, hv⟩ := except_bind_ok.mp hv
  cases hv
  refine ⟨⟨NodeSlot.withEmaPeriod _ p, _⟩, ?_, ⟨⟨p, rfl⟩, rfl, hk⟩,
    fun h => LagState.Prepared.slide (hsized h) x.value⟩
  exact except_bind_ok.mpr ⟨_, hprepared, except_bind_ok.mpr ⟨gring, hgring, rfl⟩⟩

theorem rollingStd_helperAgrees :
    HelperAgrees (L := L) .rollingStd window .rollingStd [x.value, x.gradient] period
      fun slots => .ok (jitRtRollingStdGrad slots x period) :=
  of_same (fun _ => rfl) (fun _ _ _ => rfl) (fun _ _ _ => rfl) (fun _ => rfl) fun _ _ => trivial

theorem zscore_helperAgrees :
    HelperAgrees (L := L) .zscore window .zscore [x.value, x.gradient] period
      fun slots => .ok (jitRtZscoreGrad slots x period) :=
  of_same (fun _ => rfl) (fun _ _ _ => rfl) (fun _ _ _ => rfl) (fun _ => rfl) fun _ _ => trivial

theorem rollingCorr_helperAgrees :
    HelperAgrees (L := L) .rollingCorr window .rollingCorr
      [x.value, x.gradient, y.value, y.gradient] period
      fun slots => .ok (jitRtRollingCorrGrad slots x y period) :=
  of_same (fun _ => rfl) (fun _ _ _ => rfl) (fun _ _ _ => rfl) (fun _ => rfl) fun _ _ => trivial

theorem rollingBeta_helperAgrees :
    HelperAgrees (L := L) .rollingBeta window .rollingBeta
      [x.value, x.gradient, y.value, y.gradient] period
      fun slots => .ok (jitRtRollingBetaGrad slots x y period) :=
  of_same (fun _ => rfl) (fun _ _ _ => rfl) (fun _ _ _ => rfl) (fun _ => rfl) fun _ _ => trivial

theorem crossAbove_helperAgrees :
    HelperAgrees (L := L) .crossAbove window .crossAbove [x.value, y.value] period
      fun slots => .ok (jitRtCrossAboveGrad slots x y) :=
  of_same (fun _ => rfl) (fun _ _ _ => rfl) (fun _ _ _ => rfl) (fun _ => rfl) fun _ _ => trivial

theorem crossBelow_helperAgrees :
    HelperAgrees (L := L) .crossBelow window .crossBelow [x.value, y.value] period
      fun slots => .ok (jitRtCrossBelowGrad slots x y) :=
  of_same (fun _ => rfl) (fun _ _ _ => rfl) (fun _ _ _ => rfl) (fun _ => rfl) fun _ _ => trivial

theorem rollingMin_helperAgrees (hperiod : 0 < period) :
    HelperAgrees (L := L) .rollingMin period .rollingMin [x.value, x.gradient] period
      fun slots => .ok (forwardRollingMin slots x period) := by
  refine of_slots fun primal grad p hk hsized v fwd' hv => ?_
  obtain ⟨hinit, hprepared⟩ := updateRolling_prepared .min (hsized hperiod) x.value
  have hcap := (updateRolling_cap .min primal.rollingMin period x.value).trans (hsized hperiod)
  unfold forwardRollingMin at hv
  dsimp only at hv
  rw [hinit] at hv
  cases hv
  exact ⟨⟨NodeSlot.withEmaPeriod _ p, _⟩, except_bind_ok.mpr ⟨_, hprepared, rfl⟩,
    ⟨⟨p, rfl⟩, rfl, hk⟩, fun _ => hcap⟩

theorem rollingMax_helperAgrees (hperiod : 0 < period) :
    HelperAgrees (L := L) .rollingMax period .rollingMax [x.value, x.gradient] period
      fun slots => .ok (forwardRollingMax slots x period) := by
  refine of_slots fun primal grad p hk hsized v fwd' hv => ?_
  obtain ⟨hinit, hprepared⟩ := updateRolling_prepared .max (hsized hperiod) x.value
  have hcap := (updateRolling_cap .max primal.rollingMax period x.value).trans (hsized hperiod)
  unfold forwardRollingMax at hv
  dsimp only at hv
  rw [hinit] at hv
  cases hv
  exact ⟨⟨NodeSlot.withEmaPeriod _ p, _⟩, except_bind_ok.mpr ⟨_, hprepared, rfl⟩,
    ⟨⟨p, rfl⟩, rfl, hk⟩, fun _ => hcap⟩

omit [Fp L] [Widen D L] in
/-- The thresholds of the two updates make no difference where the noise is above both. -/
theorem kalman1dGradStep_floor (hzero : lt (ofNat 0 : D) (ofNat 0) = false)
    {st : WithTangent (Kalman1dState D) (Kalman1dSensitivityState D)} {q r : ValueGradient D}
    (hp : lt st.primal.p (ofNat 0) = false) (hq : lt q.value (ofNat 0) = false)
    (hr : NoiseAboveFloor r.value) :
    kalman1dGradStep (ofNat 0) st x q r = kalman1dGradStep stddevFloor st x q r ∧
      lt (kalman1dGradStep stddevFloor st x q r).2.primal.p (ofNat 0) = false := by
  unfold kalman1dGradStep
  dsimp only
  cases st.primal.initialized with
  | false => exact ⟨rfl, hr.nonneg⟩
  | true =>
    obtain ⟨hpos, hfloor⟩ := hr.denominator _ _ hp hq
    rw [hpos, hfloor]
    refine ⟨rfl, ?_⟩
    simp only [Bool.not_true, Bool.false_eq_true, if_false]
    split
    · exact hzero
    · exact Bool.eq_false_iff.mpr ‹_›

theorem kalman1d_helperAgrees (hzero : lt (ofNat 0 : D) (ofNat 0) = false) {q r : ValueGradient D}
    (hq : lt q.value (ofNat 0) = false) (hr : NoiseAboveFloor r.value) :
    HelperAgrees (L := L) .kalman1d window .kalman1d
      [x.value, x.gradient, q.value, q.gradient, r.value, r.gradient] period
      fun slots => .ok (forwardKalman1d slots x q r) := by
  refine of_slots fun primal grad p hk _ v fwd' hv => ?_
  cases hv
  have hk' : lt (⟨primal.kalman1d, grad.kalman1d⟩ :
      WithTangent (Kalman1dState D) (Kalman1dSensitivityState D)).primal.p (ofNat 0) = false := hk
  obtain ⟨hsame, hnonneg⟩ := kalman1dGradStep_floor x hzero hk' hq hr
  refine ⟨⟨NodeSlot.withEmaPeriod _ p, _⟩, congrArg Except.ok ?_, ⟨⟨p, rfl⟩, rfl, hnonneg⟩,
    fun _ => trivial⟩
  unfold jitRtKalman1dGrad
  dsimp only [NodeSlot.withEmaPeriod]
  rw [hsame]
  rfl

end Agreement

end JitSignalEngine
