import JitSignalEngine.DualPair
import JitSignalEngine.RealArithmetic

/-!
# Runs over dual numbers

* `TangentOp.Agrees` — what an operator keeps from tick to tick, and `TangentOp.tick` that it
  does.
* `tangent_is_dual` — over a stream, both gradient paths return what the recurrence of the
  operator returns over dual numbers.
-/

namespace JitSignalEngine

open Fp Widen Exact DualNumber TrivSqZeroExt

variable {K : Type} [Field K] [LinearOrder K] [IsStrictOrderedRing K] [Transcendental K]

namespace TangentOp

/-- The states of the two runs of an operator. -/
def Agrees (op : TangentOp) (slots : GradSlots (Exact K) (Exact K))
    (dual : NodeSlot (Exact K[ε]) (Exact K[ε])) : Prop :=
  match op with
  | .ema _ | .emaAlpha => EmaAgrees slots.primal.ema slots.grad.ema dual.ema
  | .sma n => SmaAgrees n slots.primal.sma slots.grad.sma dual.sma
  | .lag n => LagAgrees n slots.primal.lag slots.grad.lag dual.lag
  | .rollingCorr n =>
    PairAgrees n slots.primal.rollingCorr slots.grad.rollingCorr dual.rollingCorr
  | .rollingBeta n =>
    PairAgrees n slots.primal.rollingBeta slots.grad.rollingBeta dual.rollingBeta
  | .kalman1d => KalmanAgrees slots.primal.kalman1d slots.grad.kalman1d dual.kalman1d

theorem tick (path : GradientPath) (op : TangentOp) {literal : Option (Exact K)}
    (hreads : op.Reads literal)
    (hsqrt : ∀ v : K, 0 < v → 0 < Transcendental.sqrt v ∧
      Transcendental.sqrt v * Transcendental.sqrt v = v)
    {vs : List K[ε]} (haccepts : op.Accepts vs) {slots : GradSlots (Exact K) (Exact K)}
    {dual : NodeSlot (Exact K[ε]) (Exact K[ε])} (h : op.Agrees slots dual) :
    ∃ out slots' d dual', op.gradStep path slots (vs.map ofDual) = .ok (out, slots') ∧
      op.step dual (vs.map Exact.val) = .ok (d, dual') ∧ AgreesWith out d ∧
      op.Agrees slots' dual' := by
  cases op with
  | ema n =>
    obtain ⟨x, rfl⟩ := List.length_eq_one_iff.1 haccepts
    exact ema_agrees path n x h
  | emaAlpha =>
    obtain ⟨x, a, rfl⟩ := List.length_eq_two.1 haccepts
    exact emaAlpha_agrees path x a h
  | sma n =>
    obtain ⟨x, rfl⟩ := List.length_eq_one_iff.1 haccepts
    exact sma_agrees path hreads.1 x h
  | lag n =>
    obtain ⟨x, rfl⟩ := List.length_eq_one_iff.1 haccepts
    exact lag_agrees path hreads.1 x h
  | rollingCorr n =>
    obtain ⟨x, y, rfl⟩ := List.length_eq_two.1 haccepts
    exact corr_agrees path hreads.1 x y hsqrt h
  | rollingBeta n =>
    obtain ⟨x, y, rfl⟩ := List.length_eq_two.1 haccepts
    exact beta_agrees path hreads.1 x y h
  | kalman1d =>
    obtain ⟨x, q, r, rfl, hq, hr⟩ := haccepts
    exact kalman_agrees path x h hq hr

omit [IsStrictOrderedRing K] in
/-- A prewarmed pair state. -/
theorem pair_agrees_reset {n : Nat} (hn : 0 < n) :
    PairAgrees n (.reset n : RollingPairState (Exact K) (Exact K)) .init .init := by
  have hzero : ¬ 0 = n := by omega
  refine ⟨[], .empty n, PairModel.holds_empty n, ?_, ?_, ?_⟩
  · simp [RollingPairState.sized, RollingPairState.reset, PairModel.empty, PairModel.view]
  · simp [RollingPairSensitivityState.sized, RollingPairSensitivityState.init,
      RollingPairSensitivityState.reset, hzero, PairModel.empty, PairModel.tangents]
  · simp [RollingPairState.sized, RollingPairState.init, RollingPairState.reset, hzero,
      PairModel.empty, PairModel.view]

omit [Field K] [LinearOrder K] [IsStrictOrderedRing K] [Transcendental K] in
/-- Before the first push there is nothing to return, room or not. -/
theorem lagValue_sized_init {D : Type} [Fp D] {n : Nat} (hn : 0 < n) :
    lagValue (LagState.init : LagState D) = lagValue (LagState.init.sized n) := by
  have hzero : ¬ 0 = n := by omega
  simp [lagValue, LagState.sized, LagState.init, LagState.reset, hzero, hn]

/-- A new context, prewarmed, and a new state of the recurrence. -/
theorem agrees_empty (op : TangentOp) {literal : Option (Exact K)} (hreads : op.Reads literal) :
    op.Agrees ⟨NodeSlot.empty.prewarm op.fn literal, .empty⟩ .empty := by
  cases op with
  | ema n =>
    obtain ⟨hn, hperiod⟩ := hreads
    simp only [Agrees, fn, NodeSlot.prewarm, hperiod, if_pos hn]
    exact ⟨rfl, fun hinit => by cases hinit⟩
  | emaAlpha => exact ⟨rfl, fun hinit => by cases hinit⟩
  | sma n =>
    obtain ⟨hn, hperiod⟩ := hreads
    have hzero : ¬ 0 = n := by omega
    refine ⟨⟨.replicate n 0, 0, 0, 0⟩, by simp, ?_, ?_, ?_⟩
    · simp [fn, NodeSlot.prewarm, hperiod, hn, hzero, NodeSlot.empty, RingStatsState.prewarm,
        RingStatsState.init, RingStatsState.reset, RingStatsState.ringSum, RingModel.view]
    · simp [SensitivitySlot.empty, RingStatsState.sized, hzero, RingStatsState.init,
        RingStatsState.reset, RingStatsState.ringSum, RingModel.view]
    · simp [NodeSlot.empty, RingStatsState.sized, hzero, RingStatsState.init, RingStatsState.reset,
        RingStatsState.ringSum, RingModel.view]
  | lag n =>
    obtain ⟨hn, hperiod⟩ := hreads
    have hzero : ¬ 0 = n := by omega
    refine ⟨⟨0, 0, .replicate n 0, by simp, ?_, ?_, ?_⟩, ?_, ?_⟩
    · simpa [fn, NodeSlot.prewarm, hperiod, hn, hzero, NodeSlot.empty, LagState.init] using
        reset_view additiveView_value
    · simpa [SensitivitySlot.empty, LagState.sized, LagState.init, hzero] using
        reset_view additiveView_tangent
    · simpa [NodeSlot.empty, LagState.sized, LagState.init, hzero] using
        reset_view additiveView_dual
    · simp [SensitivitySlot.empty, lagValue_sized_init hn]
    · simp [NodeSlot.empty, lagValue_sized_init hn]
  | rollingCorr n =>
    obtain ⟨hn, hperiod⟩ := hreads
    simpa [Agrees, fn, NodeSlot.prewarm, hperiod, hn, NodeSlot.empty, RollingPairState.init,
      hn.ne, SensitivitySlot.empty] using pair_agrees_reset (K := K) hn
  | rollingBeta n =>
    obtain ⟨hn, hperiod⟩ := hreads
    simpa [Agrees, fn, NodeSlot.prewarm, hperiod, hn, NodeSlot.empty, RollingPairState.init,
      hn.ne, SensitivitySlot.empty] using pair_agrees_reset (K := K) hn
  | kalman1d => exact ⟨rfl, fun hinit => by cases hinit⟩

end TangentOp

/-- **Sensitivities are dual numbers.** From a new prewarmed context, over any stream the
operator accepts, both gradient paths return at every tick the value and the tangent that its
recurrence returns over dual numbers, or neither returns a number. Of the square root only
`rolling_corr` needs that it is one. -/
theorem tangent_is_dual (path : GradientPath) (op : TangentOp) (literal : Option (Exact K))
    (hreads : op.Reads literal)
    (hsqrt : ∀ v : K, 0 < v → 0 < Transcendental.sqrt v ∧
      Transcendental.sqrt v * Transcendental.sqrt v = v)
    (ins : List (List K[ε])) (hins : ∀ vs ∈ ins, op.Accepts vs) :
    ∃ outs slots duals dual,
      runTicks (op.gradStep path) ⟨NodeSlot.empty.prewarm op.fn literal, .empty⟩
        (ins.map fun vs => vs.map ofDual) = .ok (outs, slots) ∧
      runTicks op.step .empty (ins.map fun vs => vs.map Exact.val) = .ok (duals, dual) ∧
      List.Forall₂ AgreesWith outs duals ∧ outs.length = ins.length :=
  runTicks_lockstep (fun vs hvs _ _ h => op.tick path hreads hsqrt (hins vs hvs) h)
    (op.agrees_empty hreads)

/-- Two pairs, with a tangent in each component. -/
noncomputable def twoPairs : List (List ℝ[ε]) := [[inl 1, ε], [ε, inl 2]]

theorem tangent_is_dual_real : ∃ outs slots duals dual,
    runTicks ((TangentOp.rollingCorr 2).gradStep .helper)
      ⟨NodeSlot.empty.prewarm .rollingCorr (some (Exact.val (2 : ℝ))), .empty⟩
      (twoPairs.map fun vs => vs.map ofDual) = .ok (outs, slots) ∧
    runTicks (TangentOp.rollingCorr 2).step .empty
      (twoPairs.map fun vs => vs.map Exact.val) = .ok (duals, dual) ∧
    List.Forall₂ AgreesWith outs duals ∧ outs.length = twoPairs.length := by
  have hreads : (TangentOp.rollingCorr 2).Reads (some (Exact.val (2 : ℝ))) := by
    have htrunc : toInt (Exact.val (2 : ℝ)) = 2 :=
      (if_pos zero_le_two).trans (Int.floor_ofNat 2)
    have habs : fabs (Exact.val (0 : ℝ)) = .val 0 :=
      congrArg Exact.val (by simp : max (0 : ℝ) (-0) = 0)
    refine ⟨by decide, ?_⟩
    simp [parsePreparedPairPeriod, htrunc, ofInt, eqTolerance, habs]
  exact tangent_is_dual .helper (.rollingCorr 2) _ hreads
    (fun v hv => ⟨Real.sqrt_pos.2 hv, Real.mul_self_sqrt hv.le⟩) twoPairs
    (by simp [twoPairs, TangentOp.Accepts])

end JitSignalEngine
