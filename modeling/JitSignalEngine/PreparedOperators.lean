import JitSignalEngine.Lowered

/-!
# Operators on prepared slots

Every windowed operator has a push for the interpreter, which sets the state up when the period
does not fit it, and one for compiled code, which relies on the prewarm. `ema` and `ema_alpha` keep
a factor in the slot that only compiled code reads back. On a slot the prewarm has set up, the two
do the same.

* `NodeSlot.Prepared` — what the prewarm of an operator leaves in the slot.
* `operatorStep_runtimeStep` — where the interpreter's operator returns, the runtime's returns the
  same, and leaves a prepared slot behind.
-/

namespace JitSignalEngine

open Fp Widen Interpreter

variable {D L : Type} [Fp D] [Fp L] [Widen D L]

/-! ## Rings -/

/-- A ring that is set up for a period. -/
def RingStatsState.Prepared (period : Nat) (st : RingStatsState D L) : Prop :=
  st.capacity = period ∧ st.buffer ≠ []

/-- A ring of prices and volumes that is set up for a period. -/
def VwapState.Prepared (period : Nat) (st : VwapState D L) : Prop :=
  st.capacity = period ∧ st.priceBuf ≠ [] ∧ st.volBuf ≠ []

omit [Widen D L] [Fp L] in
/-- A delay line that is set up for a period. -/
def LagState.Prepared (period : Nat) (st : LagState D) : Prop :=
  st.capacity = period ∧ st.buffer ≠ []

theorem ringStatsAdmit_ring (st : RingStatsState D L) (x : D) :
    (ringStatsAdmit st x).capacity = st.capacity ∧ (ringStatsAdmit st x).buffer = st.buffer := by
  rw [ringStatsAdmit]
  split
  · rw [ringStatsUpdateMeanM2OnSlide]
    split <;> exact ⟨rfl, rfl⟩
  · exact ⟨rfl, rfl⟩

omit [Fp D] in
theorem ringStatsRefresh_ring (st : RingStatsState D L) :
    (ringStatsTick st).capacity = st.capacity ∧ (ringStatsTick st).buffer = st.buffer := by
  rw [ringStatsTick]
  split <;> exact ⟨rfl, rfl⟩

theorem replicate_ne_nil {α : Type} {n : Nat} (hn : 0 < n) (x : α) : List.replicate n x ≠ [] :=
  List.ne_nil_of_length_pos (by rwa [List.length_replicate])

omit [Widen D L] in
theorem RingStatsState.prewarm_init {n : Nat} (hn : 0 < n) :
    (RingStatsState.init : RingStatsState D L).prewarm n = .reset n := by
  rw [RingStatsState.prewarm, if_pos ⟨hn, hn.ne⟩]
  rfl

namespace RingStatsState.Prepared

variable {period : Nat} {st : RingStatsState D L}

omit [Widen D L] in
theorem reset (hperiod : 0 < period) : Prepared period (.reset period : RingStatsState D L) :=
  ⟨rfl, replicate_ne_nil hperiod _⟩

theorem slide (h : st.Prepared period) (x : D) : (ringStatsSlide st x).Prepared period := by
  have hadmit := ringStatsAdmit_ring st x
  have hbuffer : (ringStatsWrite (ringStatsAdmit st x) x).buffer ≠ [] := by
    rw [ringStatsWrite, hadmit.2, Ne, List.set_eq_nil_iff]
    exact h.2
  have hcapacity : (ringStatsWrite (ringStatsAdmit st x) x).capacity = period :=
    hadmit.1.trans h.1
  simp only [ringStatsSlide]
  split
  · have hring := ringStatsRefresh_ring (ringStatsWrite (ringStatsAdmit st x) x)
    exact ⟨hring.1.trans hcapacity, hring.2 ▸ hbuffer⟩
  · exact ⟨hcapacity, hbuffer⟩

/-- Both pushes slide the ring. -/
theorem push (h : st.Prepared period) (hperiod : 0 < period) (x : D) :
    ringStatsPush st period x = .ok (ringStatsSlide st x) ∧
      ringStatsPushPrepared st x = .ok (ringStatsSlide st x) := by
  refine ⟨?_, if_neg (not_or.2 ⟨h.1 ▸ hperiod.ne', h.2⟩)⟩
  rw [ringStatsPush, if_neg hperiod.ne', if_pos h.1]

end RingStatsState.Prepared

namespace VwapState.Prepared

variable {period : Nat} {st : VwapState D L}

omit [Widen D L] in
theorem reset (hperiod : 0 < period) : Prepared period (.reset period : VwapState D L) :=
  ⟨rfl, replicate_ne_nil hperiod _, replicate_ne_nil hperiod _⟩

theorem slide (h : st.Prepared period) (price volume : D) :
    (vwapSlide st price volume).Prepared period := by
  refine ⟨h.1, ?_, ?_⟩
  · exact mt (List.set_eq_nil_iff _ _).1 h.2.1
  · exact mt (List.set_eq_nil_iff _ _).1 h.2.2

theorem push (h : st.Prepared period) (hperiod : 0 < period) (price volume : D) :
    vwapPush st period price volume = .ok (vwapSlide st price volume) ∧
      vwapPushPrepared st price volume = .ok (vwapSlide st price volume) := by
  refine ⟨?_, if_neg (not_or.2 ⟨h.1 ▸ hperiod.ne', not_or.2 h.2⟩)⟩
  rw [vwapPush, if_neg hperiod.ne', if_pos h.1]

end VwapState.Prepared

namespace LagState.Prepared

variable {period : Nat} {st : LagState D}

omit [Fp L] [Widen D L] in
theorem reset (hperiod : 0 < period) : Prepared period (.reset period : LagState D) :=
  ⟨rfl, replicate_ne_nil hperiod _⟩

omit [Fp L] [Widen D L] [Fp D] in
theorem slide (h : st.Prepared period) (x : D) : (lagSlide st x).Prepared period :=
  ⟨h.1, mt (List.set_eq_nil_iff _ _).1 h.2⟩

omit [Fp L] [Widen D L] in
theorem push (h : st.Prepared period) (hperiod : 0 < period) (x : D) :
    lagPush st period x = .ok (lagSlide st x) ∧ lagPushPrepared st x = .ok (lagSlide st x) := by
  refine ⟨?_, if_neg (not_or.2 ⟨h.1 ▸ hperiod.ne', h.2⟩)⟩
  rw [lagPush, if_neg hperiod.ne', if_pos h.1]

end LagState.Prepared

/-! ## Deques -/

section Deques

omit [Fp L] [Widen D L]

namespace MonoDequeState

theorem popBackWhile_cap (pops : D → Bool) (fuel : Nat) (st : MonoDequeState D) :
    (st.popBackWhile pops fuel).cap = st.cap := by
  induction fuel generalizing st with
  | zero => rfl
  | succ fuel ih =>
    rw [popBackWhile]
    split
    · exact ih _
    · rfl

theorem popFrontWhile_cap (idx period fuel : Nat) (st : MonoDequeState D) :
    (st.popFrontWhile idx period fuel).cap = st.cap := by
  induction fuel generalizing st with
  | zero => rfl
  | succ fuel ih =>
    rw [popFrontWhile]
    split
    · exact ih _
    · rfl

end MonoDequeState

theorem updateRolling_cap (kind : MonoDequeKind) (st : RollingMinMaxState D) (period : Nat) (x : D) :
    (updateRolling kind st period x).2.dq.cap = st.dq.cap := by
  simp only [updateRolling, MonoDequeState.popFrontWhile_cap, MonoDequeState.monoPushBack,
    MonoDequeState.popBackWhile_cap]

/-- Both updates are the same on a deque that is set up. -/
theorem updateRolling_prepared (kind : MonoDequeKind) {st : RollingMinMaxState D} {period : Nat}
    (h : st.dq.cap = period + 1) (x : D) :
    updateRollingInit kind st period x = updateRolling kind st period x ∧
      updateRollingPrepared kind st x = .ok (updateRolling kind st period x) := by
  constructor
  · rw [updateRollingInit, MonoDequeState.monoInit, if_pos h]
  · refine (if_neg (by omega)).trans ?_
    rw [h, Nat.add_sub_cancel]

end Deques

/-! ## Slots -/

/-- The operators with a window have a period. -/
def StatefulOp.Sized (op : StatefulOp D) : Prop :=
  match op.fn with
  | .emaAlpha | .crossAbove | .crossBelow | .kalman1d => True
  | _ => 0 < op.period

/-- **What the prewarm of an operator leaves in its slot** and the updates keep. The slot of an
`ema_alpha` remembers the factor of its first tick. -/
def NodeSlot.Prepared (op : StatefulOp D) (factor : D) (slot : NodeSlot D L) : Prop :=
  match op.fn with
  | .ema => slot.ema.alpha = emaAlphaOfPeriod op.period ∧ slot.ema.period = op.period
  | .emaAlpha => slot.ema.period = 0 ∧ (slot.ema.initialized = true → slot.ema.alpha = factor)
  | .sma => slot.sma.Prepared op.period
  | .rollingStd => slot.rollingStd.Prepared op.period
  | .zscore => slot.zscore.Prepared op.period
  | .vwap => slot.vwap.Prepared op.period
  | .lag => slot.lag.Prepared op.period
  | .rollingMin => slot.rollingMin.dq.cap = op.period + 1
  | .rollingMax => slot.rollingMax.dq.cap = op.period + 1
  | .crossAbove | .crossBelow | .rollingCorr | .rollingBeta | .kalman1d => True

section Slots

variable {op : StatefulOp D} {factor : D} {market : MarketState D} {vs : List D}
  {slot slot' : NodeSlot D L} {v : D}

omit [Widen D L] in
/-- The prewarm of a new slot. -/
theorem NodeSlot.prepared_prewarm (hsized : op.Sized)
    (hperiod : parsePreparedPeriod op.literal = op.period) :
    (NodeSlot.empty.prewarm op.fn op.literal : NodeSlot D L).Prepared op factor := by
  have hring : 0 < op.period →
      ((RingStatsState.init : RingStatsState D L).prewarm op.period).Prepared op.period := by
    intro hpos
    rw [RingStatsState.prewarm_init hpos]
    exact .reset hpos
  cases hfn : op.fn <;> simp only [StatefulOp.Sized, hfn] at hsized <;>
    simp only [Prepared, prewarm, hfn, empty, hperiod]
  case ema =>
    rw [if_pos hsized]
    exact ⟨rfl, rfl⟩
  case emaAlpha => exact ⟨rfl, fun h => absurd h Bool.false_ne_true⟩
  case sma => exact hring hsized
  case rollingStd => exact hring hsized
  case zscore => exact hring hsized
  case vwap =>
    rw [if_pos ⟨hsized, hsized.ne⟩]
    exact .reset hsized
  case lag =>
    rw [if_pos ⟨hsized, hsized.ne⟩]
    exact .reset hsized
  case rollingMin => rw [if_pos hsized, RollingMinMaxState.init, MonoDequeState.monoInit_init]
  case rollingMax => rw [if_pos hsized, RollingMinMaxState.init, MonoDequeState.monoInit_init]

theorem operatorStep_arity (h : operatorStep op market vs slot = .ok (v, slot')) :
    vs.length = op.fn.arity := by
  unfold operatorStep at h
  cases hfn : op.fn <;> rw [hfn] at h <;>
    rcases vs with _ | ⟨x, _ | ⟨y, _ | ⟨z, _ | ⟨_, _⟩⟩⟩⟩ <;> first | rfl | cases h

/-- **The two operators.** -/
theorem operatorStep_runtimeStep (hsized : op.Sized) (hslot : slot.Prepared op factor)
    (hfactor : op.fn = .emaAlpha → ∀ a ∈ vs[1]?, a = factor)
    (h : operatorStep op market vs slot = .ok (v, slot')) :
    runtimeStep op market vs slot = .ok (v, slot') ∧ slot'.Prepared op factor := by
  have harity := operatorStep_arity h
  unfold operatorStep at h
  unfold runtimeStep
  unfold NodeSlot.Prepared at hslot ⊢
  cases hfn : op.fn <;> simp only [StatefulOp.Sized, hfn] at hsized hslot hfactor h harity ⊢
  case ema =>
    obtain ⟨x, rfl⟩ := List.length_eq_one_iff.1 harity
    obtain ⟨halpha, hperiod⟩ := hslot
    -- the factor that is read back is the one the interpreter computes
    cases hinit : slot.ema.initialized
    · simp only [emaStep, hinit, Bool.not_false, if_true, Except.ok.injEq, Prod.mk.injEq] at h
      obtain ⟨rfl, rfl⟩ := h
      refine ⟨?_, halpha, hperiod⟩
      simp only [jitRtEmaAlpha, hinit, Bool.not_false, if_true, halpha, hperiod]
    · simp only [emaStep, hinit, Bool.not_true, Bool.false_eq_true, if_false, Except.ok.injEq,
        Prod.mk.injEq] at h
      obtain ⟨rfl, rfl⟩ := h
      refine ⟨?_, halpha, hperiod⟩
      simp only [jitRtEmaAlpha, hinit, Bool.not_true, Bool.false_eq_true, if_false, halpha]
  case emaAlpha =>
    obtain ⟨x, a, rfl⟩ := List.length_eq_two.1 harity
    obtain ⟨hperiod, halpha⟩ := hslot
    obtain rfl : a = factor := hfactor trivial a rfl
    simp only at h
    split at h
    · cases h
    cases hinit : slot.ema.initialized
    · simp only [emaAlphaStep, hinit, Bool.not_false, if_true, Except.ok.injEq, Prod.mk.injEq] at h
      obtain ⟨rfl, rfl⟩ := h
      refine ⟨?_, hperiod, fun _ => rfl⟩
      simp only [jitRtEmaAlpha, hinit, Bool.not_false, if_true, hperiod]
    · simp only [emaAlphaStep, hinit, Bool.not_true, Bool.false_eq_true, if_false,
        Except.ok.injEq, Prod.mk.injEq] at h
      obtain ⟨rfl, rfl⟩ := h
      refine ⟨?_, hperiod, fun _ => rfl⟩
      simp only [jitRtEmaAlpha, hinit, Bool.not_true, Bool.false_eq_true, if_false, halpha hinit]
  case sma =>
    obtain ⟨x, rfl⟩ := List.length_eq_one_iff.1 harity
    obtain ⟨hpush, hprepared⟩ := hslot.push hsized x
    simp only [smaStep, hpush, Except.map, Except.ok.injEq, Prod.mk.injEq] at h
    obtain ⟨rfl, rfl⟩ := h
    refine ⟨?_, hslot.slide x⟩
    simp only [jitRtSma, hprepared, Except.map]
  case rollingStd =>
    obtain ⟨x, rfl⟩ := List.length_eq_one_iff.1 harity
    obtain ⟨hpush, hprepared⟩ := hslot.push hsized x
    simp only [rollingStdStep, hpush, Except.map, Except.ok.injEq, Prod.mk.injEq] at h
    obtain ⟨rfl, rfl⟩ := h
    refine ⟨?_, hslot.slide x⟩
    simp only [jitRtRollingStd, hprepared, Except.map]
  case zscore =>
    obtain ⟨x, rfl⟩ := List.length_eq_one_iff.1 harity
    obtain ⟨hpush, hprepared⟩ := hslot.push hsized x
    simp only [zscoreStep, hpush, Except.map, Except.ok.injEq, Prod.mk.injEq] at h
    obtain ⟨rfl, rfl⟩ := h
    refine ⟨?_, hslot.slide x⟩
    simp only [jitRtZscore, hprepared, Except.map]
  case vwap =>
    obtain rfl := List.length_eq_zero_iff.1 harity
    obtain ⟨hpush, hprepared⟩ := hslot.push hsized (market op.symbol).mid (market op.symbol).weight
    simp only [vwapStep, hpush, Except.map, Except.ok.injEq, Prod.mk.injEq] at h
    obtain ⟨rfl, rfl⟩ := h
    refine ⟨?_, hslot.slide _ _⟩
    simp only [jitRtVwap, hprepared, Except.map]
  case lag =>
    obtain ⟨x, rfl⟩ := List.length_eq_one_iff.1 harity
    obtain ⟨hpush, hprepared⟩ := hslot.push hsized x
    simp only [lagStep, hpush, Except.map, Except.ok.injEq, Prod.mk.injEq] at h
    obtain ⟨rfl, rfl⟩ := h
    refine ⟨?_, hslot.slide x⟩
    simp only [jitRtLag, hprepared, Except.map]
  case crossAbove =>
    obtain ⟨a, b, rfl⟩ := List.length_eq_two.1 harity
    exact ⟨h, trivial⟩
  case crossBelow =>
    obtain ⟨a, b, rfl⟩ := List.length_eq_two.1 harity
    exact ⟨h, trivial⟩
  case rollingMin =>
    obtain ⟨x, rfl⟩ := List.length_eq_one_iff.1 harity
    obtain ⟨hinit, hprepared⟩ := updateRolling_prepared .min hslot x
    simp only [rollingMinStep, hinit, Except.ok.injEq, Prod.mk.injEq] at h
    obtain ⟨rfl, rfl⟩ := h
    refine ⟨?_, (updateRolling_cap .min slot.rollingMin op.period x).trans hslot⟩
    simp only [jitRtRollingMin, hprepared, Except.map]
  case rollingMax =>
    obtain ⟨x, rfl⟩ := List.length_eq_one_iff.1 harity
    obtain ⟨hinit, hprepared⟩ := updateRolling_prepared .max hslot x
    simp only [rollingMaxStep, hinit, Except.ok.injEq, Prod.mk.injEq] at h
    obtain ⟨rfl, rfl⟩ := h
    refine ⟨?_, (updateRolling_cap .max slot.rollingMax op.period x).trans hslot⟩
    simp only [jitRtRollingMax, hprepared, Except.map]
  case rollingCorr =>
    obtain ⟨x, y, rfl⟩ := List.length_eq_two.1 harity
    exact ⟨h, trivial⟩
  case rollingBeta =>
    obtain ⟨x, y, rfl⟩ := List.length_eq_two.1 harity
    exact ⟨h, trivial⟩
  case kalman1d =>
    obtain ⟨x, q, r, rfl⟩ := List.length_eq_three.1 harity
    simp only at h
    split at h
    · cases h
    · exact ⟨h, trivial⟩

end Slots

end JitSignalEngine
