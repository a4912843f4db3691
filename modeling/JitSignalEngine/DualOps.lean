import JitSignalEngine.DualArithmetic
import JitSignalEngine.Interpreter
import JitSignalEngine.RingBuffer
import JitSignalEngine.SampleMoments
import JitSignalEngine.TickRun
import Mathlib.Data.List.GetD

/-!
# Operators over dual numbers

A stateful operator is differentiated by hand in the source. Its own recurrence, the one of the
interpreter, can be run over dual numbers instead. Here both take one step, for the operators
without pairs.

The states of the two are views of one state over dual numbers: the run over dual numbers holds it
as it is, the operator its first components and the sensitivity state its second ones.

* `TangentOp` — the operators, and their steps.
* `AgreesWith` — a value with a tangent against a dual number.
* `LagAgrees`, `SmaAgrees`, `EmaAgrees`, `KalmanAgrees` — what each keeps, and `lag_agrees` and
  so on that a tick keeps it.
-/

namespace JitSignalEngine

open Fp Widen Exact DualNumber TrivSqZeroExt

/-! ## The operators -/

/-- The operators that pass a tangent on, with the window of those that have one. -/
inductive TangentOp where
  | ema (period : Nat) | emaAlpha | sma (period : Nat) | lag (period : Nat)
  | rollingCorr (period : Nat) | rollingBeta (period : Nat) | kalman1d
deriving DecidableEq, Repr

namespace TangentOp

/-- The operator without its window. -/
def fn : TangentOp → StatefulFn
  | .ema _ => .ema
  | .emaAlpha => .emaAlpha
  | .sma _ => .sma
  | .lag _ => .lag
  | .rollingCorr _ => .rollingCorr
  | .rollingBeta _ => .rollingBeta
  | .kalman1d => .kalman1d

section Steps

variable {D L : Type} [Fp D] [Fp L] [Widen D L]

/-- The recurrence of the operator. -/
def step (op : TangentOp) (slot : NodeSlot D L) (vs : List D) : Except String (D × NodeSlot D L) :=
  match op, vs with
  | .ema period, [x] => Interpreter.emaStep period x slot
  | .emaAlpha, [x, alpha] => Interpreter.emaAlphaStep x alpha slot
  | .sma period, [x] => Interpreter.smaStep period x slot
  | .lag period, [x] => Interpreter.lagStep period x slot
  | .rollingCorr period, [x, y] => Interpreter.rollingCorrStep period x y slot
  | .rollingBeta period, [x, y] => Interpreter.rollingBetaStep period x y slot
  | .kalman1d, [x, q, r] => Interpreter.kalmanStep x q r slot
  | _, _ => .error "arity"

/-- The recurrence with tangents. `ema` passes its factor as a constant. -/
def gradStep (path : GradientPath) (op : TangentOp) (slots : GradSlots D L)
    (vs : List (ValueGradient D)) : Except String (ValueGradient D × GradSlots D L) :=
  match op, vs with
  | .ema period, [x] =>
    let alpha : ValueGradient D := ⟨emaAlphaOfPeriod period, ofNat 0⟩
    .ok (match path with
      | .helper => jitRtEmaAlphaGrad slots x alpha period
      | .forward => forwardEma slots x alpha)
  | .emaAlpha, [x, alpha] =>
    .ok (match path with
      | .helper => jitRtEmaAlphaGrad slots x alpha 0
      | .forward => forwardEma slots x alpha)
  | .sma period, [x] =>
    match path with
    | .helper => jitRtSmaGrad slots x period
    | .forward => forwardSma slots x period
  | .lag period, [x] =>
    match path with
    | .helper => jitRtLagGrad slots x period
    | .forward => forwardLag slots x period
  | .rollingCorr period, [x, y] => .ok (jitRtRollingCorrGrad slots x y period)
  | .rollingBeta period, [x, y] => .ok (jitRtRollingBetaGrad slots x y period)
  | .kalman1d, [x, q, r] =>
    .ok (match path with
      | .helper => jitRtKalman1dGrad slots x q r
      | .forward => forwardKalman1d slots x q r)
  | _, _ => .error "arity"

/-- The literal the window of the call is read from. -/
def Reads (op : TangentOp) (literal : Option D) : Prop :=
  match op with
  | .ema period => 0 < period ∧ parsePreparedPeriod literal = period
  | .sma period => 0 < period ∧ parsePreparedPeriod literal = period
  | .lag period => 0 < period ∧ parsePreparedPeriod literal = period
  | .rollingCorr period => 0 < period ∧ parsePreparedPairPeriod literal = period
  | .rollingBeta period => 0 < period ∧ parsePreparedPairPeriod literal = period
  | .emaAlpha | .kalman1d => True

end Steps

variable {K : Type} [Field K] [LinearOrder K]

/-- The inputs of one tick: as many as the operator has, and for `kalman1d` noises that are not
negative, that of the measurement above the threshold of the guards. -/
def Accepts (op : TangentOp) (vs : List K[ε]) : Prop :=
  match op with
  | .ema _ | .sma _ | .lag _ => vs.length = 1
  | .emaAlpha | .rollingCorr _ | .rollingBeta _ => vs.length = 2
  | .kalman1d => ∃ x q r, vs = [x, q, r] ∧ 0 ≤ q.fst ∧ 1 / 1000000000000000000 < r.fst

end TangentOp

/-! ## Outputs -/

variable {K : Type} [Field K] [LinearOrder K] [IsStrictOrderedRing K] [Transcendental K]

/-- A value with a tangent agrees with a dual number: both are numbers, and the same, or
neither is one. -/
def AgreesWith (out : ValueGradient (Exact K)) (dual : Exact K[ε]) : Prop :=
  (∃ d, dual = .val d ∧ out = ofDual d) ∨ (dual = .nan ∧ out.value = .nan)

/-! ## Windows of dual numbers

A view sends the dual numbers to the values a ring holds: themselves, their first components or
their second ones. All three are additive. -/

/-- A view that sums may be taken through. -/
structure AdditiveView {R : Type} [Fp (Exact R)] (g : K[ε] → Exact R) : Prop where
  zero : ofNat 0 = g 0
  add : ∀ x y, add (g x) (g y) = g (x + y)
  sub : ∀ x y, sub (g x) (g y) = g (x - y)

omit [IsStrictOrderedRing K] in
theorem additiveView_dual : AdditiveView (K := K) (Exact.val (K := K[ε])) :=
  ⟨by simp, fun _ _ => rfl, fun _ _ => rfl⟩

omit [IsStrictOrderedRing K] in
theorem additiveView_value : AdditiveView fun x : K[ε] => Exact.val x.fst :=
  ⟨by simp, fun _ _ => rfl, fun _ _ => rfl⟩

omit [IsStrictOrderedRing K] in
theorem additiveView_tangent : AdditiveView fun x : K[ε] => Exact.val x.snd :=
  ⟨by simp, fun _ _ => rfl, fun _ _ => rfl⟩

/-- A ring of dual numbers, seen through a view. -/
def lagView {R : Type} (g : K[ε] → Exact R) (n head count : Nat) (cells : List K[ε]) :
    LagState (Exact R) := ⟨cells.map g, n, head, count⟩

/-! ### `lag` -/

section Lag

variable {R : Type} [Fp (Exact R)] {g : K[ε] → Exact R} {n head count : Nat} {cells : List K[ε]}

omit [Field K] [LinearOrder K] [IsStrictOrderedRing K] [Transcendental K] [Fp (Exact R)] in
theorem lagSlide_view (x : K[ε]) :
    lagSlide (lagView g n head count cells) (g x) =
      lagView g n ((head + 1) % n) (if count < n then count + 1 else count) (cells.set head x) := by
  rw [lagView, lagView, List.map_set]
  rfl

omit [LinearOrder K] [IsStrictOrderedRing K] [Transcendental K] in
theorem lagValue_view (hg : AdditiveView g) (hn : 0 < n) :
    lagValue (lagView g n head count cells) =
      if count < n then Fp.nan else g (cells.getD head 0) := by
  have hzero : ¬ n = 0 := by omega
  simp only [lagValue, lagView, hzero, false_or, hg.zero, List.getD_map]

omit [LinearOrder K] [IsStrictOrderedRing K] [Transcendental K] in
theorem reset_view (hg : AdditiveView g) :
    (LagState.reset n : LagState (Exact R)) = lagView g n 0 0 (List.replicate n 0) := by
  simp [LagState.reset, lagView, hg.zero]

end Lag

omit [Field K] [LinearOrder K] [IsStrictOrderedRing K] [Transcendental K] in
@[simp] theorem lagView_sized {R : Type} [Fp (Exact R)] (g : K[ε] → Exact R) (n head count : Nat)
    (cells : List K[ε]) :
    (lagView g n head count cells).sized n = lagView g n head count cells := if_pos rfl

/-- The rings of the two runs of `lag` are views of one ring. The tangents and the run over dual
numbers make room at their first push. -/
structure LagAgrees (n : Nat) (primal grad : LagState (Exact K)) (dual : LagState (Exact K[ε])) :
    Prop where
  views : ∃ head count cells, cells.length = n ∧
    primal = lagView (fun x => .val x.fst) n head count cells ∧
    grad.sized n = lagView (fun x => .val x.snd) n head count cells ∧
    dual.sized n = lagView .val n head count cells
  grad_value : lagValue grad = lagValue (grad.sized n)
  dual_value : lagValue dual = lagValue (dual.sized n)

omit [IsStrictOrderedRing K] in
theorem LagAgrees.slide {n : Nat} {primal grad : LagState (Exact K)} {dual : LagState (Exact K[ε])}
    (h : LagAgrees n primal grad dual) (x : K[ε]) :
    LagAgrees n (lagSlide primal (.val x.fst)) (lagSlide (grad.sized n) (.val x.snd))
      (lagSlide (dual.sized n) (.val x)) := by
  obtain ⟨head, count, cells, hlength, hprimal, hgrad, hdual⟩ := h.views
  have hgrad' : lagSlide (grad.sized n) (.val x.snd) =
      lagView (fun x => .val x.snd) n ((head + 1) % n) (if count < n then count + 1 else count)
        (cells.set head x) := by
    rw [hgrad]
    exact lagSlide_view x
  have hdual' : lagSlide (dual.sized n) (.val x) =
      lagView .val n ((head + 1) % n) (if count < n then count + 1 else count)
        (cells.set head x) := by
    rw [hdual]
    exact lagSlide_view x
  rw [hgrad', hdual']
  refine ⟨⟨_, _, cells.set head x, by rw [List.length_set, hlength], ?_, lagView_sized _ _ _ _ _,
    lagView_sized _ _ _ _ _⟩, by rw [lagView_sized], by rw [lagView_sized]⟩
  rw [hprimal]
  exact lagSlide_view x

theorem lagPush_sized {D : Type} [Fp D] {n : Nat} (hn : 0 < n) (st : LagState D) (x : D) :
    lagPush st n x = .ok (lagSlide (st.sized n) x) := if_neg (by omega)

omit [IsStrictOrderedRing K] in
theorem lag_agrees (path : GradientPath) {n : Nat} (hn : 0 < n) (x : K[ε])
    {slots : GradSlots (Exact K) (Exact K)} {dual : NodeSlot (Exact K[ε]) (Exact K[ε])}
    (h : LagAgrees n slots.primal.lag slots.grad.lag dual.lag) :
    ∃ out slots' d dual', TangentOp.gradStep path (.lag n) slots [ofDual x] = .ok (out, slots') ∧
      TangentOp.step (.lag n) dual [.val x] = .ok (d, dual') ∧ AgreesWith out d ∧
      LagAgrees n slots'.primal.lag slots'.grad.lag dual'.lag := by
  obtain ⟨head, count, cells, hlength, hprimal, hgrad, hdual⟩ := h.views
  have hstep : TangentOp.step (.lag n) dual [.val x] = .ok (lagValue dual.lag,
      { dual with lag := lagSlide (dual.lag.sized n) (.val x) }) := by
    rw [TangentOp.step, Interpreter.lagStep, lagPush_sized hn]
    rfl
  have hgradStep : TangentOp.gradStep path (.lag n) slots [ofDual x] =
      .ok (⟨lagValue slots.primal.lag, lagValue slots.grad.lag⟩,
        ⟨{ slots.primal with lag := lagSlide slots.primal.lag (.val x.fst) },
          { slots.grad with lag := lagSlide (slots.grad.lag.sized n) (.val x.snd) }⟩) := by
    cases path with
    | forward =>
      have hsame : slots.primal.lag.sized n = slots.primal.lag := by rw [hprimal, lagView_sized]
      simp only [TangentOp.gradStep, forwardLag, lagPush_sized hn, hsame, bind, Except.bind,
        ofDual_value, ofDual_gradient]
    | helper =>
      have hprepared : lagPushPrepared slots.primal.lag (.val x.fst) =
          .ok (lagSlide slots.primal.lag (.val x.fst)) := by
        have hcells : cells ≠ [] := List.ne_nil_of_length_pos (by omega)
        rw [lagPushPrepared, if_neg]
        rw [hprimal]
        simp only [lagView, List.map_eq_nil_iff]
        rintro (hzero | hnil)
        · omega
        · exact hcells hnil
      simp only [TangentOp.gradStep, jitRtLagGrad, hprepared, lagPush_sized hn, bind, Except.bind,
        ofDual_value, ofDual_gradient]
  refine ⟨_, _, _, _, hgradStep, hstep, ?_, h.slide x⟩
  rw [h.grad_value, h.dual_value, hprimal, hgrad, hdual, lagValue_view additiveView_value hn,
    lagValue_view additiveView_tangent hn, lagValue_view additiveView_dual hn]
  split
  · exact .inr ⟨rfl, rfl⟩
  · exact .inl ⟨_, rfl, rfl⟩

/-! ### `sma` -/

/-- What `sma` reads of its state: not the mean and `m2`, which are kept for others. -/
structure RingSum (D L : Type) where
  /-- the ring -/
  buffer : List D
  /-- window length -/
  capacity : Nat
  /-- next slot to write -/
  head : Nat
  /-- samples held -/
  count : Nat
  /-- running sum -/
  sum : L

section RingSum

variable {D L : Type} [Fp D] [Fp L] [Widen D L]

/-- The part of the state that `sma` reads. -/
def RingStatsState.ringSum (st : RingStatsState D L) : RingSum D L :=
  ⟨st.buffer, st.capacity, st.head, st.count, st.sum⟩

/-- A push. -/
def RingSum.slide (st : RingSum D L) (x : D) : RingSum D L :=
  { st with
    buffer := st.buffer.set st.head x
    head := (st.head + 1) % st.capacity
    count := if st.count = st.capacity then st.count else st.count + 1
    sum := add (if st.count = st.capacity then
      sub st.sum (widen (st.buffer.getD st.head (ofNat 0))) else st.sum) (widen x) }

/-- The mean. -/
def RingSum.mean (st : RingSum D L) : D :=
  if st.count = st.capacity ∧ 0 < st.capacity then narrow (div st.sum (ofNat st.count)) else Fp.nan

omit [Fp D] in
theorem ringSum_tick (st : RingStatsState D L) : (ringStatsTick st).ringSum = st.ringSum := by
  simp only [ringStatsTick]
  split <;> rfl

omit [Fp D] in
theorem ringSum_onSlide (st : RingStatsState D L) (x y : D) :
    (ringStatsUpdateMeanM2OnSlide st x y).ringSum = st.ringSum := by
  rw [ringStatsUpdateMeanM2OnSlide]
  split <;> rfl

theorem ringSum_slide (st : RingStatsState D L) (x : D) :
    (ringStatsSlide st x).ringSum = st.ringSum.slide x := by
  have hwrite : ∀ st' : RingStatsState D L, (ringStatsWrite st' x).ringSum =
      { st'.ringSum with
        buffer := st'.ringSum.buffer.set st'.ringSum.head x
        sum := add st'.ringSum.sum (widen x)
        head := (st'.ringSum.head + 1) % st'.ringSum.capacity } := fun _ => rfl
  by_cases h : st.count = st.capacity
  · simp only [ringStatsSlide, if_pos h, ringSum_tick]
    rw [hwrite, ringStatsAdmit, if_pos h, ringSum_onSlide]
    simp [RingSum.slide, RingStatsState.ringSum, h]
  · simp only [ringStatsSlide, if_neg h]
    rw [hwrite, ringStatsAdmit, if_neg h]
    simp [RingSum.slide, RingStatsState.ringSum, h, ringStatsUpdateMeanM2OnAdd]

theorem smaReadout_eq (st : RingStatsState D L) : smaReadout st = st.ringSum.mean := by
  rw [smaReadout, ringStatsMean, RingSum.mean]
  by_cases h : st.count = st.capacity ∧ 0 < st.capacity
  · have hfull : ringStatsFull st = true := by simpa [ringStatsFull] using h
    rw [hfull, if_neg (by simp), if_neg (by omega)]
    exact (if_pos h).symm
  · have hfull : ringStatsFull st = false := by
      rw [Bool.eq_false_iff]
      simpa [ringStatsFull] using h
    rw [hfull, if_pos (by simp)]
    exact (if_neg h).symm

/-- The state, or an empty one of the right size. -/
def RingStatsState.sized (st : RingStatsState D L) (n : Nat) : RingStatsState D L :=
  if st.capacity = n then st else .reset n

theorem ringStatsPush_sized {n : Nat} (hn : 0 < n) (st : RingStatsState D L) (x : D) :
    ringStatsPush st n x = .ok (ringStatsSlide (st.sized n) x) := if_neg (by omega)

omit [Widen D L] in
theorem RingStatsState.sized_of_capacity {n : Nat} {st : RingStatsState D L}
    (h : st.ringSum.capacity = n) : st.sized n = st := if_pos h

end RingSum

/-- The ring and the sum over dual numbers. -/
structure RingModel (K : Type) where
  /-- the ring -/
  cells : List K[ε]
  /-- next slot to write -/
  head : Nat
  /-- samples held -/
  count : Nat
  /-- running sum -/
  sum : K[ε]

namespace RingModel

/-- A push into a ring of `n` cells. -/
def slide (n : Nat) (m : RingModel K) (x : K[ε]) : RingModel K where
  cells := m.cells.set m.head x
  head := (m.head + 1) % n
  count := if m.count = n then m.count else m.count + 1
  sum := (if m.count = n then m.sum - m.cells.getD m.head 0 else m.sum) + x

/-- What a view makes of it. -/
def view {R : Type} (g : K[ε] → Exact R) (n : Nat) (m : RingModel K) : RingSum (Exact R) (Exact R) :=
  ⟨m.cells.map g, n, m.head, m.count, g m.sum⟩

omit [LinearOrder K] [IsStrictOrderedRing K] [Transcendental K] in
theorem slide_view {R : Type} [Fp (Exact R)] {g : K[ε] → Exact R} (hg : AdditiveView g) (n : Nat)
    (m : RingModel K) (x : K[ε]) : (m.view g n).slide (g x) = (m.slide n x).view g n := by
  have hdrop : (if m.count = n then sub (g m.sum) (g (m.cells.getD m.head 0)) else g m.sum) =
      g (if m.count = n then m.sum - m.cells.getD m.head 0 else m.sum) := by
    split
    · rw [hg.sub]
    · rfl
  simp only [RingSum.slide, view, widen_eq, hg.zero, List.getD_map]
  rw [hdrop, hg.add, ← List.map_set]
  rfl

end RingModel

theorem sma_mean_agrees {n : Nat} (m : RingModel K) :
    AgreesWith ⟨(m.view (fun x => .val x.fst) n).mean, (m.view (fun x => .val x.snd) n).mean⟩
      (m.view Exact.val n).mean := by
  by_cases h : m.count = n ∧ 0 < n
  · have hcount : (m.count : K) ≠ 0 := Nat.cast_ne_zero.2 (by omega)
    refine .inl ⟨m.sum * (inl (m.count : K))⁻¹, ?_, ?_⟩
    · simp only [RingSum.mean, RingModel.view, if_pos h, narrow_eq, ofNat_dual]
      exact div_dual _ hcount
    · have htangent := snd_quotient m.sum (inl (m.count : K)) hcount
      simp only [fst_inl, snd_inl, mul_zero, sub_zero] at htangent
      simp only [RingSum.mean, RingModel.view, if_pos h, narrow_eq, ofNat_val, div_val _ hcount,
        ofDual, htangent, fst_quotient, fst_inl]
      congr 2
      field_simp
  · exact .inr ⟨if_neg h, if_neg h⟩

/-- The rings and sums of the two runs of `sma` are views of one ring and one sum. -/
def SmaAgrees (n : Nat) (primal grad : RingStatsState (Exact K) (Exact K))
    (dual : RingStatsState (Exact K[ε]) (Exact K[ε])) : Prop :=
  ∃ m : RingModel K, m.cells.length = n ∧
    primal.ringSum = m.view (fun x => .val x.fst) n ∧
    (grad.sized n).ringSum = m.view (fun x => .val x.snd) n ∧
    (dual.sized n).ringSum = m.view .val n

/-- What the gradient operator returns is two means: that of the values, and that of the
tangents. -/
theorem smaGradReadout_eq {D L : Type} [Fp D] [Fp L] [Widen D L] {primal grad : RingStatsState D L}
    (h : ringStatsFull primal = ringStatsFull grad) :
    (if !ringStatsFull primal then ValueGradient.nan
      else ⟨ringStatsMean primal, ringStatsMean grad⟩) =
    ⟨smaReadout primal, smaReadout grad⟩ := by
  rw [smaReadout, smaReadout, ← h]
  split <;> rfl

omit [IsStrictOrderedRing K] in
/-- One push into each ring. -/
theorem SmaAgrees.slide {n : Nat} {primal grad : RingStatsState (Exact K) (Exact K)}
    {dual : RingStatsState (Exact K[ε]) (Exact K[ε])} (h : SmaAgrees n primal grad dual)
    (x : K[ε]) :
    ∃ m : RingModel K, m.cells.length = n ∧
      (ringStatsSlide primal (.val x.fst)).ringSum = m.view (fun x => .val x.fst) n ∧
      (ringStatsSlide (grad.sized n) (.val x.snd)).ringSum = m.view (fun x => .val x.snd) n ∧
      (ringStatsSlide (dual.sized n) (.val x)).ringSum = m.view .val n := by
  obtain ⟨m, hlength, hprimal, hgrad, hdual⟩ := h
  refine ⟨m.slide n x, by simpa [RingModel.slide] using hlength, ?_, ?_, ?_⟩
  · rw [ringSum_slide, hprimal]
    exact RingModel.slide_view additiveView_value n m x
  · rw [ringSum_slide, hgrad]
    exact RingModel.slide_view additiveView_tangent n m x
  · rw [ringSum_slide, hdual]
    exact RingModel.slide_view additiveView_dual n m x

theorem sma_agrees (path : GradientPath) {n : Nat} (hn : 0 < n) (x : K[ε])
    {slots : GradSlots (Exact K) (Exact K)} {dual : NodeSlot (Exact K[ε]) (Exact K[ε])}
    (h : SmaAgrees n slots.primal.sma slots.grad.sma dual.sma) :
    ∃ out slots' d dual', TangentOp.gradStep path (.sma n) slots [ofDual x] = .ok (out, slots') ∧
      TangentOp.step (.sma n) dual [.val x] = .ok (d, dual') ∧ AgreesWith out d ∧
      SmaAgrees n slots'.primal.sma slots'.grad.sma dual'.sma := by
  obtain ⟨m, hlength, hprimal, hgrad, hdual⟩ := h.slide x
  obtain ⟨old, hold, hbefore, -, -⟩ := h
  have hstep : TangentOp.step (.sma n) dual [.val x] =
      .ok (smaReadout (ringStatsSlide (dual.sma.sized n) (.val x)),
        { dual with sma := ringStatsSlide (dual.sma.sized n) (.val x) }) := by
    rw [TangentOp.step, Interpreter.smaStep, ringStatsPush_sized hn]
    rfl
  have hsame : slots.primal.sma.sized n = slots.primal.sma :=
    RingStatsState.sized_of_capacity (by rw [hbefore]; rfl)
  have hprepared : ringStatsPushPrepared slots.primal.sma (.val x.fst) =
      .ok (ringStatsSlide slots.primal.sma (.val x.fst)) := by
    have hcapacity : slots.primal.sma.capacity = n := congrArg RingSum.capacity hbefore
    have hbuffer : slots.primal.sma.buffer = old.cells.map fun x => .val x.fst :=
      congrArg RingSum.buffer hbefore
    have hcells : old.cells ≠ [] := List.ne_nil_of_length_pos (by omega)
    rw [ringStatsPushPrepared, if_neg]
    rw [hcapacity, hbuffer, List.map_eq_nil_iff]
    rintro (hzero | hnil)
    · omega
    · exact hcells hnil
  have hfull : ringStatsFull (ringStatsSlide slots.primal.sma (.val x.fst)) =
      ringStatsFull (ringStatsSlide (slots.grad.sma.sized n) (.val x.snd)) := by
    have hcount := (congrArg RingSum.count hprimal).trans (congrArg RingSum.count hgrad).symm
    have hcapacity :=
      (congrArg RingSum.capacity hprimal).trans (congrArg RingSum.capacity hgrad).symm
    simp only [RingStatsState.ringSum] at hcount hcapacity
    rw [ringStatsFull, ringStatsFull, hcount, hcapacity]
  have hgradStep : TangentOp.gradStep path (.sma n) slots [ofDual x] =
      .ok (⟨smaReadout (ringStatsSlide slots.primal.sma (.val x.fst)),
          smaReadout (ringStatsSlide (slots.grad.sma.sized n) (.val x.snd))⟩,
        ⟨{ slots.primal with sma := ringStatsSlide slots.primal.sma (.val x.fst) },
          { slots.grad with sma := ringStatsSlide (slots.grad.sma.sized n) (.val x.snd) }⟩) := by
    rw [← smaGradReadout_eq hfull]
    cases path with
    | forward =>
      simp only [TangentOp.gradStep, forwardSma, ringStatsPush_sized hn, hsame, bind, Except.bind,
        ofDual_value, ofDual_gradient]
    | helper =>
      simp only [TangentOp.gradStep, jitRtSmaGrad, hprepared, ringStatsPush_sized hn, bind,
        Except.bind, ofDual_value, ofDual_gradient]
  refine ⟨_, _, _, _, hgradStep, hstep, ?_, m, hlength, hprimal, ?_, ?_⟩
  · rw [smaReadout_eq, smaReadout_eq, smaReadout_eq, hprimal, hgrad, hdual]
    exact sma_mean_agrees m
  · rwa [RingStatsState.sized_of_capacity (by rw [hgrad]; rfl)]
  · rwa [RingStatsState.sized_of_capacity (by rw [hdual]; rfl)]

/-! ## `ema` and `ema_alpha` -/

omit [IsStrictOrderedRing K] in
theorem emaBlend_dual (a x v : K[ε]) :
    emaBlend (.val a) (.val x) (.val v) = Exact.val (a * x + (1 - a) * v) := by
  simp [emaBlend]

omit [IsStrictOrderedRing K] in
theorem emaBlend_val (a x v : K) :
    emaBlend (.val a) (.val x) (.val v) = Exact.val (a * x + (1 - a) * v) := by simp [emaBlend]

/-- The factor of a window is a constant. -/
theorem emaAlphaOfPeriod_dual (n : Nat) :
    ∃ a : K[ε], (emaAlphaOfPeriod n : Exact K[ε]) = .val a ∧
      (⟨emaAlphaOfPeriod n, ofNat 0⟩ : ValueGradient (Exact K)) = ofDual a := by
  have hperiod : (inl (n : K) + inl 1 : K[ε]).fst ≠ 0 := by
    have hpos : (n : K) + 1 ≠ 0 := by positivity
    simpa using hpos
  have hdual : (emaAlphaOfPeriod n : Exact K[ε]) = .val (inl 2 * (inl (n : K) + inl 1)⁻¹) := by
    have hcast : (ofInt (n : Int) : Exact K[ε]) = ofNat n := by simp [ofInt, ofNat]
    rw [emaAlphaOfPeriod, hcast, ofNat_dual, ofNat_dual, ofNat_dual, add_dual, Nat.cast_ofNat,
      Nat.cast_one, div_dual _ hperiod]
  refine ⟨_, hdual, ?_⟩
  have hcast : (ofInt (n : Int) : Exact K) = ofNat n := by simp [ofInt, ofNat]
  have hsum : (n : K) + 1 ≠ 0 := by simpa using hperiod
  rw [ofDual, fst_quotient, snd_quotient _ _ hperiod, emaAlphaOfPeriod, hcast]
  simp [div_val _ hsum]

/-- The averages of the two runs, once there are any. -/
structure EmaAgrees (primal : EMAState (Exact K)) (grad : Exact K) (dual : EMAState (Exact K[ε])) :
    Prop where
  initialized : primal.initialized = dual.initialized
  value : dual.initialized = true →
    ∃ v, dual.value = .val v ∧ primal.value = .val v.fst ∧ grad = .val v.snd

/-- The average after a sample. -/
def emaNext {D : Type} [Fp D] (st : EMAState D) (x alpha : D) : D :=
  if st.initialized then emaBlend alpha x st.value else x

theorem emaStep_next {D L : Type} [Fp D] (n : Nat) (x : D) (slot : NodeSlot D L) :
    ∃ slot', Interpreter.emaStep n x slot = .ok (emaNext slot.ema x (emaAlphaOfPeriod n), slot') ∧
      slot'.ema.value = emaNext slot.ema x (emaAlphaOfPeriod n) ∧ slot'.ema.initialized = true := by
  cases hinit : slot.ema.initialized <;> simp [Interpreter.emaStep, emaNext, hinit]

theorem emaAlphaStep_next {D L : Type} [Fp D] (x alpha : D) (slot : NodeSlot D L) :
    ∃ slot', Interpreter.emaAlphaStep x alpha slot = .ok (emaNext slot.ema x alpha, slot') ∧
      slot'.ema.value = emaNext slot.ema x alpha ∧ slot'.ema.initialized = true := by
  cases hinit : slot.ema.initialized <;> simp [Interpreter.emaAlphaStep, emaNext, hinit]

omit [IsStrictOrderedRing K] in
/-- The update with tangents, and the average over dual numbers. -/
theorem emaGradStep_agrees {st : WithTangent (EMAState (Exact K)) (Exact K)}
    {dual : EMAState (Exact K[ε])} (h : EmaAgrees st.primal st.grad dual) (x a : K[ε]) :
    ∃ v, emaNext dual (.val x) (.val a) = .val v ∧
      (emaGradStep st (ofDual x) (ofDual a)).1 = ofDual v ∧
      (emaGradStep st (ofDual x) (ofDual a)).2.primal.value = .val v.fst ∧
      (emaGradStep st (ofDual x) (ofDual a)).2.grad = .val v.snd ∧
      (emaGradStep st (ofDual x) (ofDual a)).2.primal.initialized = true := by
  cases hinit : dual.initialized with
  | false =>
    have hinit' : st.primal.initialized = false := h.initialized.trans hinit
    exact ⟨x, by simp [emaNext, hinit], by simp [emaGradStep, hinit', ofDual]⟩
  | true =>
    have hinit' : st.primal.initialized = true := h.initialized.trans hinit
    obtain ⟨v, hdual, hprimal, hgrad⟩ := h.value hinit
    refine ⟨a * x + (1 - a) * v, by rw [emaNext, if_pos hinit, hdual, emaBlend_dual], ?_⟩
    have hsnd : (a * x + (1 - a) * v).snd =
        a.fst * x.snd + (1 - a.fst) * v.snd + a.snd * (x.fst - v.fst) := by
      simp
      ring
    have hfst : (a * x + (1 - a) * v).fst = a.fst * x.fst + (1 - a.fst) * v.fst := by simp
    have hout : ofDual (a * x + (1 - a) * v) =
        ⟨.val (a.fst * x.fst + (1 - a.fst) * v.fst),
          .val (a.fst * x.snd + (1 - a.fst) * v.snd + a.snd * (x.fst - v.fst))⟩ := by
      rw [ofDual, hfst, hsnd]
    rw [hout, hfst, hsnd]
    simp [emaGradStep, hinit', hprimal, hgrad, emaBlend_val]

omit [IsStrictOrderedRing K] in
/-- Two runs of the averages that agree agree after the update. -/
theorem EmaAgrees.next (st : WithTangent (EMAState (Exact K)) (Exact K))
    {dual dual' : EMAState (Exact K[ε])} (h : EmaAgrees st.primal st.grad dual) (x a : K[ε])
    (hvalue : dual'.value = emaNext dual (.val x) (.val a)) (hinit : dual'.initialized = true) :
    ∃ v, emaNext dual (.val x) (.val a) = .val v ∧
      (emaGradStep st (ofDual x) (ofDual a)).1 = ofDual v ∧
      EmaAgrees (emaGradStep st (ofDual x) (ofDual a)).2.primal
        (emaGradStep st (ofDual x) (ofDual a)).2.grad dual' := by
  obtain ⟨v, hnext, hout, hprimal, hgrad, hinit'⟩ := emaGradStep_agrees h x a
  exact ⟨v, hnext, hout, hinit'.trans hinit.symm, fun _ => ⟨v, hvalue.trans hnext, hprimal, hgrad⟩⟩

omit [IsStrictOrderedRing K] in
theorem emaAlpha_agrees (path : GradientPath) (x a : K[ε])
    {slots : GradSlots (Exact K) (Exact K)} {dual : NodeSlot (Exact K[ε]) (Exact K[ε])}
    (h : EmaAgrees slots.primal.ema slots.grad.ema dual.ema) :
    ∃ out slots' d dual',
      TangentOp.gradStep path .emaAlpha slots [ofDual x, ofDual a] = .ok (out, slots') ∧
      TangentOp.step .emaAlpha dual [.val x, .val a] = .ok (d, dual') ∧ AgreesWith out d ∧
      EmaAgrees slots'.primal.ema slots'.grad.ema dual'.ema := by
  obtain ⟨dual', hstep, hvalue, hinit⟩ := emaAlphaStep_next (.val x) (.val a) dual
  obtain ⟨v, hnext, hout, hagrees⟩ :=
    EmaAgrees.next ⟨slots.primal.ema, slots.grad.ema⟩ h x a hvalue hinit
  cases path with
  | forward => exact ⟨_, _, _, dual', rfl, hstep, .inl ⟨v, hnext, hout⟩, hagrees⟩
  | helper =>
    exact ⟨_, _, _, dual', rfl, hstep, .inl ⟨v, hnext, hout⟩, hagrees.initialized, hagrees.value⟩

theorem ema_agrees (path : GradientPath) (n : Nat) (x : K[ε])
    {slots : GradSlots (Exact K) (Exact K)} {dual : NodeSlot (Exact K[ε]) (Exact K[ε])}
    (h : EmaAgrees slots.primal.ema slots.grad.ema dual.ema) :
    ∃ out slots' d dual',
      TangentOp.gradStep path (.ema n) slots [ofDual x] = .ok (out, slots') ∧
      TangentOp.step (.ema n) dual [.val x] = .ok (d, dual') ∧ AgreesWith out d ∧
      EmaAgrees slots'.primal.ema slots'.grad.ema dual'.ema := by
  obtain ⟨a, hdual, hgrad⟩ := emaAlphaOfPeriod_dual (K := K) n
  obtain ⟨dual', hstep, hvalue, hinit⟩ := emaStep_next n (.val x) dual
  rw [hdual] at hstep hvalue
  obtain ⟨v, hnext, hout, hagrees⟩ :=
    EmaAgrees.next ⟨slots.primal.ema, slots.grad.ema⟩ h x a hvalue hinit
  have hgradStep : TangentOp.gradStep path (.ema n) slots [ofDual x] =
      .ok (match path with
        | .helper => jitRtEmaAlphaGrad slots (ofDual x) (ofDual a) n
        | .forward => forwardEma slots (ofDual x) (ofDual a)) := by
    rw [← hgrad]
    rfl
  rw [hgradStep]
  cases path with
  | forward => exact ⟨_, _, _, dual', rfl, hstep, .inl ⟨v, hnext, hout⟩, hagrees⟩
  | helper =>
    exact ⟨_, _, _, dual', rfl, hstep, .inl ⟨v, hnext, hout⟩, hagrees.initialized, hagrees.value⟩

/-! ## `kalman1d` -/

/-- The filters of the two runs, once they have seen a measurement. -/
structure KalmanAgrees (primal : Kalman1dState (Exact K)) (grad : Kalman1dSensitivityState (Exact K))
    (dual : Kalman1dState (Exact K[ε])) : Prop where
  initialized : primal.initialized = dual.initialized
  estimate : dual.initialized = true → ∃ xHat p, 0 ≤ p.fst ∧
    dual.xHat = .val xHat ∧ primal.xHat = .val xHat.fst ∧ grad.xHat = .val xHat.snd ∧
    dual.p = .val p ∧ primal.p = .val p.fst ∧ grad.p = .val p.snd

/-- The gain. -/
def kalmanGain (p q r : K[ε]) : K[ε] := (p + q) * (p + q + r)⁻¹

/-- The estimate after a measurement. -/
def kalmanEstimate (xHat p x q r : K[ε]) : K[ε] := xHat + kalmanGain p q r * (x - xHat)

/-- The variance after a measurement. -/
def kalmanVariance (p q r : K[ε]) : K[ε] :=
  if ((1 - kalmanGain p q r) * (p + q)).fst < 0 then 0 else (1 - kalmanGain p q r) * (p + q)

omit [IsStrictOrderedRing K] [Transcendental K] in
theorem kalmanVariance_nonneg (p q r : K[ε]) : 0 ≤ (kalmanVariance p q r).fst := by
  rw [kalmanVariance]
  split
  · exact le_rfl
  · exact not_lt.1 ‹_›

omit [IsStrictOrderedRing K] in
theorem clamp_dual (v : K[ε]) :
    (if lt (val v) (val (0 : K[ε])) then val 0 else val v) = val (if v.fst < 0 then 0 else v) := by
  by_cases hneg : v.fst < 0
  · simp [hneg]
  · simp [hneg]

omit [IsStrictOrderedRing K] in
/-- The clamp looks at the value and clears the tangent with it. -/
theorem ofDual_clamp {v : K[ε]} {a b : K} (h : ofDual v = ⟨.val a, .val b⟩) :
    ofDual (if v.fst < 0 then 0 else v) =
      ⟨if lt (val a) (val 0) then val 0 else val a, if lt (val a) (val 0) then val 0 else val b⟩ := by
  have ha : v.fst = a := by simpa using congrArg ValueGradient.value h
  by_cases hneg : v.fst < 0
  · rw [if_pos hneg, if_pos (by simpa [← ha] using hneg), if_pos (by simpa [← ha] using hneg)]
    rfl
  · rw [if_neg hneg, if_neg (by simpa [← ha] using hneg), if_neg (by simpa [← ha] using hneg), h]

omit [IsStrictOrderedRing K] in
/-- A measurement over dual numbers. -/
theorem kalman1dStep_dual {st : Kalman1dState (Exact K[ε])} {xHat p x q r : K[ε]}
    (hinit : st.initialized = true) (hxHat : st.xHat = .val xHat) (hp : st.p = .val p)
    (hdenom : 0 < (p + q + r).fst) :
    kalman1dStep st (.val x) (.val q) (.val r) =
      (.val (kalmanEstimate xHat p x q r),
        ⟨.val (kalmanEstimate xHat p x q r), .val (kalmanVariance p q r), .val q, .val r, true⟩) := by
  have hdiv : Fp.div (.val (p + q)) (.val (p + q + r)) = Exact.val (kalmanGain p q r) :=
    div_dual _ hdenom.ne'
  have hguard : ¬ (p + q + r).fst ≤ 0 := not_le.2 hdenom
  rw [kalman1dStep, if_neg (by simp [hinit]), hxHat, hp]
  simp only [add_dual, le_dual, ofNat_dual, Nat.cast_zero, inl_zero, fst_zero, hguard, decide_false,
    Bool.false_eq_true, if_false, hdiv, sub_dual, mul_dual, Nat.cast_one, inl_one, clamp_dual]
  rfl

/-- A measurement with tangents: the views of the filter over dual numbers. -/
theorem kalman1dGradStep_dual {st : WithTangent (Kalman1dState (Exact K))
      (Kalman1dSensitivityState (Exact K))} {xHat p x q r : K[ε]} {floor : K}
    (hinit : st.primal.initialized = true) (hxHat : st.primal.xHat = .val xHat.fst)
    (hxHat' : st.grad.xHat = .val xHat.snd) (hp : st.primal.p = .val p.fst)
    (hp' : st.grad.p = .val p.snd) (hfloor : floor < (p + q + r).fst)
    (hdenom : 0 < (p + q + r).fst) :
    kalman1dGradStep (.val floor) st (ofDual x) (ofDual q) (ofDual r) =
      (ofDual (kalmanEstimate xHat p x q r),
        ⟨⟨.val (kalmanEstimate xHat p x q r).fst, .val (kalmanVariance p q r).fst, .val q.fst,
            .val r.fst, true⟩,
          ⟨.val (kalmanEstimate xHat p x q r).snd, .val (kalmanVariance p q r).snd⟩⟩) := by
  have hne : p.fst + q.fst + r.fst ≠ 0 := by simpa using hdenom.ne'
  have hfst : (kalmanGain p q r).fst = (p.fst + q.fst) / (p.fst + q.fst + r.fst) := by
    rw [kalmanGain, fst_quotient]
    simp
  have hsnd : (kalmanGain p q r).snd =
      ((p.snd + q.snd) * (p.fst + q.fst + r.fst) - (p.fst + q.fst) * (p.snd + q.snd + r.snd)) /
        ((p.fst + q.fst + r.fst) * (p.fst + q.fst + r.fst)) := by
    rw [kalmanGain, snd_quotient _ _ hdenom.ne']
    simp
  have hguard : ¬ p.fst + q.fst + r.fst ≤ floor := by simpa using hfloor
  have hneg : (Exact.val (-(kalmanGain p q r).snd)) = Fp.neg (.val (kalmanGain p q r).snd) := rfl
  rw [kalman1dGradStep, if_neg (by simp [hinit]), hxHat, hp, hxHat', hp']
  simp only [ofDual_value, ofDual_gradient, add_val, le_val, hguard, decide_false,
    Bool.false_eq_true, if_false, div_val _ hne, mul_val, sub_val, div_val _ (mul_ne_zero hne hne),
    ← hfst, ← hsnd, ofNat_val, Nat.cast_one, Nat.cast_zero, ← hneg]
  have hestimate : ofDual (kalmanEstimate xHat p x q r) =
      ⟨.val (xHat.fst + (kalmanGain p q r).fst * (x.fst - xHat.fst)),
        .val (xHat.snd + (kalmanGain p q r).snd * (x.fst - xHat.fst) +
          (kalmanGain p q r).fst * (x.snd - xHat.snd))⟩ := by
    rw [ofDual, kalmanEstimate]
    simp
    ring
  -- value and tangent of the estimate and of the clamped variance
  have hxValue := congrArg ValueGradient.value hestimate
  have hxTangent := congrArg ValueGradient.gradient hestimate
  have hvariance := ofDual_clamp (v := (1 - kalmanGain p q r) * (p + q))
    (a := (1 - (kalmanGain p q r).fst) * (p.fst + q.fst))
    (b := -(kalmanGain p q r).snd * (p.fst + q.fst) +
      (1 - (kalmanGain p q r).fst) * (p.snd + q.snd)) (by
        rw [ofDual]
        simp
        ring)
  have hpValue := congrArg ValueGradient.value hvariance
  have hpTangent := congrArg ValueGradient.gradient hvariance
  simp only [ofDual_value, ofDual_gradient] at hxValue hxTangent hpValue hpTangent
  rw [hestimate, hxValue, hxTangent, kalmanVariance, hpValue, hpTangent]

/-- Two filters that agree agree after a measurement whose noise is above the floor of the
guards. -/
theorem KalmanAgrees.next (st : WithTangent (Kalman1dState (Exact K))
      (Kalman1dSensitivityState (Exact K))) {dual : Kalman1dState (Exact K[ε])}
    (h : KalmanAgrees st.primal st.grad dual) (x : K[ε]) {q r : K[ε]} {floor : K}
    (hq : 0 ≤ q.fst) (hfloor : 0 ≤ floor) (hr : floor < r.fst) :
    ∃ v, (kalman1dStep dual (.val x) (.val q) (.val r)).1 = .val v ∧
      (kalman1dGradStep (.val floor) st (ofDual x) (ofDual q) (ofDual r)).1 = ofDual v ∧
      KalmanAgrees (kalman1dGradStep (.val floor) st (ofDual x) (ofDual q) (ofDual r)).2.primal
        (kalman1dGradStep (.val floor) st (ofDual x) (ofDual q) (ofDual r)).2.grad
        (kalman1dStep dual (.val x) (.val q) (.val r)).2 := by
  have hrPos : 0 < r.fst := hfloor.trans_lt hr
  cases hinit : dual.initialized with
  | false =>
    have hinit' : st.primal.initialized = false := h.initialized.trans hinit
    have hgradStep : kalman1dGradStep (.val floor) st (ofDual x) (ofDual q) (ofDual r) =
        (ofDual x, ⟨⟨.val x.fst, .val r.fst, .val q.fst, .val r.fst, true⟩,
          ⟨.val x.snd, .val r.snd⟩⟩) := by
      rw [kalman1dGradStep, if_pos (by simp [hinit'])]
      rfl
    rw [kalman1dStep, if_pos (by simp [hinit]), hgradStep]
    exact ⟨x, rfl, rfl, rfl, fun _ => ⟨x, r, hrPos.le, rfl, rfl, rfl, rfl, rfl, rfl⟩⟩
  | true =>
    have hinit' : st.primal.initialized = true := h.initialized.trans hinit
    obtain ⟨xHat, p, hp, hxDual, hxPrimal, hxGrad, hpDual, hpPrimal, hpGrad⟩ := h.estimate hinit
    have hdenom : floor < (p + q + r).fst := by
      rw [TrivSqZeroExt.fst_add, TrivSqZeroExt.fst_add]
      linarith
    rw [kalman1dStep_dual hinit hxDual hpDual (hfloor.trans_lt hdenom),
      kalman1dGradStep_dual hinit' hxPrimal hxGrad hpPrimal hpGrad hdenom (hfloor.trans_lt hdenom)]
    exact ⟨_, rfl, rfl, rfl, fun _ => ⟨_, _, kalmanVariance_nonneg p q r, rfl, rfl, rfl, rfl, rfl,
      rfl⟩⟩

theorem kalman_agrees (path : GradientPath) (x : K[ε]) {q r : K[ε]}
    {slots : GradSlots (Exact K) (Exact K)} {dual : NodeSlot (Exact K[ε]) (Exact K[ε])}
    (h : KalmanAgrees slots.primal.kalman1d slots.grad.kalman1d dual.kalman1d)
    (hq : 0 ≤ q.fst) (hr : 1 / 1000000000000000000 < r.fst) :
    ∃ out slots' d dual',
      TangentOp.gradStep path .kalman1d slots [ofDual x, ofDual q, ofDual r] = .ok (out, slots') ∧
      TangentOp.step .kalman1d dual [.val x, .val q, .val r] = .ok (d, dual') ∧
      AgreesWith out d ∧
      KalmanAgrees slots'.primal.kalman1d slots'.grad.kalman1d dual'.kalman1d := by
  have hfloor : (0 : K) ≤ 1 / 1000000000000000000 := by norm_num
  cases path with
  | helper =>
    obtain ⟨v, hdual, hout, hagrees⟩ :=
      KalmanAgrees.next ⟨slots.primal.kalman1d, slots.grad.kalman1d⟩ h x hq le_rfl
        (hfloor.trans_lt hr)
    have hzero : (ofNat 0 : Exact K) = .val 0 := by simp
    rw [← hzero] at hout hagrees
    exact ⟨_, _, _, _, rfl, rfl, .inl ⟨v, hdual, hout⟩, hagrees⟩
  | forward =>
    obtain ⟨v, hdual, hout, hagrees⟩ :=
      KalmanAgrees.next ⟨slots.primal.kalman1d, slots.grad.kalman1d⟩ h x hq hfloor hr
    have hstddev : (stddevFloor : Exact K) = .val (1 / 1000000000000000000) := by
      simp [stddevFloor, ofRat]
    rw [← hstddev] at hout hagrees
    exact ⟨_, _, _, _, rfl, rfl, .inl ⟨v, hdual, hout⟩, hagrees⟩

end JitSignalEngine
