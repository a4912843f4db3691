import JitSignalEngine.RuntimeOps

/-!
# Operators with a tangent

The `jit_rt_*_grad` helpers of `runtime.cpp` and the stateful cases of
`ForwardGradientInterpreter::EvalFunction`. Both push a value together with its derivative
by one parameter, into the state of the operator and into a sensitivity state.

* `SensitivitySlot` — the sensitivity states of one node id and one parameter.
* `…GradStep` — the update of a pair of states. Past its guard, each is one text in the
  source that stands there twice; here it stands once.
* `jitRt…Grad` — the helpers, which rely on the prewarm where the operators do.
* `forward…` — the cases of the evaluator, which do not.

The two differ in `kalman1d` by the threshold of a guard, and in `ema_alpha` by a field that
nobody reads.
-/

namespace JitSignalEngine

open Fp Widen

variable {D L : Type} [Fp D] [Fp L] [Widen D L]

/-- `ValueGradient` -/
structure ValueGradient (D : Type) where
  /-- the value -/
  value : D
  /-- its derivative by the parameter of interest -/
  gradient : D
deriving DecidableEq, Repr

/-- The two implementations of the gradient operators. -/
inductive GradientPath where
  /-- `jit_rt_*_grad` -/
  | helper
  /-- `ForwardGradientInterpreter` -/
  | forward
deriving DecidableEq, Repr

/-- What an operator returns before its window is full. -/
def ValueGradient.nan : ValueGradient D := ⟨Fp.nan, Fp.nan⟩

/-! ## Sensitivity states -/

/-- `RollingStdSensitivityState` -/
structure RollingStdSensitivityState (L : Type) where
  /-- the tangents of the samples in the window -/
  buffer : List L
  /-- window length -/
  capacity : Nat
  /-- next slot to write -/
  head : Nat
  /-- tangents held -/
  count : Nat
  /-- tangent of the running mean -/
  mean : L
  /-- tangent of the sum of squared deviations -/
  m2 : L
  /-- slides since the last recomputation from the buffers -/
  slidesSinceRefresh : Nat

namespace RollingStdSensitivityState

/-- `RollingStdSensitivityState{}` -/
def init : RollingStdSensitivityState L := ⟨[], 0, 0, 0, ofNat 0, ofNat 0, 0⟩

/-- What a state is assigned when its capacity differs from that of the operator. -/
def reset (capacity : Nat) : RollingStdSensitivityState L :=
  ⟨List.replicate capacity (ofNat 0), capacity, 0, 0, ofNat 0, ofNat 0, 0⟩

end RollingStdSensitivityState

/-- `RollingPairSensitivityState` -/
structure RollingPairSensitivityState (L : Type) where
  /-- the tangents of the first components -/
  xBuf : List L
  /-- the tangents of the second components -/
  yBuf : List L
  /-- window length -/
  capacity : Nat
  /-- next slot to write -/
  head : Nat
  /-- pairs held -/
  count : Nat
  /-- tangent of the running sum of `x` -/
  sumX : L
  /-- tangent of the running sum of `y` -/
  sumY : L
  /-- tangent of the running sum of `x * y` -/
  sumXy : L
  /-- tangent of the running sum of `x * x` -/
  sumXx : L
  /-- tangent of the running sum of `y * y` -/
  sumYy : L

namespace RollingPairSensitivityState

/-- `RollingPairSensitivityState{}` -/
def init : RollingPairSensitivityState L :=
  ⟨[], [], 0, 0, 0, ofNat 0, ofNat 0, ofNat 0, ofNat 0, ofNat 0⟩

/-- What a state is assigned when its capacity differs from the period. -/
def reset (period : Nat) : RollingPairSensitivityState L :=
  ⟨List.replicate period (ofNat 0), List.replicate period (ofNat 0), period, 0, 0,
    ofNat 0, ofNat 0, ofNat 0, ofNat 0, ofNat 0⟩

end RollingPairSensitivityState

/-- `Kalman1dSensitivityState` -/
structure Kalman1dSensitivityState (D : Type) where
  /-- tangent of the estimate -/
  xHat : D
  /-- tangent of the error variance -/
  p : D

/-- `Kalman1dSensitivityState{}` -/
def Kalman1dSensitivityState.init : Kalman1dSensitivityState D := ⟨ofNat 0, ofNat 0⟩

/-- The sensitivity states at one index of the `*_sensitivity_states` vectors. -/
structure SensitivitySlot (D L : Type) where
  /-- `ema_sensitivity_states`, whose elements have the one field `value` -/
  ema : D
  /-- `sma_sensitivity_states` -/
  sma : RingStatsState D L
  /-- `lag_sensitivity_states` -/
  lag : LagState D
  /-- `rolling_std_sensitivity_states` -/
  rollingStd : RollingStdSensitivityState L
  /-- `zscore_sensitivity_states` -/
  zscore : RollingStdSensitivityState L
  /-- `rolling_corr_sensitivity_states` -/
  rollingCorr : RollingPairSensitivityState L
  /-- `rolling_beta_sensitivity_states` -/
  rollingBeta : RollingPairSensitivityState L
  /-- `kalman1d_sensitivity_states` -/
  kalman1d : Kalman1dSensitivityState D
  /-- `rolling_min_sensitivity_states` -/
  rollingMin : LagState D
  /-- `rolling_max_sensitivity_states` -/
  rollingMax : LagState D

/-- What `ResetSensitivityStorage` leaves at every index. -/
def SensitivitySlot.empty : SensitivitySlot D L :=
  ⟨ofNat 0, .init, .init, .init, .init, .init, .init, .init, .init, .init⟩

/-- The state of an operator together with a sensitivity state of it. -/
structure WithTangent (P T : Type) where
  /-- the state of the operator -/
  primal : P
  /-- the sensitivity state -/
  grad : T

/-! ## `rolling_std` and `zscore` -/

/-- The assignments `RollingStdOrZscoreGradStep` begins with. -/
def rollingStdGradPrepare
    (st : WithTangent (RingStatsState D L) (RollingStdSensitivityState L)) (period : Nat) :
    WithTangent (RingStatsState D L) (RollingStdSensitivityState L) :=
  let primal := if st.primal.capacity = period then st.primal else .reset period
  ⟨primal, if st.grad.capacity = primal.capacity then st.grad else .reset primal.capacity⟩

/-- The tangent of the running mean and of `m2` when a sample joins a window that is not
full. `primal` is the state before the sample. -/
def rollingStdGradOnAdd (primal : RingStatsState D L) (grad : RollingStdSensitivityState L)
    (x : ValueGradient D) : RollingStdSensitivityState L :=
  let n : L := ofNat (primal.count + 1)
  let delta := sub (widen x.value) primal.mean
  let deltaPrime := sub (widen x.gradient) grad.mean
  let mean := add primal.mean (div delta n)
  let meanPrime := add grad.mean (div deltaPrime n)
  { grad with
    count := grad.count + 1
    mean := meanPrime
    m2 := add grad.m2 (add (mul deltaPrime (sub (widen x.value) mean))
      (mul delta (sub (widen x.gradient) meanPrime))) }

/-- The tangent of the running mean and of `m2` when a sample takes the place of the oldest
one, its tangent clamped at zero. `primal` is the state before the sample. -/
def rollingStdGradOnSlide (primal : RingStatsState D L) (grad : RollingStdSensitivityState L)
    (x : ValueGradient D) : RollingStdSensitivityState L :=
  if primal.capacity ≤ 1 then { grad with mean := widen x.gradient, m2 := ofNat 0 }
  else
    let old : L := widen (primal.buffer.getD primal.head (ofNat 0))
    let oldPrime := grad.buffer.getD grad.head (ofNat 0)
    let n : L := ofNat primal.count
    -- the oldest sample leaves
    let deltaR := sub old primal.mean
    let deltaRPrime := sub oldPrime grad.mean
    let meanR := sub primal.mean (div deltaR (sub n (ofNat 1)))
    let meanRPrime := sub grad.mean (div deltaRPrime (sub n (ofNat 1)))
    let m2RPrime := sub (sub grad.m2 (mul deltaRPrime (sub old meanR)))
      (mul deltaR (sub oldPrime meanRPrime))
    -- the new one comes
    let deltaA := sub (widen x.value) meanR
    let deltaAPrime := sub (widen x.gradient) meanRPrime
    let mean := add meanR (div deltaA n)
    let meanPrime := add meanRPrime (div deltaAPrime n)
    let m2Prime := add (add m2RPrime (mul deltaAPrime (sub (widen x.value) mean)))
      (mul deltaA (sub (widen x.gradient) meanPrime))
    { grad with mean := meanPrime, m2 := if lt m2Prime (ofNat 0) then ofNat 0 else m2Prime }

/-- The write of the tangent. -/
def rollingStdGradWrite (grad : RollingStdSensitivityState L) (xGrad : D) :
    RollingStdSensitivityState L :=
  { grad with
    buffer := grad.buffer.set grad.head (widen xGrad)
    head := (grad.head + 1) % grad.capacity }

/-- `RollingStdRefreshSensitivity`: mean and `m2` of the tangents from the two buffers. -/
def rollingStdRefreshSensitivity (grad : RollingStdSensitivityState L)
    (primal : RingStatsState D L) : RollingStdSensitivityState L :=
  let n : L := ofNat primal.count
  let meanPrime := div ((grad.buffer.take primal.count).foldl add (ofNat 0)) n
  let m2Prime := ((primal.buffer.zip grad.buffer).take primal.count).foldl
    (fun acc b =>
      let d := sub (widen b.1) primal.mean
      let dPrime := sub b.2 meanPrime
      add acc (mul (mul (ofNat 2) d) dPrime)) (ofNat 0)
  { grad with mean := meanPrime, m2 := m2Prime, slidesSinceRefresh := 0 }

/-- The refresh that ends a push which slid the window. The counter of the sensitivity state
decides for both states. -/
def rollingStdGradTick (st : WithTangent (RingStatsState D L) (RollingStdSensitivityState L)) :
    WithTangent (RingStatsState D L) (RollingStdSensitivityState L) :=
  let primal : RingStatsState D L :=
    { st.primal with slidesSinceRefresh := st.primal.slidesSinceRefresh + 1 }
  let grad : RollingStdSensitivityState L :=
    { st.grad with slidesSinceRefresh := st.grad.slidesSinceRefresh + 1 }
  if grad.capacity ≤ grad.slidesSinceRefresh ∧ 1 < grad.capacity then
    let primal := ringStatsRefreshMeanM2FromBuffer primal
    ⟨primal, rollingStdRefreshSensitivity grad primal⟩
  else ⟨primal, grad⟩

/-- The pushes of `RollingStdOrZscoreGradStep`: the operator's own, which are those of
`RingStatsPush`, and that of the tangent. -/
def rollingStdGradSlide (st : WithTangent (RingStatsState D L) (RollingStdSensitivityState L))
    (x : ValueGradient D) : WithTangent (RingStatsState D L) (RollingStdSensitivityState L) :=
  let slid := st.primal.count = st.primal.capacity
  let grad := if slid then rollingStdGradOnSlide st.primal st.grad x
    else rollingStdGradOnAdd st.primal st.grad x
  let primal := ringStatsAdmit st.primal x.value
  let st' : WithTangent (RingStatsState D L) (RollingStdSensitivityState L) :=
    if grad.buffer.isEmpty then ⟨primal, grad⟩
    else ⟨ringStatsWrite primal x.value, rollingStdGradWrite grad x.gradient⟩
  if slid then rollingStdGradTick st' else st'

/-- `RollingStdOrZscoreGradStep` up to the readout. -/
def rollingStdGradStep (st : WithTangent (RingStatsState D L) (RollingStdSensitivityState L))
    (period : Nat) (x : ValueGradient D) :
    WithTangent (RingStatsState D L) (RollingStdSensitivityState L) :=
  rollingStdGradSlide (rollingStdGradPrepare st period) x

/-- `var_prime / (2.0L * stddev)` -/
def stddevPrime (st : WithTangent (RingStatsState D L) (RollingStdSensitivityState L))
    (stddev : D) : L :=
  let varPrime := div st.grad.m2 (sub (ofNat st.primal.count) (ofNat 1))
  div varPrime (mul (ofNat 2) (widen stddev))

/-- What `rolling_std` returns. -/
def rollingStdGradReadout
    (st : WithTangent (RingStatsState D L) (RollingStdSensitivityState L)) : ValueGradient D :=
  if !ringStatsFull st.primal then .nan
  else
    let stddev := ringStatsStddevSample st.primal
    if st.primal.count < 2 then .nan
    else ⟨stddev, if isnan stddev then nan else narrow (stddevPrime st stddev)⟩

/-- What `zscore` returns. -/
def zscoreGradReadout (st : WithTangent (RingStatsState D L) (RollingStdSensitivityState L))
    (x : ValueGradient D) : ValueGradient D :=
  if !ringStatsFull st.primal then .nan
  else
    let stddev := ringStatsStddevSample st.primal
    let mean := ringStatsMean st.primal
    if isnan stddev || lt (fabs stddev) stddevFloor then .nan
    else
      ⟨div (sub x.value mean) stddev,
        sub (div (sub x.gradient (narrow st.grad.mean)) stddev)
          (div (mul (sub x.value mean) (narrow (stddevPrime st stddev))) (mul stddev stddev))⟩

/-! ## `ema` and `ema_alpha` -/

/-- The update of `jit_rt_ema_alpha_grad` and of the evaluator: the factor is the one passed
now. -/
def emaGradStep (st : WithTangent (EMAState D) D) (x alpha : ValueGradient D) :
    ValueGradient D × WithTangent (EMAState D) D :=
  if !st.primal.initialized then
    (x, ⟨{ st.primal with value := x.value, alpha := alpha.value, initialized := true },
      x.gradient⟩)
  else
    let prev := st.primal.value
    let value := emaBlend alpha.value x.value prev
    let grad := add (add (mul alpha.value x.gradient) (mul (sub (ofNat 1) alpha.value) st.grad))
      (mul alpha.gradient (sub x.value prev))
    (⟨value, grad⟩, ⟨{ st.primal with value := value, alpha := alpha.value }, grad⟩)

/-! ## `rolling_corr` and `rolling_beta` -/

/-- The assignments both operators begin with. -/
def rollingPairGradPrepare
    (st : WithTangent (RollingPairState D L) (RollingPairSensitivityState L)) (period : Nat) :
    WithTangent (RollingPairState D L) (RollingPairSensitivityState L) :=
  ⟨if st.primal.capacity = period then st.primal else .reset period,
    if st.grad.capacity = period then st.grad else .reset period⟩

/-- The sums and rings of the tangents. `primal` is the state before the pair, and its head
and count are those of the tangents, too. -/
def rollingPairGradSlide (primal : RollingPairState D L) (grad : RollingPairSensitivityState L)
    (x y : ValueGradient D) : RollingPairSensitivityState L :=
  let full := primal.count = primal.capacity
  let oldXp := grad.xBuf.getD primal.head (ofNat 0)
  let oldYp := grad.yBuf.getD primal.head (ofNat 0)
  let oldX : L := widen (primal.xBuf.getD primal.head (ofNat 0))
  let oldY : L := widen (primal.yBuf.getD primal.head (ofNat 0))
  let drop := fun (sum old : L) => if full then sub sum old else sum
  { grad with
    count := if full then grad.count else grad.count + 1
    xBuf := grad.xBuf.set primal.head (widen x.gradient)
    yBuf := grad.yBuf.set primal.head (widen y.gradient)
    sumX := add (drop grad.sumX oldXp) (widen x.gradient)
    sumY := add (drop grad.sumY oldYp) (widen y.gradient)
    sumXy := add (drop grad.sumXy (add (mul oldXp oldY) (mul oldX oldYp)))
      (widen (add (mul x.gradient y.value) (mul x.value y.gradient)))
    sumXx := add (drop grad.sumXx (mul (mul (ofNat 2) oldX) oldXp))
      (mul (mul (ofNat 2) (widen x.value)) (widen x.gradient))
    sumYy := add (drop grad.sumYy (mul (mul (ofNat 2) oldY) oldYp))
      (mul (mul (ofNat 2) (widen y.value)) (widen y.gradient))
    head := (primal.head + 1) % primal.capacity }

/-- The pushes of the two operators. -/
def rollingPairGradStep
    (st : WithTangent (RollingPairState D L) (RollingPairSensitivityState L)) (period : Nat)
    (x y : ValueGradient D) : WithTangent (RollingPairState D L) (RollingPairSensitivityState L) :=
  let st := rollingPairGradPrepare st period
  ⟨rollingPairSlide st.primal x.value y.value, rollingPairGradSlide st.primal st.grad x y⟩

/-- `cov_prime` -/
def covPrime (st : WithTangent (RollingPairState D L) (RollingPairSensitivityState L)) : L :=
  sub st.grad.sumXy (div (add (mul st.grad.sumX st.primal.sumY) (mul st.primal.sumX st.grad.sumY))
    (ofNat st.primal.count))

/-- `var_x_prime` and `var_y_prime`, from the tangent of the sum of squares, the sum and its
tangent. -/
def varPrime (sumSqPrime sum sumPrime n : L) : L :=
  sub sumSqPrime (div (mul (mul (ofNat 2) sum) sumPrime) n)

/-- What `rolling_corr` returns. -/
def rollingCorrGradReadout
    (st : WithTangent (RollingPairState D L) (RollingPairSensitivityState L)) : ValueGradient D :=
  if !rollingPairFull st.primal then .nan
  else
    let n : L := ofNat st.primal.count
    let cov := unnormalized st.primal.sumXy st.primal.sumX st.primal.sumY n
    let varX := unnormalized st.primal.sumXx st.primal.sumX st.primal.sumX n
    let varXPrime := varPrime st.grad.sumXx st.primal.sumX st.grad.sumX n
    let varY := unnormalized st.primal.sumYy st.primal.sumY st.primal.sumY n
    let varYPrime := varPrime st.grad.sumYy st.primal.sumY st.grad.sumY n
    let denom : L := widen (sqrt (narrow (mul varX varY) : D))
    let denomPrime := div (add (mul varXPrime varY) (mul varX varYPrime)) (mul (ofNat 2) denom)
    let corrPrime := sub (div (covPrime st) denom) (div (mul cov denomPrime) (mul denom denom))
    ⟨rollingPairCorrelation st.primal, narrow corrPrime⟩

/-- What `rolling_beta` returns. -/
def rollingBetaGradReadout
    (st : WithTangent (RollingPairState D L) (RollingPairSensitivityState L)) : ValueGradient D :=
  if !rollingPairFull st.primal then .nan
  else
    let n : L := ofNat st.primal.count
    let cov := unnormalized st.primal.sumXy st.primal.sumX st.primal.sumY n
    let varX := unnormalized st.primal.sumXx st.primal.sumX st.primal.sumX n
    let varXPrime := varPrime st.grad.sumXx st.primal.sumX st.grad.sumX n
    ⟨rollingPairBeta st.primal,
      narrow (div (sub (mul (covPrime st) varX) (mul cov varXPrime)) (mul varX varX))⟩

/-! ## `kalman1d` -/

/-- The update of `jit_rt_kalman1d_grad` and of the evaluator, which skips the update from
`denom <= floor` on. -/
def kalman1dGradStep (floor : D) (st : WithTangent (Kalman1dState D) (Kalman1dSensitivityState D))
    (x q r : ValueGradient D) :
    ValueGradient D × WithTangent (Kalman1dState D) (Kalman1dSensitivityState D) :=
  if !st.primal.initialized then
    (x, ⟨⟨x.value, r.value, q.value, r.value, true⟩, ⟨x.gradient, r.gradient⟩⟩)
  else
    let pPred := add st.primal.p q.value
    let pPredGrad := add st.grad.p q.gradient
    let denom := add pPred r.value
    let denomGrad := add pPredGrad r.gradient
    if le denom floor then (⟨st.primal.xHat, st.grad.xHat⟩, st)
    else
      let k := div pPred denom
      let kGrad := div (sub (mul pPredGrad denom) (mul pPred denomGrad)) (mul denom denom)
      let innov := sub x.value st.primal.xHat
      let innovGrad := sub x.gradient st.grad.xHat
      let xHat := add st.primal.xHat (mul k innov)
      let xHatGrad := add (add st.grad.xHat (mul kGrad innov)) (mul k innovGrad)
      let pNew := mul (sub (ofNat 1) k) pPred
      let pNewGrad := add (mul (neg kGrad) pPred) (mul (sub (ofNat 1) k) pPredGrad)
      let negative := lt pNew (ofNat 0)
      (⟨xHat, xHatGrad⟩,
        ⟨⟨xHat, if negative then ofNat 0 else pNew, q.value, r.value, true⟩,
          ⟨xHatGrad, if negative then ofNat 0 else pNewGrad⟩⟩)

/-! ## `rolling_min` and `rolling_max` -/

/-- The ring, or an empty one of the right size. -/
def LagState.sized (ring : LagState D) (period : Nat) : LagState D :=
  if ring.capacity = period then ring else .reset period

/-- The write of a tangent at the tick `beforeIdx`; `idx` is the tick counter after it. -/
def minMaxGradWrite (ring : LagState D) (period beforeIdx idx : Nat) (xGrad : D) : LagState D :=
  let ring := ring.sized period
  if 0 < ring.capacity then
    { ring with
      count := if ring.count < ring.capacity then ring.count + 1 else ring.count
      buffer := ring.buffer.set (beforeIdx % ring.capacity) xGrad
      head := idx % ring.capacity }
  else ring

/-- Everything after the update of the deque: the tangent is that of the tick at the front. -/
def minMaxGradStep (ring : LagState D) (period beforeIdx : Nat) (xGrad : D)
    (out : D × RollingMinMaxState D) : ValueGradient D × LagState D :=
  let ring := minMaxGradWrite ring period beforeIdx out.2.idx xGrad
  if out.2.idx < period then (.nan, ring)
  else (⟨out.1, ring.buffer.getD (out.2.dq.monoFront.1 % period) (ofNat 0)⟩, ring)

/-! ## The `jit_rt_*_grad` helpers -/

/-- `CheckedGradientParam` -/
def checkedGradientParam (gradientParamCount : Nat) (paramId : Int) : Except String Nat :=
  if paramId < 0 ∨ (gradientParamCount : Int) ≤ paramId then
    .error "Gradient param_id out of range"
  else .ok paramId.toNat

/-- The slots a helper works on: those of the node, and those of the node and the parameter. -/
abbrev GradSlots (D L : Type) : Type := WithTangent (NodeSlot D L) (SensitivitySlot D L)

/-- The slots of a new context. -/
def GradSlots.empty : GradSlots D L := ⟨.empty, .empty⟩

/-- `jit_rt_ema_alpha_grad` -/
def jitRtEmaAlphaGrad (slots : GradSlots D L) (x alpha : ValueGradient D) (period : Int) :
    ValueGradient D × GradSlots D L :=
  let (v, st) := emaGradStep ⟨slots.primal.ema, slots.grad.ema⟩ x alpha
  (v, ⟨{ slots.primal with ema := { st.primal with period := period } },
    { slots.grad with ema := st.grad }⟩)

/-- `jit_rt_sma_grad` -/
def jitRtSmaGrad (slots : GradSlots D L) (x : ValueGradient D) (period : Nat) :
    Except String (ValueGradient D × GradSlots D L) := do
  let primal ← ringStatsPushPrepared slots.primal.sma x.value
  let grad ← ringStatsPush slots.grad.sma period x.gradient
  let v := if !ringStatsFull primal then .nan else ⟨ringStatsMean primal, ringStatsMean grad⟩
  .ok (v, ⟨{ slots.primal with sma := primal }, { slots.grad with sma := grad }⟩)

/-- `jit_rt_lag_grad` -/
def jitRtLagGrad (slots : GradSlots D L) (x : ValueGradient D) (period : Nat) :
    Except String (ValueGradient D × GradSlots D L) := do
  let lagged := ⟨lagValue slots.primal.lag, lagValue slots.grad.lag⟩
  let primal ← lagPushPrepared slots.primal.lag x.value
  let grad ← lagPush slots.grad.lag period x.gradient
  .ok (lagged, ⟨{ slots.primal with lag := primal }, { slots.grad with lag := grad }⟩)

/-- `jit_rt_rolling_std_grad` -/
def jitRtRollingStdGrad (slots : GradSlots D L) (x : ValueGradient D) (period : Nat) :
    ValueGradient D × GradSlots D L :=
  let st := rollingStdGradStep ⟨slots.primal.rollingStd, slots.grad.rollingStd⟩ period x
  (rollingStdGradReadout st,
    ⟨{ slots.primal with rollingStd := st.primal }, { slots.grad with rollingStd := st.grad }⟩)

/-- `jit_rt_zscore_grad` -/
def jitRtZscoreGrad (slots : GradSlots D L) (x : ValueGradient D) (period : Nat) :
    ValueGradient D × GradSlots D L :=
  let st := rollingStdGradStep ⟨slots.primal.zscore, slots.grad.zscore⟩ period x
  (zscoreGradReadout st x,
    ⟨{ slots.primal with zscore := st.primal }, { slots.grad with zscore := st.grad }⟩)

/-- `jit_rt_rolling_corr_grad` -/
def jitRtRollingCorrGrad (slots : GradSlots D L) (x y : ValueGradient D) (period : Nat) :
    ValueGradient D × GradSlots D L :=
  let st := rollingPairGradStep ⟨slots.primal.rollingCorr, slots.grad.rollingCorr⟩ period x y
  (rollingCorrGradReadout st,
    ⟨{ slots.primal with rollingCorr := st.primal }, { slots.grad with rollingCorr := st.grad }⟩)

/-- `jit_rt_rolling_beta_grad` -/
def jitRtRollingBetaGrad (slots : GradSlots D L) (x y : ValueGradient D) (period : Nat) :
    ValueGradient D × GradSlots D L :=
  let st := rollingPairGradStep ⟨slots.primal.rollingBeta, slots.grad.rollingBeta⟩ period x y
  (rollingBetaGradReadout st,
    ⟨{ slots.primal with rollingBeta := st.primal }, { slots.grad with rollingBeta := st.grad }⟩)

/-- `jit_rt_kalman1d_grad` -/
def jitRtKalman1dGrad (slots : GradSlots D L) (x q r : ValueGradient D) :
    ValueGradient D × GradSlots D L :=
  let (v, st) := kalman1dGradStep (ofNat 0) ⟨slots.primal.kalman1d, slots.grad.kalman1d⟩ x q r
  (v, ⟨{ slots.primal with kalman1d := st.primal }, { slots.grad with kalman1d := st.grad }⟩)

/-- `jit_rt_rolling_min_grad` -/
def jitRtRollingMinGrad (slots : GradSlots D L) (x : ValueGradient D) (period : Nat) :
    Except String (ValueGradient D × GradSlots D L) := do
  let out ← updateRollingPrepared .min slots.primal.rollingMin x.value
  let (v, ring) := minMaxGradStep slots.grad.rollingMin period slots.primal.rollingMin.idx
    x.gradient out
  .ok (v, ⟨{ slots.primal with rollingMin := out.2 }, { slots.grad with rollingMin := ring }⟩)

/-- `jit_rt_rolling_max_grad` -/
def jitRtRollingMaxGrad (slots : GradSlots D L) (x : ValueGradient D) (period : Nat) :
    Except String (ValueGradient D × GradSlots D L) := do
  let out ← updateRollingPrepared .max slots.primal.rollingMax x.value
  let (v, ring) := minMaxGradStep slots.grad.rollingMax period slots.primal.rollingMax.idx
    x.gradient out
  .ok (v, ⟨{ slots.primal with rollingMax := out.2 }, { slots.grad with rollingMax := ring }⟩)

/-- `jit_rt_cross_above_grad` -/
def jitRtCrossAboveGrad (slots : GradSlots D L) (a b : ValueGradient D) :
    ValueGradient D × GradSlots D L :=
  let (v, slot) := jitRtCrossAbove slots.primal a.value b.value
  (⟨v, ofNat 0⟩, { slots with primal := slot })

/-- `jit_rt_cross_below_grad` -/
def jitRtCrossBelowGrad (slots : GradSlots D L) (a b : ValueGradient D) :
    ValueGradient D × GradSlots D L :=
  let (v, slot) := jitRtCrossBelow slots.primal a.value b.value
  (⟨v, ofNat 0⟩, { slots with primal := slot })

/-! ## The cases of the forward evaluator

Those that run the statements of the helper are the helper. -/

/-- `ema_alpha` and, with a constant factor, `ema`. -/
def forwardEma (slots : GradSlots D L) (x alpha : ValueGradient D) :
    ValueGradient D × GradSlots D L :=
  let (v, st) := emaGradStep ⟨slots.primal.ema, slots.grad.ema⟩ x alpha
  (v, ⟨{ slots.primal with ema := st.primal }, { slots.grad with ema := st.grad }⟩)

/-- `sma` -/
def forwardSma (slots : GradSlots D L) (x : ValueGradient D) (period : Nat) :
    Except String (ValueGradient D × GradSlots D L) := do
  let primal ← ringStatsPush slots.primal.sma period x.value
  let grad ← ringStatsPush slots.grad.sma period x.gradient
  let v := if !ringStatsFull primal then .nan else ⟨ringStatsMean primal, ringStatsMean grad⟩
  .ok (v, ⟨{ slots.primal with sma := primal }, { slots.grad with sma := grad }⟩)

/-- `lag` -/
def forwardLag (slots : GradSlots D L) (x : ValueGradient D) (period : Nat) :
    Except String (ValueGradient D × GradSlots D L) := do
  let lagged := ⟨lagValue slots.primal.lag, lagValue slots.grad.lag⟩
  let primal ← lagPush slots.primal.lag period x.value
  let grad ← lagPush slots.grad.lag period x.gradient
  .ok (lagged, ⟨{ slots.primal with lag := primal }, { slots.grad with lag := grad }⟩)

/-- `kalman1d` past the check of its arguments. -/
def forwardKalman1d (slots : GradSlots D L) (x q r : ValueGradient D) :
    ValueGradient D × GradSlots D L :=
  let (v, st) := kalman1dGradStep stddevFloor ⟨slots.primal.kalman1d, slots.grad.kalman1d⟩ x q r
  (v, ⟨{ slots.primal with kalman1d := st.primal }, { slots.grad with kalman1d := st.grad }⟩)

/-- `rolling_min` -/
def forwardRollingMin (slots : GradSlots D L) (x : ValueGradient D) (period : Nat) :
    ValueGradient D × GradSlots D L :=
  let out := updateRollingInit .min slots.primal.rollingMin period x.value
  let (v, ring) := minMaxGradStep slots.grad.rollingMin period slots.primal.rollingMin.idx
    x.gradient out
  (v, ⟨{ slots.primal with rollingMin := out.2 }, { slots.grad with rollingMin := ring }⟩)

/-- `rolling_max` -/
def forwardRollingMax (slots : GradSlots D L) (x : ValueGradient D) (period : Nat) :
    ValueGradient D × GradSlots D L :=
  let out := updateRollingInit .max slots.primal.rollingMax period x.value
  let (v, ring) := minMaxGradStep slots.grad.rollingMax period slots.primal.rollingMax.idx
    x.gradient out
  (v, ⟨{ slots.primal with rollingMax := out.2 }, { slots.grad with rollingMax := ring }⟩)

end JitSignalEngine
