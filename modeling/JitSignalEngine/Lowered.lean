import JitSignalEngine.CallShape

/-!
# Lowered operators

What compiled code does at a stateful operator. It either calls the runtime, or runs the IR
that an `EmitLowered*` function wrote out, on a state of its own.

* `LoweredSlot` — the lowered states a `SignalContext` keeps for one node id, next to the
  states of the runtime. Both are prewarmed in one walk (`NodeStates.prewarm`).
* `lowered…` — the IR of the `EmitLowered*` functions, as functions from a state and the
  operands to a value and the new state. `sma`, `ema` and `lag` have a variant for states
  that are known to be filled, without the guards.
* `emittedStep` — the operator as a call site fixes it.

A field that the IR loads with `CreateFPTrunc` and stores with `CreateFPExt` keeps a `double`,
and so do the fields here.
-/

namespace JitSignalEngine

open Fp Widen

variable {D L : Type}

/-! ## States -/

/-- `SmaStateLowered` -/
structure SmaStateLowered (D : Type) where
  /-- the last `period` samples -/
  buffer : List D
  /-- running sum -/
  sum : D
  /-- next slot to write -/
  head : Nat
  /-- samples held -/
  count : Nat

/-- `EmaStateLowered` -/
structure EmaStateLowered (D : Type) where
  /-- current average -/
  value : D
  /-- whether a first sample was taken -/
  initialized : Bool

/-- `LagStateLowered` -/
structure LagStateLowered (D : Type) where
  /-- the last `period` samples -/
  buffer : List D
  /-- next slot to write -/
  head : Nat
  /-- samples held -/
  count : Nat

/-- `RollingStdStateLowered` -/
structure RollingStdStateLowered (D : Type) where
  /-- the last `period` samples -/
  buffer : List D
  /-- next slot to write -/
  head : Nat
  /-- samples held -/
  count : Nat
  /-- running sum -/
  sum : D
  /-- running sum of squares -/
  m2 : D

/-- `Kalman1dStateLowered` -/
structure Kalman1dStateLowered (D : Type) where
  /-- posterior estimate -/
  xHat : D
  /-- posterior error variance -/
  p : D
  /-- whether a first measurement was taken -/
  initialized : Bool

/-- `VwapStateLowered` -/
structure VwapStateLowered (D : Type) where
  /-- the last `period` prices -/
  priceBuf : List D
  /-- the volumes that belong to them -/
  volBuf : List D
  /-- next slot to write -/
  head : Nat
  /-- samples held -/
  count : Nat
  /-- running sum of price times volume -/
  sumPv : D
  /-- running sum of volume -/
  sumVol : D

/-- `RollingPairStateLowered` -/
structure RollingPairStateLowered (D : Type) where
  /-- the last `period` first components -/
  xBuf : List D
  /-- the second components that belong to them -/
  yBuf : List D
  /-- next slot to write -/
  head : Nat
  /-- samples held -/
  count : Nat
  /-- running sum of `x` -/
  sumX : D
  /-- running sum of `y` -/
  sumY : D
  /-- running sum of `x * y` -/
  sumXy : D
  /-- running sum of `x * x` -/
  sumXx : D
  /-- running sum of `y * y` -/
  sumYy : D

/-- `RollingMinMaxStateLowered`, with the fields of the runtime's deque and index -/
abbrev RollingMinMaxStateLowered (D : Type) : Type := RollingMinMaxState D

/-- `CrossStateLowered`, with the fields of `CrossState` -/
abbrev CrossStateLowered (D : Type) : Type := CrossState D

/-- The lowered states one node id owns. -/
structure LoweredSlot (D : Type) where
  /-- `sma_lowered` -/
  sma : SmaStateLowered D
  /-- `ema_lowered` -/
  ema : EmaStateLowered D
  /-- `lag_lowered` -/
  lag : LagStateLowered D
  /-- `rolling_std_lowered` -/
  rollingStd : RollingStdStateLowered D
  /-- `zscore_lowered` -/
  zscore : RollingStdStateLowered D
  /-- `rolling_min_lowered` -/
  rollingMin : RollingMinMaxStateLowered D
  /-- `rolling_max_lowered` -/
  rollingMax : RollingMinMaxStateLowered D
  /-- `cross_lowered` -/
  cross : CrossStateLowered D
  /-- `kalman1d_lowered` -/
  kalman1d : Kalman1dStateLowered D
  /-- `vwap_lowered` -/
  vwap : VwapStateLowered D
  /-- `rolling_corr_lowered` -/
  rollingCorr : RollingPairStateLowered D
  /-- `rolling_beta_lowered` -/
  rollingBeta : RollingPairStateLowered D

/-- All the states one node id owns. -/
structure NodeStates (D L : Type) where
  /-- the states of the runtime -/
  runtime : NodeSlot D L
  /-- the states of lowered operators -/
  lowered : LoweredSlot D

section Prewarm

variable [Fp D]

/-- What the prewarm leaves in `sma_lowered`. -/
def SmaStateLowered.reset (period : Nat) : SmaStateLowered D :=
  ⟨List.replicate period (ofNat 0), ofNat 0, 0, 0⟩

/-- What the prewarm leaves in `ema_lowered`. -/
def EmaStateLowered.reset : EmaStateLowered D := ⟨ofNat 0, false⟩

/-- What the prewarm leaves in `lag_lowered`. -/
def LagStateLowered.reset (period : Nat) : LagStateLowered D :=
  ⟨List.replicate period (ofNat 0), 0, 0⟩

/-- What the prewarm leaves in `rolling_std_lowered` and `zscore_lowered`. -/
def RollingStdStateLowered.reset (period : Nat) : RollingStdStateLowered D :=
  ⟨List.replicate period (ofNat 0), 0, 0, ofNat 0, ofNat 0⟩

/-- What the prewarm leaves in `rolling_min_lowered` and `rolling_max_lowered`. -/
def RollingMinMaxState.resetLowered (period : Nat) : RollingMinMaxStateLowered D :=
  ⟨⟨List.replicate (period + 1) (0, ofNat 0), 0, 0, period + 1⟩, 0⟩

/-- `Kalman1dStateLowered{}` -/
def Kalman1dStateLowered.init : Kalman1dStateLowered D := ⟨ofNat 0, ofNat 0, false⟩

/-- What the prewarm leaves in `vwap_lowered`. -/
def VwapStateLowered.reset (period : Nat) : VwapStateLowered D :=
  ⟨List.replicate period (ofNat 0), List.replicate period (ofNat 0), 0, 0, ofNat 0, ofNat 0⟩

/-- What the prewarm leaves in `rolling_corr_lowered` and `rolling_beta_lowered`. -/
def RollingPairStateLowered.reset (period : Nat) : RollingPairStateLowered D :=
  ⟨List.replicate period (ofNat 0), List.replicate period (ofNat 0), 0, 0, ofNat 0, ofNat 0,
    ofNat 0, ofNat 0, ofNat 0⟩

/-- The slot a context grows: null buffers and zeros. -/
def LoweredSlot.empty : LoweredSlot D :=
  ⟨.reset 0, .reset, .reset 0, .reset 0, .reset 0, .init, .init, .init, .init, .reset 0, .reset 0,
    .reset 0⟩

/-- The part of `PrewarmSignalContext` that mirrors an operator into its lowered state. -/
def LoweredSlot.prewarm (slot : LoweredSlot D) (fn : StatefulFn) (literal : Option D) :
    LoweredSlot D :=
  let period := parsePreparedPeriod literal
  let pairPeriod := parsePreparedPairPeriod literal
  match fn with
  | .ema => if 0 < period then { slot with ema := .reset } else slot
  | .emaAlpha => slot
  | .sma => if 0 < period then { slot with sma := .reset period } else slot
  | .rollingStd => if 0 < period then { slot with rollingStd := .reset period } else slot
  | .zscore => if 0 < period then { slot with zscore := .reset period } else slot
  | .vwap => if 0 < period then { slot with vwap := .reset period } else slot
  | .lag => if 0 < period then { slot with lag := .reset period } else slot
  | .rollingMin =>
    if 0 < period then { slot with rollingMin := RollingMinMaxState.resetLowered period } else slot
  | .rollingMax =>
    if 0 < period then { slot with rollingMax := RollingMinMaxState.resetLowered period } else slot
  | .rollingCorr => if 0 < pairPeriod then { slot with rollingCorr := .reset pairPeriod } else slot
  | .rollingBeta => if 0 < pairPeriod then { slot with rollingBeta := .reset pairPeriod } else slot
  | .kalman1d => { slot with kalman1d := .init }
  | .crossAbove | .crossBelow => { slot with cross := .init }

variable [Fp L] [Widen D L]

/-- A default-constructed slot. -/
def NodeStates.empty : NodeStates D L := ⟨.empty, .empty⟩

/-- The per-call body of `PrewarmSignalContext`. -/
def NodeStates.prewarm (slot : NodeStates D L) (fn : StatefulFn) (literal : Option D) :
    NodeStates D L :=
  ⟨slot.runtime.prewarm fn literal, slot.lowered.prewarm fn literal⟩

/-- `PrewarmSignalContext` for every signal of a program. -/
def prewarmProgramContext (ctx : SignalContext D (NodeStates D L)) (signals : List (SignalDef D)) :
    SignalContext D (NodeStates D L) :=
  signals.foldl (fun ctx signal => prewarmExpr NodeStates.prewarm signal.body ctx) ctx

end Prewarm

/-! ## The lowered operators -/

section Operators

variable [Fp D]

/-- `EmitLoweredSma` -/
def loweredSma (warm : Bool) (period : Nat) (st : SmaStateLowered D) (x : D) :
    D × SmaStateLowered D :=
  let old := st.buffer.getD st.head (ofNat 0)
  let buffer := st.buffer.set st.head x
  let head := (st.head + 1) % period
  if warm then
    let sum := sub (add st.sum x) old
    (div sum (ofNat period), ⟨buffer, sum, head, st.count⟩)
  else
    let wasFull := st.count = period
    let sum := sub (add st.sum x) (if wasFull then old else ofNat 0)
    let count := if wasFull then st.count else st.count + 1
    (if count = period then div sum (ofNat period) else nan, ⟨buffer, sum, head, count⟩)

/-- `EmitLoweredEma` -/
def loweredEma (warm : Bool) (period : Nat) (st : EmaStateLowered D) (x : D) :
    D × EmaStateLowered D :=
  let blended := emaBlend (emaAlphaOfPeriod period) x st.value
  if warm then (blended, { st with value := blended })
  else
    let value := if st.initialized then blended else x
    (value, ⟨value, true⟩)

/-- `EmitLoweredLag` -/
def loweredLag (warm : Bool) (period : Nat) (st : LagStateLowered D) (x : D) :
    D × LagStateLowered D :=
  let lagged := st.buffer.getD st.head (ofNat 0)
  let buffer := st.buffer.set st.head x
  let head := (st.head + 1) % period
  if warm then (lagged, ⟨buffer, head, st.count⟩)
  else
    let isFull := st.count = period
    (if isFull then lagged else nan, ⟨buffer, head, if isFull then st.count else st.count + 1⟩)

/-- The push `EmitLoweredRollingStd` and `EmitLoweredZscore` start with. -/
def loweredMoments (period : Nat) (st : RollingStdStateLowered D) (x : D) :
    RollingStdStateLowered D :=
  let wasFull := st.count = period
  let old := if wasFull then st.buffer.getD st.head (ofNat 0) else ofNat 0
  { buffer := st.buffer.set st.head x
    head := (st.head + 1) % period
    count := if wasFull then st.count else st.count + 1
    sum := sub (add st.sum x) old
    m2 := sub (add st.m2 (mul x x)) (mul old old) }

/-- The standard deviation of a full window, from its sum and its sum of squares. -/
def loweredStddev (period : Nat) (st : RollingStdStateLowered D) : D :=
  let n : D := ofNat period
  let mean := div st.sum n
  let ss := sub st.m2 (mul n (mul mean mean))
  let var := div ss (ofNat (period - 1))
  sqrt (if lt var (ofNat 0) then ofNat 0 else var)

/-- `EmitLoweredRollingStd` -/
def loweredRollingStd (period : Nat) (st : RollingStdStateLowered D) (x : D) :
    D × RollingStdStateLowered D :=
  let st := loweredMoments period st x
  (if st.count = period then loweredStddev period st else nan, st)

/-- `EmitLoweredZscore` -/
def loweredZscore (period : Nat) (st : RollingStdStateLowered D) (x : D) :
    D × RollingStdStateLowered D :=
  let st := loweredMoments period st x
  let stddev := loweredStddev period st
  let z := if le stddevFloor (fabs stddev) then div (sub x (div st.sum (ofNat period))) stddev
    else nan
  (if st.count = period then z else nan, st)

/-- `EmitLoweredMonoDequeRolling`, whose loops are those of the runtime -/
def loweredMonoDequeRolling (kind : MonoDequeKind) (period : Nat) (st : RollingMinMaxStateLowered D)
    (x : D) : D × RollingMinMaxStateLowered D :=
  let (front, st) := updateRolling kind st period x
  (if period ≤ st.idx then front else nan, st)

/-- `EmitLoweredCross` -/
def loweredCross (event : D → D → D → D → Bool) (st : CrossStateLowered D) (a b : D) :
    D × CrossStateLowered D :=
  if st.initialized then (ofBool (event st.prevA st.prevB a b), ⟨a, b, st.initialized⟩)
  else (ofNat 0, ⟨a, b, true⟩)

/-- `EmitLoweredKalman1d` -/
def loweredKalman1d (st : Kalman1dStateLowered D) (x q r : D) : D × Kalman1dStateLowered D :=
  if st.initialized then
    let pPred := add st.p q
    let denom := add pPred r
    let kGain := div pPred denom
    let xHatNew := add st.xHat (mul kGain (sub x st.xHat))
    let pNewRaw := mul (sub (ofNat 1) kGain) pPred
    let pNew := if lt pNewRaw (ofNat 0) then ofNat 0 else pNewRaw
    let denomPos := lt (ofNat 0) denom
    let out := if denomPos then xHatNew else st.xHat
    (out, ⟨out, if denomPos then pNew else st.p, st.initialized⟩)
  else (x, ⟨x, r, true⟩)

/-- `EmitLoweredVwap`, on the fields of the instrument -/
def loweredVwap (period : Nat) (st : VwapStateLowered D) (bid ask volume : D) :
    D × VwapStateLowered D :=
  let price := mul (add bid ask) (ofRat (1 / 2))
  let vol := if lt (ofNat 0) volume then volume else ofNat 1
  let oldP := st.priceBuf.getD st.head (ofNat 0)
  let oldV := st.volBuf.getD st.head (ofNat 0)
  let wasFull := st.count = period
  let sumPv := add (if wasFull then sub st.sumPv (mul oldP oldV) else st.sumPv) (mul price vol)
  let sumVol := add (if wasFull then sub st.sumVol oldV else st.sumVol) vol
  let count := if wasFull then st.count else st.count + 1
  (if count = period ∧ lt (ofNat 0) sumVol then div sumPv sumVol else nan,
    ⟨st.priceBuf.set st.head price, st.volBuf.set st.head vol, (st.head + 1) % period, count,
      sumPv, sumVol⟩)

/-- The push `EmitLoweredRollingPair` starts with. -/
def loweredPairPush (period : Nat) (st : RollingPairStateLowered D) (x y : D) :
    RollingPairStateLowered D :=
  let ox := st.xBuf.getD st.head (ofNat 0)
  let oy := st.yBuf.getD st.head (ofNat 0)
  let wasFull := st.count = period
  let drop := fun (sum old : D) => if wasFull then sub sum old else sum
  { xBuf := st.xBuf.set st.head x
    yBuf := st.yBuf.set st.head y
    head := (st.head + 1) % period
    count := if wasFull then st.count else st.count + 1
    sumX := add (drop st.sumX ox) x
    sumY := add (drop st.sumY oy) y
    sumXy := add (drop st.sumXy (mul ox oy)) (mul x y)
    sumXx := add (drop st.sumXx (mul ox ox)) (mul x x)
    sumYy := add (drop st.sumYy (mul oy oy)) (mul y y) }

/-- `EmitLoweredRollingPair` for `rolling_corr` -/
def loweredRollingCorr (period : Nat) (st : RollingPairStateLowered D) (x y : D) :
    D × RollingPairStateLowered D :=
  let st := loweredPairPush period st x y
  let n : D := ofNat period
  let cov := unnormalized st.sumXy st.sumX st.sumY n
  let varX := unnormalized st.sumXx st.sumX st.sumX n
  let varY := unnormalized st.sumYy st.sumY st.sumY n
  let denom := sqrt (mul varX varY)
  let canCorr := decide (st.count = period) && (lt (ofNat 0) varX && lt (ofNat 0) varY) &&
    lt (ofNat 0) denom
  let r := div cov denom
  let clamped := if lt (ofNat 1) r then ofNat 1 else if lt r (ofRat (-1)) then ofRat (-1) else r
  (if canCorr then clamped else nan, st)

/-- `EmitLoweredRollingPair` for `rolling_beta` -/
def loweredRollingBeta (period : Nat) (st : RollingPairStateLowered D) (x y : D) :
    D × RollingPairStateLowered D :=
  let st := loweredPairPush period st x y
  let n : D := ofNat period
  let cov := unnormalized st.sumXy st.sumX st.sumY n
  let varX := unnormalized st.sumXx st.sumX st.sumX n
  (if st.count = period ∧ lt (ofNat 0) varX then div cov varX else nan, st)

/-- A lowered operator. -/
def loweredStep (op : StatefulOp D) (warm : Bool) (args : List D) (slot : LoweredSlot D) :
    Option (D × LoweredSlot D) :=
  match op.fn, args with
  | .sma, [x] =>
    let (v, st) := loweredSma warm op.period slot.sma x
    some (v, { slot with sma := st })
  | .ema, [x] =>
    let (v, st) := loweredEma warm op.period slot.ema x
    some (v, { slot with ema := st })
  | .lag, [x] =>
    let (v, st) := loweredLag warm op.period slot.lag x
    some (v, { slot with lag := st })
  | .rollingStd, [x] =>
    let (v, st) := loweredRollingStd op.period slot.rollingStd x
    some (v, { slot with rollingStd := st })
  | .zscore, [x] =>
    let (v, st) := loweredZscore op.period slot.zscore x
    some (v, { slot with zscore := st })
  | .rollingMin, [x] =>
    let (v, st) := loweredMonoDequeRolling .min op.period slot.rollingMin x
    some (v, { slot with rollingMin := st })
  | .rollingMax, [x] =>
    let (v, st) := loweredMonoDequeRolling .max op.period slot.rollingMax x
    some (v, { slot with rollingMax := st })
  | .crossAbove, [a, b] =>
    let (v, st) := loweredCross crossedAbove slot.cross a b
    some (v, { slot with cross := st })
  | .crossBelow, [a, b] =>
    let (v, st) := loweredCross crossedBelow slot.cross a b
    some (v, { slot with cross := st })
  | .kalman1d, [x, q, r] =>
    let (v, st) := loweredKalman1d slot.kalman1d x q r
    some (v, { slot with kalman1d := st })
  | .vwap, [bid, ask, volume] =>
    let (v, st) := loweredVwap op.period slot.vwap bid ask volume
    some (v, { slot with vwap := st })
  | .rollingCorr, [x, y] =>
    let (v, st) := loweredRollingCorr op.period slot.rollingCorr x y
    some (v, { slot with rollingCorr := st })
  | .rollingBeta, [x, y] =>
    let (v, st) := loweredRollingBeta op.period slot.rollingBeta x y
    some (v, { slot with rollingBeta := st })
  | _, _ => none

end Operators

/-! ## Emitted operators -/

section Emitted

variable [Fp D] [Fp L] [Widen D L]

/-- A call of the runtime. `ema` calls `jit_rt_ema_alpha`, with the factor as a constant. -/
def runtimeStep (op : StatefulOp D) (market : MarketState D) (args : List D)
    (slot : NodeSlot D L) : Except String (D × NodeSlot D L) :=
  match op.fn, args with
  | .ema, [x] => .ok (jitRtEmaAlpha slot x (emaAlphaOfPeriod op.period) op.period)
  | .emaAlpha, [x, alpha] => .ok (jitRtEmaAlpha slot x alpha 0)
  | .sma, [x] => jitRtSma slot x
  | .rollingStd, [x] => jitRtRollingStd slot x
  | .zscore, [x] => jitRtZscore slot x
  | .vwap, [] => jitRtVwap (market op.symbol) slot
  | .lag, [x] => jitRtLag slot x
  | .crossAbove, [a, b] => .ok (jitRtCrossAbove slot a b)
  | .crossBelow, [a, b] => .ok (jitRtCrossBelow slot a b)
  | .rollingMin, [x] => jitRtRollingMin slot x op.period
  | .rollingMax, [x] => jitRtRollingMax slot x op.period
  | .rollingCorr, [x, y] => jitRtRollingCorr slot x y op.period
  | .rollingBeta, [x, y] => jitRtRollingBeta slot x y op.period
  | .kalman1d, [x, q, r] => .ok (jitRtKalman1d slot x q r)
  | _, _ => .error "arity"

omit [Fp L] [Widen D L] in
/-- The sum of a buffer in four lanes, then over the lanes, then over what is left. -/
def vectorSum (period : Nat) (buffer : List D) : D :=
  let lane := fun l => (List.range (period / 4)).foldl
    (fun sum c => add sum (buffer.getD (4 * c + l) (ofNat 0))) (ofNat 0)
  let lanes := (List.range 4).foldl (fun sum l => add sum (lane l)) (ofNat 0)
  (List.range (period % 4)).foldl
    (fun sum t => add sum (buffer.getD (4 * (period / 4) + t) (ofNat 0))) lanes

/-- `jit_rt_sma_prepare` and the vector sum -/
def avx2Sma (period : Nat) (slot : NodeSlot D L) (x : D) : Except String (D × NodeSlot D L) :=
  (ringStatsPushPrepared slot.sma x).map fun st =>
    (if ringStatsFull st then div (vectorSum period st.buffer) (ofNat period) else nan,
      { slot with sma := st })

/-- A stateful operator in emitted code; `none` when it throws. -/
def emittedStep (op : StatefulOp D) (warm : Bool) (market : MarketState D) (args : List D)
    (slot : NodeStates D L) : Option (D × NodeStates D L) :=
  match op.impl, args with
  | .lowered, args =>
    (loweredStep op warm args slot.lowered).map fun out => (out.1, { slot with lowered := out.2 })
  | .avx2, [x] =>
    (avx2Sma op.period slot.runtime x).toOption.map fun out =>
      (out.1, { slot with runtime := out.2 })
  | .runtime, args =>
    (runtimeStep op market args slot.runtime).toOption.map fun out =>
      (out.1, { slot with runtime := out.2 })
  | _, _ => none

end Emitted

end JitSignalEngine
