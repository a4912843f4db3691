import JitSignalEngine.Ast
import JitSignalEngine.RuntimeState

/-!
# The signal context and the runtime operators

* `NodeSlot` — everything a `SignalContext` holds for one node id. The C++ context
  keeps one vector per operator, all resized in lockstep and all indexed by node
  id; here the vectors are transposed, one record per node id. An operator only
  touches its own field of the record.
* `prewarmSignalContext` — `PrewarmSignalContext`: the walk that sizes the windows
  before the first tick.
* `jitRt…` — the `jit_rt_*` entry points compiled code calls, as functions from a
  slot and the arguments to a value and the new slot.
-/

namespace JitSignalEngine

open Fp Widen

variable {D L : Type} [Fp D] [Fp L] [Widen D L]

/-! ## Market data -/

/-- The fields of `InstrumentState` that signals read. -/
structure InstrumentState (D : Type) where
  /-- best bid -/
  bid : D
  /-- best ask -/
  ask : D
  /-- traded volume -/
  volume : D

/-- `MarketState`: the instruments, by slot. -/
abbrev MarketState (D : Type) : Type := Nat → InstrumentState D

namespace InstrumentState

/-- The mid price, as `EvalMid`, `jit_rt_mid` and both `vwap`s compute it. -/
def mid (ins : InstrumentState D) : D := mul (add ins.bid ins.ask) (ofRat (1 / 2))

/-- The spread. -/
def spread (ins : InstrumentState D) : D := sub ins.ask ins.bid

/-- The volume `vwap` weighs a price with: a missing volume counts as one. -/
def weight (ins : InstrumentState D) : D :=
  if lt (ofNat 0) ins.volume then ins.volume else ofNat 1

/-- The value a market function reads. -/
def read (ins : InstrumentState D) : MarketFn → D
  | .mid => ins.mid
  | .bid => ins.bid
  | .ask => ins.ask
  | .spread => ins.spread

end InstrumentState

/-- The `std::fabs`, `std::log` and `std::sqrt` calls. -/
def MathFn.apply : MathFn → D → D
  | .abs => Fp.fabs
  | .log => Fp.log
  | .sqrt => Fp.sqrt

/-- `SymbolTable`: the instrument slot of each registered ticker. -/
abbrev SymbolTable : Type := String → Option Nat

/-- `SymbolTable::LookupId` -/
def SymbolTable.lookupId (symbols : SymbolTable) (symbol : String) : Except String Nat :=
  match symbols symbol with
  | some id => .ok id
  | none => .error ("Unknown symbol: " ++ symbol)

/-! ## The context -/

/-- The operator states one node id owns. -/
structure NodeSlot (D L : Type) where
  /-- `ema_states` -/
  ema : EMAState D
  /-- `sma_states` -/
  sma : RingStatsState D L
  /-- `rolling_std_states` -/
  rollingStd : RingStatsState D L
  /-- `zscore_states` -/
  zscore : RingStatsState D L
  /-- `vwap_states` -/
  vwap : VwapState D L
  /-- `lag_states` -/
  lag : LagState D
  /-- `cross_states` -/
  cross : CrossState D
  /-- `rolling_min_deques`, `rolling_min_indices` -/
  rollingMin : RollingMinMaxState D
  /-- `rolling_max_deques`, `rolling_max_indices` -/
  rollingMax : RollingMinMaxState D
  /-- `rolling_corr_states` -/
  rollingCorr : RollingPairState D L
  /-- `rolling_beta_states` -/
  rollingBeta : RollingPairState D L
  /-- `kalman1d_states` -/
  kalman1d : Kalman1dState D

/-- A default-constructed slot. -/
def NodeSlot.empty : NodeSlot D L :=
  ⟨.init, .init, .init, .init, .init, .init, .init, .init, .init, .init, .init, .init⟩

/-- `SignalContext`, over the kind `S` of slot it keeps. The parameter pointer is
null exactly when there are no parameters. -/
structure SignalContext (D S : Type) where
  /-- the parameter vector -/
  params : List D
  /-- the slot of each node id -/
  slots : Nat → S

namespace SignalContext

variable {S : Type}

omit [Fp D]

/-- Write one slot. -/
def setSlot (ctx : SignalContext D S) (id : Nat) (slot : S) : SignalContext D S :=
  { ctx with slots := fun j => if j = id then slot else ctx.slots j }

@[simp] theorem setSlot_params (ctx : SignalContext D S) (id : Nat) (slot : S) :
    (ctx.setSlot id slot).params = ctx.params := rfl

@[simp] theorem setSlot_slots_self (ctx : SignalContext D S) (id : Nat) (slot : S) :
    (ctx.setSlot id slot).slots id = slot := by simp [setSlot]

theorem setSlot_slots_ne (ctx : SignalContext D S) {id j : Nat} (slot : S) (h : j ≠ id) :
    (ctx.setSlot id slot).slots j = ctx.slots j := by simp [setSlot, h]

end SignalContext

/-! ## Prewarming -/

/-- `ParsePreparedPeriod`, given the literal argument 1 holds; `0` when there is no
usable period. -/
def parsePreparedPeriod (literal : Option D) : Nat :=
  match literal with
  | none => 0
  | some v =>
    let period := toInt v
    if period ≤ 0 || lt eqTolerance (fabs (sub v (ofInt period))) then 0 else period.toNat

/-- The period of a paired operator as the prewarm reads it off argument 2. -/
def parsePreparedPairPeriod (literal : Option D) : Nat :=
  match literal with
  | none => 0
  | some v =>
    let p := toInt v
    if 0 < p && lt (fabs (sub v (ofInt p))) eqTolerance then p.toNat else 0

/-- The argument position that holds the window length. -/
def StatefulFn.periodArg : StatefulFn → Nat
  | .rollingCorr | .rollingBeta => 2
  | _ => 1

/-- The literal at the window position of a call, if that argument is a literal. -/
def periodLiteral (fn : StatefulFn) (args : List (Expr D)) : Option D :=
  (args[fn.periodArg]?).bind Expr.asNumber

/-- The prewarm of a ring: nothing happens when the capacity already fits. -/
def RingStatsState.prewarm (st : RingStatsState D L) (period : Nat) : RingStatsState D L :=
  if 0 < period ∧ st.capacity ≠ period then
    { RingStatsState.reset period with slidesSinceRefresh := st.slidesSinceRefresh }
  else st

/-- The per-call body of `PrewarmSignalContext`, given the literal at the window
position. -/
def NodeSlot.prewarm (slot : NodeSlot D L) (fn : StatefulFn) (literal : Option D) :
    NodeSlot D L :=
  let period := parsePreparedPeriod literal
  let pairPeriod := parsePreparedPairPeriod literal
  match fn with
  | .ema =>
    if 0 < period then
      { slot with ema := { slot.ema with period := period, alpha := emaAlphaOfPeriod period } }
    else slot
  | .emaAlpha => slot
  | .sma => { slot with sma := slot.sma.prewarm period }
  | .rollingStd => { slot with rollingStd := slot.rollingStd.prewarm period }
  | .zscore => { slot with zscore := slot.zscore.prewarm period }
  | .vwap =>
    if 0 < period ∧ slot.vwap.capacity ≠ period then { slot with vwap := .reset period } else slot
  | .lag =>
    if 0 < period ∧ slot.lag.capacity ≠ period then { slot with lag := .reset period } else slot
  | .rollingMin =>
    if 0 < period then { slot with rollingMin := ⟨slot.rollingMin.dq.monoInit period, 0⟩ } else slot
  | .rollingMax =>
    if 0 < period then { slot with rollingMax := ⟨slot.rollingMax.dq.monoInit period, 0⟩ } else slot
  | .rollingCorr =>
    if 0 < pairPeriod ∧ slot.rollingCorr.capacity ≠ pairPeriod then
      { slot with rollingCorr := .reset pairPeriod }
    else slot
  | .rollingBeta =>
    if 0 < pairPeriod ∧ slot.rollingBeta.capacity ≠ pairPeriod then
      { slot with rollingBeta := .reset pairPeriod }
    else slot
  | .kalman1d => { slot with kalman1d := .init }
  | .crossAbove | .crossBelow => { slot with cross := .init }

section Prewarm

variable {S : Type}

/-- One call of the prewarm walk: `prewarm` is what a slot of kind `S` does about an
operator. Calls of other functions own no slot. -/
def prewarmCall (prewarm : S → StatefulFn → Option D → S) (ctx : SignalContext D S)
    (name : String) (args : List (Expr D)) (nodeId : Int) : SignalContext D S :=
  match Builtin.ofName name with
  | some (.stateful fn) =>
    if 0 ≤ nodeId then
      ctx.setSlot nodeId.toNat (prewarm (ctx.slots nodeId.toNat) fn (periodLiteral fn args))
    else ctx
  | _ => ctx

mutual

/-- The walk of `PrewarmSignalContext`: a call before its arguments. -/
def prewarmExpr (prewarm : S → StatefulFn → Option D → S) :
    Expr D → SignalContext D S → SignalContext D S
  | .numberLiteral _ _, ctx => ctx
  | .identifierExpr _ _, ctx => ctx
  | .parameterExpr _ _ _, ctx => ctx
  | .unaryOp _ _ e, ctx => prewarmExpr prewarm e ctx
  | .binaryOp _ _ l r, ctx => prewarmExpr prewarm r (prewarmExpr prewarm l ctx)
  | .conditional _ c t e, ctx =>
    prewarmExpr prewarm e (prewarmExpr prewarm t (prewarmExpr prewarm c ctx))
  | .functionCall _ n args nid _, ctx => prewarmArgs prewarm args (prewarmCall prewarm ctx n args nid)

/-- The argument loop of the walk. -/
def prewarmArgs (prewarm : S → StatefulFn → Option D → S) :
    List (Expr D) → SignalContext D S → SignalContext D S
  | [], ctx => ctx
  | a :: as, ctx => prewarmArgs prewarm as (prewarmExpr prewarm a ctx)

end

end Prewarm

/-- `PrewarmSignalContext` -/
def prewarmSignalContext (ctx : SignalContext D (NodeSlot D L)) (signal : SignalDef D) :
    SignalContext D (NodeSlot D L) :=
  prewarmExpr NodeSlot.prewarm signal.body ctx

/-- A new context with its parameters set. -/
def SignalContext.fresh (params : List D) : SignalContext D (NodeSlot D L) :=
  ⟨params, fun _ => .empty⟩

/-! ## What the windowed operators return

The statements after the push, the same in the interpreter and in `runtime.cpp`. -/

/-- `sma`: the mean of a full window. -/
def smaReadout (st : RingStatsState D L) : D :=
  if !ringStatsFull st then nan else ringStatsMean st

/-- `rolling_std`: the sample standard deviation of a full window. -/
def rollingStdReadout (st : RingStatsState D L) : D :=
  if !ringStatsFull st then nan else ringStatsStddevSample st

/-- `zscore`: the distance of the new sample from the mean, in standard deviations. -/
def zscoreReadout (st : RingStatsState D L) (x : D) : D :=
  if !ringStatsFull st then nan
  else
    let mean := ringStatsMean st
    let stddev := ringStatsStddevSample st
    if isnan stddev || lt (fabs stddev) stddevFloor then nan else div (sub x mean) stddev

/-- `vwap`: the value of a full window. -/
def vwapReadout (st : VwapState D L) : D := if !vwapFull st then nan else vwapValue st

/-- `rolling_min` and `rolling_max`: the front of the deque once `period` ticks were
seen. -/
def minMaxReadout (period : Nat) (out : D × RollingMinMaxState D) :
    D × RollingMinMaxState D :=
  (if out.2.idx < period then nan else out.1, out.2)

/-! ## The `jit_rt_*` entry points -/

/-- `jit_rt_ema` -/
def jitRtEma (slot : NodeSlot D L) (x : D) (period : Nat) : D × NodeSlot D L :=
  let st := slot.ema
  if !st.initialized then (x, { slot with ema := ⟨x, emaAlphaOfPeriod period, period, true⟩ })
  else
    let value := emaBlend st.alpha x st.value
    (value, { slot with ema := { st with value := value } })

/-- `jit_rt_ema_alpha`: the factor is the one the first call stored. -/
def jitRtEmaAlpha (slot : NodeSlot D L) (x alpha : D) (period : Int) : D × NodeSlot D L :=
  let st := slot.ema
  if !st.initialized then (x, { slot with ema := ⟨x, alpha, period, true⟩ })
  else
    let value := emaBlend st.alpha x st.value
    (value, { slot with ema := { st with value := value } })

/-- `jit_rt_sma` -/
def jitRtSma (slot : NodeSlot D L) (x : D) : Except String (D × NodeSlot D L) :=
  (ringStatsPushPrepared slot.sma x).map fun st => (smaReadout st, { slot with sma := st })

/-- `jit_rt_rolling_std` -/
def jitRtRollingStd (slot : NodeSlot D L) (x : D) : Except String (D × NodeSlot D L) :=
  (ringStatsPushPrepared slot.rollingStd x).map fun st =>
    (rollingStdReadout st, { slot with rollingStd := st })

/-- `jit_rt_zscore` -/
def jitRtZscore (slot : NodeSlot D L) (x : D) : Except String (D × NodeSlot D L) :=
  (ringStatsPushPrepared slot.zscore x).map fun st =>
    (zscoreReadout st x, { slot with zscore := st })

/-- `jit_rt_rolling_min` -/
def jitRtRollingMin (slot : NodeSlot D L) (x : D) (period : Nat) :
    Except String (D × NodeSlot D L) :=
  (updateRollingPrepared .min slot.rollingMin x).map fun out =>
    let (v, st) := minMaxReadout period out
    (v, { slot with rollingMin := st })

/-- `jit_rt_rolling_max` -/
def jitRtRollingMax (slot : NodeSlot D L) (x : D) (period : Nat) :
    Except String (D × NodeSlot D L) :=
  (updateRollingPrepared .max slot.rollingMax x).map fun out =>
    let (v, st) := minMaxReadout period out
    (v, { slot with rollingMax := st })

/-- `jit_rt_vwap` -/
def jitRtVwap (ins : InstrumentState D) (slot : NodeSlot D L) :
    Except String (D × NodeSlot D L) :=
  (vwapPushPrepared slot.vwap ins.mid ins.weight).map fun st =>
    (vwapReadout st, { slot with vwap := st })

/-- `jit_rt_lag` -/
def jitRtLag (slot : NodeSlot D L) (x : D) : Except String (D × NodeSlot D L) :=
  let lagged := lagValue slot.lag
  (lagPushPrepared slot.lag x).map fun st => (lagged, { slot with lag := st })

/-- `jit_rt_cross_above` -/
def jitRtCrossAbove (slot : NodeSlot D L) (a b : D) : D × NodeSlot D L :=
  let (v, st) := crossStep crossedAbove slot.cross a b
  (v, { slot with cross := st })

/-- `jit_rt_cross_below` -/
def jitRtCrossBelow (slot : NodeSlot D L) (a b : D) : D × NodeSlot D L :=
  let (v, st) := crossStep crossedBelow slot.cross a b
  (v, { slot with cross := st })

/-- `jit_rt_rolling_corr` -/
def jitRtRollingCorr (slot : NodeSlot D L) (x y : D) (period : Nat) :
    Except String (D × NodeSlot D L) :=
  (rollingPairPush slot.rollingCorr period x y).map fun st =>
    (rollingPairCorrelation st, { slot with rollingCorr := st })

/-- `jit_rt_rolling_beta` -/
def jitRtRollingBeta (slot : NodeSlot D L) (x y : D) (period : Nat) :
    Except String (D × NodeSlot D L) :=
  (rollingPairPush slot.rollingBeta period x y).map fun st =>
    (rollingPairBeta st, { slot with rollingBeta := st })

/-- `jit_rt_kalman1d` -/
def jitRtKalman1d (slot : NodeSlot D L) (x q r : D) : D × NodeSlot D L :=
  let (v, st) := kalman1dStep slot.kalman1d x q r
  (v, { slot with kalman1d := st })

end JitSignalEngine
