import JitSignalEngine.RuntimeOps

/-!
# The interpreter

`interpreter.cpp`: a visitor that evaluates one signal body against one market
snapshot and updates the operator states of a context.

* `EvalM` — computations that read and write an `EvalState` and may throw. A C++
  exception leaves behind whatever was written before it, so a throw keeps the
  state: the next `Evaluate` call finds the half-updated context.
* `Interpreter.visit` — the visitor. A call hands its arguments on as `CallArg`s,
  expression and evaluator together: most operators inspect one argument (a
  period, a ticker) and evaluate another.
* `Interpreter.evaluate`, `Interpreter.contextAt` — one `Evaluate` call, and the
  context a stream of ticks leaves behind.

Besides the context and the per-`Evaluate` cache, `EvalState` carries a `trace`: the
slot updates and call results of the current `Evaluate`, in order. Nothing reads
it; it is there for statements about how often something happens.
-/

namespace JitSignalEngine

open Fp Widen

variable {D L : Type}

/-! ## State and exceptions -/

/-- What an `Evaluate` call did. -/
inductive Event (D : Type) where
  /-- the state slot of an operator was written -/
  | slotUpdated (fn : StatefulFn) (nodeId : Int)
  /-- a stateful call was visited and returned a value, from the cache or not -/
  | callReturned (nodeId : Int) (value : D)

/-- The state of an `Evaluate` call in progress. -/
structure EvalState (D L : Type) where
  /-- the operator states -/
  ctx : SignalContext D (NodeSlot D L)
  /-- `stateful_eval_cache_` -/
  cache : Int → Option D
  /-- what happened so far -/
  trace : List (Event D)

/-- Computations over an `EvalState` that may throw, keeping the state they threw in. -/
def EvalM (D L α : Type) : Type := EvalState D L → Except String α × EvalState D L

namespace EvalM

variable {α β : Type}

/-- Return without touching the state. -/
protected def pure (a : α) : EvalM D L α := fun s => (.ok a, s)

/-- Sequencing: an exception skips the rest. -/
protected def bind (m : EvalM D L α) (f : α → EvalM D L β) : EvalM D L β := fun s =>
  match m s with
  | (.ok a, s') => f a s'
  | (.error e, s') => (.error e, s')

instance : Monad (EvalM D L) where
  pure := EvalM.pure
  bind := EvalM.bind

/-- `throw std::runtime_error(e)` -/
def throw (e : String) : EvalM D L α := fun s => (.error e, s)

/-- A check that reads no state. -/
def lift (r : Except String α) : EvalM D L α := fun s => (r, s)

@[simp] theorem pure_apply (a : α) (s : EvalState D L) :
    (pure a : EvalM D L α) s = (.ok a, s) := rfl

@[simp] theorem throw_apply (e : String) (s : EvalState D L) :
    (throw e : EvalM D L α) s = (.error e, s) := rfl

@[simp] theorem lift_ok (a : α) : (lift (.ok a) : EvalM D L α) = pure a := rfl

@[simp] theorem lift_error (e : String) :
    (lift (.error e) : EvalM D L α) = throw e := rfl

@[simp] theorem pure_bind (a : α) (f : α → EvalM D L β) : (pure a >>= f) = f a := rfl

@[simp] theorem throw_bind (e : String) (f : α → EvalM D L β) :
    (throw e >>= f) = throw e := rfl

/-- Associativity. -/
theorem bind_assoc {γ : Type} (m : EvalM D L α) (f : α → EvalM D L β) (g : β → EvalM D L γ) :
    ((m >>= f) >>= g) = (m >>= fun a => f a >>= g) := by
  funext s
  change EvalM.bind (EvalM.bind m f) g s = EvalM.bind m (fun a => EvalM.bind (f a) g) s
  simp only [EvalM.bind]
  rcases m s with ⟨_ | a, s'⟩ <;> rfl

/-- Introduction for `bind`. -/
theorem bind_ok {m : EvalM D L α} {f : α → EvalM D L β} {s s' : EvalState D L} {a : α}
    (h : m s = (.ok a, s')) : (m >>= f) s = f a s' := by
  change EvalM.bind m f s = f a s'
  simp only [EvalM.bind, h]

/-- An exception passes through `bind`. -/
theorem bind_error {m : EvalM D L α} {f : α → EvalM D L β} {s s' : EvalState D L} {e : String}
    (h : m s = (.error e, s')) : (m >>= f) s = (.error e, s') := by
  change EvalM.bind m f s = (.error e, s')
  simp only [EvalM.bind, h]

/-- Inversion for `bind`. -/
theorem bind_eq_ok {m : EvalM D L α} {f : α → EvalM D L β} {s s'' : EvalState D L} {b : β}
    (h : (m >>= f) s = (.ok b, s'')) :
    ∃ a s', m s = (.ok a, s') ∧ f a s' = (.ok b, s'') := by
  rcases hm : m s with ⟨_ | a, s'⟩
  · rw [bind_error hm] at h
    cases h
  · rw [bind_ok hm] at h
    exact ⟨a, s', rfl, h⟩

end EvalM

/-! ## Calls -/

/-- An argument of a call: the expression, for the checks that look at it, and its
evaluator (`EvalChild`). -/
structure CallArg (D L : Type) where
  /-- the argument expression -/
  expr : Expr D
  /-- what `EvalChild` does on it -/
  eval : EvalM D L D

/-- The fields of a `FunctionCall` that evaluation looks at. -/
structure CallView (D L : Type) where
  /-- the arguments -/
  args : List (CallArg D L)
  /-- `node_id` -/
  nodeId : Int
  /-- `symbol_id` -/
  symbolId : Int

namespace Interpreter

variable [Fp D] [Fp L] [Widen D L]

/-- `ResolveSymbolSlot` -/
def resolveSymbolSlot (symbols : SymbolTable) (fnName : String) (args : List (Expr D))
    (symbolId : Int) : Except String Nat :=
  if 0 ≤ symbolId then .ok symbolId.toNat
  else if args.length ≠ 1 ∧ fnName ≠ "vwap" then
    .error (fnName ++ "() expects exactly one argument")
  else
    match args with
    | [] => .error (fnName ++ "() requires ticker identifier")
    | a :: _ =>
      match a.asIdentifier with
      | none => .error (fnName ++ "() argument must be ticker identifier")
      | some name => symbols.lookupId name

/-- `Interpreter::ParsePositiveIntegerPeriod` -/
def parsePositiveIntegerPeriod (expr : Expr D) (fnName : String) : Except String Nat :=
  match expr.asNumber with
  | none => .error (fnName ++ " period must be a numeric literal in pre-LLVM stage")
  | some v =>
    let period := toInt v
    if period ≤ 0 || lt eqTolerance (fabs (sub v (ofInt period))) then
      .error (fnName ++ " period must be a positive integer")
    else .ok period.toNat

/-- `if (fn.node_id < 0) throw …` -/
def requireNodeId (call : CallView D L) (label : String) : EvalM D L Unit :=
  if call.nodeId < 0 then EvalM.throw (label ++ " node_id not allocated") else pure ()

/-- Read the slot of a node id, let the operator work on it, write it back. -/
def updateSlot (fn : StatefulFn) (nodeId : Int)
    (step : NodeSlot D L → Except String (D × NodeSlot D L)) : EvalM D L D := fun s =>
  match step (s.ctx.slots nodeId.toNat) with
  | .error e => (.error e, s)
  | .ok (v, slot) =>
    (.ok v, { s with
      ctx := s.ctx.setSlot nodeId.toNat slot
      trace := s.trace ++ [.slotUpdated fn nodeId] })

/-! ### Operator updates

The statements of the `Eval*` members past the evaluation of their operands. -/

/-- `EvalEma` -/
def emaStep (period : Nat) (x : D) (slot : NodeSlot D L) : Except String (D × NodeSlot D L) :=
  let st := slot.ema
  if !st.initialized then
    .ok (x, { slot with ema := { st with value := x, initialized := true } })
  else
    let value := emaBlend (emaAlphaOfPeriod period) x st.value
    .ok (value, { slot with ema := { st with value := value } })

/-- `EvalEmaAlpha` -/
def emaAlphaStep (x alpha : D) (slot : NodeSlot D L) : Except String (D × NodeSlot D L) :=
  let st := slot.ema
  if !st.initialized then
    .ok (x, { slot with ema := { st with value := x, alpha := alpha, initialized := true } })
  else
    let value := emaBlend alpha x st.value
    .ok (value, { slot with ema := { st with value := value, alpha := alpha } })

/-- `EvalSma` -/
def smaStep (period : Nat) (x : D) (slot : NodeSlot D L) : Except String (D × NodeSlot D L) :=
  (ringStatsPush slot.sma period x).map fun st => (smaReadout st, { slot with sma := st })

/-- `EvalRollingStd` -/
def rollingStdStep (period : Nat) (x : D) (slot : NodeSlot D L) :
    Except String (D × NodeSlot D L) :=
  (ringStatsPush slot.rollingStd period x).map fun st =>
    (rollingStdReadout st, { slot with rollingStd := st })

/-- `EvalZscore` -/
def zscoreStep (period : Nat) (x : D) (slot : NodeSlot D L) : Except String (D × NodeSlot D L) :=
  (ringStatsPush slot.zscore period x).map fun st =>
    (zscoreReadout st x, { slot with zscore := st })

/-- `EvalVwap` -/
def vwapStep (ins : InstrumentState D) (period : Nat) (slot : NodeSlot D L) :
    Except String (D × NodeSlot D L) :=
  (vwapPush slot.vwap period ins.mid ins.weight).map fun st =>
    (vwapReadout st, { slot with vwap := st })

/-- `EvalRollingMin` -/
def rollingMinStep (period : Nat) (x : D) (slot : NodeSlot D L) :
    Except String (D × NodeSlot D L) :=
  let (v, st) := minMaxReadout period (updateRollingInit .min slot.rollingMin period x)
  .ok (v, { slot with rollingMin := st })

/-- `EvalRollingMax` -/
def rollingMaxStep (period : Nat) (x : D) (slot : NodeSlot D L) :
    Except String (D × NodeSlot D L) :=
  let (v, st) := minMaxReadout period (updateRollingInit .max slot.rollingMax period x)
  .ok (v, { slot with rollingMax := st })

/-- `EvalLag` -/
def lagStep (period : Nat) (x : D) (slot : NodeSlot D L) : Except String (D × NodeSlot D L) :=
  let lagged := lagValue slot.lag
  (lagPush slot.lag period x).map fun st => (lagged, { slot with lag := st })

/-- `EvalCrossAbove` -/
def crossAboveStep (a b : D) (slot : NodeSlot D L) : Except String (D × NodeSlot D L) :=
  let (v, st) := crossStep crossedAbove slot.cross a b
  .ok (v, { slot with cross := st })

/-- `EvalCrossBelow` -/
def crossBelowStep (a b : D) (slot : NodeSlot D L) : Except String (D × NodeSlot D L) :=
  let (v, st) := crossStep crossedBelow slot.cross a b
  .ok (v, { slot with cross := st })

/-- `EvalRollingCorr` -/
def rollingCorrStep (period : Nat) (x y : D) (slot : NodeSlot D L) :
    Except String (D × NodeSlot D L) :=
  (rollingPairPush slot.rollingCorr period x y).map fun st =>
    (rollingPairCorrelation st, { slot with rollingCorr := st })

/-- `EvalRollingBeta` -/
def rollingBetaStep (period : Nat) (x y : D) (slot : NodeSlot D L) :
    Except String (D × NodeSlot D L) :=
  (rollingPairPush slot.rollingBeta period x y).map fun st =>
    (rollingPairBeta st, { slot with rollingBeta := st })

/-- `EvalKalman1d` -/
def kalmanStep (x q r : D) (slot : NodeSlot D L) : Except String (D × NodeSlot D L) :=
  let (v, st) := kalman1dStep slot.kalman1d x q r
  .ok (v, { slot with kalman1d := st })

/-! ### The `Eval*` members -/

/-- The operators of one series and a window: check the arguments, parse the period,
evaluate the series, update the slot. `tooShort` is the extra error of the two
operators that need a window of at least two. -/
def evalWindowed (fn : StatefulFn) (label usage : String) (tooShort : Option String)
    (step : Nat → D → NodeSlot D L → Except String (D × NodeSlot D L))
    (call : CallView D L) : EvalM D L D :=
  match call.args with
  | [series, window] => do
    let period ← EvalM.lift (parsePositiveIntegerPeriod window.expr label)
    match tooShort with
    | some e => if period < 2 then EvalM.throw e else pure ()
    | none => pure ()
    let x ← series.eval
    requireNodeId call label
    updateSlot fn call.nodeId (step period x)
  | _ => EvalM.throw usage

/-- `Interpreter::EvalEma` -/
def evalEma : CallView D L → EvalM D L D :=
  evalWindowed .ema "ema()" "ema() expects two arguments: ema(expr, period)" none emaStep

/-- `Interpreter::EvalSma` -/
def evalSma : CallView D L → EvalM D L D :=
  evalWindowed .sma "sma()" "sma() expects two arguments: sma(expr, period)" none smaStep

/-- `Interpreter::EvalRollingStd` -/
def evalRollingStd : CallView D L → EvalM D L D :=
  evalWindowed .rollingStd "rolling_std()"
    "rolling_std() expects two arguments: rolling_std(expr, period)"
    (some ("rolling_std() requires period >= 2 (sample standard deviation of one sample is "
      ++ "mathematically undefined)"))
    rollingStdStep

/-- `Interpreter::EvalZscore` -/
def evalZscore : CallView D L → EvalM D L D :=
  evalWindowed .zscore "zscore()" "zscore() expects two arguments: zscore(expr, period)"
    (some ("zscore() requires period >= 2 (sample standard deviation of one sample is "
      ++ "mathematically undefined)"))
    zscoreStep

/-- `Interpreter::EvalRollingMin` -/
def evalRollingMin : CallView D L → EvalM D L D :=
  evalWindowed .rollingMin "rolling_min()"
    "rolling_min() expects two arguments: rolling_min(expr, period)" none rollingMinStep

/-- `Interpreter::EvalRollingMax` -/
def evalRollingMax : CallView D L → EvalM D L D :=
  evalWindowed .rollingMax "rolling_max()"
    "rolling_max() expects two arguments: rolling_max(expr, period)" none rollingMaxStep

/-- `Interpreter::EvalLag` -/
def evalLag : CallView D L → EvalM D L D :=
  evalWindowed .lag "lag()" "lag() expects two arguments: lag(expr, period)" none lagStep

/-- `Interpreter::EvalEmaAlpha` -/
def evalEmaAlpha (call : CallView D L) : EvalM D L D :=
  match call.args with
  | [series, factor] => do
    let x ← series.eval
    let alpha ← factor.eval
    if lt alpha (ofNat 0) || lt (ofNat 1) alpha then
      EvalM.throw "ema_alpha() requires alpha in [0, 1]"
    else do
      requireNodeId call "ema_alpha()"
      updateSlot .emaAlpha call.nodeId (emaAlphaStep x alpha)
  | _ => EvalM.throw "ema_alpha() expects two arguments: ema_alpha(expr, alpha)"

/-- The two crossing operators. -/
def evalCross (fn : StatefulFn) (label : String)
    (step : D → D → NodeSlot D L → Except String (D × NodeSlot D L)) (call : CallView D L) :
    EvalM D L D :=
  match call.args with
  | [first, second] => do
    let a ← first.eval
    let b ← second.eval
    requireNodeId call label
    updateSlot fn call.nodeId (step a b)
  | _ => EvalM.throw (label ++ " expects two arguments")

/-- `Interpreter::EvalCrossAbove` -/
def evalCrossAbove : CallView D L → EvalM D L D :=
  evalCross .crossAbove "cross_above()" crossAboveStep

/-- `Interpreter::EvalCrossBelow` -/
def evalCrossBelow : CallView D L → EvalM D L D :=
  evalCross .crossBelow "cross_below()" crossBelowStep

/-- The two paired-series operators. -/
def evalPair (fn : StatefulFn) (label usage : String)
    (step : Nat → D → D → NodeSlot D L → Except String (D × NodeSlot D L))
    (call : CallView D L) : EvalM D L D :=
  match call.args with
  | [first, second, window] => do
    let period ← EvalM.lift (parsePositiveIntegerPeriod window.expr label)
    let x ← first.eval
    let y ← second.eval
    requireNodeId call label
    updateSlot fn call.nodeId (step period x y)
  | _ => EvalM.throw usage

/-- `Interpreter::EvalRollingCorr` -/
def evalRollingCorr : CallView D L → EvalM D L D :=
  evalPair .rollingCorr "rolling_corr()"
    "rolling_corr() expects three arguments: rolling_corr(x, y, period)" rollingCorrStep

/-- `Interpreter::EvalRollingBeta` -/
def evalRollingBeta : CallView D L → EvalM D L D :=
  evalPair .rollingBeta "rolling_beta()"
    "rolling_beta() expects three arguments: rolling_beta(x, y, period)" rollingBetaStep

/-- `Interpreter::EvalKalman1d`. The noise arguments are evaluated, and checked,
before the measurement. -/
def evalKalman1d (call : CallView D L) : EvalM D L D :=
  match call.args with
  | [measurement, process, noise] => do
    let q ← process.eval
    let r ← noise.eval
    if lt q (ofNat 0) || le r (ofNat 0) then
      EvalM.throw "kalman1d() requires q >= 0 and r > 0"
    else do
      let x ← measurement.eval
      requireNodeId call "kalman1d()"
      updateSlot .kalman1d call.nodeId (kalmanStep x q r)
  | _ => EvalM.throw "kalman1d() expects three arguments: kalman1d(x, q, r)"

/-- `Interpreter::EvalVwap` -/
def evalVwap (symbols : SymbolTable) (market : MarketState D) (call : CallView D L) :
    EvalM D L D :=
  match call.args with
  | [ticker, window] => do
    let period ← EvalM.lift (parsePositiveIntegerPeriod window.expr "vwap()")
    let symId ← EvalM.lift
      (resolveSymbolSlot symbols "vwap" [ticker.expr, window.expr] call.symbolId)
    requireNodeId call "vwap()"
    updateSlot .vwap call.nodeId (vwapStep (market symId) period)
  | _ => EvalM.throw "vwap() expects two arguments: vwap(symbol, period)"

/-- The name of a market function. -/
def marketFnName : MarketFn → String
  | .mid => "mid"
  | .bid => "bid"
  | .ask => "ask"
  | .spread => "spread"

/-- `EvalMid`, `EvalBid`, `EvalAsk`, `EvalSpread` -/
def evalMarket (symbols : SymbolTable) (market : MarketState D) (fn : MarketFn)
    (call : CallView D L) : EvalM D L D :=
  match call.args with
  | [ticker] => do
    let id ← EvalM.lift (resolveSymbolSlot symbols (marketFnName fn) [ticker.expr] call.symbolId)
    pure ((market id).read fn)
  | _ => EvalM.throw (marketFnName fn ++ "() expects exactly one argument")

/-- The name of a math function. -/
def mathFnName : MathFn → String
  | .abs => "abs"
  | .log => "log"
  | .sqrt => "sqrt"

/-- The `abs`, `log` and `sqrt` branches of the dispatch. -/
def evalMath (fn : MathFn) (call : CallView D L) : EvalM D L D :=
  match call.args with
  | [arg] => do
    let v ← arg.eval
    pure (fn.apply v)
  | _ => EvalM.throw (mathFnName fn ++ "() expects one argument")

/-- The `Eval*` member a stateful function dispatches to. -/
def evalStateful (symbols : SymbolTable) (market : MarketState D) :
    StatefulFn → CallView D L → EvalM D L D
  | .ema => evalEma
  | .emaAlpha => evalEmaAlpha
  | .sma => evalSma
  | .rollingStd => evalRollingStd
  | .zscore => evalZscore
  | .vwap => evalVwap symbols market
  | .lag => evalLag
  | .crossAbove => evalCrossAbove
  | .crossBelow => evalCrossBelow
  | .rollingMin => evalRollingMin
  | .rollingMax => evalRollingMax
  | .rollingCorr => evalRollingCorr
  | .rollingBeta => evalRollingBeta
  | .kalman1d => evalKalman1d

/-- Record that a stateful call returned. -/
def noteReturn (nodeId : Int) (v : D) : EvalM D L D := fun s =>
  (.ok v, { s with trace := s.trace ++ [.callReturned nodeId v] })

/-- `cache_and_return` -/
def cacheAndReturn (nodeId : Int) (v : D) : EvalM D L D := fun s =>
  noteReturn nodeId v
    (if 0 < nodeId then { s with cache := fun j => if j = nodeId then some v else s.cache j }
      else s)

/-- The dispatch of `Interpreter::Visit(const FunctionCall&)` past the cache. -/
def dispatch (symbols : SymbolTable) (market : MarketState D) (name : String)
    (call : CallView D L) : EvalM D L D :=
  match Builtin.ofName name with
  | some (.market fn) => evalMarket symbols market fn call
  | some (.math fn) => evalMath fn call
  | some (.stateful fn) => do
    let v ← evalStateful symbols market fn call
    cacheAndReturn call.nodeId v
  | none => EvalM.throw ("Unsupported function in pre-LLVM stage: " ++ name)

/-- `Interpreter::Visit(const FunctionCall&)`: a cached id is not evaluated again. -/
def visitCall (symbols : SymbolTable) (market : MarketState D) (name : String)
    (call : CallView D L) : EvalM D L D := fun s =>
  match if 0 < call.nodeId then s.cache call.nodeId else none with
  | some v => noteReturn call.nodeId v s
  | none => dispatch symbols market name call s

/-- `Interpreter::Visit(const ParameterExpr&)` -/
def visitParameter (name : String) (paramId : Int) : EvalM D L D := fun s =>
  match s.ctx.params with
  | [] => (.error "Parameter access requires initialized parameter storage", s)
  | p :: ps =>
    if paramId < 0 then (.error ("Parameter id out of range: " ++ name), s)
    else
      match (p :: ps)[paramId.toNat]? with
      | some v => (.ok v, s)
      | none => (.error ("Parameter id out of range: " ++ name), s)

end Interpreter

/-- `Interpreter::Visit(const UnaryOp&)` past the operand. -/
def UnaryOpKind.apply [Fp D] (kind : UnaryOpKind) (v : D) : D :=
  match kind with
  | .plus => v
  | .minus => neg v

/-- The switch of `Interpreter::Visit(const BinaryOp&)`. Equality is up to the
tolerance, and both sides of `&&` and `||` are evaluated. -/
def BinaryOpKind.apply [Fp D] (kind : BinaryOpKind) (l r : D) : D :=
  match kind with
  | .add => Fp.add l r
  | .sub => Fp.sub l r
  | .mul => Fp.mul l r
  | .div => Fp.div l r
  | .gt => ofBool (Fp.lt r l)
  | .lt => ofBool (Fp.lt l r)
  | .gte => ofBool (le r l)
  | .lte => ofBool (le l r)
  | .eq => ofBool (Fp.lt (fabs (Fp.sub l r)) eqTolerance)
  | .notEq => ofBool (le eqTolerance (fabs (Fp.sub l r)))
  | .and => ofBool (truthy l && truthy r)
  | .or => ofBool (truthy l || truthy r)

namespace Interpreter

variable [Fp D] [Fp L] [Widen D L]

mutual

/-- `expr.Accept(*this)`: the visitor. -/
def visit (symbols : SymbolTable) (market : MarketState D) : Expr D → EvalM D L D
  | .numberLiteral _ v => pure v
  | .identifierExpr _ _ => EvalM.throw "Bare identifiers are not valid expressions in MVP"
  | .parameterExpr _ name id => visitParameter name id
  | .unaryOp _ kind operand => do
    let v ← visit symbols market operand
    pure (kind.apply v)
  | .binaryOp _ kind left right => do
    let l ← visit symbols market left
    let r ← visit symbols market right
    pure (kind.apply l r)
  | .functionCall _ name args nodeId symbolId =>
    visitCall symbols market name ⟨visitArgs symbols market args, nodeId, symbolId⟩
  | .conditional _ condition thenBranch elseBranch => do
    let cond ← visit symbols market condition
    if truthy cond then visit symbols market thenBranch
    else visit symbols market elseBranch

/-- The arguments of a call, each with its evaluator. -/
def visitArgs (symbols : SymbolTable) (market : MarketState D) :
    List (Expr D) → List (CallArg D L)
  | [] => []
  | a :: as => ⟨a, visit symbols market a⟩ :: visitArgs symbols market as

end

/-- `Interpreter::Evaluate` with the state it ends in: the cache starts empty. -/
def evaluateState (symbols : SymbolTable) (body : Expr D) (market : MarketState D)
    (ctx : SignalContext D (NodeSlot D L)) : Except String D × EvalState D L :=
  visit symbols market body ⟨ctx, fun _ => none, []⟩

/-- `Interpreter::Evaluate`: the result and the context afterwards. -/
def evaluate (symbols : SymbolTable) (body : Expr D) (market : MarketState D)
    (ctx : SignalContext D (NodeSlot D L)) :
    Except String D × SignalContext D (NodeSlot D L) :=
  let (r, s) := evaluateState symbols body market ctx
  (r, s.ctx)

/-- The context before tick `t` of a run, throwing ticks included. -/
def contextAt (symbols : SymbolTable) (body : Expr D) (ticks : Nat → MarketState D)
    (ctx : SignalContext D (NodeSlot D L)) : Nat → SignalContext D (NodeSlot D L)
  | 0 => ctx
  | t + 1 => (evaluate symbols body (ticks t) (contextAt symbols body ticks ctx t)).2

/-- What `Evaluate` returns or throws at tick `t` of a run. -/
def resultAt (symbols : SymbolTable) (body : Expr D) (ticks : Nat → MarketState D)
    (ctx : SignalContext D (NodeSlot D L)) (t : Nat) : Except String D :=
  (evaluate symbols body (ticks t) (contextAt symbols body ticks ctx t)).1

end Interpreter

end JitSignalEngine
