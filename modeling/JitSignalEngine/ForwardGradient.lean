import JitSignalEngine.GradientOps
import JitSignalEngine.Interpreter

/-!
# The forward evaluator

`ForwardGradientInterpreter` of `autodiff.cpp`: one walk over a signal body that computes the
value of the body together with its derivative by one parameter.

* `ForwardM` — computations on a `ForwardState` that may throw. As in the interpreter, what was
  written before an exception stays.
* `ForwardGradient.evalFunction` — the calls. The updates of the stateful ones are those of
  `GradientOps`.
* `ForwardGradient.evalExpr`, `evaluateSignalGradient` — the walk and its entry point.

The source indexes arguments and parameters without a check. Where an index is out of range the
model throws `outOfRange`, which is no message of the source.
-/

namespace JitSignalEngine

open Fp Widen

variable {D L : Type}

/-! ## State -/

/-- What the evaluator works on: the context and its own cache. -/
structure ForwardState (D L : Type) where
  /-- `params` and the operator states -/
  ctx : SignalContext D (NodeSlot D L)
  /-- the sensitivity states, by `GradientSlot` -/
  sensitivities : Nat → SensitivitySlot D L
  /-- `gradient_param_count` -/
  gradientParamCount : Nat
  /-- `stateful_cache` -/
  cache : Int → Option (ValueGradient D)

/-- Computations over a `ForwardState` that may throw, keeping the state they threw in. -/
abbrev ForwardM (D L : Type) : Type → Type := ExceptT String (StateM (ForwardState D L))

namespace ForwardM

variable {α β : Type}

/-- The outcome and the state afterwards. -/
def exec (m : ForwardM D L α) (s : ForwardState D L) : Except String α × ForwardState D L :=
  StateT.run (ExceptT.run m) s

@[simp] theorem exec_pure (a : α) (s : ForwardState D L) :
    exec (pure a : ForwardM D L α) s = (.ok a, s) := rfl

@[simp] theorem exec_throw (e : String) (s : ForwardState D L) :
    exec (throw e : ForwardM D L α) s = (.error e, s) := rfl

/-- Introduction for `bind`. -/
theorem exec_bind {m : ForwardM D L α} {f : α → ForwardM D L β} {s s' : ForwardState D L} {a : α}
    (h : m.exec s = (.ok a, s')) : (m >>= f).exec s = (f a).exec s' := by
  have hrun : StateT.run (ExceptT.run m) s = (.ok a, s') := h
  rw [exec, ExceptT.run_bind, StateT.run_bind, hrun]
  rfl

/-- Reading the state. -/
theorem exec_get_bind (f : ForwardState D L → ForwardM D L β) (s : ForwardState D L) :
    (get >>= f).exec s = (f s).exec s := rfl

/-- A check that reads no state. -/
def lift (r : Except String α) : ForwardM D L α :=
  match r with
  | .ok a => pure a
  | .error e => throw e

@[simp] theorem lift_ok (a : α) : (lift (.ok a) : ForwardM D L α) = pure a := rfl

end ForwardM

/-! ## Values with tangents -/

section Rules

variable [Fp D]

/-- The `UnaryOp` case of `EvalExpr` past the operand. -/
def UnaryOpKind.forward (kind : UnaryOpKind) (x : ValueGradient D) : ValueGradient D :=
  match kind with
  | .plus => x
  | .minus => ⟨neg x.value, neg x.gradient⟩

/-- The gradients in the switch of `EvalExpr`. -/
def BinaryOpKind.gradient (kind : BinaryOpKind) (l r : ValueGradient D) : D :=
  match kind with
  | .add => Fp.add l.gradient r.gradient
  | .sub => Fp.sub l.gradient r.gradient
  | .mul => Fp.add (Fp.mul l.gradient r.value) (Fp.mul l.value r.gradient)
  | .div => Fp.div (Fp.sub (Fp.mul l.gradient r.value) (Fp.mul l.value r.gradient))
      (Fp.mul r.value r.value)
  | .gt | .lt | .gte | .lte | .eq | .notEq | .and | .or => Fp.ofNat 0

/-- The switch of `EvalExpr`. The values are those of the interpreter. -/
def BinaryOpKind.forward (kind : BinaryOpKind) (l r : ValueGradient D) : ValueGradient D :=
  ⟨kind.apply l.value r.value, kind.gradient l r⟩

/-- The gradients of `abs`, `log` and `sqrt` in `EvalFunction`. -/
def MathFn.gradient (fn : MathFn) (x : ValueGradient D) : D :=
  match fn with
  | .abs =>
    let sign : D := if Fp.lt (Fp.ofNat 0) x.value then Fp.ofNat 1
      else if Fp.lt x.value (Fp.ofNat 0) then neg (Fp.ofNat 1) else Fp.ofNat 0
    Fp.mul sign x.gradient
  | .log => Fp.div x.gradient x.value
  | .sqrt => Fp.div x.gradient (Fp.mul (Fp.ofNat 2) (Fp.sqrt x.value))

/-- `abs`, `log` and `sqrt` in `EvalFunction`. -/
def MathFn.forward (fn : MathFn) (x : ValueGradient D) : ValueGradient D :=
  ⟨fn.apply x.value, fn.gradient x⟩

end Rules

/-! ## Calls -/

/-- An argument of a call: the expression, for the checks that look at it, and its evaluator. -/
structure GradArg (D L : Type) where
  /-- the argument expression -/
  expr : Expr D
  /-- what `EvalExpr` does on it -/
  eval : ForwardM D L (ValueGradient D)

namespace ForwardGradient

variable [Fp D] [Fp L] [Widen D L]

/-- An index out of range, where the source checks none. -/
def outOfRange : String := "index out of range"

/-- `ParsePositiveIntegerPeriod` of `autodiff.cpp` -/
def parsePositiveIntegerPeriod (expr : Expr D) (fnName : String) : Except String Nat :=
  match expr.asNumber with
  | none => .error (fnName ++ " period must be a numeric literal")
  | some v =>
    let period := toInt v
    if period ≤ 0 || lt eqTolerance (fabs (sub v (ofInt period))) then
      .error (fnName ++ " period must be a positive integer")
    else .ok period.toNat

/-- `GradientSlot` -/
def gradientSlot (gradientParamCount nodeId paramId : Nat) : Except String Nat :=
  if gradientParamCount = 0 then .error "Gradient slot access without initialized parameter storage"
  else .ok (nodeId * gradientParamCount + paramId)

/-- The slots a stateful call works on. -/
structure SlotIds where
  /-- `node_id` -/
  nodeId : Nat
  /-- `grad_slot` -/
  gradSlot : Nat

/-- Read the states of a call, let the operator work on them, write them back. -/
def updateSlots (ids : SlotIds)
    (step : GradSlots D L → Except String (ValueGradient D × GradSlots D L)) :
    ForwardM D L (ValueGradient D) := do
  let s ← get
  let (v, slots) ← ForwardM.lift (step ⟨s.ctx.slots ids.nodeId, s.sensitivities ids.gradSlot⟩)
  set { s with
    ctx := s.ctx.setSlot ids.nodeId slots.primal
    sensitivities := fun j => if j = ids.gradSlot then slots.grad else s.sensitivities j }
  pure v

/-- `EvalMarketRead` -/
def evalMarketRead (symbols : SymbolTable) (market : MarketState D) (fn : MarketFn)
    (args : List (GradArg D L)) (symbolId : Int) : ForwardM D L (ValueGradient D) := do
  let id ← ForwardM.lift
    (Interpreter.resolveSymbolSlot symbols (Interpreter.marketFnName fn) (args.map GradArg.expr)
      symbolId)
  pure ⟨(market id).read fn, ofNat 0⟩

/-- The `abs`, `log` and `sqrt` cases. -/
def evalMath (fn : MathFn) : List (GradArg D L) → ForwardM D L (ValueGradient D)
  | arg :: _ => do
    let x ← arg.eval
    pure (fn.forward x)
  | [] => throw outOfRange

/-- The operators of one series and a window, but for `ema`: the period first, then the series.
`tooShort` is the extra error of the two that need a window of at least two. -/
def evalWindowed (label : String) (tooShort : Option String)
    (step : GradSlots D L → ValueGradient D → Nat → Except String (ValueGradient D × GradSlots D L))
    (ids : SlotIds) : List (GradArg D L) → ForwardM D L (ValueGradient D)
  | series :: window :: _ => do
    let period ← ForwardM.lift (parsePositiveIntegerPeriod window.expr label)
    match tooShort with
    | some e => if period < 2 then throw e else pure ()
    | none => pure ()
    let x ← series.eval
    updateSlots ids fun slots => step slots x period
  | _ => throw outOfRange

/-- `ema`: the series first, then the period. -/
def evalEma (ids : SlotIds) : List (GradArg D L) → ForwardM D L (ValueGradient D)
  | series :: window :: _ => do
    let x ← series.eval
    let period ← ForwardM.lift (parsePositiveIntegerPeriod window.expr "ema()")
    updateSlots ids fun slots => .ok (forwardEma slots x ⟨emaAlphaOfPeriod period, ofNat 0⟩)
  | _ => throw outOfRange

/-- `ema_alpha` -/
def evalEmaAlpha (ids : SlotIds) : List (GradArg D L) → ForwardM D L (ValueGradient D)
  | series :: factor :: _ => do
    let x ← series.eval
    let alpha ← factor.eval
    updateSlots ids fun slots => .ok (forwardEma slots x alpha)
  | _ => throw outOfRange

/-- `rolling_corr` and `rolling_beta` -/
def evalPair (label : String)
    (step : GradSlots D L → ValueGradient D → ValueGradient D → Nat →
      ValueGradient D × GradSlots D L)
    (ids : SlotIds) : List (GradArg D L) → ForwardM D L (ValueGradient D)
  | first :: second :: window :: _ => do
    let period ← ForwardM.lift (parsePositiveIntegerPeriod window.expr label)
    let x ← first.eval
    let y ← second.eval
    updateSlots ids fun slots => .ok (step slots x y period)
  | _ => throw outOfRange

/-- `kalman1d` -/
def evalKalman1d (ids : SlotIds) : List (GradArg D L) → ForwardM D L (ValueGradient D)
  | measurement :: process :: noise :: _ => do
    let q ← process.eval
    let r ← noise.eval
    if lt q.value (ofNat 0) || le r.value (ofNat 0) then
      throw "kalman1d() requires q >= 0 and r > 0"
    else do
      let x ← measurement.eval
      updateSlots ids fun slots => .ok (forwardKalman1d slots x q r)
  | _ => throw outOfRange

/-- `cross_above` and `cross_below` -/
def evalCross
    (step : GradSlots D L → ValueGradient D → ValueGradient D → ValueGradient D × GradSlots D L)
    (ids : SlotIds) : List (GradArg D L) → ForwardM D L (ValueGradient D)
  | first :: second :: _ => do
    let a ← first.eval
    let b ← second.eval
    updateSlots ids fun slots => .ok (step slots a b)
  | _ => throw outOfRange

/-- What `rolling_std` and `zscore` say of a window of one. -/
def tooShort (name : String) : String :=
  name ++ "() requires period >= 2 (sample standard deviation of one sample is "
    ++ "mathematically undefined)"

/-- The stateful cases of `EvalFunction` past the slots; `vwap` is not among them. -/
def evalStateful (fn : StatefulFn) (ids : SlotIds) (args : List (GradArg D L)) :
    ForwardM D L (ValueGradient D) :=
  match fn with
  | .lag => evalWindowed "lag()" none forwardLag ids args
  | .sma => evalWindowed "sma()" none forwardSma ids args
  | .ema => evalEma ids args
  | .emaAlpha => evalEmaAlpha ids args
  | .rollingStd => evalWindowed "rolling_std()" (some (tooShort "rolling_std"))
      (fun slots x period => .ok (jitRtRollingStdGrad slots x period)) ids args
  | .zscore => evalWindowed "zscore()" (some (tooShort "zscore"))
      (fun slots x period => .ok (jitRtZscoreGrad slots x period)) ids args
  | .rollingCorr => evalPair "rolling_corr()" jitRtRollingCorrGrad ids args
  | .rollingBeta => evalPair "rolling_beta()" jitRtRollingBetaGrad ids args
  | .kalman1d => evalKalman1d ids args
  | .rollingMin => evalWindowed "rolling_min()" none
      (fun slots x period => .ok (forwardRollingMin slots x period)) ids args
  | .rollingMax => evalWindowed "rolling_max()" none
      (fun slots x period => .ok (forwardRollingMax slots x period)) ids args
  | .crossAbove => evalCross jitRtCrossAboveGrad ids args
  | .crossBelow => evalCross jitRtCrossBelowGrad ids args
  | .vwap => throw "Unsupported function in EvaluateSignalGradient: vwap"

/-- The slots of a call that is not a market read nor `abs`, `log` or `sqrt`. -/
def slotIds (name : String) (nodeId : Int) (targetParam : Nat) : ForwardM D L SlotIds := do
  if nodeId < 0 then throw ("Stateful function missing node_id: " ++ name) else pure ()
  let s ← get
  let gradSlot ← ForwardM.lift (gradientSlot s.gradientParamCount nodeId.toNat targetParam)
  pure ⟨nodeId.toNat, gradSlot⟩

/-- `EvalFunction` -/
def evalFunction (symbols : SymbolTable) (market : MarketState D) (targetParam : Nat) (name : String)
    (args : List (GradArg D L)) (nodeId symbolId : Int) : ForwardM D L (ValueGradient D) :=
  match Builtin.ofName name with
  | some (.market fn) => evalMarketRead symbols market fn args symbolId
  | some (.math fn) => evalMath fn args
  | some (.stateful fn) => do
    let ids ← slotIds name nodeId targetParam
    evalStateful fn ids args
  | none => do
    let _ ← slotIds (D := D) (L := L) name nodeId targetParam
    throw ("Unsupported function in EvaluateSignalGradient: " ++ name)

/-- The `FunctionCall` case of `EvalExpr`: a cached id is not evaluated again. -/
def evalCall (nodeId : Int) (run : ForwardM D L (ValueGradient D)) :
    ForwardM D L (ValueGradient D) :=
  if 0 < nodeId then do
    let s ← get
    match s.cache nodeId with
    | some v => pure v
    | none => do
      let out ← run
      modify fun s => { s with cache := fun j => if j = nodeId then some out else s.cache j }
      pure out
  else run

/-- The `ParameterExpr` case of `EvalExpr`. -/
def evalParameter (targetParam : Nat) (paramId : Int) : ForwardM D L (ValueGradient D) := do
  let s ← get
  match if paramId < 0 then none else s.ctx.params[paramId.toNat]? with
  | some v => pure ⟨v, if paramId = targetParam then ofNat 1 else ofNat 0⟩
  | none => throw outOfRange

mutual

/-- `EvalExpr` -/
def evalExpr (symbols : SymbolTable) (market : MarketState D) (targetParam : Nat) :
    Expr D → ForwardM D L (ValueGradient D)
  | .numberLiteral _ v => pure ⟨v, ofNat 0⟩
  | .identifierExpr _ _ => throw "Bare identifiers are not valid expressions"
  | .parameterExpr _ _ id => evalParameter targetParam id
  | .unaryOp _ kind operand => do
    let inner ← evalExpr symbols market targetParam operand
    pure (kind.forward inner)
  | .binaryOp _ kind left right => do
    let l ← evalExpr symbols market targetParam left
    let r ← evalExpr symbols market targetParam right
    pure (kind.forward l r)
  | .conditional _ condition thenBranch elseBranch => do
    let cond ← evalExpr symbols market targetParam condition
    if truthy cond.value then evalExpr symbols market targetParam thenBranch
    else evalExpr symbols market targetParam elseBranch
  | .functionCall _ name args nodeId symbolId =>
    evalCall nodeId (evalFunction symbols market targetParam name
      (evalArgs symbols market targetParam args) nodeId symbolId)

/-- The arguments of a call, each with its evaluator. -/
def evalArgs (symbols : SymbolTable) (market : MarketState D) (targetParam : Nat) :
    List (Expr D) → List (GradArg D L)
  | [] => []
  | a :: as => ⟨a, evalExpr symbols market targetParam a⟩ :: evalArgs symbols market targetParam as

end

/-- `EvaluateSignalGradient` -/
def evaluateSignalGradient (symbols : SymbolTable) (body : Expr D) (market : MarketState D)
    (s : ForwardState D L) (paramId : Int) : Except String (ValueGradient D) × ForwardState D L :=
  if s.ctx.params = [] then (.error "EvaluateSignalGradient requires initialized parameters", s)
  else if paramId < 0 ∨ (s.ctx.params.length : Int) ≤ paramId then
    (.error "EvaluateSignalGradient param_id out of range", s)
  else (evalExpr symbols market paramId.toNat body).exec { s with cache := fun _ => none }

end ForwardGradient

end JitSignalEngine
