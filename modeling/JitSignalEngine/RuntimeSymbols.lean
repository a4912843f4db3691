import JitSignalEngine.EmitExpr
import JitSignalEngine.StructuredRun
import JitSignalEngine.Exact

/-!
# The functions compiled code calls

A module that is handed to the linker refers to the runtime by name. This file says which
`jit_rt_*` functions the emitted code of a program calls.

* `ScalarFn`, `GradientFn`, `RuntimeSymbol` — the functions of the runtime.
* `Code.runtimeCalls` — what the code of `EmitExpr` calls.
* `gradientCalls` — the walk of `EmitValueGradientExpr`, its errors and its calls.

`EmitExpr` never calls a `*_grad` helper. `EmitValueGradientExpr` calls one for every
stateful operator.
-/

namespace JitSignalEngine

open Fp

variable {D : Type}

/-! ## The runtime -/

/-- The functions of the runtime that scalar and vector programs call. -/
inductive ScalarFn where
  | param | mid | symbolCtx | bid | ask | spread | ema | emaAlpha | sma | smaPrepare
  | rollingStd | zscore | rollingMin | rollingMax | vwap | lag | crossAbove | crossBelow
  | rollingCorr | rollingBeta | kalman1d
deriving DecidableEq, Repr

/-- The `*_grad` helpers. -/
inductive GradientFn where
  | emaAlpha | sma | lag | rollingStd | zscore | rollingCorr | rollingBeta | kalman1d
  | rollingMin | rollingMax | crossAbove | crossBelow
deriving DecidableEq, Repr

/-- The functions with a `jit_rt_` name. -/
inductive RuntimeSymbol where
  /-- `jit_rt_sma` and so on -/
  | scalar (fn : ScalarFn)
  /-- `jit_rt_sma_grad` and so on -/
  | gradient (fn : GradientFn)
deriving DecidableEq, Repr

/-- What a module calls. -/
abbrev Callees : Type := List RuntimeSymbol

/-! ## Scalar and vector programs -/

/-- The callee of an operator that is not lowered. `ema` calls `jit_rt_ema_alpha`. -/
def StatefulFn.scalarFn : StatefulFn → ScalarFn
  | .ema | .emaAlpha => .emaAlpha
  | .sma => .sma
  | .rollingStd => .rollingStd
  | .rollingMin => .rollingMin
  | .rollingMax => .rollingMax
  | .zscore => .zscore
  | .vwap => .vwap
  | .lag => .lag
  | .crossAbove => .crossAbove
  | .crossBelow => .crossBelow
  | .rollingCorr => .rollingCorr
  | .rollingBeta => .rollingBeta
  | .kalman1d => .kalman1d

/-- What the code of an operator calls. -/
def StatefulOp.runtimeCalls (op : StatefulOp D) : List ScalarFn :=
  match op.impl with
  | .runtime => [op.fn.scalarFn]
  | .avx2 => [.smaPrepare]
  | .lowered => []

/-- What an instruction calls. In a vector program the lanes fetch their contexts where they
need them, in `EmitScalarizedFanOut`. -/
def Instr.runtimeCalls (vectorized : Bool) : Instr D → List ScalarFn
  | .symbolCtx => if vectorized then [] else [.symbolCtx]
  | .param _ _ => if vectorized then [.symbolCtx, .param] else [.param]
  | .operator _ op _ _ _ =>
    if vectorized then .symbolCtx :: op.runtimeCalls else op.runtimeCalls
  | _ => []

/-- What the code of a function calls. -/
def Code.runtimeCalls (vectorized : Bool) (code : Code (Instr D)) : List ScalarFn :=
  code.instrs.flatMap (Instr.runtimeCalls vectorized)

section Emit

variable [Fp D] (env : EmitEnv)

/-- The market loads of `JitCompiler::Compile`: bid, ask and volume of every ticker, in some
order. -/
def preloadMarketFields : List String → EmitM D Unit
  | [] => pure ()
  | ticker :: rest => do
    let symbol ← EmitM.lift (env.symbols.lookupId ticker)
    let _ ← emitMarketFieldLoad symbol .bid
    let _ ← emitMarketFieldLoad symbol .ask
    let _ ← emitMarketFieldLoad symbol .volume
    preloadMarketFields rest

/-- The body `JitCompiler::Compile` emits. -/
def emitSignal (signal : SignalDef D) : Except String (Code (Instr D)) :=
  match (do
      preloadMarketFields env (collectTickerSymbols signal.body)
      emitExpr env false signal.body : EmitM D (Operand D)) .init with
  | .error e => .error e
  | .ok r => .ok (.instr .symbolCtx ((hoistedCode r.cg.bases).append r.code))

/-- What the module of `JitCompiler::Compile` calls. -/
def signalCalls (signal : SignalDef D) : Except String (List ScalarFn) :=
  (emitSignal env signal).map (Code.runtimeCalls env.vectorized)

/-- What the module of a program calls. -/
def programCalls (signals : List (SignalDef D)) : Except String (List ScalarFn) :=
  (emitProgram env signals).map (Code.runtimeCalls env.vectorized)

/-! ## Gradient programs -/

/-- The part of `CodegenContext` that decides what `EmitValueGradientExpr` emits. -/
structure GradientScope where
  /-- the keys of `signal_value_gradients` -/
  signalValueGradients : List String
  /-- the keys of `stateful_grad_emit_cache` -/
  statefulGradEmitCache : List Int

/-- `EmitValueGradientExpr`, down to the calls it emits. -/
abbrev GradientM : Type → Type := StateT GradientScope (Except String)

/-- The helper of an operator. `vwap` has none. -/
def StatefulFn.gradientFn : StatefulFn → Option GradientFn
  | .ema | .emaAlpha => some .emaAlpha
  | .sma => some .sma
  | .rollingStd => some .rollingStd
  | .rollingMin => some .rollingMin
  | .rollingMax => some .rollingMax
  | .zscore => some .zscore
  | .vwap => none
  | .lag => some .lag
  | .crossAbove => some .crossAbove
  | .crossBelow => some .crossBelow
  | .rollingCorr => some .rollingCorr
  | .rollingBeta => some .rollingBeta
  | .kalman1d => some .kalman1d

/-- An argument of a call, with what `EmitValueGradientExpr` does on it. -/
structure GradientArg (D : Type) where
  /-- the argument expression -/
  expr : Expr D
  /-- the calls it emits -/
  calls : GradientM Callees

/-- `fn->args[i]`, which nothing guards. -/
def gradientArg (args : List (GradientArg D)) (i : Nat) : GradientM (GradientArg D) :=
  match args[i]? with
  | some arg => pure arg
  | none => throw "undefined behaviour: args"

/-- The checks of a window in `EmitValueGradientExpr`. -/
def gradientWindow (fn : StatefulFn) (name : String) (window : GradientArg D) :
    GradientM Unit :=
  match emitPeriod name window.expr with
  | .error e => throw e
  | .ok v =>
    if (toInt v).toNat < fn.minPeriod then
      throw (name ++ "() requires period >= 2 (sample standard deviation of one sample is "
        ++ "mathematically undefined)")
    else pure ()

/-- `call_grad_helper` under `cache_stateful`. -/
def callGradHelper (fn : GradientFn) (nodeId : Int) : GradientM Callees := do
  if 0 < nodeId then
    modify fun scope =>
      { scope with statefulGradEmitCache := nodeId :: scope.statefulGradEmitCache }
  pure [.gradient fn]

/-- The branches of `EmitValueGradientExpr` for the stateful operators. -/
def gradientStateful (fn : StatefulFn) (name : String) (args : List (GradientArg D))
    (nodeId : Int) : GradientM Callees :=
  match fn.gradientFn with
  | none => throw ("Unsupported function in JIT gradient: " ++ name)
  | some helper => do
    match fn with
    | .ema | .sma | .lag | .rollingStd | .zscore | .rollingMin | .rollingMax =>
      gradientWindow fn name (← gradientArg args 1)
      let x ← (← gradientArg args 0).calls
      return x ++ (← callGradHelper helper nodeId)
    | .rollingCorr | .rollingBeta =>
      gradientWindow fn name (← gradientArg args 2)
      let x ← (← gradientArg args 0).calls
      let y ← (← gradientArg args 1).calls
      return x ++ y ++ (← callGradHelper helper nodeId)
    | .kalman1d =>
      let x ← (← gradientArg args 0).calls
      let q ← (← gradientArg args 1).calls
      let r ← (← gradientArg args 2).calls
      return x ++ q ++ r ++ (← callGradHelper helper nodeId)
    | .emaAlpha | .crossAbove | .crossBelow | .vwap =>
      let a ← (← gradientArg args 0).calls
      let b ← (← gradientArg args 1).calls
      return a ++ b ++ (← callGradHelper helper nodeId)

mutual

/-- `EmitValueGradientExpr` -/
def gradientCalls : Expr D → GradientM Callees
  | .numberLiteral _ _ => pure []
  | .parameterExpr _ name id =>
    if id < 0 then throw ("Unresolved parameter in JIT gradient expression: " ++ name)
    else pure [.scalar .param]
  | .identifierExpr _ name => do
    if name ∈ (← get).signalValueGradients then pure []
    else throw ("Unresolved identifier in JIT gradient expression: " ++ name)
  | .unaryOp _ _ operand => gradientCalls operand
  | .binaryOp _ _ left right => do
    let l ← gradientCalls left
    let r ← gradientCalls right
    return l ++ r
  | .conditional _ condition thenBranch elseBranch => do
    let c ← gradientCalls condition
    let t ← gradientCalls thenBranch
    let e ← gradientCalls elseBranch
    return c ++ t ++ e
  | .functionCall _ name args nodeId symbolId => do
    if 0 < nodeId ∧ nodeId ∈ (← get).statefulGradEmitCache then return []
    match Builtin.ofName name with
    | some (.market fn) =>
      -- `EmitExpr`, which loads the fields and calls nothing
      match emitMarket env fn ⟨name, emitArgs env false args, nodeId, symbolId⟩ .init with
      | .error e => throw e
      | .ok _ => pure []
    | some (.math _) => (← gradientArg (gradientArgs args) 0).calls
    | some (.stateful fn) => gradientStateful fn name (gradientArgs args) nodeId
    | none => throw ("Unsupported function in JIT gradient: " ++ name)

/-- The arguments of a call, each with its walk. -/
def gradientArgs : List (Expr D) → List (GradientArg D)
  | [] => []
  | a :: as => ⟨a, gradientCalls a⟩ :: gradientArgs as

end

/-- The signal loop of `CompileProgramGradientImpl`. -/
def gradientSignals : List (SignalDef D) → GradientM Callees
  | [] => pure []
  | signal :: rest => do
    let calls ← gradientCalls env signal.body
    modify fun scope =>
      { scope with signalValueGradients := signal.name :: scope.signalValueGradients }
    return calls ++ (← gradientSignals rest)

/-- What the module of a gradient program calls. -/
def gradientProgramCalls (signals : List (SignalDef D)) : Except String Callees :=
  match prewarmProgramMarketLoads env (signals.flatMap fun s => collectTickerSymbols s.body)
      (.init : CodegenContext D) with
  | .error e => .error e
  | .ok _ => do
    let (calls, _) ← (gradientSignals env signals).run ⟨[], []⟩
    return .scalar .symbolCtx :: calls

end Emit

end JitSignalEngine
