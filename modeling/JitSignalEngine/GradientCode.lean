import JitSignalEngine.CodeBuilder
import JitSignalEngine.Execution
import JitSignalEngine.ForwardGradient
import JitSignalEngine.RuntimeSymbols

/-!
# Code generation with gradients

`EmitValueGradientExpr` and `CompileProgramGradientImpl` of `jit_compiler.cpp`: the translation of
signal bodies into a function that computes the value of each signal together with its derivative by
one parameter. Which one it is, the caller says at run time.

* `GradInstr` — the instructions: those of scalar programs, and some in pairs.
* `emitValueGradient`, `emitGradientProgram` — the translation.
* `GradFrame`, `GradInstr.exec` — what the instructions do. The stateful operators call the
  `jit_rt_*_grad` helpers.
* `gradientContextAt`, `gradientFrameAt` — a run over ticks. The caller may ask for another parameter
  at every tick.

The emission never lowers an operator and has no variant for lanes.
-/

namespace JitSignalEngine

open Fp Widen

variable {D L : Type}

/-! ## Instructions -/

/-- `ValueGradientIr` -/
structure ValueGradientIr (D : Type) where
  /-- the value -/
  value : Operand D
  /-- the gradient -/
  gradient : Operand D
deriving DecidableEq

/-- The value and the gradient. -/
def ValueGradientIr.eval (regs : Nat → D) (vg : ValueGradientIr D) : ValueGradient D :=
  ⟨vg.value.eval regs, vg.gradient.eval regs⟩

/-- The instructions of a gradient program. -/
inductive GradInstr (D : Type) where
  /-- an instruction that scalar programs have, too -/
  | scalar (i : Instr D)
  /-- `param_grad`: whether the caller asks for this parameter -/
  | paramGrad (dst : Nat) (id : Int)
  /-- `abs_sign`: the two selects -/
  | absSign (dst : Nat) (a : Operand D)
  /-- the call of a helper and the load of the gradient it wrote. `period` is zero for the helpers
  without one -/
  | helper (valueDst gradDst : Nat) (fn : GradientFn) (nodeId : Int) (args : List (Operand D))
      (period : Int)
  /-- `grad_if_value` and `grad_if_grad` -/
  | phis (valueDst gradDst : Nat) (a b : ValueGradientIr D)
  /-- the store of a gradient -/
  | storeGradient (index : Nat) (a : Operand D)

namespace GradInstr

/-- What an instruction defines. -/
def defs : GradInstr D → List Name
  | .scalar i => i.defs
  | .paramGrad dst _ | .absSign dst _ => [.reg dst]
  | .helper v g _ _ _ _ | .phis v g _ _ => [.reg v, .reg g]
  | .storeGradient _ _ => []

/-- What is taken from a cache at an instruction. -/
def reuses : GradInstr D → List Name
  | .scalar i => i.reuses
  | _ => []

/-- The definitions of instructions and the uses of cached values. -/
def names : Names (GradInstr D) Name := ⟨defs, reuses⟩

/-- The helpers are calls, so no instruction opens blocks. -/
def region : GradInstr D → Region
  | .scalar i => i.region
  | _ => .plain

/-- What an instruction calls. -/
def runtimeCalls : GradInstr D → Callees
  | .scalar i => (i.runtimeCalls false).map .scalar
  | .helper _ _ fn _ _ _ => [.gradient fn]
  | _ => []

end GradInstr

/-! ## Emission -/

/-- The part of `CodegenContext` that gradient programs change. -/
structure GradientCg (D : Type) where
  /-- what scalar programs change, too -/
  cg : CodegenContext D
  /-- `stateful_grad_emit_cache` -/
  statefulGradEmitCache : Int → Option (ValueGradientIr D)
  /-- `signal_value_gradients` -/
  signalValueGradients : String → Option (ValueGradientIr D)

namespace GradientCg

/-- The context `CompileProgramGradientImpl` starts with. -/
def init : GradientCg D := ⟨.init, fun _ => none, fun _ => none⟩

/-- One result more. -/
def skip (s : GradientCg D) (n : Nat) : GradientCg D :=
  { s with cg := { s.cg with nextReg := s.cg.nextReg + n } }

/-- `cache_stateful` -/
def cacheStateful (s : GradientCg D) (nodeId : Int) (vg : ValueGradientIr D) : GradientCg D :=
  if 0 < nodeId then
    { s with statefulGradEmitCache := fun n =>
        if n = nodeId then some vg else s.statefulGradEmitCache n }
  else s

/-- `signal_values[name] = vg.value` and `signal_value_gradients[name] = vg` -/
def setSignal (s : GradientCg D) (name : String) (vg : ValueGradientIr D) : GradientCg D :=
  { s with
    cg := s.cg.setSignalValue name vg.value
    signalValueGradients := fun n => if n = name then some vg else s.signalValueGradients n }

end GradientCg

/-- Emission. -/
abbrev GradientEmitM (D α : Type) : Type := Builder (GradInstr D) (GradientCg D) α

namespace GradientEmitM

variable {α : Type}

/-- Emission that knows of no gradients. -/
def liftScalar (m : EmitM D α) : GradientEmitM D α := fun s =>
  match m s.cg with
  | .error e => .error e
  | .ok r => .ok ⟨r.value, r.code.map .scalar, { s with cg := r.cg }⟩

/-- An instruction without result. -/
def emit (i : GradInstr D) : GradientEmitM D Unit := Builder.instr fun s => ((), i, s)

/-- An instruction with a result. -/
def build (i : Nat → GradInstr D) : GradientEmitM D (Operand D) :=
  Builder.instr fun s => (.reg s.cg.nextReg, i s.cg.nextReg, s.skip 1)

/-- An instruction with a value and a gradient. -/
def buildPair (i : Nat → Nat → GradInstr D) : GradientEmitM D (ValueGradientIr D) :=
  Builder.instr fun s => (⟨.reg s.cg.nextReg, .reg (s.cg.nextReg + 1)⟩,
    i s.cg.nextReg (s.cg.nextReg + 1), s.skip 2)

/-- A scalar instruction with a result. -/
def buildScalar (i : Nat → Instr D) : GradientEmitM D (Operand D) := build fun dst => .scalar (i dst)

/-- Hand out a cached value and its gradient. -/
def reuse (vg : ValueGradientIr D) : GradientEmitM D (ValueGradientIr D) := do
  let v ← liftScalar (EmitM.reuse vg.value)
  let g ← liftScalar (EmitM.reuse vg.gradient)
  pure ⟨v, g⟩

/-- The blocks of a conditional: `CreateCondBr`, both branches, two `CreatePHI`. -/
def branch (cond : Operand D) (thenBranch elseBranch : GradientEmitM D (ValueGradientIr D)) :
    GradientEmitM D (ValueGradientIr D) :=
  Builder.branch (.scalar (.condBr cond)) thenBranch elseBranch fun t e s =>
    (⟨.reg s.cg.nextReg, .reg (s.cg.nextReg + 1)⟩,
      .phis s.cg.nextReg (s.cg.nextReg + 1) t e, s.skip 2)

end GradientEmitM

open GradientEmitM

/-- An argument of a call: the expression, for the checks that look at it, and its emission. -/
structure GradientEmitArg (D : Type) where
  /-- the argument expression -/
  expr : Expr D
  /-- what `EmitValueGradientExpr` does on it -/
  emit : GradientEmitM D (ValueGradientIr D)

/-- `fn->args[i]`, which nothing guards. -/
def emitGradientArg (args : List (GradientEmitArg D)) (i : Nat) :
    GradientEmitM D (GradientEmitArg D) :=
  match args[i]? with
  | some arg => pure arg
  | none => Builder.throw "undefined behaviour: args"

/-- `call_grad_helper` under `cache_stateful`. -/
def emitGradHelper (fn : GradientFn) (nodeId : Int) (args : List (Operand D)) (period : Int) :
    GradientEmitM D (ValueGradientIr D) := do
  let node ← liftScalar (getNodeId nodeId)
  let vg ← buildPair fun v g => .helper v g fn node args period
  Builder.modify fun s => s.cacheStateful nodeId vg
  pure vg

section Emit

variable [Fp D] (env : EmitEnv)

/-- The `UnaryOp` case past the operand. -/
def emitUnaryGradient (kind : UnaryOpKind) (x : ValueGradientIr D) :
    GradientEmitM D (ValueGradientIr D) :=
  match kind with
  | .plus => pure x
  | .minus => do
    let v ← buildScalar fun dst => .neg dst x.value
    let g ← buildScalar fun dst => .neg dst x.gradient
    pure ⟨v, g⟩

/-- The switch of the `BinaryOp` case. -/
def emitBinaryGradient (kind : BinaryOpKind) (l r : ValueGradientIr D) :
    GradientEmitM D (ValueGradientIr D) := do
  let v ← buildScalar fun dst => .binary dst kind l.value r.value
  match kind with
  | .add | .sub => do
    let g ← buildScalar fun dst => .binary dst kind l.gradient r.gradient
    pure ⟨v, g⟩
  | .mul => do
    let gl ← buildScalar fun dst => .binary dst .mul l.gradient r.value
    let gr ← buildScalar fun dst => .binary dst .mul l.value r.gradient
    let g ← buildScalar fun dst => .binary dst .add gl gr
    pure ⟨v, g⟩
  | .div => do
    let numL ← buildScalar fun dst => .binary dst .mul l.gradient r.value
    let numR ← buildScalar fun dst => .binary dst .mul l.value r.gradient
    let num ← buildScalar fun dst => .binary dst .sub numL numR
    let den ← buildScalar fun dst => .binary dst .mul r.value r.value
    let g ← buildScalar fun dst => .binary dst .div num den
    pure ⟨v, g⟩
  | .gt | .lt | .gte | .lte | .eq | .notEq | .and | .or => pure ⟨v, .const (ofNat 0)⟩

/-- `abs`, `log` and `sqrt`. -/
def emitMathGradient (fn : MathFn) (x : ValueGradientIr D) : GradientEmitM D (ValueGradientIr D) :=
  match fn with
  | .abs => do
    let sign ← build fun dst => .absSign dst x.value
    let v ← buildScalar fun dst => .math dst .abs x.value
    let g ← buildScalar fun dst => .binary dst .mul sign x.gradient
    pure ⟨v, g⟩
  | .log => do
    let v ← buildScalar fun dst => .math dst .log x.value
    let g ← buildScalar fun dst => .binary dst .div x.gradient x.value
    pure ⟨v, g⟩
  | .sqrt => do
    let root ← buildScalar fun dst => .math dst .sqrt x.value
    let den ← buildScalar fun dst => .binary dst .mul (.const (ofNat 2)) root
    let g ← buildScalar fun dst => .binary dst .div x.gradient den
    pure ⟨root, g⟩

/-- The checks of a window, and the window. -/
def emitGradientWindow (fn : StatefulFn) (name : String) (window : Expr D) : GradientEmitM D Int := do
  let v ← Builder.lift (emitPeriod name window)
  if (toInt v).toNat < fn.minPeriod then
    Builder.throw (name ++ "() requires period >= 2 (sample standard deviation of one sample is "
      ++ "mathematically undefined)")
  else pure (toInt v)

/-- The branches for the stateful operators. `vwap` has none. -/
def emitStatefulGradient (fn : StatefulFn) (name : String) (args : List (GradientEmitArg D))
    (nodeId : Int) : GradientEmitM D (ValueGradientIr D) :=
  match fn.gradientFn with
  | none => Builder.throw ("Unsupported function in JIT gradient: " ++ name)
  | some helper =>
    match fn with
    | .emaAlpha => do
      let x ← (← emitGradientArg args 0).emit
      let alpha ← (← emitGradientArg args 1).emit
      emitGradHelper helper nodeId [x.value, x.gradient, alpha.value, alpha.gradient] 0
    | .ema => do
      let period ← emitGradientWindow fn name (← emitGradientArg args 1).expr
      let x ← (← emitGradientArg args 0).emit
      emitGradHelper helper nodeId
        [x.value, x.gradient, .const (emaAlphaOfPeriod period), .const (ofNat 0)] period
    | .sma | .lag | .rollingStd | .zscore | .rollingMin | .rollingMax => do
      let period ← emitGradientWindow fn name (← emitGradientArg args 1).expr
      let x ← (← emitGradientArg args 0).emit
      emitGradHelper helper nodeId [x.value, x.gradient] period
    | .rollingCorr | .rollingBeta => do
      let period ← emitGradientWindow fn name (← emitGradientArg args 2).expr
      let x ← (← emitGradientArg args 0).emit
      let y ← (← emitGradientArg args 1).emit
      emitGradHelper helper nodeId [x.value, x.gradient, y.value, y.gradient] period
    | .kalman1d => do
      let x ← (← emitGradientArg args 0).emit
      let q ← (← emitGradientArg args 1).emit
      let r ← (← emitGradientArg args 2).emit
      emitGradHelper helper nodeId
        [x.value, x.gradient, q.value, q.gradient, r.value, r.gradient] 0
    | .crossAbove | .crossBelow => do
      let a ← (← emitGradientArg args 0).emit
      let b ← (← emitGradientArg args 1).emit
      emitGradHelper helper nodeId [a.value, b.value] 0
    | .vwap => Builder.throw ("Unsupported function in JIT gradient: " ++ name)

/-- A call past the cache. `market` is what `EmitExpr` does on it. -/
def emitGradientDispatch (market : EmitM D (Operand D)) (name : String)
    (args : List (GradientEmitArg D)) (nodeId : Int) : GradientEmitM D (ValueGradientIr D) :=
  match Builtin.ofName name with
  | some (.market _) => do
    let v ← liftScalar market
    pure ⟨v, .const (ofNat 0)⟩
  | some (.math fn) => do
    let x ← (← emitGradientArg args 0).emit
    emitMathGradient fn x
  | some (.stateful fn) => emitStatefulGradient fn name args nodeId
  | none => Builder.throw ("Unsupported function in JIT gradient: " ++ name)

/-- A call: a node id that was emitted is not emitted again. -/
def emitGradientCall (market : EmitM D (Operand D)) (name : String)
    (args : List (GradientEmitArg D)) (nodeId : Int) : GradientEmitM D (ValueGradientIr D) := fun s =>
  match if 0 < nodeId then s.statefulGradEmitCache nodeId else none with
  | some vg => GradientEmitM.reuse vg s
  | none => emitGradientDispatch market name args nodeId s

mutual

/-- `EmitValueGradientExpr` -/
def emitValueGradient : Expr D → GradientEmitM D (ValueGradientIr D)
  | .numberLiteral _ v => pure ⟨.const v, .const (ofNat 0)⟩
  | .parameterExpr _ name id =>
    if id < 0 then Builder.throw ("Unresolved parameter in JIT gradient expression: " ++ name)
    else do
      let v ← buildScalar fun dst => .param dst id
      let g ← build fun dst => .paramGrad dst id
      pure ⟨v, g⟩
  | .identifierExpr _ name => fun s =>
    match s.signalValueGradients name with
    | some vg => GradientEmitM.reuse vg s
    | none => .error ("Unresolved identifier in JIT gradient expression: " ++ name)
  | .unaryOp _ kind operand => do
    let inner ← emitValueGradient operand
    emitUnaryGradient kind inner
  | .binaryOp _ kind left right => do
    let l ← emitValueGradient left
    let r ← emitValueGradient right
    emitBinaryGradient kind l r
  | .conditional _ condition thenBranch elseBranch => do
    let cond ← emitValueGradient condition
    GradientEmitM.branch cond.value (emitValueGradient thenBranch) (emitValueGradient elseBranch)
  | .functionCall _ name args nodeId symbolId =>
    emitGradientCall (emitCall env false ⟨name, emitArgs env false args, nodeId, symbolId⟩) name
      (emitGradientArgs args) nodeId

/-- The arguments of a call, each with its emission. -/
def emitGradientArgs : List (Expr D) → List (GradientEmitArg D)
  | [] => []
  | a :: as => ⟨a, emitValueGradient a⟩ :: emitGradientArgs as

end

/-- The signal loop of `CompileProgramGradientImpl`. -/
def emitGradientSignals : List (SignalDef D) → Nat → GradientEmitM D Unit
  | [], _ => pure ()
  | signal :: rest, i => do
    let vg ← emitValueGradient env signal.body
    Builder.modify fun s => s.setSignal signal.name vg
    GradientEmitM.emit (.scalar (.store i vg.value))
    GradientEmitM.emit (.storeGradient i vg.gradient)
    emitGradientSignals rest (i + 1)

/-- The body `CompileProgramGradientImpl` emits. -/
def emitGradientProgram (signals : List (SignalDef D)) : Except String (Code (GradInstr D)) :=
  match (do
      GradientEmitM.emit (.scalar .symbolCtx)
      liftScalar (prewarmProgramMarketLoads env (signals.flatMap fun s => collectTickerSymbols s.body))
      emitGradientSignals env signals 0 : GradientEmitM D Unit) .init with
  | .error e => .error e
  | .ok r => .ok r.code

end Emit

/-! ## Execution -/

/-- What a gradient program works on between calls. -/
structure GradientContext (D L : Type) where
  /-- the parameters and the operator states -/
  ctx : SignalContext D (NodeSlot D L)
  /-- the sensitivity states, by `GradientSlot` -/
  sensitivities : Nat → SensitivitySlot D L
  /-- `gradient_param_count` -/
  gradientParamCount : Nat

/-- The state of a call of the compiled function. -/
structure GradFrame (D L : Type) where
  /-- the results of instructions, the operator states and the values that were written -/
  scalar : Frame D (NodeSlot D L)
  /-- the sensitivity states -/
  sensitivities : Nat → SensitivitySlot D L
  /-- `gradient_param_count` -/
  gradientParamCount : Nat
  /-- the gradients that were written -/
  gradients : Nat → Option D

namespace GradFrame

/-- The frame in which a call starts. -/
def start [Fp D] (s : GradientContext D L) : GradFrame D L :=
  ⟨⟨fun _ => nan, s.ctx, fun _ => none⟩, s.sensitivities, s.gradientParamCount, fun _ => none⟩

/-- What a call leaves behind. -/
def context (f : GradFrame D L) : GradientContext D L :=
  ⟨f.scalar.ctx, f.sensitivities, f.gradientParamCount⟩

/-- Define the result of an instruction. -/
def setReg (f : GradFrame D L) (dst : Nat) (v : D) : GradFrame D L :=
  { f with scalar := f.scalar.setReg dst v }

/-- Define a value and its gradient. -/
def setPair (f : GradFrame D L) (valueDst gradDst : Nat) (v : ValueGradient D) : GradFrame D L :=
  (f.setReg valueDst v.value).setReg gradDst v.gradient

/-- Write a gradient. -/
def storeGradient (f : GradFrame D L) (index : Nat) (v : D) : GradFrame D L :=
  { f with gradients := fun i => if i = index then some v else f.gradients i }

/-- Write the states of a call back. -/
def setSlots (f : GradFrame D L) (nodeId gradSlot : Nat) (slots : GradSlots D L) : GradFrame D L :=
  { f with
    scalar := { f.scalar with ctx := f.scalar.ctx.setSlot nodeId slots.primal }
    sensitivities := fun j => if j = gradSlot then slots.grad else f.sensitivities j }

end GradFrame

section Machine

variable [Fp D] [Fp L] [Widen D L]

/-- The `jit_rt_*_grad` helpers that look at the parameter, past its check. -/
def GradientFn.apply (fn : GradientFn) (args : List D) (period : Nat) (slots : GradSlots D L) :
    Except String (ValueGradient D × GradSlots D L) :=
  match fn, args with
  | .emaAlpha, [x, dx, alpha, dalpha] =>
    .ok (jitRtEmaAlphaGrad slots ⟨x, dx⟩ ⟨alpha, dalpha⟩ period)
  | .sma, [x, dx] => jitRtSmaGrad slots ⟨x, dx⟩ period
  | .lag, [x, dx] => jitRtLagGrad slots ⟨x, dx⟩ period
  | .rollingStd, [x, dx] => .ok (jitRtRollingStdGrad slots ⟨x, dx⟩ period)
  | .zscore, [x, dx] => .ok (jitRtZscoreGrad slots ⟨x, dx⟩ period)
  | .rollingCorr, [x, dx, y, dy] => .ok (jitRtRollingCorrGrad slots ⟨x, dx⟩ ⟨y, dy⟩ period)
  | .rollingBeta, [x, dx, y, dy] => .ok (jitRtRollingBetaGrad slots ⟨x, dx⟩ ⟨y, dy⟩ period)
  | .kalman1d, [x, dx, q, dq, r, dr] => .ok (jitRtKalman1dGrad slots ⟨x, dx⟩ ⟨q, dq⟩ ⟨r, dr⟩)
  | .rollingMin, [x, dx] => jitRtRollingMinGrad slots ⟨x, dx⟩ period
  | .rollingMax, [x, dx] => jitRtRollingMaxGrad slots ⟨x, dx⟩ period
  -- the tangents are not passed to these two
  | .crossAbove, [a, b] => .ok (jitRtCrossAboveGrad slots ⟨a, Fp.ofNat 0⟩ ⟨b, Fp.ofNat 0⟩)
  | .crossBelow, [a, b] => .ok (jitRtCrossBelowGrad slots ⟨a, Fp.ofNat 0⟩ ⟨b, Fp.ofNat 0⟩)
  | _, _ => .error "undefined behaviour: arguments"

/-- The index of the sensitivity state a helper works on. The two `cross_*` helpers do not check the
parameter. They have no such state, so whatever the index, it is left as it is. -/
def GradientFn.gradSlot (fn : GradientFn) (gradientParamCount nodeId : Nat) (paramId : Int) :
    Except String Nat :=
  match fn with
  | .crossAbove | .crossBelow => .ok (nodeId * gradientParamCount + paramId.toNat)
  | _ => do
    let param ← checkedGradientParam gradientParamCount paramId
    ForwardGradient.gradientSlot gradientParamCount nodeId param

/-- The call of a helper. -/
def GradFrame.callHelper (f : GradFrame D L) (paramId : Int) (fn : GradientFn) (nodeId : Nat)
    (args : List D) (period : Nat) : Except String (ValueGradient D × GradFrame D L) := do
  let gradSlot ← fn.gradSlot f.gradientParamCount nodeId paramId
  let (v, slots) ← fn.apply args period ⟨f.scalar.ctx.slots nodeId, f.sensitivities gradSlot⟩
  .ok (v, f.setSlots nodeId gradSlot slots)

omit [Fp L] [Widen D L] in
/-- There are no operators among the scalar instructions. -/
def noOperators : StatefulOp D → Bool → MarketState D → List D → NodeSlot D L →
    Option (D × NodeSlot D L) := fun _ _ _ _ _ => none

namespace GradInstr

/-- An instruction, for the parameter `paramId`. What throws does not return. -/
def exec (market : MarketState D) (paramId : Int) (i : GradInstr D) (f : GradFrame D L) :
    Option (GradFrame D L) :=
  match i with
  | .scalar i => (i.exec noOperators market f.scalar).map fun s => { f with scalar := s }
  | .paramGrad dst id => some (f.setReg dst (if paramId = id then ofNat 1 else ofNat 0))
  | .absSign dst a =>
    let x := a.eval f.scalar.regs
    some (f.setReg dst (if lt (ofNat 0) x then ofNat 1
      else if lt x (ofNat 0) then neg (ofNat 1) else ofNat 0))
  | .helper valueDst gradDst fn nodeId args period =>
    (f.callHelper paramId fn nodeId.toNat (args.map (Operand.eval f.scalar.regs))
      period.toNat).toOption.map fun out => out.2.setPair valueDst gradDst out.1
  | .phis _ _ _ _ => some f
  | .storeGradient index a => some (f.storeGradient index (a.eval f.scalar.regs))

omit [Fp L] [Widen D L] in
/-- The choice a fork makes. -/
def takes (i : GradInstr D) (f : GradFrame D L) : Bool :=
  match i with
  | .scalar i => i.takes f.scalar
  | _ => false

omit [Fp D] [Fp L] [Widen D L] in
/-- The value and the gradient that arrive at a join, by the branch they come from. -/
def merge (i : GradInstr D) (taken : Bool) (f : GradFrame D L) : GradFrame D L :=
  match i with
  | .phis valueDst gradDst a b =>
    f.setPair valueDst gradDst ((if taken then a else b).eval f.scalar.regs)
  | _ => f

end GradInstr

/-- The machine of a call. -/
def gradMachine (market : MarketState D) (paramId : Int) : Machine (GradInstr D) (GradFrame D L) where
  step := GradInstr.exec market paramId
  takes := GradInstr.takes
  join := GradInstr.merge

/-! ## Runs -/

/-- One call of the compiled function. -/
def runGradientProgram (code : Code (GradInstr D)) (market : MarketState D) (paramId : Int)
    (s : GradientContext D L) : Option (GradFrame D L) :=
  (gradMachine market paramId).run code (.start s)

/-- What the program works on before tick `n`, if the calls before it return. -/
def gradientContextAt (code : Code (GradInstr D)) (ticks : Nat → MarketState D) (paramIds : Nat → Int)
    (s : GradientContext D L) : Nat → Option (GradientContext D L)
  | 0 => some s
  | n + 1 => (gradientContextAt code ticks paramIds s n).bind fun s =>
    (runGradientProgram code (ticks n) (paramIds n) s).map GradFrame.context

/-- Where the call at tick `n` ends, if it returns. -/
def gradientFrameAt (code : Code (GradInstr D)) (ticks : Nat → MarketState D) (paramIds : Nat → Int)
    (s : GradientContext D L) (n : Nat) : Option (GradFrame D L) :=
  (gradientContextAt code ticks paramIds s n).bind fun s =>
    runGradientProgram code (ticks n) (paramIds n) s

end Machine

end JitSignalEngine
