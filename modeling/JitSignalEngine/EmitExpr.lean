import JitSignalEngine.CallShape
import JitSignalEngine.StructuredCode

/-!
# Code generation

`EmitExpr` of `jit_compiler.cpp` and what it calls: the translation of signal bodies into
the body of one function, with its error paths and its four caches.

* `Instr` — the instructions, at the grain at which signals mean something: one for each
  operation on values, one for each stateful operator, whose inner blocks are its `region`.
* `EmitM` — emission: it may throw, it changes the `CodegenContext`, and it appends code.
* `emitExpr`, `emitProgram` — the translation. With `vectorized` set, a conditional selects
  between two values that are both computed.

A value handed out by a cache leaves a `reuse` behind. That is no instruction of the
function; it says where the value is used.

The set `warm_safe_calls`, keyed by the address of a call, holds the calls outside all
branches. Here emission is told whether it is inside a branch.
-/

namespace JitSignalEngine

open Fp

variable {D : Type}

/-! ## Lowering flags -/

/-- The bits of `StatefulLoweringFlags`. -/
inductive LoweringFlag where
  | sma | ema | lag | rollingStd | zscore | rollingMin | rollingMax | vwap | cross
  | rollingCorr | rollingBeta | kalman1d
deriving DecidableEq, Repr

/-- `StatefulLoweringFlags` -/
abbrev StatefulLoweringFlags : Type := LoweringFlag → Bool

/-- `StatefulLoweringFlags::kAll` -/
def StatefulLoweringFlags.all : StatefulLoweringFlags := fun _ => true

/-- `StatefulLoweringFlags::kNone` -/
def StatefulLoweringFlags.none : StatefulLoweringFlags := fun _ => false

/-- The bit that lowers an operator. `ema_alpha` has none. -/
def StatefulFn.loweringFlag : StatefulFn → Option LoweringFlag
  | .sma => some .sma
  | .ema => some .ema
  | .emaAlpha => none
  | .lag => some .lag
  | .rollingStd => some .rollingStd
  | .zscore => some .zscore
  | .rollingMin => some .rollingMin
  | .rollingMax => some .rollingMax
  | .vwap => some .vwap
  | .crossAbove | .crossBelow => some .cross
  | .rollingCorr => some .rollingCorr
  | .rollingBeta => some .rollingBeta
  | .kalman1d => some .kalman1d

/-- What emission depends on besides the expression. -/
structure EmitEnv where
  /-- `symbols` -/
  symbols : SymbolTable
  /-- `lowering` -/
  lowering : StatefulLoweringFlags
  /-- `use_avx2` -/
  useAvx2 : Bool
  /-- `assume_warm` -/
  assumeWarm : Bool
  /-- `lane_count > 1` -/
  vectorized : Bool

/-- Full lowering without AVX2. -/
def scalarEnv (symbols : SymbolTable) : EmitEnv := ⟨symbols, .all, false, false, false⟩

/-! ## Instructions -/

/-- The fields of `InstrumentState` that are loaded, with the indices 0, 1 and 3. -/
inductive MarketField where
  | bid | ask | volume
deriving DecidableEq, Repr

/-- A field of an instrument. -/
def InstrumentState.field (ins : InstrumentState D) : MarketField → D
  | .bid => ins.bid
  | .ask => ins.ask
  | .volume => ins.volume

/-- A `double` the emitter works with: a constant, or what an instruction defines. -/
inductive Operand (D : Type) where
  /-- a constant -/
  | const (v : D)
  /-- the result of an instruction -/
  | reg (n : Nat)
deriving DecidableEq

/-- What an instruction may define. -/
inductive Name where
  /-- a `double` -/
  | reg (n : Nat)
  /-- the base of the lowered states of an operator -/
  | base (flag : LoweringFlag)
deriving DecidableEq

/-- The instructions of a function. -/
inductive Instr (D : Type) where
  /-- `ctx = jit_rt_symbol_ctx(arena, symbol_id)` -/
  | symbolCtx
  /-- a load from `SignalContext::lowered_bases` -/
  | loadBase (flag : LoweringFlag)
  /-- a load of a field of an instrument -/
  | loadField (dst symbol : Nat) (field : MarketField)
  /-- `jit_rt_param` -/
  | param (dst : Nat) (id : Int)
  /-- `CreateFNeg` -/
  | neg (dst : Nat) (a : Operand D)
  /-- a binary operator -/
  | binary (dst : Nat) (kind : BinaryOpKind) (a b : Operand D)
  /-- an intrinsic -/
  | math (dst : Nat) (fn : MathFn) (a : Operand D)
  /-- a stateful operator: a call of the runtime or the code of `EmitLowered*`, `warm` for
  the variant without guards -/
  | operator (dst : Nat) (op : StatefulOp D) (warm : Bool) (nodeId : Int) (args : List (Operand D))
  /-- `CreateSelect` on a condition -/
  | select (dst : Nat) (cond a b : Operand D)
  /-- `CreateCondBr` -/
  | condBr (cond : Operand D)
  /-- `CreatePHI` -/
  | phi (dst : Nat) (a b : Operand D)
  /-- the store of an output -/
  | store (index : Nat) (a : Operand D)
  /-- no instruction: a cached value is used here -/
  | reuse (name : Name)

/-- What an instruction defines. -/
def Instr.defs : Instr D → List Name
  | .loadBase flag => [.base flag]
  | .loadField dst _ _ | .param dst _ | .neg dst _ | .binary dst _ _ _ | .math dst _ _
  | .operator dst _ _ _ _ | .select dst _ _ _ | .phi dst _ _ => [.reg dst]
  | .symbolCtx | .condBr _ | .store _ _ | .reuse _ => []

/-- What is taken from a cache at an instruction. -/
def Instr.reuses : Instr D → List Name
  | .reuse name => [name]
  | _ => []

/-- The definitions of instructions and the uses of cached values. -/
def Instr.names : Names (Instr D) Name := ⟨Instr.defs, Instr.reuses⟩

/-- Two blocks that meet in a third: `cross`, `kalman1d` and the vector `sma`. -/
def Region.diamond : Region where
  blocks := 3
  edges := [(0, 1), (0, 2), (1, 3), (2, 3)]
  exit := 3
  edges_le := by decide
  exit_le := by decide
  reaches := .tail (.single (by decide : (0, 1) ∈ _)) (by decide)

/-- The two loops of the monotonic deque: `pop_back_hdr`, `pop_back_chk`, `pop_back_body`,
`push`, `pop_front_hdr`, `pop_front_chk`, `pop_front_body` and `done`. -/
def Region.deque : Region where
  blocks := 8
  edges := [(0, 1), (1, 2), (1, 4), (2, 3), (2, 4), (3, 1), (4, 5), (5, 6), (5, 8), (6, 7), (6, 8),
    (7, 5)]
  exit := 8
  edges_le := by decide
  exit_le := by decide
  reaches := .tail (.tail (.tail (.single (by decide : (0, 1) ∈ _)) (by decide : (1, 4) ∈ _))
    (by decide : (4, 5) ∈ _)) (by decide)

/-- The blocks of an operator. -/
def StatefulOp.region (op : StatefulOp D) : Region :=
  match op.impl, op.fn with
  | .lowered, .rollingMin | .lowered, .rollingMax => .deque
  | .lowered, .crossAbove | .lowered, .crossBelow | .lowered, .kalman1d => .diamond
  | .avx2, _ => .diamond
  | _, _ => .plain

/-- The blocks of an instruction. -/
def Instr.region : Instr D → Region
  | .operator _ op _ _ _ => op.region
  | _ => .plain

/-! ## Emission -/

/-- The mutable part of `CodegenContext`. -/
structure CodegenContext (D : Type) where
  /-- the number of the next result -/
  nextReg : Nat
  /-- `next_node_id` -/
  nextNodeId : Int
  /-- `program_market_field_cache` -/
  programMarketFieldCache : Nat → MarketField → Option (Operand D)
  /-- `stateful_emit_cache` -/
  statefulEmitCache : Int → Option (Operand D)
  /-- the bases in `sma_base_cached` and its companions; their loads stand right behind the
  definition of `ctx` -/
  bases : List LoweringFlag
  /-- `signal_values` -/
  signalValues : String → Option (Operand D)

/-- The context `CompileProgramImpl` starts with. -/
def CodegenContext.init : CodegenContext D :=
  ⟨0, 1, fun _ _ => none, fun _ => none, [], fun _ => none⟩

namespace CodegenContext

/-- `program_market_field_cache.emplace` -/
def cacheField (cg : CodegenContext D) (symbol : Nat) (field : MarketField) (v : Operand D) :
    CodegenContext D :=
  { cg with programMarketFieldCache := fun s f =>
      if s = symbol ∧ f = field then some v else cg.programMarketFieldCache s f }

/-- `stateful_emit_cache[nodeId] = v` -/
def cacheStateful (cg : CodegenContext D) (nodeId : Int) (v : Operand D) : CodegenContext D :=
  { cg with statefulEmitCache := fun n => if n = nodeId then some v else cg.statefulEmitCache n }

/-- `signal_values[name] = v` -/
def setSignalValue (cg : CodegenContext D) (name : String) (v : Operand D) : CodegenContext D :=
  { cg with signalValues := fun n => if n = name then some v else cg.signalValues n }

end CodegenContext

/-- What emission produces. -/
structure Emitted (D α : Type) where
  /-- the result -/
  value : α
  /-- the code -/
  code : Code (Instr D)
  /-- the context afterwards -/
  cg : CodegenContext D

/-- Emission. -/
def EmitM (D α : Type) : Type := CodegenContext D → Except String (Emitted D α)

namespace EmitM

variable {α β : Type}

/-- No code. -/
protected def pure (a : α) : EmitM D α := fun cg => .ok ⟨a, .done, cg⟩

/-- One after the other. -/
protected def bind (m : EmitM D α) (f : α → EmitM D β) : EmitM D β := fun cg =>
  match m cg with
  | .error e => .error e
  | .ok r =>
    match f r.value r.cg with
    | .error e => .error e
    | .ok r' => .ok ⟨r'.value, r.code.append r'.code, r'.cg⟩

instance : Monad (EmitM D) where
  pure := EmitM.pure
  bind := EmitM.bind

/-- `throw std::runtime_error(e)` -/
def throw (e : String) : EmitM D α := fun _ => .error e

/-- A check that emits nothing. -/
def lift (r : Except String α) : EmitM D α := fun cg => r.map fun a => ⟨a, .done, cg⟩

/-- Change the context. -/
def modify (f : CodegenContext D → CodegenContext D) : EmitM D Unit := fun cg =>
  .ok ⟨(), .done, f cg⟩

/-- An instruction without result. -/
def emit (i : Instr D) : EmitM D Unit := fun cg => .ok ⟨(), .instr i .done, cg⟩

/-- An instruction with a result. -/
def build (i : Nat → Instr D) : EmitM D (Operand D) := fun cg =>
  .ok ⟨.reg cg.nextReg, .instr (i cg.nextReg) .done, { cg with nextReg := cg.nextReg + 1 }⟩

/-- Hand out a cached value. Constants stand in no block. -/
def reuse : Operand D → EmitM D (Operand D)
  | .const v => pure (.const v)
  | .reg n => do
    emit (.reuse (.reg n))
    pure (.reg n)

/-- The blocks of a conditional: `CreateCondBr`, both branches, `CreatePHI`. -/
def branch (cond : Operand D) (thenBranch elseBranch : EmitM D (Operand D)) :
    EmitM D (Operand D) := fun cg =>
  match thenBranch cg with
  | .error e => .error e
  | .ok t =>
    match elseBranch t.cg with
    | .error e => .error e
    | .ok e =>
      .ok ⟨.reg e.cg.nextReg,
        .branch (.condBr cond) t.code e.code (.phi e.cg.nextReg t.value e.value) .done,
        { e.cg with nextReg := e.cg.nextReg + 1 }⟩

variable {cg : CodegenContext D} {r : Emitted D β}

@[simp] theorem pure_ok {a : α} {r : Emitted D α} :
    (pure a : EmitM D α) cg = .ok r ↔ r = ⟨a, .done, cg⟩ := by
  change Except.ok _ = Except.ok r ↔ _
  rw [Except.ok.injEq, eq_comm]

@[simp] theorem throw_ok {e : String} {r : Emitted D α} :
    (throw e : EmitM D α) cg = .ok r ↔ False :=
  ⟨fun h => (nomatch h), False.elim⟩

/-- Inversion for `bind`. -/
theorem bind_ok {m : EmitM D α} {f : α → EmitM D β} :
    (m >>= f) cg = .ok r ↔ ∃ r₁ r₂, m cg = .ok r₁ ∧ f r₁.value r₁.cg = .ok r₂ ∧
      r = ⟨r₂.value, r₁.code.append r₂.code, r₂.cg⟩ := by
  change EmitM.bind m f cg = .ok r ↔ _
  simp only [EmitM.bind]
  cases h₁ : m cg with
  | error e => simp
  | ok r₁ =>
    cases h₂ : f r₁.value r₁.cg with
    | error e => simp [h₂]
    | ok r₂ => simp [h₂, eq_comm]

theorem bind_error {m : EmitM D α} {f : α → EmitM D β} {e : String} (h : m cg = .error e) :
    (m >>= f) cg = .error e := by
  change EmitM.bind m f cg = _
  simp only [EmitM.bind, h]

theorem bind_error_right {m : EmitM D α} {f : α → EmitM D β} {r : Emitted D α} {e : String}
    (h : m cg = .ok r) (h' : f r.value r.cg = .error e) : (m >>= f) cg = .error e := by
  change EmitM.bind m f cg = _
  simp only [EmitM.bind, h, h']

@[simp] theorem pure_bind (a : α) (f : α → EmitM D β) : (pure a >>= f) = f a := by
  funext cg
  change EmitM.bind (EmitM.pure a) f cg = f a cg
  simp only [EmitM.bind, EmitM.pure, Code.done_append]
  cases f a cg <;> rfl

@[simp] theorem throw_bind (e : String) (f : α → EmitM D β) : (throw e >>= f) = throw e := rfl

/-- Associativity. -/
theorem bind_assoc {γ : Type} (m : EmitM D α) (f : α → EmitM D β) (g : β → EmitM D γ) :
    ((m >>= f) >>= g) = (m >>= fun a => f a >>= g) := by
  funext cg
  change EmitM.bind (EmitM.bind m f) g cg = EmitM.bind m (fun a => EmitM.bind (f a) g) cg
  simp only [EmitM.bind]
  cases m cg with
  | error e => rfl
  | ok r₁ =>
    simp only
    cases f r₁.value r₁.cg with
    | error e => rfl
    | ok r₂ =>
      simp only
      cases g r₂.value r₂.cg with
      | error e => rfl
      | ok r₃ => simp only [Code.append_assoc]

theorem lift_ok_eq (a : α) : (lift (.ok a) : EmitM D α) = pure a := rfl

theorem lift_error_eq (e : String) : (lift (.error e) : EmitM D α) = throw e := rfl

@[simp] theorem lift_ok {v : Except String α} {r : Emitted D α} :
    (lift v : EmitM D α) cg = .ok r ↔ ∃ a, v = .ok a ∧ r = ⟨a, .done, cg⟩ := by
  cases v with
  | error e => simp [lift, Except.map]
  | ok a => simp [lift, Except.map, eq_comm]

@[simp] theorem modify_ok {f : CodegenContext D → CodegenContext D} {r : Emitted D Unit} :
    modify f cg = .ok r ↔ r = ⟨(), .done, f cg⟩ := by
  rw [modify, Except.ok.injEq, eq_comm]

@[simp] theorem emit_ok {i : Instr D} {r : Emitted D Unit} :
    emit i cg = .ok r ↔ r = ⟨(), .instr i .done, cg⟩ := by
  rw [emit, Except.ok.injEq, eq_comm]

@[simp] theorem build_ok {i : Nat → Instr D} {r : Emitted D (Operand D)} :
    build i cg = .ok r ↔ r = ⟨.reg cg.nextReg, .instr (i cg.nextReg) .done,
      { cg with nextReg := cg.nextReg + 1 }⟩ := by
  rw [build, Except.ok.injEq, eq_comm]

/-- Inversion for `branch`. -/
theorem branch_ok {cond : Operand D} {mt me : EmitM D (Operand D)} {r : Emitted D (Operand D)} :
    branch cond mt me cg = .ok r ↔ ∃ t e, mt cg = .ok t ∧ me t.cg = .ok e ∧
      r = ⟨.reg e.cg.nextReg,
        .branch (.condBr cond) t.code e.code (.phi e.cg.nextReg t.value e.value) .done,
        { e.cg with nextReg := e.cg.nextReg + 1 }⟩ := by
  simp only [branch]
  cases ht : mt cg with
  | error e => simp
  | ok t =>
    cases he : me t.cg with
    | error e => simp [he]
    | ok e =>
      simp only [Except.ok.injEq, exists_and_left, exists_eq_left', he]
      exact eq_comm

end EmitM

open EmitM

/-- `EmitMarketFieldLoad` -/
def emitMarketFieldLoad (symbol : Nat) (field : MarketField) : EmitM D (Operand D) := fun cg =>
  match cg.programMarketFieldCache symbol field with
  | some v => EmitM.reuse v cg
  | none =>
    (do
      let v ← build fun dst => .loadField dst symbol field
      EmitM.modify fun cg => cg.cacheField symbol field v
      pure v : EmitM D (Operand D)) cg

/-- `LoadLoweredBaseField`. A new load goes to the top of the function. -/
def loadLoweredBaseField (flag : LoweringFlag) : EmitM D Unit := fun cg =>
  if flag ∈ cg.bases then EmitM.emit (.reuse (.base flag)) cg
  else .ok ⟨(), .done, { cg with bases := flag :: cg.bases }⟩

/-- `GetNodeId` -/
def getNodeId (nodeId : Int) : EmitM D Int := fun cg =>
  if 0 < nodeId then .ok ⟨nodeId, .done, cg⟩
  else .ok ⟨cg.nextNodeId, .done, { cg with nextNodeId := cg.nextNodeId + 1 }⟩

/-- `cache_stateful` -/
def cacheStateful (nodeId : Int) (v : Operand D) : EmitM D (Operand D) := do
  EmitM.modify fun cg => cg.cacheStateful nodeId v
  pure v

/-- An argument of a call: the expression, for the checks that look at it, and its
emission. -/
structure EmitArg (D : Type) where
  /-- the argument expression -/
  expr : Expr D
  /-- what `EmitExpr` does on it -/
  emit : EmitM D (Operand D)

/-- The fields of a `FunctionCall` that emission looks at. -/
structure EmitCall (D : Type) where
  /-- `name` -/
  name : String
  /-- the arguments -/
  args : List (EmitArg D)
  /-- `node_id` -/
  nodeId : Int
  /-- `symbol_id` -/
  symbolId : Int

/-- The literals among the arguments. -/
def EmitCall.literals (call : EmitCall D) : List (Option D) :=
  call.args.map fun arg => arg.expr.asNumber

section Emit

variable [Fp D] (env : EmitEnv)

/-- Whether the literals `q` and `r` of a `kalman1d` allow its lowering. -/
def canLowerKalman (q r : Option D) : Bool :=
  match q, r with
  | some q, some r => le (ofNat 0) q && lt (ofNat 0) r
  | _, _ => false

/-- How an operator is implemented, given the literals among its arguments. -/
def EmitEnv.impl (fn : StatefulFn) (literals : List (Option D)) : Impl :=
  let lowered := match fn.loweringFlag with
    | some flag => env.lowering flag
    | none => false
  match fn, literals with
  | .kalman1d, [_, q, r] => if lowered && canLowerKalman q r then .lowered else .runtime
  | .sma, [_, some window] =>
    if lowered then .lowered
    else if env.useAvx2 && !env.vectorized && 4 ≤ (toInt window).toNat then .avx2
    else .runtime
  | _, _ => if lowered then .lowered else .runtime

/-- The operators with a variant that assumes a filled state. -/
def StatefulFn.hasWarmVariant : StatefulFn → Bool
  | .sma | .ema | .lag => true
  | _ => false

/-- Whether the variant that assumes a filled state is emitted. -/
def EmitEnv.warm (op : StatefulOp D) (inBranch : Bool) : Bool :=
  env.assumeWarm && op.impl == .lowered && op.fn.hasWarmVariant && !inBranch

/-- The base of the lowered states of an operator. A lane has bases of its own. -/
def emitBase (op : StatefulOp D) : EmitM D Unit :=
  match op.impl, op.fn.loweringFlag with
  | .lowered, some flag => if env.vectorized then pure () else loadLoweredBaseField flag
  | _, _ => pure ()

/-- A stateful operator on its operands: the base of its states, the instruction, the
cache. -/
def emitOperator (op : StatefulOp D) (inBranch : Bool) (nodeId : Int)
    (args : List (Operand D)) : EmitM D (Operand D) := do
  let nodeId ← getNodeId nodeId
  emitBase env op
  let v ← build fun dst => .operator dst op (env.warm op inBranch) nodeId args
  cacheStateful nodeId v

/-- The checks of a window argument. -/
def emitPeriod (name : String) (window : Expr D) : Except String D :=
  match window.asNumber with
  | none => .error (name ++ "() period must be numeric literal")
  | some v =>
    match literalPeriod v with
    | none => .error (name ++ "() period must be positive integer")
    | some _ => .ok v

/-- The slot of a ticker. -/
def emitSymbol (symbolId : Int) (ticker : String) : Except String Nat :=
  if 0 ≤ symbolId then .ok symbolId.toNat else env.symbols.lookupId ticker

/-- The loads of `mid`, `bid`, `ask` and `spread`, and what is computed from them. -/
def emitMarketValue (fn : MarketFn) (symbol : Nat) : EmitM D (Operand D) :=
  match fn with
  | .bid => emitMarketFieldLoad symbol .bid
  | .ask => emitMarketFieldLoad symbol .ask
  | .mid => do
    let bid ← emitMarketFieldLoad symbol .bid
    let ask ← emitMarketFieldLoad symbol .ask
    let sum ← build fun dst => .binary dst .add bid ask
    build fun dst => .binary dst .mul sum (.const (ofRat (1 / 2)))
  | .spread => do
    let bid ← emitMarketFieldLoad symbol .bid
    let ask ← emitMarketFieldLoad symbol .ask
    build fun dst => .binary dst .sub ask bid

/-- `mid`, `bid`, `ask` and `spread`. -/
def emitMarket (fn : MarketFn) (call : EmitCall D) : EmitM D (Operand D) :=
  match call.args with
  | [arg] =>
    match arg.expr.asIdentifier with
    | none => throw (call.name ++ "() argument must be ticker identifier")
    | some ticker => do
      let symbol ← lift (emitSymbol env call.symbolId ticker)
      emitMarketValue fn symbol
  | _ => throw (call.name ++ "() expects exactly one argument")

/-- The loads of `EmitLoweredVwap`. A lane has a market of its own and does not look into
the cache. -/
def emitVwapLoads (symbol : Nat) : EmitM D (List (Operand D)) :=
  if env.vectorized then do
    let bid ← build fun dst => .loadField dst symbol .bid
    let ask ← build fun dst => .loadField dst symbol .ask
    let volume ← build fun dst => .loadField dst symbol .volume
    pure [bid, ask, volume]
  else do
    let bid ← emitMarketFieldLoad symbol .bid
    let ask ← emitMarketFieldLoad symbol .ask
    let volume ← emitMarketFieldLoad symbol .volume
    pure [bid, ask, volume]

/-- `vwap` -/
def emitVwap (inBranch : Bool) (call : EmitCall D) : EmitM D (Operand D) :=
  match call.args with
  | [arg, window] =>
    match arg.expr.asIdentifier with
    | none => throw "vwap() first arg must be ticker identifier"
    | some ticker => do
      let v ← lift (emitPeriod "vwap" window.expr)
      let symbol ← lift (emitSymbol env call.symbolId ticker)
      let op := ⟨.vwap, some v, symbol, env.impl .vwap call.literals⟩
      let loads ← match op.impl with
        | .lowered => emitVwapLoads env symbol
        | _ => pure []
      emitOperator env op inBranch call.nodeId loads
  | _ => throw "vwap() expects two args"

/-- `abs`, `sqrt` and `log`. -/
def emitMath (fn : MathFn) (call : EmitCall D) : EmitM D (Operand D) :=
  match call.args with
  | [arg] => do
    let x ← arg.emit
    build fun dst => .math dst fn x
  | _ => throw (call.name ++ "() expects one argument")

/-- `ema_alpha` -/
def emitEmaAlpha (inBranch : Bool) (call : EmitCall D) : EmitM D (Operand D) :=
  match call.args with
  | [series, factor] => do
    let x ← series.emit
    let alpha ← factor.emit
    emitOperator env ⟨.emaAlpha, none, 0, .runtime⟩ inBranch call.nodeId [x, alpha]
  | _ => throw "ema_alpha() expects two args"

/-- The operators of one series and a window. -/
def emitWindowed (fn : StatefulFn) (inBranch : Bool) (call : EmitCall D) : EmitM D (Operand D) :=
  match call.args with
  | [series, window] => do
    let v ← lift (emitPeriod call.name window.expr)
    if (toInt v).toNat < fn.minPeriod then
      throw (call.name ++ "() requires period >= 2 (sample standard deviation of one sample is "
        ++ "mathematically undefined)")
    else do
      let x ← series.emit
      emitOperator env ⟨fn, some v, 0, env.impl fn call.literals⟩ inBranch call.nodeId [x]
  | _ => throw (call.name ++ "() expects two args")

/-- `cross_above` and `cross_below`. -/
def emitCross (fn : StatefulFn) (inBranch : Bool) (call : EmitCall D) : EmitM D (Operand D) :=
  match call.args with
  | [first, second] => do
    let a ← first.emit
    let b ← second.emit
    emitOperator env ⟨fn, none, 0, env.impl fn call.literals⟩ inBranch call.nodeId [a, b]
  | _ => throw (call.name ++ "() expects two args")

/-- `rolling_corr` and `rolling_beta`. -/
def emitPair (fn : StatefulFn) (inBranch : Bool) (call : EmitCall D) : EmitM D (Operand D) :=
  match call.args with
  | [first, second, window] => do
    let v ← lift (emitPeriod call.name window.expr)
    let x ← first.emit
    let y ← second.emit
    emitOperator env ⟨fn, some v, 0, env.impl fn call.literals⟩ inBranch call.nodeId [x, y]
  | _ => throw (call.name ++ "() expects three args: " ++ call.name ++ "(x, y, period)")

/-- `kalman1d` -/
def emitKalman1d (inBranch : Bool) (call : EmitCall D) : EmitM D (Operand D) :=
  match call.args with
  | [measurement, process, noise] => do
    let x ← measurement.emit
    let q ← process.emit
    let r ← noise.emit
    emitOperator env ⟨.kalman1d, none, 0, env.impl .kalman1d call.literals⟩ inBranch call.nodeId
      [x, q, r]
  | _ => throw "kalman1d() expects three args: kalman1d(x, q, r)"

/-- The branch of `EmitExpr` for a stateful operator. -/
def emitStateful (fn : StatefulFn) (inBranch : Bool) (call : EmitCall D) : EmitM D (Operand D) :=
  match fn with
  | .vwap => emitVwap env inBranch call
  | .emaAlpha => emitEmaAlpha env inBranch call
  | .ema | .sma | .rollingStd | .zscore | .lag | .rollingMin | .rollingMax =>
    emitWindowed env fn inBranch call
  | .crossAbove | .crossBelow => emitCross env fn inBranch call
  | .rollingCorr | .rollingBeta => emitPair env fn inBranch call
  | .kalman1d => emitKalman1d env inBranch call

/-- `EmitExpr` on a call past the cache. -/
def emitDispatch (inBranch : Bool) (call : EmitCall D) : EmitM D (Operand D) :=
  match Builtin.ofName call.name with
  | some (.market fn) => emitMarket env fn call
  | some (.math fn) => emitMath fn call
  | some (.stateful fn) => emitStateful env fn inBranch call
  | none => throw ("Unsupported function in JIT: " ++ call.name)

/-- `EmitExpr` on a call: a node id that was emitted is not emitted again. -/
def emitCall (inBranch : Bool) (call : EmitCall D) : EmitM D (Operand D) := fun cg =>
  match if 0 < call.nodeId then cg.statefulEmitCache call.nodeId else none with
  | some v => EmitM.reuse v cg
  | none => emitDispatch env inBranch call cg

mutual

/-- `EmitExpr` -/
def emitExpr (inBranch : Bool) : Expr D → EmitM D (Operand D)
  | .numberLiteral _ v => pure (.const v)
  | .parameterExpr _ name id =>
    if id < 0 then throw ("Unresolved parameter in JIT expression: " ++ name)
    else build fun dst => .param dst id
  | .unaryOp _ kind operand => do
    let v ← emitExpr inBranch operand
    match kind with
    | .plus => pure v
    | .minus => build fun dst => .neg dst v
  | .binaryOp _ kind left right => do
    let l ← emitExpr inBranch left
    let r ← emitExpr inBranch right
    build fun dst => .binary dst kind l r
  | .conditional _ condition thenBranch elseBranch => do
    let cond ← emitExpr inBranch condition
    if env.vectorized then do
      let t ← emitExpr true thenBranch
      let e ← emitExpr true elseBranch
      build fun dst => .select dst cond t e
    else EmitM.branch cond (emitExpr true thenBranch) (emitExpr true elseBranch)
  | .functionCall _ name args nodeId symbolId =>
    emitCall env inBranch ⟨name, emitArgs inBranch args, nodeId, symbolId⟩
  | .identifierExpr _ name => fun cg =>
    match cg.signalValues name with
    | some v => EmitM.reuse v cg
    | none => .error ("Unresolved identifier in JIT expression: " ++ name)

/-- The arguments of a call, each with its emission. -/
def emitArgs (inBranch : Bool) : List (Expr D) → List (EmitArg D)
  | [] => []
  | a :: as => ⟨a, emitExpr inBranch a⟩ :: emitArgs inBranch as

end

/-! ## Programs -/

mutual

/-- `CollectTickerSymbols` -/
def collectTickerSymbols : Expr D → List String
  | .numberLiteral _ _ => []
  | .identifierExpr _ _ => []
  | .parameterExpr _ _ _ => []
  | .unaryOp _ _ e => collectTickerSymbols e
  | .binaryOp _ _ l r => collectTickerSymbols l ++ collectTickerSymbols r
  | .conditional _ c t e =>
    collectTickerSymbols c ++ collectTickerSymbols t ++ collectTickerSymbols e
  | .functionCall _ n args _ _ =>
    (if isTickerFirstArgFn n then ((args.head?).bind Expr.asIdentifier).toList else []) ++
      collectTickerArgs args

/-- The argument loop of `CollectTickerSymbols`. -/
def collectTickerArgs : List (Expr D) → List String
  | [] => []
  | a :: as => collectTickerSymbols a ++ collectTickerArgs as

end

/-- The loop of `PrewarmProgramMarketLoads`: bid and ask of every ticker, in some order. -/
def prewarmProgramMarketLoads : List String → EmitM D Unit
  | [] => pure ()
  | ticker :: rest => do
    let symbol ← lift (env.symbols.lookupId ticker)
    let _ ← emitMarketFieldLoad symbol .bid
    let _ ← emitMarketFieldLoad symbol .ask
    prewarmProgramMarketLoads rest

/-- The signal loop of `CompileProgramImpl`. -/
def emitSignals : List (SignalDef D) → Nat → EmitM D Unit
  | [], _ => pure ()
  | signal :: rest, i => do
    let v ← emitExpr env false signal.body
    EmitM.modify fun cg => cg.setSignalValue signal.name v
    EmitM.emit (.store i v)
    emitSignals rest (i + 1)

/-- The loads of bases, at the top of the function. -/
def hoistedCode : List LoweringFlag → Code (Instr D)
  | [] => .done
  | flag :: rest => .instr (.loadBase flag) (hoistedCode rest)

/-- The body `CompileProgramImpl` and `CompileProgramVectorizedImpl` emit. -/
def emitProgram (signals : List (SignalDef D)) : Except String (Code (Instr D)) :=
  match (do
      prewarmProgramMarketLoads env (signals.flatMap fun s => collectTickerSymbols s.body)
      emitSignals env signals 0 : EmitM D Unit) .init with
  | .error e => .error e
  | .ok r => .ok (.instr .symbolCtx ((hoistedCode r.cg.bases).append r.code))

end Emit

end JitSignalEngine
