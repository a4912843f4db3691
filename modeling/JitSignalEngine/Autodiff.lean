import JitSignalEngine.CallSites
import JitSignalEngine.ConstantFold
import JitSignalEngine.Exact
import JitSignalEngine.ForwardGradient
import JitSignalEngine.Lint
import JitSignalEngine.Parser
import JitSignalEngine.TypeCheck

/-!
# Derivative trees

`autodiff.cpp`, first phase: the derivative of a stateless body as a tree, and what it has to do
with the forward evaluator.

* `requirePhase1Supported`, `differentiate`, `buildStatelessGradientSignals` — the source.
* `Expr.PhaseOne` — the bodies the first phase is for, after the passes that write ids
  (`bindSignals_phaseOne`).
* `visit_cloneExpr` — a clone is evaluated to what its original is.
* `forward_value` — the forward evaluator computes the value of the interpreter.
* `differentiate_agrees` — its gradient is the value of the derivative tree.

The two apply the same operations to the same values, but at `abs`: the tree chooses between the
derivative, its negation and zero, the evaluator multiplies by a sign. There the arithmetic
has to be exact and the derivative a number.
-/

namespace JitSignalEngine

open Fp

variable {D : Type}

/-! ## The source -/

/-- `IsStatelessBuiltin` -/
def isStatelessBuiltin (name : String) : Bool :=
  name ∈ ["mid", "bid", "ask", "spread", "abs", "log", "sqrt"]

mutual

/-- `RequirePhase1Supported` -/
def requirePhase1Supported : Expr D → Except String Unit
  | .numberLiteral _ _ => .ok ()
  | .identifierExpr _ _ => .ok ()
  | .parameterExpr _ _ _ => .ok ()
  | .unaryOp _ _ e => requirePhase1Supported e
  | .binaryOp _ _ l r => do
    requirePhase1Supported l
    requirePhase1Supported r
  | .conditional _ c t e => do
    requirePhase1Supported c
    requirePhase1Supported t
    requirePhase1Supported e
  | .functionCall _ name args _ _ =>
    if isStatelessBuiltin name then requirePhase1SupportedArgs args
    else .error ("Phase 1 autodiff does not support stateful or unknown function: " ++ name)

/-- The argument loop of `RequirePhase1Supported`. -/
def requirePhase1SupportedArgs : List (Expr D) → Except String Unit
  | [] => .ok ()
  | a :: as => do
    requirePhase1Supported a
    requirePhase1SupportedArgs as

end

section Differentiate

variable [Fp D]

/-- The switch of `Differentiate` on a `BinaryOp`, past the derivatives of the operands. -/
def differentiateBinary (loc : SourceLoc) (kind : BinaryOpKind) (l r dl dr : Expr D) : Expr D :=
  match kind with
  | .add => .binaryOp loc .add dl dr
  | .sub => .binaryOp loc .sub dl dr
  | .mul =>
    .binaryOp loc .add (.binaryOp loc .mul dl (cloneExpr r)) (.binaryOp loc .mul (cloneExpr l) dr)
  | .div =>
    .binaryOp loc .div
      (.binaryOp loc .sub (.binaryOp loc .mul dl (cloneExpr r))
        (.binaryOp loc .mul (cloneExpr l) dr))
      (.binaryOp loc .mul (cloneExpr r) (cloneExpr r))
  | .gt | .lt | .gte | .lte | .eq | .notEq | .and | .or => .numberLiteral loc (Fp.ofNat 0)

/-- The `abs`, `log` and `sqrt` cases of `Differentiate`, past the derivative of the argument. -/
def differentiateMath (loc : SourceLoc) (fn : MathFn) (x dx : Expr D) : Expr D :=
  match fn with
  | .abs =>
    .conditional loc (.binaryOp loc .gt (cloneExpr x) (.numberLiteral loc (Fp.ofNat 0)))
      (cloneExpr dx)
      (.conditional loc (.binaryOp loc .lt (cloneExpr x) (.numberLiteral loc (Fp.ofNat 0)))
        (.unaryOp loc .minus dx) (.numberLiteral loc (Fp.ofNat 0)))
  | .log => .binaryOp loc .div dx (cloneExpr x)
  | .sqrt =>
    .binaryOp loc .div dx
      (.binaryOp loc .mul (.numberLiteral loc (Fp.ofNat 2))
        (.functionCall loc "sqrt" [cloneExpr x] (-1) (-1)))

/-- The `FunctionCall` case of `Differentiate`, given the derivatives of the arguments. Only that of
the first one is asked for, and its index is not checked. -/
def differentiateCall (loc : SourceLoc) (name : String) (args : List (Expr D))
    (derivatives : List (Except String (Expr D))) : Except String (Expr D) :=
  match Builtin.ofName name with
  | some (.market _) => .ok (.numberLiteral loc (Fp.ofNat 0))
  | some (.math fn) =>
    match args, derivatives with
    | x :: _, derivative :: _ => do
      let dx ← derivative
      pure (differentiateMath loc fn x dx)
    | _, _ => .error ForwardGradient.outOfRange
  | _ => .error ("Phase 1 autodiff does not support function: " ++ name)

mutual

/-- `Differentiate` -/
def differentiate (targetParamId : Int) : Expr D → Except String (Expr D)
  | .numberLiteral loc _ => .ok (.numberLiteral loc (Fp.ofNat 0))
  | .identifierExpr loc _ => .ok (.numberLiteral loc (Fp.ofNat 0))
  | .parameterExpr loc _ paramId =>
    .ok (.numberLiteral loc (if paramId = targetParamId then Fp.ofNat 1 else Fp.ofNat 0))
  | .unaryOp loc kind operand => do
    let inner ← differentiate targetParamId operand
    match kind with
    | .plus => pure inner
    | .minus => pure (.unaryOp loc .minus inner)
  | .binaryOp loc kind left right => do
    let dl ← differentiate targetParamId left
    let dr ← differentiate targetParamId right
    pure (differentiateBinary loc kind left right dl dr)
  | .conditional loc condition thenBranch elseBranch => do
    let dt ← differentiate targetParamId thenBranch
    let de ← differentiate targetParamId elseBranch
    pure (.conditional loc (cloneExpr condition) dt de)
  | .functionCall loc name args _ _ =>
    differentiateCall loc name args (differentiateArgs targetParamId args)

/-- The derivatives of the arguments of a call. -/
def differentiateArgs (targetParamId : Int) : List (Expr D) → List (Except String (Expr D))
  | [] => []
  | a :: as => differentiate targetParamId a :: differentiateArgs targetParamId as

end

/-- `BuildStatelessGradientSignals` -/
def buildStatelessGradientSignals (signal : SignalDef D) (params : List (ParamDef D)) :
    Except String (List (SignalDef D)) := do
  requirePhase1Supported signal.body
  params.mapM fun param => do
    let body ← differentiate param.paramId signal.body
    pure ⟨signal.name ++ "__grad__" ++ param.name, foldConstants body⟩

end Differentiate

/-! ## Bodies of the first phase -/

/-- A call that the first phase knows, of one argument, the ids as the set-up passes leave them:
only stateful calls get a node id, and a symbol id is the slot of its ticker. -/
structure Call.PhaseOne (symbols : SymbolTable) (c : Call D) : Prop where
  /-- a market read, or `abs`, `log` or `sqrt` -/
  stateless : isStatelessBuiltin c.name = true
  /-- one argument -/
  oneArgument : c.args.length = 1
  /-- no id that the caches look at -/
  nodeId : c.nodeId ≤ 0
  /-- no symbol id, or the right one -/
  symbolOk : c.SymbolOk symbols

/-- All calls are such. -/
def Expr.PhaseOne (symbols : SymbolTable) (e : Expr D) : Prop :=
  ∀ c ∈ e.calls, c.PhaseOne symbols

theorem requirePhase1Supported_calls {e : Expr D} (h : requirePhase1Supported e = .ok ()) :
    ∀ c ∈ e.calls, isStatelessBuiltin c.name = true := by
  induction e using Expr.induct with
  | numberLiteral | identifierExpr | parameterExpr => exact fun c hc => absurd hc List.not_mem_nil
  | unaryOp loc k e ih => exact ih h
  | binaryOp loc k l r ihl ihr =>
    obtain ⟨_, hl, hr⟩ := except_bind_ok.mp h
    intro c hc
    exact (List.mem_append.mp hc).elim (ihl hl c) (ihr hr c)
  | conditional loc c t e ihc iht ihe =>
    obtain ⟨_, hc, h⟩ := except_bind_ok.mp h
    obtain ⟨_, ht, he⟩ := except_bind_ok.mp h
    intro d hd
    rcases List.mem_append.mp hd with hd | hd
    · exact (List.mem_append.mp hd).elim (ihc hc d) (iht ht d)
    · exact ihe he d hd
  | functionCall loc name args nid sid ih =>
    rw [requirePhase1Supported] at h
    split at h
    · rename_i hname
      have hargs : ∀ as : List (Expr D), (∀ a ∈ as, a ∈ args) →
          requirePhase1SupportedArgs as = .ok () →
            ∀ c ∈ Expr.callsArgs as, isStatelessBuiltin c.name = true := by
        intro as
        induction as with
        | nil => exact fun _ _ c hc => absurd hc List.not_mem_nil
        | cons a as iha =>
          intro hmem h c hc
          obtain ⟨_, ha, has⟩ := except_bind_ok.mp h
          rcases List.mem_append.mp hc with hc | hc
          · exact ih a (hmem a List.mem_cons_self) ha c hc
          · exact iha (fun b hb => hmem b (List.mem_cons_of_mem _ hb)) has c hc
      intro c hc
      rcases List.mem_cons.mp hc with rfl | hc
      · exact hname
      · exact hargs args (fun _ h => h) h c hc
    · cases h

/-- The names the first phase knows. -/
theorem ofName_of_stateless {name : String} (h : isStatelessBuiltin name = true) :
    (∃ fn, Builtin.ofName name = some (.market fn)) ∨
      ∃ fn, Builtin.ofName name = some (.math fn) := by
  simp only [isStatelessBuiltin, List.mem_cons, List.not_mem_nil, or_false, decide_eq_true_eq] at h
  rcases h with rfl | rfl | rfl | rfl | rfl | rfl | rfl
  · exact .inl ⟨.mid, rfl⟩
  · exact .inl ⟨.bid, rfl⟩
  · exact .inl ⟨.ask, rfl⟩
  · exact .inl ⟨.spread, rfl⟩
  · exact .inr ⟨.abs, rfl⟩
  · exact .inr ⟨.log, rfl⟩
  · exact .inr ⟨.sqrt, rfl⟩

namespace Expr.PhaseOne

variable {symbols : SymbolTable}

theorem left {loc : SourceLoc} {k : BinaryOpKind} {l r : Expr D}
    (h : (Expr.binaryOp loc k l r).PhaseOne symbols) : l.PhaseOne symbols :=
  fun c hc => h c (List.mem_append_left _ hc)

theorem right {loc : SourceLoc} {k : BinaryOpKind} {l r : Expr D}
    (h : (Expr.binaryOp loc k l r).PhaseOne symbols) : r.PhaseOne symbols :=
  fun c hc => h c (List.mem_append_right _ hc)

theorem condition {loc : SourceLoc} {c t e : Expr D}
    (h : (Expr.conditional loc c t e).PhaseOne symbols) : c.PhaseOne symbols :=
  fun d hd => h d (List.mem_append_left _ (List.mem_append_left _ hd))

theorem thenBranch {loc : SourceLoc} {c t e : Expr D}
    (h : (Expr.conditional loc c t e).PhaseOne symbols) : t.PhaseOne symbols :=
  fun d hd => h d (List.mem_append_left _ (List.mem_append_right _ hd))

theorem elseBranch {loc : SourceLoc} {c t e : Expr D}
    (h : (Expr.conditional loc c t e).PhaseOne symbols) : e.PhaseOne symbols :=
  fun d hd => h d (List.mem_append_right _ hd)

/-- A call, its argument, and what kind of call it is. -/
theorem call {loc : SourceLoc} {name : String} {args : List (Expr D)} {nid sid : Int}
    (h : (Expr.functionCall loc name args nid sid).PhaseOne symbols) :
    ∃ a, args = [a] ∧ a.PhaseOne symbols ∧ nid ≤ 0 ∧
      Call.SymbolOk symbols ⟨name, args, nid, sid⟩ ∧
      ((∃ fn, Builtin.ofName name = some (.market fn)) ∨
        ∃ fn, Builtin.ofName name = some (.math fn)) := by
  have hcall := h _ List.mem_cons_self
  obtain ⟨a, rfl⟩ := List.length_eq_one_iff.mp hcall.oneArgument
  refine ⟨a, rfl, fun c hc => h c ?_, hcall.nodeId, hcall.symbolOk,
    ofName_of_stateless hcall.stateless⟩
  exact List.mem_cons_of_mem _ (Expr.mem_callsArgs.mpr ⟨a, List.mem_cons_self, hc⟩)

end Expr.PhaseOne

/-- A call the first phase knows is not stateful. -/
theorem isStatefulOp_of_stateless {name : String} (h : isStatelessBuiltin name = true) :
    isStatefulOp name = false := by
  rcases ofName_of_stateless h with ⟨fn, hname⟩ | ⟨fn, hname⟩
  · rw [isStatefulOp, hname]
  · rw [isStatefulOp, hname]

/-- **The set-up passes leave such bodies** of those the first phase accepts. -/
theorem bindSignals_phaseOne [DecidableEq D] {symbols : SymbolTable}
    {inlined bound : List (SignalDef D)} (hun : ∀ s ∈ inlined, Unallocated s.body.calls)
    (h : bindSignals symbols (allocateProgramNodeIds inlined) = .ok bound) {s : SignalDef D}
    (hs : s ∈ bound) (hsupported : requirePhase1Supported s.body = .ok ())
    (hone : ∀ c ∈ s.body.calls, c.args.length = 1) : s.body.PhaseOne symbols := by
  obtain ⟨hids, hsymbols⟩ := bindSignals_ids hun h
  intro c hc
  have hmem : c ∈ bound.flatMap fun s => s.body.calls := List.mem_flatMap.mpr ⟨s, hs, hc⟩
  have hstateless := requirePhase1Supported_calls hsupported c hc
  have hid := hids.stateless c hmem (isStatefulOp_of_stateless hstateless)
  exact ⟨hstateless, hone c hc, Int.le_of_lt hid, hsymbols c hmem⟩

/-! ## Clones -/

section Clone

variable [Fp D] {L : Type} [Fp L] [Widen D L] {symbols : SymbolTable} {market : MarketState D}

/-- A market read without a node id. -/
theorem visit_market {loc : SourceLoc} {name : String} {fn : MarketFn} {a : Expr D} {nid sid : Int}
    (hname : Builtin.ofName name = some (.market fn)) (hid : nid ≤ 0) :
    Interpreter.visit (L := L) symbols market (.functionCall loc name [a] nid sid) = (do
      let id ← EvalM.lift
        (Interpreter.resolveSymbolSlot symbols (Interpreter.marketFnName fn) [a] sid)
      pure ((market id).read fn)) := by
  funext s
  rw [Interpreter.visit, Interpreter.visitCall, if_neg (not_lt.mpr hid)]
  simp only [Interpreter.dispatch, hname]
  rfl

/-- A call of `abs`, `log` or `sqrt` without a node id. -/
theorem visit_math {loc : SourceLoc} {name : String} {fn : MathFn} {a : Expr D} {nid sid : Int}
    (hname : Builtin.ofName name = some (.math fn)) (hid : nid ≤ 0) :
    Interpreter.visit (L := L) symbols market (.functionCall loc name [a] nid sid) = (do
      let v ← Interpreter.visit symbols market a
      pure (fn.apply v)) := by
  funext s
  rw [Interpreter.visit, Interpreter.visitCall, if_neg (not_lt.mpr hid)]
  simp only [Interpreter.dispatch, hname]
  rfl

omit [Fp D] in
theorem asIdentifier_cloneExpr (e : Expr D) : (cloneExpr e).asIdentifier = e.asIdentifier := by
  cases e <;> rfl

/-- **A clone is evaluated to what its original is**: the ids it lost say nothing that the ticker
does not. -/
theorem visit_cloneExpr {e : Expr D} (h : e.PhaseOne symbols) :
    Interpreter.visit (L := L) symbols market (cloneExpr e) = Interpreter.visit symbols market e := by
  induction e using Expr.induct with
  | numberLiteral | identifierExpr | parameterExpr => rfl
  | unaryOp loc k e ih => rw [cloneExpr, Interpreter.visit, Interpreter.visit, ih h]
  | binaryOp loc k l r ihl ihr =>
    rw [cloneExpr, Interpreter.visit, Interpreter.visit, ihl h.left, ihr h.right]
  | conditional loc c t e ihc iht ihe =>
    rw [cloneExpr, Interpreter.visit, Interpreter.visit, ihc h.condition, iht h.thenBranch,
      ihe h.elseBranch]
  | functionCall loc name args nid sid ih =>
    obtain ⟨a, rfl, ha, hid, hsym, ⟨fn, hname⟩ | ⟨fn, hname⟩⟩ := h.call
    · have hslot : Interpreter.resolveSymbolSlot symbols (Interpreter.marketFnName fn) [cloneExpr a]
          (-1) = Interpreter.resolveSymbolSlot symbols (Interpreter.marketFnName fn) [a] sid := by
        have hclone : Interpreter.resolveSymbolSlot symbols (Interpreter.marketFnName fn)
            [cloneExpr a] (-1) =
              Interpreter.resolveSymbolSlot symbols (Interpreter.marketFnName fn) [a] (-1) := by
          simp only [Interpreter.resolveSymbolSlot, asIdentifier_cloneExpr, List.length_singleton]
        rw [hclone]
        by_cases hs : 0 ≤ sid
        · have hticker : isTickerFirstArgFn name = true := by rw [isTickerFirstArgFn, hname]
          obtain ⟨ticker, ht, hl⟩ := hsym hticker hs a [] rfl
          exact (resolveSymbolSlot_bound (.inl rfl) ht hl hs).symm
        · exact (resolveSymbolSlot_unset hs).symm
      rw [cloneExpr, cloneArgs, cloneArgs, visit_market hname (by decide), visit_market hname hid,
        hslot]
    · rw [cloneExpr, cloneArgs, cloneArgs, visit_math hname (by decide), visit_math hname hid,
        ih a List.mem_cons_self ha]

/-! ## Evaluation without effects -/

/-- A computation leaves the state alone. -/
def EvalM.Keeps {α : Type} (m : EvalM D L α) : Prop := ∀ s, (m s).2 = s

namespace EvalM.Keeps

omit [Fp D] [Fp L] [Widen D L]

variable {α β : Type} {m : EvalM D L α} {f : α → EvalM D L β}

theorem pure (a : α) : Keeps (Pure.pure a : EvalM D L α) := fun _ => rfl

theorem throw (e : String) : Keeps (EvalM.throw e : EvalM D L α) := fun _ => rfl

theorem lift (r : Except String α) : Keeps (EvalM.lift r : EvalM D L α) := fun _ => rfl

theorem bind (hm : m.Keeps) (hf : ∀ a, (f a).Keeps) : (m >>= f).Keeps := by
  intro s
  have hs := hm s
  rcases h : m s with ⟨e | a, s'⟩
  · rw [EvalM.bind_error h]
    rw [h] at hs
    exact hs
  · rw [EvalM.bind_ok h]
    rw [h] at hs
    rw [hf a s']
    exact hs

/-- Inversion for `bind`. -/
theorem bind_eq_ok (hm : m.Keeps) {s : EvalState D L} {b : β} (h : (m >>= f) s = (.ok b, s)) :
    ∃ a, m s = (.ok a, s) ∧ f a s = (.ok b, s) := by
  obtain ⟨a, s', ha, hb⟩ := EvalM.bind_eq_ok h
  have hs := hm s
  rw [ha] at hs
  obtain rfl : s' = s := hs
  exact ⟨a, ha, hb⟩

/-- The outcome is the whole result. -/
theorem of_fst (hm : m.Keeps) {s : EvalState D L} {r : Except String α} (h : (m s).1 = r) :
    m s = (r, s) := Prod.ext h (hm s)

end EvalM.Keeps

/-- Stateless bodies leave the state alone. -/
theorem visit_keeps {e : Expr D} (h : e.PhaseOne symbols) :
    (Interpreter.visit (L := L) symbols market e).Keeps := by
  induction e using Expr.induct with
  | numberLiteral => exact .pure _
  | identifierExpr => exact .throw _
  | parameterExpr loc name id =>
    intro s
    rw [Interpreter.visit, Interpreter.visitParameter]
    repeat' split
    all_goals rfl
  | unaryOp loc k e ih =>
    rw [Interpreter.visit]
    exact (ih h).bind fun _ => .pure _
  | binaryOp loc k l r ihl ihr =>
    rw [Interpreter.visit]
    exact (ihl h.left).bind fun _ => (ihr h.right).bind fun _ => .pure _
  | conditional loc c t e ihc iht ihe =>
    rw [Interpreter.visit]
    refine (ihc h.condition).bind fun v => ?_
    split
    · exact iht h.thenBranch
    · exact ihe h.elseBranch
  | functionCall loc name args nid sid ih =>
    obtain ⟨a, rfl, ha, hid, -, ⟨fn, hname⟩ | ⟨fn, hname⟩⟩ := h.call
    · rw [visit_market hname hid]
      exact (EvalM.Keeps.lift _).bind fun _ => .pure _
    · rw [visit_math hname hid]
      exact (ih a List.mem_cons_self ha).bind fun _ => .pure _

/-! ## The value of the forward evaluator -/

/-- A market read without a node id. -/
theorem evalExpr_market {loc : SourceLoc} {name : String} {fn : MarketFn} {a : Expr D}
    {nid sid : Int} {targetParam : Nat} (hname : Builtin.ofName name = some (.market fn))
    (hid : nid ≤ 0) : ForwardGradient.evalExpr (L := L) symbols market targetParam
        (.functionCall loc name [a] nid sid) = (do
      let id ← ForwardM.lift
        (Interpreter.resolveSymbolSlot symbols (Interpreter.marketFnName fn) [a] sid)
      pure ⟨(market id).read fn, Fp.ofNat 0⟩) := by
  rw [ForwardGradient.evalExpr, ForwardGradient.evalCall, if_neg (not_lt.mpr hid)]
  simp only [ForwardGradient.evalFunction, hname]
  rfl

/-- A call of `abs`, `log` or `sqrt` without a node id. -/
theorem evalExpr_math {loc : SourceLoc} {name : String} {fn : MathFn} {a : Expr D}
    {nid sid : Int} {targetParam : Nat} (hname : Builtin.ofName name = some (.math fn))
    (hid : nid ≤ 0) : ForwardGradient.evalExpr (L := L) symbols market targetParam
        (.functionCall loc name [a] nid sid) = (do
      let x ← ForwardGradient.evalExpr symbols market targetParam a
      pure (fn.forward x)) := by
  rw [ForwardGradient.evalExpr, ForwardGradient.evalCall, if_neg (not_lt.mpr hid)]
  simp only [ForwardGradient.evalFunction, hname]
  rfl

variable {s : EvalState D L} {fs : ForwardState D L} {targetParam : Nat}

omit [Fp L] [Widen D L] in
/-- A parameter has the value the interpreter reads. -/
theorem evalParameter_eq (hparams : fs.ctx.params = s.ctx.params) {name : String} {id : Int} {v : D}
    (h : Interpreter.visitParameter name id s = (.ok v, s)) :
    (ForwardGradient.evalParameter targetParam id).exec fs =
      (.ok ⟨v, if id = targetParam then Fp.ofNat 1 else Fp.ofNat 0⟩, fs) := by
  have hread : (if id < 0 then none else fs.ctx.params[id.toNat]?) = some v := by
    rw [hparams]
    rw [Interpreter.visitParameter] at h
    split at h
    · cases h
    · rename_i p ps hps
      rw [hps]
      split at h
      · cases h
      · rw [if_neg ‹_›]
        split at h
        · rename_i w hw
          cases h
          exact hw
        · cases h
  rw [ForwardGradient.evalParameter, ForwardM.exec_get_bind]
  simp only [hread]
  rfl

/-- **The forward evaluator computes the value of the interpreter.** -/
theorem forward_value (targetParam : Nat) (hparams : fs.ctx.params = s.ctx.params) {e : Expr D}
    (h : e.PhaseOne symbols) {v : D} (hv : Interpreter.visit symbols market e s = (.ok v, s)) :
    ∃ g, (ForwardGradient.evalExpr symbols market targetParam e).exec fs = (.ok ⟨v, g⟩, fs) := by
  induction e using Expr.induct generalizing v with
  | numberLiteral loc w =>
    cases hv
    exact ⟨_, rfl⟩
  | identifierExpr => cases hv
  | parameterExpr loc name id => exact ⟨_, evalParameter_eq hparams hv⟩
  | unaryOp loc k e ih =>
    rw [Interpreter.visit] at hv
    obtain ⟨w, hw, hv⟩ := (visit_keeps (e := e) h).bind_eq_ok hv
    obtain ⟨g, hg⟩ := ih h hw
    cases hv
    rw [ForwardGradient.evalExpr, ForwardM.exec_bind hg]
    cases k
    · exact ⟨_, rfl⟩
    · exact ⟨_, rfl⟩
  | binaryOp loc k l r ihl ihr =>
    rw [Interpreter.visit] at hv
    obtain ⟨vl, hl, hv⟩ := (visit_keeps h.left).bind_eq_ok hv
    obtain ⟨vr, hr, hv⟩ := (visit_keeps h.right).bind_eq_ok hv
    obtain ⟨gl, hgl⟩ := ihl h.left hl
    obtain ⟨gr, hgr⟩ := ihr h.right hr
    cases hv
    rw [ForwardGradient.evalExpr, ForwardM.exec_bind hgl, ForwardM.exec_bind hgr]
    exact ⟨_, rfl⟩
  | conditional loc c t e ihc iht ihe =>
    rw [Interpreter.visit] at hv
    obtain ⟨vc, hc, hv⟩ := (visit_keeps h.condition).bind_eq_ok hv
    obtain ⟨gc, hgc⟩ := ihc h.condition hc
    rw [ForwardGradient.evalExpr, ForwardM.exec_bind hgc]
    split at hv
    · rw [if_pos ‹_›]
      exact iht h.thenBranch hv
    · rw [if_neg ‹_›]
      exact ihe h.elseBranch hv
  | functionCall loc name args nid sid ih =>
    obtain ⟨a, rfl, ha, hid, -, ⟨fn, hname⟩ | ⟨fn, hname⟩⟩ := h.call
    · rw [visit_market hname hid] at hv
      obtain ⟨slot, hslot, hv⟩ := (EvalM.Keeps.lift _).bind_eq_ok hv
      cases hv
      rw [evalExpr_market hname hid, show Interpreter.resolveSymbolSlot symbols
        (Interpreter.marketFnName fn) [a] sid = .ok slot from congrArg Prod.fst hslot]
      exact ⟨_, rfl⟩
    · rw [visit_math hname hid] at hv
      obtain ⟨w, hw, hv⟩ := (visit_keeps ha).bind_eq_ok hv
      obtain ⟨g, hg⟩ := ih a List.mem_cons_self ha hw
      cases hv
      rw [evalExpr_math hname hid, ForwardM.exec_bind hg]
      exact ⟨_, rfl⟩

end Clone

/-! ## The gradient of the forward evaluator -/

mutual

/-- The subexpressions that are evaluated: all but the tickers. -/
def Expr.evaluated : Expr D → List (Expr D)
  | .numberLiteral loc v => [.numberLiteral loc v]
  | .identifierExpr loc n => [.identifierExpr loc n]
  | .parameterExpr loc n id => [.parameterExpr loc n id]
  | .unaryOp loc k e => .unaryOp loc k e :: e.evaluated
  | .binaryOp loc k l r => .binaryOp loc k l r :: (l.evaluated ++ r.evaluated)
  | .conditional loc c t e => .conditional loc c t e :: (c.evaluated ++ t.evaluated ++ e.evaluated)
  | .functionCall loc n args nid sid => .functionCall loc n args nid sid ::
      (if isTickerFirstArgFn n then Expr.evaluatedTail args else Expr.evaluatedArgs args)

/-- `Expr.evaluated` on an argument list. -/
def Expr.evaluatedArgs : List (Expr D) → List (Expr D)
  | [] => []
  | a :: as => a.evaluated ++ Expr.evaluatedArgs as

/-- `Expr.evaluated` on an argument list that starts with a ticker. -/
def Expr.evaluatedTail : List (Expr D) → List (Expr D)
  | [] => []
  | _ :: as => Expr.evaluatedArgs as

end

section Derivatives

variable [Fp D]

omit [Fp D] in
/-- A clone has no ids to lose. -/
theorem cloneExpr_cloneExpr (e : Expr D) : cloneExpr (cloneExpr e) = cloneExpr e := by
  induction e using Expr.induct with
  | numberLiteral | identifierExpr | parameterExpr => rfl
  | unaryOp loc k e ih => rw [cloneExpr, cloneExpr, ih]
  | binaryOp loc k l r ihl ihr => rw [cloneExpr, cloneExpr, ihl, ihr]
  | conditional loc c t e ihc iht ihe => rw [cloneExpr, cloneExpr, ihc, iht, ihe]
  | functionCall loc name args nid sid ih =>
    have hargs : args.map (cloneExpr ∘ cloneExpr) = args.map cloneExpr := List.map_congr_left ih
    rw [cloneExpr, cloneExpr, cloneArgs_eq, cloneArgs_eq, List.map_map, hargs]

theorem cloneExpr_differentiateBinary {loc : SourceLoc} {k : BinaryOpKind} {l r dl dr : Expr D}
    (hl : cloneExpr dl = dl) (hr : cloneExpr dr = dr) :
    cloneExpr (differentiateBinary loc k l r dl dr) = differentiateBinary loc k l r dl dr := by
  cases k <;> simp only [differentiateBinary, cloneExpr, cloneExpr_cloneExpr, hl, hr]

theorem cloneExpr_differentiateMath {loc : SourceLoc} {fn : MathFn} {x dx : Expr D}
    (hx : cloneExpr dx = dx) :
    cloneExpr (differentiateMath loc fn x dx) = differentiateMath loc fn x dx := by
  cases fn <;> simp only [differentiateMath, cloneExpr, cloneArgs, cloneExpr_cloneExpr, hx]

theorem differentiateArgs_eq_map (target : Int) (as : List (Expr D)) :
    differentiateArgs target as = as.map (differentiate target) := by
  induction as with
  | nil => rfl
  | cons a as ih => rw [differentiateArgs, ih, List.map_cons]

/-- A derivative has no ids, so a clone of it is the derivative. -/
theorem cloneExpr_differentiate {e d : Expr D} {target : Int} (h : differentiate target e = .ok d) :
    cloneExpr d = d := by
  induction e using Expr.induct generalizing d with
  | numberLiteral | identifierExpr | parameterExpr =>
    cases h
    rfl
  | unaryOp loc k e ih =>
    obtain ⟨d', hd', h⟩ := except_bind_ok.mp h
    have hclone := ih hd'
    cases k <;> cases h
    · exact hclone
    · rw [cloneExpr, hclone]
  | binaryOp loc k l r ihl ihr =>
    obtain ⟨dl, hl, h⟩ := except_bind_ok.mp h
    obtain ⟨dr, hr, h⟩ := except_bind_ok.mp h
    cases h
    exact cloneExpr_differentiateBinary (ihl hl) (ihr hr)
  | conditional loc c t e ihc iht ihe =>
    obtain ⟨dt, ht, h⟩ := except_bind_ok.mp h
    obtain ⟨de, he, h⟩ := except_bind_ok.mp h
    cases h
    rw [cloneExpr, cloneExpr_cloneExpr, iht ht, ihe he]
  | functionCall loc name args nid sid ih =>
    rw [differentiate, differentiateArgs_eq_map, differentiateCall] at h
    split at h
    · cases h
      rfl
    · cases args with
      | nil => cases h
      | cons a as =>
        obtain ⟨dx, hx, h⟩ := except_bind_ok.mp h
        cases h
        exact cloneExpr_differentiateMath (ih a List.mem_cons_self hx)
    · cases h

/-- Bodies of the first phase have derivatives. -/
theorem differentiate_ok {symbols : SymbolTable} {e : Expr D} (h : e.PhaseOne symbols) (target : Int) :
    ∃ d, differentiate target e = .ok d := by
  induction e using Expr.induct with
  | numberLiteral | identifierExpr | parameterExpr => exact ⟨_, rfl⟩
  | unaryOp loc k e ih =>
    obtain ⟨d, hd⟩ := ih h
    rw [differentiate, hd]
    cases k
    · exact ⟨_, rfl⟩
    · exact ⟨_, rfl⟩
  | binaryOp loc k l r ihl ihr =>
    obtain ⟨dl, hl⟩ := ihl h.left
    obtain ⟨dr, hr⟩ := ihr h.right
    rw [differentiate, hl, hr]
    exact ⟨_, rfl⟩
  | conditional loc c t e ihc iht ihe =>
    obtain ⟨dt, ht⟩ := iht h.thenBranch
    obtain ⟨de, he⟩ := ihe h.elseBranch
    rw [differentiate, ht, he]
    exact ⟨_, rfl⟩
  | functionCall loc name args nid sid ih =>
    obtain ⟨a, rfl, ha, -, -, ⟨fn, hname⟩ | ⟨fn, hname⟩⟩ := h.call
    · simp only [differentiate, differentiateCall, hname]
      exact ⟨_, rfl⟩
    · obtain ⟨dx, hx⟩ := ih a List.mem_cons_self ha
      simp only [differentiate, differentiateArgs, differentiateCall, hname, hx]
      exact ⟨_, rfl⟩

end Derivatives

section Visits

variable [Fp D] {L : Type} [Fp L] [Widen D L] {symbols : SymbolTable} {market : MarketState D}
  {s : EvalState D L} {loc : SourceLoc}

theorem visit_unaryOp_ok {k : UnaryOpKind} {e : Expr D} {v : D}
    (h : Interpreter.visit symbols market e s = (.ok v, s)) :
    Interpreter.visit symbols market (.unaryOp loc k e) s = (.ok (k.apply v), s) := by
  rw [Interpreter.visit, EvalM.bind_ok h]
  rfl

theorem visit_binaryOp_ok (loc : SourceLoc) (k : BinaryOpKind) {l r : Expr D} {vl vr : D}
    (hl : Interpreter.visit symbols market l s = (.ok vl, s))
    (hr : Interpreter.visit symbols market r s = (.ok vr, s)) :
    Interpreter.visit symbols market (.binaryOp loc k l r) s = (.ok (k.apply vl vr), s) := by
  rw [Interpreter.visit, EvalM.bind_ok hl, EvalM.bind_ok hr]
  rfl

theorem visit_conditional_ok {c t e : Expr D} {v : D}
    (h : Interpreter.visit symbols market c s = (.ok v, s)) :
    Interpreter.visit symbols market (.conditional loc c t e) s =
      Interpreter.visit symbols market (if truthy v then t else e) s := by
  rw [Interpreter.visit, EvalM.bind_ok h]
  split <;> rfl

end Visits

section Agreement

variable {K : Type} [Field K] [LinearOrder K] [IsStrictOrderedRing K] [Transcendental K]
  (symbols : SymbolTable) (market : MarketState (Exact K))
  (ctx : SignalContext (Exact K) (NodeSlot (Exact K) (Exact K)))

/-- All subexpressions but the tickers are evaluated to numbers. -/
def AllNumbers (e : Expr (Exact K)) : Prop :=
  ∀ x ∈ e.evaluated, ∃ v, (Interpreter.evaluate symbols x market ctx).1 = .ok (.val v)

variable {symbols market ctx}

namespace AllNumbers

variable {loc : SourceLoc} {e c t l r : Expr (Exact K)}

omit [IsStrictOrderedRing K]

theorem self (h : AllNumbers symbols market ctx e) :
    ∃ v, (Interpreter.evaluate symbols e market ctx).1 = .ok (.val v) := by
  refine h e ?_
  cases e <;> exact List.mem_cons_self

theorem operand {k : UnaryOpKind} (h : AllNumbers symbols market ctx (.unaryOp loc k e)) :
    AllNumbers symbols market ctx e := fun x hx => h x (List.mem_cons_of_mem _ hx)

theorem left {k : BinaryOpKind} (h : AllNumbers symbols market ctx (.binaryOp loc k l r)) :
    AllNumbers symbols market ctx l :=
  fun x hx => h x (List.mem_cons_of_mem _ (List.mem_append_left _ hx))

theorem right {k : BinaryOpKind} (h : AllNumbers symbols market ctx (.binaryOp loc k l r)) :
    AllNumbers symbols market ctx r :=
  fun x hx => h x (List.mem_cons_of_mem _ (List.mem_append_right _ hx))

theorem condition (h : AllNumbers symbols market ctx (.conditional loc c t e)) :
    AllNumbers symbols market ctx c := fun x hx =>
  h x (List.mem_cons_of_mem _ (List.mem_append_left _ (List.mem_append_left _ hx)))

theorem thenBranch (h : AllNumbers symbols market ctx (.conditional loc c t e)) :
    AllNumbers symbols market ctx t := fun x hx =>
  h x (List.mem_cons_of_mem _ (List.mem_append_left _ (List.mem_append_right _ hx)))

theorem elseBranch (h : AllNumbers symbols market ctx (.conditional loc c t e)) :
    AllNumbers symbols market ctx e :=
  fun x hx => h x (List.mem_cons_of_mem _ (List.mem_append_right _ hx))

theorem argument {name : String} {fn : MathFn} {nid sid : Int}
    (hname : Builtin.ofName name = some (.math fn))
    (h : AllNumbers symbols market ctx (.functionCall loc name [e] nid sid)) :
    AllNumbers symbols market ctx e := by
  intro x hx
  refine h x (List.mem_cons_of_mem _ ?_)
  have hticker : isTickerFirstArgFn name = false := by rw [isTickerFirstArgFn, hname]
  rw [hticker]
  exact List.mem_append_left _ hx

end AllNumbers

omit [IsStrictOrderedRing K] in
/-- The derivative of `abs` is a choice in the tree and a product in the evaluator. -/
theorem mul_sign (v g : K) : Fp.mul
    (if Fp.lt (Fp.ofNat 0) (Exact.val v) then Fp.ofNat 1
      else if Fp.lt (Exact.val v) (Fp.ofNat 0) then neg (Fp.ofNat 1) else Fp.ofNat 0)
    (Exact.val g) =
    if Fp.lt (Fp.ofNat 0) (Exact.val v) then Exact.val g
      else if Fp.lt (Exact.val v) (Fp.ofNat 0) then neg (Exact.val g) else Fp.ofNat 0 := by
  split_ifs
  · simp
  · rw [Exact.ofNat_val, Nat.cast_one]
    exact congrArg Exact.val (neg_one_mul g)
  · simp

theorem truthy_ofBool (b : Bool) : truthy (ofBool b : Exact K) = b := by
  cases b <;> simp [truthy, ne]

/-- The derivative trees of `abs`, `log` and `sqrt`, on numbers. -/
theorem visit_differentiateMath {s : EvalState (Exact K) (Exact K)} (loc : SourceLoc) (fn : MathFn)
    {x dx : Expr (Exact K)} {v g : K}
    (hx : Interpreter.visit symbols market (cloneExpr x) s = (.ok (.val v), s))
    (hg : Interpreter.visit symbols market dx s = (.ok (.val g), s)) (hclone : cloneExpr dx = dx) :
    Interpreter.visit symbols market (differentiateMath loc fn x dx) s =
      (.ok (fn.gradient ⟨.val v, .val g⟩), s) := by
  cases fn with
  | abs =>
    have hgt := visit_binaryOp_ok loc .gt hx
      (r := .numberLiteral loc (Fp.ofNat 0)) rfl
    have hlt := visit_binaryOp_ok loc .lt hx
      (r := .numberLiteral loc (Fp.ofNat 0)) rfl
    rw [differentiateMath, visit_conditional_ok hgt, hclone, MathFn.gradient]
    simp only [BinaryOpKind.apply, truthy_ofBool, mul_sign]
    split_ifs with hpositive hnegative
    · exact hg
    · rw [visit_conditional_ok hlt]
      simp only [BinaryOpKind.apply, truthy_ofBool, hnegative, if_true]
      exact visit_unaryOp_ok hg
    · rw [visit_conditional_ok hlt]
      simp only [BinaryOpKind.apply, truthy_ofBool, hnegative]
      rfl
  | log => exact visit_binaryOp_ok _ _ hg hx
  | sqrt =>
    have hroot : Interpreter.visit symbols market
        (.functionCall loc "sqrt" [cloneExpr x] (-1) (-1)) s = (.ok (Fp.sqrt (.val v)), s) := by
      have hname : Builtin.ofName "sqrt" = some (.math .sqrt) := rfl
      rw [visit_math hname (by decide), EvalM.bind_ok hx]
      rfl
    have htwice := visit_binaryOp_ok loc .mul
      (l := .numberLiteral loc (Fp.ofNat 2)) rfl hroot
    exact visit_binaryOp_ok _ _ hg htwice

/-- **The gradient is the value of the derivative tree**, by induction on the body. -/
theorem gradient_value {fs : ForwardState (Exact K) (Exact K)} {s : EvalState (Exact K) (Exact K)}
    (hs : s = ⟨fs.ctx, fun _ => none, []⟩) {target : Nat} {e d : Expr (Exact K)}
    (h : e.PhaseOne symbols) (hd : differentiate target e = .ok d)
    (hne : AllNumbers symbols market fs.ctx e) (hnd : AllNumbers symbols market fs.ctx d) :
    ∃ v g, Interpreter.visit symbols market e s = (.ok v, s) ∧
      Interpreter.visit symbols market d s = (.ok g, s) ∧
      (ForwardGradient.evalExpr symbols market target e).exec fs = (.ok ⟨v, g⟩, fs) := by
  have hparams : fs.ctx.params = s.ctx.params := by rw [hs]
  -- what the interpreter says of a body, and what it leaves behind
  have hvisit : ∀ x : Expr (Exact K), x.PhaseOne symbols → AllNumbers symbols market fs.ctx x →
      ∃ v, Interpreter.visit symbols market x s = (.ok v, s) := by
    intro x hx hnx
    obtain ⟨v, hv⟩ := hnx.self
    subst hs
    exact ⟨_, (visit_keeps hx).of_fst hv⟩
  induction e using Expr.induct generalizing d with
  | numberLiteral loc v =>
    cases hd
    exact ⟨_, _, rfl, rfl, rfl⟩
  | identifierExpr loc n =>
    obtain ⟨v, hv⟩ := hne.self
    cases hv
  | parameterExpr loc name id =>
    cases hd
    obtain ⟨v, hv⟩ := hvisit _ h hne
    exact ⟨_, _, hv, rfl, evalParameter_eq hparams hv⟩
  | unaryOp loc k e ih =>
    obtain ⟨d', hd', hd⟩ := except_bind_ok.mp hd
    cases k with
    | plus =>
      cases hd
      obtain ⟨v, g, hv, hg, hf⟩ := ih h hd' hne.operand hnd
      refine ⟨_, _, visit_unaryOp_ok hv, hg, ?_⟩
      rw [ForwardGradient.evalExpr, ForwardM.exec_bind hf]
      rfl
    | minus =>
      cases hd
      obtain ⟨v, g, hv, hg, hf⟩ := ih h hd' hne.operand hnd.operand
      refine ⟨_, _, visit_unaryOp_ok hv, visit_unaryOp_ok hg, ?_⟩
      rw [ForwardGradient.evalExpr, ForwardM.exec_bind hf]
      rfl
  | binaryOp loc k l r ihl ihr =>
    obtain ⟨dl, hdl, hd⟩ := except_bind_ok.mp hd
    obtain ⟨dr, hdr, hd⟩ := except_bind_ok.mp hd
    cases hd
    obtain ⟨vl, hvl⟩ := hvisit _ h.left hne.left
    obtain ⟨vr, hvr⟩ := hvisit _ h.right hne.right
    have hcl : Interpreter.visit symbols market (cloneExpr l) s = (.ok vl, s) := by
      rw [visit_cloneExpr h.left, hvl]
    have hcr : Interpreter.visit symbols market (cloneExpr r) s = (.ok vr, s) := by
      rw [visit_cloneExpr h.right, hvr]
    -- the arithmetic operators pass the gradients of the operands on
    have harith : AllNumbers symbols market fs.ctx dl → AllNumbers symbols market fs.ctx dr →
        ∃ gl gr, Interpreter.visit symbols market dl s = (.ok gl, s) ∧
          Interpreter.visit symbols market dr s = (.ok gr, s) ∧
          (ForwardGradient.evalExpr symbols market target (.binaryOp loc k l r)).exec fs =
            (.ok (k.forward ⟨vl, gl⟩ ⟨vr, gr⟩), fs) := by
      intro hnl hnr
      obtain ⟨vl', gl, hvl', hgl, hfl⟩ := ihl h.left hdl hne.left hnl
      obtain ⟨vr', gr, hvr', hgr, hfr⟩ := ihr h.right hdr hne.right hnr
      rw [hvl] at hvl'
      rw [hvr] at hvr'
      cases hvl'
      cases hvr'
      refine ⟨gl, gr, hgl, hgr, ?_⟩
      rw [ForwardGradient.evalExpr, ForwardM.exec_bind hfl, ForwardM.exec_bind hfr]
      rfl
    -- the others do not ask for them
    have hlogic : k.gradient (D := Exact K) = (fun _ _ => Fp.ofNat 0) →
        (ForwardGradient.evalExpr symbols market target (.binaryOp loc k l r)).exec fs =
          (.ok ⟨k.apply vl vr, Fp.ofNat 0⟩, fs) := by
      intro hzero
      obtain ⟨gl, hfl⟩ := forward_value target hparams h.left hvl
      obtain ⟨gr, hfr⟩ := forward_value target hparams h.right hvr
      rw [ForwardGradient.evalExpr, ForwardM.exec_bind hfl, ForwardM.exec_bind hfr,
        BinaryOpKind.forward, hzero]
      rfl
    cases k with
    | add | sub =>
      obtain ⟨gl, gr, hgl, hgr, hf⟩ := harith hnd.left hnd.right
      exact ⟨_, _, visit_binaryOp_ok _ _ hvl hvr, visit_binaryOp_ok _ _ hgl hgr, hf⟩
    | mul =>
      obtain ⟨gl, gr, hgl, hgr, hf⟩ := harith hnd.left.left hnd.right.right
      exact ⟨_, _, visit_binaryOp_ok _ _ hvl hvr,
        visit_binaryOp_ok _ _ (visit_binaryOp_ok _ _ hgl hcr) (visit_binaryOp_ok _ _ hcl hgr), hf⟩
    | div =>
      obtain ⟨gl, gr, hgl, hgr, hf⟩ := harith hnd.left.left.left hnd.left.right.right
      have hnumerator := visit_binaryOp_ok loc .sub
        (visit_binaryOp_ok loc .mul hgl hcr)
        (visit_binaryOp_ok loc .mul hcl hgr)
      exact ⟨_, _, visit_binaryOp_ok _ _ hvl hvr,
        visit_binaryOp_ok _ _ hnumerator (visit_binaryOp_ok _ _ hcr hcr), hf⟩
    | gt | lt | gte | lte | eq | notEq | and | or =>
      exact ⟨_, _, visit_binaryOp_ok _ _ hvl hvr, rfl, hlogic rfl⟩
  | conditional loc c t e ihc iht ihe =>
    obtain ⟨dt, hdt, hd⟩ := except_bind_ok.mp hd
    obtain ⟨de, hde, hd⟩ := except_bind_ok.mp hd
    cases hd
    obtain ⟨vc, hvc⟩ := hvisit _ h.condition hne.condition
    obtain ⟨gc, hgc⟩ := forward_value target hparams h.condition hvc
    have hclone : Interpreter.visit symbols market (cloneExpr c) s = (.ok vc, s) := by
      rw [visit_cloneExpr h.condition, hvc]
    rw [visit_conditional_ok hvc, visit_conditional_ok hclone, ForwardGradient.evalExpr,
      ForwardM.exec_bind hgc]
    split
    · exact iht h.thenBranch hdt hne.thenBranch hnd.thenBranch
    · exact ihe h.elseBranch hde hne.elseBranch hnd.elseBranch
  | functionCall loc name args nid sid ih =>
    obtain ⟨v, hv⟩ := hvisit _ h hne
    obtain ⟨a, rfl, ha, hid, -, ⟨fn, hname⟩ | ⟨fn, hname⟩⟩ := h.call
    · simp only [differentiate, differentiateCall, hname] at hd
      cases hd
      refine ⟨v, _, hv, rfl, ?_⟩
      rw [visit_market hname hid] at hv
      obtain ⟨slot, hslot, hv⟩ := (EvalM.Keeps.lift _).bind_eq_ok hv
      cases hv
      rw [evalExpr_market hname hid, show Interpreter.resolveSymbolSlot symbols
        (Interpreter.marketFnName fn) [a] sid = .ok slot from congrArg Prod.fst hslot]
      rfl
    · simp only [differentiate, differentiateArgs, differentiateCall, hname] at hd
      obtain ⟨dx, hdx, hd⟩ := except_bind_ok.mp hd
      cases hd
      have hnx := hne.argument hname
      have hndx : AllNumbers symbols market fs.ctx dx := by
        cases fn with
        | abs => exact hnd.elseBranch.thenBranch.operand
        | log | sqrt => exact hnd.left
      obtain ⟨va, ga, hva, hga, hf⟩ := ih a List.mem_cons_self ha hdx hnx hndx
      -- both are numbers
      obtain ⟨x, hx⟩ := hnx.self
      obtain ⟨g, hg⟩ := hndx.self
      obtain rfl : va = .val x := by
        subst hs
        exact Except.ok.inj ((congrArg Prod.fst hva).symm.trans hx)
      obtain rfl : ga = .val g := by
        subst hs
        exact Except.ok.inj ((congrArg Prod.fst hga).symm.trans hg)
      have hcx : Interpreter.visit symbols market (cloneExpr a) s = (.ok (.val x), s) := by
        rw [visit_cloneExpr ha, hva]
      have hderivative := visit_differentiateMath loc fn hcx hga (cloneExpr_differentiate hdx)
      refine ⟨fn.apply (.val x), _, ?_, hderivative, ?_⟩
      · rw [visit_math hname hid, EvalM.bind_ok hva]
        rfl
      · rw [evalExpr_math hname hid, ForwardM.exec_bind hf]
        rfl

/-- **The symbolic and the forward-mode gradient agree.** For a body the first phase accepts, with
calls of one argument and ids as the set-up passes leave them, where the body and its derivative
are evaluated to numbers throughout. -/
theorem differentiate_agrees (symbols : SymbolTable) (market : MarketState (Exact K))
    (fs : ForwardState (Exact K) (Exact K)) (target : Nat) {e : Expr (Exact K)}
    (hsupported : requirePhase1Supported e = .ok ())
    (hone : ∀ c ∈ e.calls, c.args.length = 1) (hids : ∀ c ∈ e.calls, c.nodeId ≤ 0)
    (hsymbols : ∀ c ∈ e.calls, c.SymbolOk symbols) :
    ∃ d, differentiate target e = .ok d ∧
      (AllNumbers symbols market fs.ctx e → AllNumbers symbols market fs.ctx d →
        ∃ v g, (Interpreter.evaluate symbols d market fs.ctx).1 = .ok g ∧
          ((ForwardGradient.evalExpr symbols market target e).exec fs).1 = .ok ⟨v, g⟩) := by
  have h : e.PhaseOne symbols := fun c hc =>
    ⟨requirePhase1Supported_calls hsupported c hc, hone c hc, hids c hc, hsymbols c hc⟩
  obtain ⟨d, hd⟩ := differentiate_ok h target
  refine ⟨d, hd, fun hne hnd => ?_⟩
  obtain ⟨v, g, -, hg, hf⟩ := gradient_value rfl h hd hne hnd
  exact ⟨v, g, congrArg Prod.fst hg, congrArg Prod.fst hf⟩

end Agreement

section Example

open Concrete

/-- `abs(p * mid(A))` -/
def scaledMid : Expr (Exact ℚ) := app "abs" [.binaryOp {} .mul (.parameterExpr {} "p" 0) (mid "A")]

/-- An evaluator for `p = -2`, one parameter. -/
def atMinusTwo : ForwardState (Exact ℚ) (Exact ℚ) :=
  ⟨.fresh [.val (-2)], fun _ => .empty, 1, fun _ => none⟩

/-- Every evaluated subexpression has a number, by evaluation. -/
theorem allNumbers_of_all {market : MarketState (Exact ℚ)}
    {ctx : SignalContext (Exact ℚ) (NodeSlot (Exact ℚ) (Exact ℚ))} {e : Expr (Exact ℚ)}
    (h : e.evaluated.all (fun x => match (Interpreter.evaluate symbols x market ctx).1 with
      | .ok (.val _) => true
      | _ => false) = true) : AllNumbers symbols market ctx e := by
  intro x hx
  have hnumber := List.all_eq_true.mp h x hx
  split at hnumber
  · exact ⟨_, ‹_›⟩
  · cases hnumber

/-- At `p = -2` and a price of 3 the tree takes the branch of the negated derivative. -/
theorem differentiate_agrees_scaledMid : ∃ d, differentiate 0 scaledMid = .ok d ∧
    ∃ v g, (Interpreter.evaluate symbols d (quote 3 3) atMinusTwo.ctx).1 = .ok g ∧
      ((ForwardGradient.evalExpr symbols (quote 3 3) 0 scaledMid).exec atMinusTwo).1 =
        .ok ⟨v, g⟩ := by
  have ⟨d, hd, hagree⟩ := differentiate_agrees (e := scaledMid) symbols (quote 3 3) atMinusTwo 0
    rfl (by decide) (by decide) fun c hc _ hbound =>
      absurd hbound (Int.not_le.mpr (show c.symbolId < 0 by revert c; decide))
  refine ⟨d, hd, hagree (allNumbers_of_all (by decide +kernel)) ?_⟩
  cases hd
  exact allNumbers_of_all (by decide +kernel)

end Example

end JitSignalEngine
