import JitSignalEngine.EmitExpr
import JitSignalEngine.NonInterference

/-!
# Emission by shape

`EmitExpr` interleaves its static checks with emission, as the interpreter does with
evaluation. It makes the same checks: the dispatch of a call is the emission of its
operands and of the operator `decodeCall` finds, or an exception (`emitDispatch_spec`).

* `Emits` — what the dispatch does about a call of a given shape.
* `Expr.accepted` — every call of an expression has a shape and every identifier a value.
* `Decides.emitExpr`, `emitProgram_succeeds` — that is when emission succeeds. A call that
  is found in the cache is not looked at, but then an equal one was before it.
-/

namespace JitSignalEngine

open Fp EmitM

variable {D : Type} [Fp D] (env : EmitEnv)

/-! ## The dispatch -/

/-- Emit operands from left to right. -/
def emitAll : List (EmitM D (Operand D)) → EmitM D (List (Operand D))
  | [] => pure []
  | m :: ms => do
    let v ← m
    let vs ← emitAll ms
    pure (v :: vs)

/-- What an operator works on: the values of its operands, for a lowered `vwap` the fields
of the instrument. -/
def emitOperands (op : StatefulOp D) (operands : List (EmitM D (Operand D))) :
    EmitM D (List (Operand D)) :=
  match op.fn, op.impl with
  | .vwap, .lowered => emitVwapLoads env op.symbol
  | .vwap, _ => pure []
  | _, _ => emitAll operands

/-- What the dispatch of a call must do for a call of the shape `shape`. -/
def Emits (inBranch : Bool) (call : EmitCall D) (m : EmitM D (Operand D)) : CallShape D → Prop
  | .invalid => ∃ e, m = throw e
  | .market fn symbol => m = emitMarketValue fn symbol
  | .math fn => ∃ arg, call.args = [arg] ∧ m = arg.emit >>= fun x => build fun dst => .math dst fn x
  | .stateful op =>
    m = emitOperands env op ((call.args.take op.fn.arity).map EmitArg.emit) >>=
      emitOperator env op inBranch call.nodeId

variable {env}

omit [Fp D] in
theorem emitAll_one (m : EmitM D (Operand D)) {β : Type} (f : List (Operand D) → EmitM D β) :
    (emitAll [m] >>= f) = m >>= fun x => f [x] := by
  simp only [emitAll, EmitM.pure_bind, EmitM.bind_assoc]

omit [Fp D] in
theorem emitAll_two (m n : EmitM D (Operand D)) {β : Type} (f : List (Operand D) → EmitM D β) :
    (emitAll [m, n] >>= f) = m >>= fun x => n >>= fun y => f [x, y] := by
  simp only [emitAll, EmitM.pure_bind, EmitM.bind_assoc]

omit [Fp D] in
theorem emitAll_three (m n o : EmitM D (Operand D)) {β : Type}
    (f : List (Operand D) → EmitM D β) :
    (emitAll [m, n, o] >>= f) = m >>= fun x => n >>= fun y => o >>= fun z => f [x, y, z] := by
  simp only [emitAll, EmitM.pure_bind, EmitM.bind_assoc]

omit [Fp D] in
/-- The operands of an operator other than `vwap`. -/
theorem emitOperands_of_ne {op : StatefulOp D} (h : op.fn ≠ .vwap)
    (operands : List (EmitM D (Operand D))) : emitOperands env op operands = emitAll operands := by
  obtain ⟨fn, literal, symbol, impl⟩ := op
  cases fn <;> first | rfl | exact absurd rfl h

/-- A window is accepted when it is a period; whether it is long enough is checked apart. -/
theorem emitPeriod_cases (name : String) (fn : StatefulFn) (window : Expr D) :
    (∃ v, emitPeriod name window = .ok v ∧ 0 < (toInt v).toNat ∧
      decodeWindow fn window = if (toInt v).toNat < fn.minPeriod then none else some v) ∨
    ((∃ e, emitPeriod name window = .error e) ∧ decodeWindow fn window = none) := by
  unfold emitPeriod decodeWindow
  rcases window.asNumber with _ | v
  · exact .inr ⟨⟨_, rfl⟩, rfl⟩
  · dsimp only
    rcases hp : literalPeriod v with _ | period
    · exact .inr ⟨⟨_, rfl⟩, rfl⟩
    · unfold literalPeriod at hp
      split at hp
      · cases hp
      · rename_i h
        rw [Bool.or_eq_true, not_or, decide_eq_true_eq] at h
        rw [← Option.some.inj hp]
        exact .inl ⟨v, rfl, by omega, rfl⟩

/-- The windowed operators. -/
theorem emitWindowed_spec (fn : StatefulFn) (inBranch : Bool) (call : EmitCall D)
    (harity : fn.arity = 1) (symbolId : Int) :
    Emits env inBranch call (emitWindowed env fn inBranch call)
      (decodeStateful (env.impl fn call.literals) env.symbols fn (call.args.map EmitArg.expr)
        symbolId) := by
  rw [Interpreter.decodeStateful_windowed _ _ harity]
  unfold emitWindowed
  rcases hargs : call.args with _ | ⟨series, _ | ⟨window, _ | ⟨extra, rest⟩⟩⟩
  · exact ⟨_, rfl⟩
  · exact ⟨_, rfl⟩
  · simp only [List.map_cons, List.map_nil]
    rcases emitPeriod_cases call.name fn window.expr with ⟨v, hv, -, hdec⟩ | ⟨⟨e, he⟩, hdec⟩
    · rw [hv, hdec, EmitM.lift_ok_eq, EmitM.pure_bind]
      by_cases hshort : (toInt v).toNat < fn.minPeriod
      · rw [if_pos hshort, if_pos hshort]
        exact ⟨_, rfl⟩
      · rw [if_neg hshort, if_neg hshort]
        change _ = emitOperands env _ _ >>= _
        rw [emitOperands_of_ne (by rintro rfl; cases harity), hargs, harity, List.take_succ_cons,
          List.take_zero, List.map_cons, List.map_nil, emitAll_one]
    · rw [he, hdec, EmitM.lift_error_eq, EmitM.throw_bind]
      exact ⟨e, rfl⟩
  · exact ⟨_, rfl⟩

/-- The paired operators. -/
theorem emitPair_spec (fn : StatefulFn) (inBranch : Bool) (call : EmitCall D)
    (hpair : fn.periodArg = 2) (symbolId : Int) :
    Emits env inBranch call (emitPair env fn inBranch call)
      (decodeStateful (env.impl fn call.literals) env.symbols fn (call.args.map EmitArg.expr)
        symbolId) := by
  have harity : fn.arity = 2 := by cases fn <;> first | rfl | cases hpair
  have hmin : fn.minPeriod = 1 := by cases fn <;> first | rfl | cases hpair
  rw [Interpreter.decodeStateful_pair _ _ hpair]
  unfold emitPair
  rcases hargs : call.args with _ | ⟨first, _ | ⟨second, _ | ⟨window, _ | ⟨extra, rest⟩⟩⟩⟩
  · exact ⟨_, rfl⟩
  · exact ⟨_, rfl⟩
  · exact ⟨_, rfl⟩
  · simp only [List.map_cons, List.map_nil]
    rcases emitPeriod_cases call.name fn window.expr with ⟨v, hv, hpos, hdec⟩ | ⟨⟨e, he⟩, hdec⟩
    · rw [hv, hdec, EmitM.lift_ok_eq, EmitM.pure_bind, hmin, if_neg (by omega)]
      change _ = emitOperands env _ _ >>= _
      rw [emitOperands_of_ne (by rintro rfl; cases harity), hargs, harity, List.take_succ_cons,
        List.take_succ_cons, List.take_zero, List.map_cons, List.map_cons, List.map_nil,
        emitAll_two]
    · rw [he, hdec, EmitM.lift_error_eq, EmitM.throw_bind]
      exact ⟨e, rfl⟩
  · exact ⟨_, rfl⟩

/-- `cross_above` and `cross_below`. -/
theorem emitCross_spec (fn : StatefulFn) (inBranch : Bool) (call : EmitCall D)
    (hcross : fn = .crossAbove ∨ fn = .crossBelow) (symbolId : Int) :
    Emits env inBranch call (emitCross env fn inBranch call)
      (decodeStateful (env.impl fn call.literals) env.symbols fn (call.args.map EmitArg.expr)
        symbolId) := by
  have htwo : ∀ a b : Expr D, decodeStateful (env.impl fn call.literals) env.symbols fn [a, b]
      symbolId = .stateful ⟨fn, none, 0, env.impl fn call.literals⟩ := by
    intro a b
    rcases hcross with rfl | rfl <;> rfl
  have hother : ∀ as : List (Expr D), as.length ≠ 2 →
      decodeStateful (env.impl fn call.literals) env.symbols fn as symbolId = .invalid := by
    intro as hlen
    rcases as with _ | ⟨_, _ | ⟨_, _ | ⟨_, _⟩⟩⟩ <;> rcases hcross with rfl | rfl <;>
      first | rfl | exact absurd rfl hlen
  unfold emitCross
  rcases hargs : call.args with _ | ⟨first, _ | ⟨second, _ | ⟨extra, rest⟩⟩⟩
  · rw [hother _ (by simp)]
    exact ⟨_, rfl⟩
  · rw [hother _ (by simp)]
    exact ⟨_, rfl⟩
  · rw [List.map_cons, List.map_cons, List.map_nil, htwo]
    change _ = emitOperands env _ _ >>= _
    have harity : fn.arity = 2 := by rcases hcross with rfl | rfl <;> rfl
    rw [emitOperands_of_ne (by rcases hcross with rfl | rfl <;> intro h <;> cases h), hargs,
      harity, List.take_succ_cons, List.take_succ_cons, List.take_zero, List.map_cons,
      List.map_cons, List.map_nil, emitAll_two]
  · rw [hother _ (by simp)]
    exact ⟨_, rfl⟩

/-- `ema_alpha`. -/
theorem emitEmaAlpha_spec (inBranch : Bool) (call : EmitCall D) (symbolId : Int) :
    Emits env inBranch call (emitEmaAlpha env inBranch call)
      (decodeStateful (env.impl .emaAlpha call.literals) env.symbols .emaAlpha
        (call.args.map EmitArg.expr) symbolId) := by
  have himpl : ∀ literals : List (Option D), env.impl .emaAlpha literals = .runtime := by
    intro literals
    unfold EmitEnv.impl
    rfl
  rw [himpl]
  unfold emitEmaAlpha
  rcases hargs : call.args with _ | ⟨series, _ | ⟨factor, _ | ⟨extra, rest⟩⟩⟩
  · exact ⟨_, rfl⟩
  · exact ⟨_, rfl⟩
  · change _ = emitOperands env _ _ >>= _
    rw [emitOperands_of_ne (by intro h; cases h), hargs]
    exact (emitAll_two _ _ _).symm
  · exact ⟨_, rfl⟩

/-- `kalman1d`. -/
theorem emitKalman1d_spec (inBranch : Bool) (call : EmitCall D) (symbolId : Int) :
    Emits env inBranch call (emitKalman1d env inBranch call)
      (decodeStateful (env.impl .kalman1d call.literals) env.symbols .kalman1d
        (call.args.map EmitArg.expr) symbolId) := by
  unfold emitKalman1d
  rcases hargs : call.args with
    _ | ⟨measurement, _ | ⟨process, _ | ⟨noise, _ | ⟨extra, rest⟩⟩⟩⟩
  · exact ⟨_, rfl⟩
  · exact ⟨_, rfl⟩
  · exact ⟨_, rfl⟩
  · change _ = emitOperands env _ _ >>= _
    rw [emitOperands_of_ne (by intro h; cases h), hargs]
    exact (emitAll_three _ _ _ _).symm
  · exact ⟨_, rfl⟩

omit [Fp D] in
/-- The slot of a ticker, by id or by name. -/
theorem emitSymbol_eq {symbolId : Int} {a : Expr D} {as : List (Expr D)} {ticker : String}
    (ht : a.asIdentifier = some ticker)
    (hok : 0 ≤ symbolId → ∃ ticker, a.asIdentifier = some ticker ∧
      env.symbols.lookupId ticker = .ok symbolId.toNat) (fnName : String)
    (hlen : as = [] ∨ fnName = "vwap") :
    emitSymbol env symbolId ticker =
      Interpreter.resolveSymbolSlot env.symbols fnName (a :: as) (-1) := by
  have hshape : ¬ (¬ (a :: as).length = 1 ∧ fnName ≠ "vwap") := by
    rcases hlen with rfl | rfl
    · exact fun h => h.1 rfl
    · exact fun h => h.2 rfl
  have hslot : Interpreter.resolveSymbolSlot env.symbols fnName (a :: as) (-1) =
      env.symbols.lookupId ticker := by
    unfold Interpreter.resolveSymbolSlot
    rw [if_neg (show ¬ (0 : Int) ≤ -1 by decide), if_neg hshape]
    simp only [ht]
  rw [hslot, emitSymbol]
  by_cases hs : 0 ≤ symbolId
  · obtain ⟨ticker', ht', hl⟩ := hok hs
    rw [ht] at ht'
    cases ht'
    rw [if_pos hs, hl]
  · rw [if_neg hs]

/-- `vwap`. -/
theorem emitVwap_spec (inBranch : Bool) (call : EmitCall D)
    (hsym : Call.SymbolOk env.symbols
      ⟨"vwap", call.args.map EmitArg.expr, call.nodeId, call.symbolId⟩) :
    Emits env inBranch call (emitVwap env inBranch call)
      (decodeStateful (env.impl .vwap call.literals) env.symbols .vwap
        (call.args.map EmitArg.expr) (-1)) := by
  unfold emitVwap
  rcases hargs : call.args with _ | ⟨arg, _ | ⟨window, _ | ⟨extra, rest⟩⟩⟩
  · exact ⟨_, rfl⟩
  · exact ⟨_, rfl⟩
  · rw [hargs] at hsym
    simp only [List.map_cons, List.map_nil, decodeStateful]
    rcases ht : arg.expr.asIdentifier with _ | ticker
    · have hnone : Interpreter.resolveSymbolSlot env.symbols "vwap" [arg.expr, window.expr] (-1) =
          .error ("vwap" ++ "() argument must be ticker identifier") := by
        unfold Interpreter.resolveSymbolSlot
        simp [ht]
      rw [hnone]
      rcases decodeWindow .vwap window.expr with _ | v
      · exact ⟨_, rfl⟩
      · exact ⟨_, rfl⟩
    · have hslot : emitSymbol env call.symbolId ticker = Interpreter.resolveSymbolSlot env.symbols
          "vwap" [arg.expr, window.expr] (-1) := emitSymbol_eq ht
        (fun hs => hsym rfl hs arg.expr [window.expr] rfl) "vwap" (.inr rfl)
      rw [← hslot]
      rcases emitPeriod_cases "vwap" .vwap window.expr with ⟨v, hv, hpos, hdec⟩ | ⟨⟨e, he⟩, hdec⟩
      · rw [if_neg (show ¬ (toInt v).toNat < StatefulFn.vwap.minPeriod by
          change ¬ (toInt v).toNat < 1; omega)] at hdec
        simp only [hv, hdec, EmitM.lift_ok_eq, EmitM.pure_bind]
        rcases emitSymbol env call.symbolId ticker with e | symbol
        · exact ⟨e, rfl⟩
        · simp only [EmitM.lift_ok_eq, EmitM.pure_bind]
          change _ = emitOperands env _ _ >>= _
          unfold emitOperands
          rcases env.impl .vwap call.literals with _ | _ | _
          · exact (EmitM.pure_bind _ _).symm
          · rfl
          · exact (EmitM.pure_bind _ _).symm
      · simp only [he, hdec, EmitM.lift_error_eq, EmitM.throw_bind]
        exact ⟨e, rfl⟩
  · exact ⟨_, rfl⟩

/-- **The dispatch by shape.** -/
theorem emitDispatch_spec (inBranch : Bool) (call : EmitCall D)
    (hsym : Call.SymbolOk env.symbols
      ⟨call.name, call.args.map EmitArg.expr, call.nodeId, call.symbolId⟩) :
    Emits env inBranch call (emitDispatch env inBranch call)
      (decodeCall env.impl env.symbols call.name (call.args.map EmitArg.expr) (-1)) := by
  have hlit : (call.args.map EmitArg.expr).map Expr.asNumber = call.literals := by
    rw [List.map_map]
    rfl
  unfold emitDispatch decodeCall
  rw [hlit]
  rcases hname : Builtin.ofName call.name with _ | fn | fn | fn
  · exact ⟨_, rfl⟩
  · unfold emitMarket
    rcases hargs : call.args with _ | ⟨arg, _ | ⟨extra, rest⟩⟩
    · exact ⟨_, rfl⟩
    · simp only [List.map_cons, List.map_nil]
      rcases ht : arg.expr.asIdentifier with _ | ticker
      · have hnone : ∃ e, Interpreter.resolveSymbolSlot env.symbols
            (Interpreter.marketFnName fn) [arg.expr] (-1) = .error e := by
          unfold Interpreter.resolveSymbolSlot
          simp [ht]
        obtain ⟨e, he⟩ := hnone
        rw [he]
        exact ⟨_, rfl⟩
      · have hf : isTickerFirstArgFn call.name = true := by rw [isTickerFirstArgFn, hname]
        have hslot : emitSymbol env call.symbolId ticker = Interpreter.resolveSymbolSlot env.symbols
            (Interpreter.marketFnName fn) [arg.expr] (-1) := emitSymbol_eq ht
          (fun hs => hsym hf hs arg.expr [] (by rw [hargs]; rfl)) _ (.inl rfl)
        rw [← hslot]
        dsimp only
        rcases emitSymbol env call.symbolId ticker with e | symbol
        · exact ⟨e, rfl⟩
        · exact EmitM.pure_bind _ _
    · exact ⟨_, rfl⟩
  · unfold emitMath
    rcases hargs : call.args with _ | ⟨arg, _ | ⟨extra, rest⟩⟩
    · exact ⟨_, rfl⟩
    · exact ⟨arg, hargs, rfl⟩
    · exact ⟨_, rfl⟩
  · cases fn with
    | vwap =>
      refine emitVwap_spec inBranch call ?_
      intro _ hs
      exact hsym (by rw [isTickerFirstArgFn, hname]) hs
    | emaAlpha => exact emitEmaAlpha_spec inBranch call (-1)
    | kalman1d => exact emitKalman1d_spec inBranch call (-1)
    | crossAbove => exact emitCross_spec .crossAbove inBranch call (.inl rfl) (-1)
    | crossBelow => exact emitCross_spec .crossBelow inBranch call (.inr rfl) (-1)
    | rollingCorr => exact emitPair_spec .rollingCorr inBranch call rfl (-1)
    | rollingBeta => exact emitPair_spec .rollingBeta inBranch call rfl (-1)
    | ema => exact emitWindowed_spec .ema inBranch call rfl (-1)
    | sma => exact emitWindowed_spec .sma inBranch call rfl (-1)
    | rollingStd => exact emitWindowed_spec .rollingStd inBranch call rfl (-1)
    | zscore => exact emitWindowed_spec .zscore inBranch call rfl (-1)
    | lag => exact emitWindowed_spec .lag inBranch call rfl (-1)
    | rollingMin => exact emitWindowed_spec .rollingMin inBranch call rfl (-1)
    | rollingMax => exact emitWindowed_spec .rollingMax inBranch call rfl (-1)

/-! ## Hits and misses -/

/-- **Hit.** -/
theorem emitCall_hit {inBranch : Bool} {call : EmitCall D} {cg : CodegenContext D}
    {v : Operand D} (hpos : 0 < call.nodeId) (h : cg.statefulEmitCache call.nodeId = some v) :
    emitCall env inBranch call cg = EmitM.reuse v cg := by
  simp only [emitCall, if_pos hpos, h]

/-- **Miss.** -/
theorem emitCall_miss {inBranch : Bool} {call : EmitCall D} {cg : CodegenContext D}
    (h : 0 < call.nodeId → cg.statefulEmitCache call.nodeId = none) :
    emitCall env inBranch call cg = emitDispatch env inBranch call cg := by
  by_cases hpos : 0 < call.nodeId
  · simp only [emitCall, if_pos hpos, h hpos]
  · simp only [emitCall, if_neg hpos]

/-- The calls of a body with their arguments. -/
theorem emitArgs_eq_map (inBranch : Bool) (as : List (Expr D)) :
    emitArgs env inBranch as = as.map fun a => ⟨a, emitExpr env inBranch a⟩ := by
  induction as with
  | nil => rfl
  | cons a as ih => rw [emitArgs, ih, List.map_cons]

theorem map_expr_emitArgs (inBranch : Bool) (as : List (Expr D)) :
    (emitArgs env inBranch as).map EmitArg.expr = as := by
  rw [emitArgs_eq_map, List.map_map]
  exact List.map_id'' (fun _ => rfl) as

/-! ## What is accepted -/

/-- Whether the call can be made. -/
def CallShape.isValid : CallShape D → Bool
  | .invalid => false
  | _ => true

variable (env)

mutual

/-- Every call that is emitted has a shape, every identifier is one of `signals`, and every
parameter has an id. -/
def Expr.accepted (signals : String → Bool) : Expr D → Bool
  | .numberLiteral _ _ => true
  | .identifierExpr _ n => signals n
  | .parameterExpr _ _ i => decide (0 ≤ i)
  | .unaryOp _ _ e => e.accepted signals
  | .binaryOp _ _ l r => l.accepted signals && r.accepted signals
  | .conditional _ c t e => c.accepted signals && (t.accepted signals && e.accepted signals)
  | .functionCall _ n args _ _ =>
    (decodeCall env.impl env.symbols n args (-1)).isValid &&
      Expr.acceptedArgs signals (decodeCall env.impl env.symbols n args (-1)).arity args

/-- `Expr.accepted` on the first arguments of a call. -/
def Expr.acceptedArgs (signals : String → Bool) : Nat → List (Expr D) → Bool
  | _, [] => true
  | 0, _ :: _ => true
  | k + 1, a :: as => a.accepted signals && Expr.acceptedArgs signals k as

end

variable {env}

theorem Expr.acceptedArgs_iff {signals : String → Bool} {k : Nat} {as : List (Expr D)} :
    Expr.acceptedArgs env signals k as = true ↔
      ∀ a ∈ as.take k, a.accepted env signals = true := by
  induction as generalizing k with
  | nil => simp [Expr.acceptedArgs]
  | cons a as ih =>
    cases k with
    | zero => simp [Expr.acceptedArgs]
    | succ k =>
      rw [Expr.acceptedArgs, Bool.and_eq_true, ih, List.take_succ_cons, List.forall_mem_cons]

/-- Whether a call is accepted. -/
def Call.accepted (env : EmitEnv) (signals : String → Bool) (c : Call D) : Prop :=
  (decodeCall env.impl env.symbols c.name c.args (-1)).isValid = true ∧
    ∀ a ∈ c.args.take (decodeCall env.impl env.symbols c.name c.args (-1)).arity,
      a.accepted env signals = true

theorem Expr.accepted_functionCall {signals : String → Bool} {loc : SourceLoc} {name : String}
    {args : List (Expr D)} {nid sid : Int} :
    (Expr.functionCall loc name args nid sid).accepted env signals = true ↔
      Call.accepted env signals ⟨name, args, nid, sid⟩ := by
  rw [Expr.accepted, Bool.and_eq_true, Expr.acceptedArgs_iff, Call.accepted]

/-- More signals, more expressions. -/
theorem Expr.accepted_mono {signals signals' : String → Bool}
    (h : ∀ n, signals n = true → signals' n = true) (e : Expr D) :
    e.accepted env signals = true → e.accepted env signals' = true := by
  induction e using Expr.induct with
  | numberLiteral | parameterExpr => exact id
  | identifierExpr loc n => exact h n
  | unaryOp loc k e ih => exact ih
  | binaryOp loc k l r ihl ihr =>
    rw [Expr.accepted, Expr.accepted, Bool.and_eq_true, Bool.and_eq_true]
    exact And.imp ihl ihr
  | conditional loc c t e ihc iht ihe =>
    rw [Expr.accepted, Expr.accepted, Bool.and_eq_true, Bool.and_eq_true, Bool.and_eq_true,
      Bool.and_eq_true]
    exact And.imp ihc (And.imp iht ihe)
  | functionCall loc n args nid sid ih =>
    rw [Expr.accepted_functionCall, Expr.accepted_functionCall]
    exact And.imp_right fun hargs a ha => ih a (List.mem_of_mem_take ha) (hargs a ha)

/-- Structurally equal expressions are accepted together. -/
theorem Expr.accepted_strip (signals : String → Bool) (e : Expr D) :
    e.strip.accepted env signals = e.accepted env signals := by
  induction e using Expr.induct with
  | numberLiteral | identifierExpr | parameterExpr => rfl
  | unaryOp loc k e ih => exact ih
  | binaryOp loc k l r ihl ihr => rw [Expr.strip, Expr.accepted, Expr.accepted, ihl, ihr]
  | conditional loc c t e ihc iht ihe =>
    rw [Expr.strip, Expr.accepted, Expr.accepted, ihc, iht, ihe]
  | functionCall loc n args nid sid ih =>
    have hshape := decodeCall_congr env.impl env.symbols n (sameFaces_of_strip
      (show (args.map Expr.strip).map Expr.strip = args.map Expr.strip by
        rw [List.map_map]; exact List.map_congr_left fun a _ => a.strip_strip)) (-1)
    rw [Bool.eq_iff_iff, Expr.strip, Expr.stripArgs_eq_map, Expr.accepted_functionCall,
      Expr.accepted_functionCall]
    unfold Call.accepted
    dsimp only
    rw [hshape, ← List.map_take, List.forall_mem_map]
    refine and_congr_right fun _ => forall₂_congr fun a ha => ?_
    rw [ih a (List.mem_of_mem_take ha)]

theorem Call.accepted_congr {signals : String → Bool} {c d : Call D} (h : c.strip = d.strip) :
    c.accepted env signals ↔ d.accepted env signals := by
  have hc : ∀ c : Call D, c.accepted env signals ↔ c.strip.accepted env signals = true := by
    intro c
    have hfull : (Expr.functionCall {} c.name c.args c.nodeId c.symbolId).accepted env signals =
        true ↔ c.accepted env signals := Expr.accepted_functionCall
    rw [← hfull, ← Expr.accepted_strip, Expr.strip, Expr.stripArgs_eq_map, Call.strip]
  rw [hc, hc, h]

/-! ## What is emitted -/

/-- Emission goes through and leaves the cache of calls and the signals alone. -/
def Unfailing {α : Type} (m : EmitM D α) : Prop :=
  ∀ cg, ∃ r, m cg = .ok r ∧ r.cg.statefulEmitCache = cg.statefulEmitCache ∧
    r.cg.signalValues = cg.signalValues

namespace Unfailing

variable {α β : Type}

omit [Fp D] in
theorem pure (a : α) : Unfailing (Pure.pure a : EmitM D α) := fun _ => ⟨_, rfl, rfl, rfl⟩

omit [Fp D] in
theorem bind {m : EmitM D α} {f : α → EmitM D β} (hm : Unfailing m) (hf : ∀ a, Unfailing (f a)) :
    Unfailing (m >>= f) := by
  intro cg
  obtain ⟨r, hr, hc, hs⟩ := hm cg
  obtain ⟨r', hr', hc', hs'⟩ := hf r.value r.cg
  exact ⟨_, EmitM.bind_ok.mpr ⟨r, r', hr, hr', rfl⟩, hc'.trans hc, hs'.trans hs⟩

omit [Fp D] in
theorem build (i : Nat → Instr D) : Unfailing (EmitM.build i) := fun _ => ⟨_, rfl, rfl, rfl⟩

omit [Fp D] in
theorem reuse (v : Operand D) : Unfailing (EmitM.reuse v) := by
  cases v with
  | const v => exact .pure _
  | reg n => exact fun _ => ⟨_, rfl, rfl, rfl⟩

omit [Fp D] in
theorem emitMarketFieldLoad (symbol : Nat) (field : MarketField) :
    Unfailing (JitSignalEngine.emitMarketFieldLoad symbol field : EmitM D (Operand D)) := by
  intro cg
  rcases h : cg.programMarketFieldCache symbol field with _ | v
  · exact ⟨_, by simp only [JitSignalEngine.emitMarketFieldLoad, h]; rfl, rfl, rfl⟩
  · obtain ⟨r, hr, hrest⟩ := Unfailing.reuse v cg
    exact ⟨r, by simp only [JitSignalEngine.emitMarketFieldLoad, h, hr], hrest⟩

omit [Fp D] in
theorem loadLoweredBaseField (flag : LoweringFlag) :
    Unfailing (JitSignalEngine.loadLoweredBaseField flag : EmitM D Unit) := by
  intro cg
  by_cases h : flag ∈ cg.bases
  · exact ⟨_, by simp only [JitSignalEngine.loadLoweredBaseField, if_pos h]; rfl, rfl, rfl⟩
  · exact ⟨_, by simp only [JitSignalEngine.loadLoweredBaseField, if_neg h]; rfl, rfl, rfl⟩

theorem emitMarketValue (fn : MarketFn) (symbol : Nat) :
    Unfailing (JitSignalEngine.emitMarketValue fn symbol : EmitM D (Operand D)) := by
  have hload := emitMarketFieldLoad (D := D) symbol
  cases fn with
  | bid => exact hload .bid
  | ask => exact hload .ask
  | mid => exact (hload .bid).bind fun _ => (hload .ask).bind fun _ => (build _).bind fun _ => build _
  | spread => exact (hload .bid).bind fun _ => (hload .ask).bind fun _ => build _

omit [Fp D] in
theorem emitVwapLoads (symbol : Nat) :
    Unfailing (JitSignalEngine.emitVwapLoads env symbol : EmitM D (List (Operand D))) := by
  have hload := emitMarketFieldLoad (D := D) symbol
  unfold JitSignalEngine.emitVwapLoads
  split
  · exact (build _).bind fun _ => (build _).bind fun _ => (build _).bind fun _ => .pure _
  · exact (hload .bid).bind fun _ => (hload .ask).bind fun _ => (hload .volume).bind fun _ =>
      .pure _

omit [Fp D] in
theorem emitBase (op : StatefulOp D) : Unfailing (JitSignalEngine.emitBase env op) := by
  unfold JitSignalEngine.emitBase
  split
  · split
    · exact .pure _
    · exact .loadLoweredBaseField _
  · exact .pure _

omit [Fp D] in
/-- An operator on its operands goes through, and its call is in the cache afterwards. -/
theorem emitOperator (op : StatefulOp D) (inBranch : Bool) {nodeId : Int} (hid : 0 < nodeId)
    (args : List (Operand D)) (cg : CodegenContext D) :
    ∃ r v, JitSignalEngine.emitOperator env op inBranch nodeId args cg = .ok r ∧
      r.cg.statefulEmitCache = (fun n => if n = nodeId then some v else cg.statefulEmitCache n) ∧
      r.cg.signalValues = cg.signalValues := by
  have hget : (getNodeId nodeId : EmitM D Int) = Pure.pure nodeId := by
    funext cg
    exact if_pos hid
  obtain ⟨r, hr, hc, hs⟩ := @Unfailing.emitBase D env op cg
  unfold JitSignalEngine.emitOperator
  rw [hget, EmitM.pure_bind]
  refine ⟨_, .reg r.cg.nextReg, EmitM.bind_ok.mpr ⟨r, _, hr, rfl, rfl⟩, ?_, ?_⟩
  · rw [← hc]
    rfl
  · exact hs

end Unfailing

/-- Where emission stands: of the calls `cs`, those with an emitted id are accepted, and the
signals `signals` have values. -/
structure EmittedSoFar (env : EmitEnv) (cs : List (Call D)) (signals : String → Bool)
    (cg : CodegenContext D) : Prop where
  /-- what is in the cache is accepted -/
  cache : ∀ c ∈ cs, cg.statefulEmitCache c.nodeId ≠ none → 0 < c.nodeId → c.accepted env signals
  /-- the signals with a value -/
  signals : ∀ n, cg.signalValues n ≠ none ↔ signals n = true

/-- From contexts with `I` emission succeeds exactly when `Q` holds, and keeps `I`. -/
def Decides {α : Type} (I : CodegenContext D → Prop) (m : EmitM D α) (Q : Prop) : Prop :=
  ∀ cg, I cg → (Q ∧ ∃ r, m cg = .ok r ∧ I r.cg) ∨ (¬ Q ∧ ∃ e, m cg = .error e)

namespace Decides

variable {α β : Type} {I : CodegenContext D → Prop} {Q Q' : Prop}

omit [Fp D] in
theorem congr {m : EmitM D α} (h : Decides I m Q) (hQ : Q ↔ Q') : Decides I m Q' :=
  (propext hQ) ▸ h

omit [Fp D] in
theorem throw (e : String) : Decides I (EmitM.throw e : EmitM D α) False :=
  fun _ _ => .inr ⟨id, e, rfl⟩

omit [Fp D] in
/-- The second part is only run when the first one went through. -/
theorem bind {m : EmitM D α} {f : α → EmitM D β} (hm : Decides I m Q)
    (hf : Q → ∀ a, Decides I (f a) Q') : Decides I (m >>= f) (Q ∧ Q') := by
  intro cg hI
  rcases hm cg hI with ⟨hQ, r, hr, hI'⟩ | ⟨hQ, e, he⟩
  · rcases hf hQ r.value r.cg hI' with ⟨hQ', r', hr', hI''⟩ | ⟨hQ', e, he⟩
    · exact .inl ⟨⟨hQ, hQ'⟩, _, EmitM.bind_ok.mpr ⟨r, r', hr, hr', rfl⟩, hI''⟩
    · exact .inr ⟨fun h => hQ' h.2, e, EmitM.bind_error_right hr he⟩
  · exact .inr ⟨fun h => hQ h.1, e, EmitM.bind_error he⟩

omit [Fp D] in
theorem branch {cond : Operand D} {mt me : EmitM D (Operand D)} (ht : Decides I mt Q)
    (he : Decides I me Q') (hI : ∀ cg n, I cg → I { cg with nextReg := n }) :
    Decides I (EmitM.branch cond mt me) (Q ∧ Q') := by
  intro cg hcg
  rcases ht cg hcg with ⟨hQ, r, hr, hI₁⟩ | ⟨hQ, e, herr⟩
  · rcases he r.cg hI₁ with ⟨hQ', r', hr', hI₂⟩ | ⟨hQ', e, herr⟩
    · exact .inl ⟨⟨hQ, hQ'⟩, _, EmitM.branch_ok.mpr ⟨r, r', hr, hr', rfl⟩, hI _ _ hI₂⟩
    · exact .inr ⟨fun h => hQ' h.2, e, by simp only [EmitM.branch, hr, herr]⟩
  · exact .inr ⟨fun h => hQ h.1, e, by simp only [EmitM.branch, herr]⟩

omit [Fp D] in
theorem emitAll {f : α → EmitM D (Operand D)} {P : α → Prop} {as : List α}
    (h : ∀ a ∈ as, Decides I (f a) (P a)) :
    Decides I (JitSignalEngine.emitAll (as.map f)) (∀ a ∈ as, P a) := by
  induction as with
  | nil => exact fun cg hI => .inl ⟨fun a ha => absurd ha List.not_mem_nil, _, rfl, hI⟩
  | cons a as ih =>
    refine Decides.congr (Q := P a ∧ ((∀ a ∈ as, P a) ∧ True)) ?_
      (by rw [and_true, List.forall_mem_cons])
    refine (h a List.mem_cons_self).bind fun _ v =>
      (ih fun a ha => h a (List.mem_cons_of_mem _ ha)).bind fun _ vs => ?_
    exact fun cg hI => .inl ⟨trivial, _, rfl, hI⟩

variable {cs : List (Call D)} {signals : String → Bool}

theorem of_unfailing {m : EmitM D α} (h : Unfailing m) :
    Decides (EmittedSoFar env cs signals) m True := by
  intro cg hI
  obtain ⟨r, hr, hc, hs⟩ := h cg
  exact .inl ⟨trivial, r, hr, hc ▸ hI.cache, hs ▸ hI.signals⟩

/-- The operator of an accepted call. -/
theorem emitOperator (hids : ConsistentIds cs) {c : Call D} (hc : c ∈ cs)
    (hst : isStatefulOp c.name = true) (hacc : c.accepted env signals) (op : StatefulOp D)
    (inBranch : Bool) (args : List (Operand D)) :
    Decides (EmittedSoFar env cs signals)
      (JitSignalEngine.emitOperator env op inBranch c.nodeId args) True := by
  intro cg hI
  obtain ⟨r, v, hr, hcache, hs⟩ := @Unfailing.emitOperator D env op inBranch _
    (hids.stateful c hc hst) args cg
  refine .inl ⟨trivial, r, hr, fun d hd hne hpos => ?_, hs ▸ hI.signals⟩
  by_cases hid : c.nodeId = d.nodeId
  · exact (Call.accepted_congr (hids.equal c hc d hd hst hid)).mp hacc
  · rw [hcache] at hne
    dsimp only at hne
    rw [if_neg (Ne.symm hid)] at hne
    exact hI.cache d hd hne hpos

theorem emitOperands {op : StatefulOp D} {as : List (Expr D)} {f : Expr D → EmitM D (Operand D)}
    (h : ∀ a ∈ as, Decides (EmittedSoFar env cs signals) (f a) (a.accepted env signals = true))
    (hvwap : op.fn = .vwap → as = []) :
    Decides (EmittedSoFar env cs signals) (JitSignalEngine.emitOperands env op (as.map f))
      (∀ a ∈ as, a.accepted env signals = true) := by
  by_cases hfn : op.fn = .vwap
  · rw [hvwap hfn]
    refine congr (Q := True) (of_unfailing ?_) ⟨fun _ a ha => absurd ha List.not_mem_nil,
      fun _ => trivial⟩
    unfold JitSignalEngine.emitOperands
    rw [hfn]
    rcases op.impl with _ | _ | _
    · exact .pure _
    · exact .emitVwapLoads _
    · exact .pure _
  · rw [emitOperands_of_ne hfn]
    exact Decides.emitAll h

/-- **A call** goes through exactly when it is accepted. In the cache there are accepted
calls only. -/
theorem emitCall (hids : ConsistentIds cs) {c : Call D} (hc : c ∈ cs)
    (hsym : c.SymbolOk env.symbols) (inBranch : Bool)
    (hargs : ∀ a ∈ c.args, Decides (EmittedSoFar env cs signals) (emitExpr env inBranch a)
      (a.accepted env signals = true)) :
    Decides (EmittedSoFar env cs signals)
      (JitSignalEngine.emitCall env inBranch
        ⟨c.name, emitArgs env inBranch c.args, c.nodeId, c.symbolId⟩)
      (c.accepted env signals) := by
  have hdispatch : Decides (EmittedSoFar env cs signals)
      (emitDispatch env inBranch ⟨c.name, emitArgs env inBranch c.args, c.nodeId, c.symbolId⟩)
      (c.accepted env signals) := by
    have hspec := @emitDispatch_spec D _ env inBranch
      ⟨c.name, emitArgs env inBranch c.args, c.nodeId, c.symbolId⟩
      (by rw [map_expr_emitArgs]; exact hsym)
    dsimp only at hspec
    rw [map_expr_emitArgs] at hspec
    have hacc : c.accepted env signals ↔ (decodeCall env.impl env.symbols c.name c.args
        (-1)).isValid = true ∧ ∀ a ∈ c.args.take (decodeCall env.impl env.symbols c.name c.args
          (-1)).arity, a.accepted env signals = true := Iff.rfl
    rcases hshape : decodeCall env.impl env.symbols c.name c.args (-1) with
      _ | ⟨fn, symbol⟩ | fn | op <;> rw [hshape] at hspec hacc
    · obtain ⟨e, he⟩ := hspec
      rw [he]
      exact (Decides.throw e).congr ⟨False.elim, fun h => Bool.false_ne_true (hacc.mp h).1⟩
    · rw [show _ = _ from hspec]
      exact (of_unfailing (.emitMarketValue fn symbol)).congr
        ⟨fun _ => hacc.mpr ⟨rfl, fun a ha => absurd ha List.not_mem_nil⟩, fun _ => trivial⟩
    · obtain ⟨arg, harg, heq⟩ := hspec
      rw [emitArgs_eq_map] at harg
      obtain ⟨a, ha, rfl⟩ := List.map_eq_singleton_iff.mp harg
      rw [heq]
      refine congr (((hargs a (by simp [ha])).bind fun _ x => of_unfailing (.build _))) ?_
      rw [hacc, ha, and_true]
      exact ⟨fun h => ⟨rfl, fun b hb => by rw [List.mem_singleton.mp hb]; exact h⟩,
        fun h => h.2 a List.mem_cons_self⟩
    · have hst : isStatefulOp c.name = true := by
        cases hst : isStatefulOp c.name with
        | true => rfl
        | false => exact absurd hshape (decodeCall_stateless (-1) hst op)
      rw [show _ = _ from hspec, emitArgs_eq_map, ← List.map_take, List.map_map]
      refine congr ((Decides.emitOperands (fun a ha => hargs a (List.mem_of_mem_take ha))
        fun h => by rw [h]; rfl).bind fun hQ vs => ?_) ((and_true _).to_iff.trans ?_)
      · exact Decides.emitOperator hids hc hst (hacc.mpr ⟨rfl, hQ⟩) op inBranch vs
      · exact ⟨fun h => hacc.mpr ⟨rfl, h⟩, fun h => (hacc.mp h).2⟩
  intro cg hI
  by_cases hhit : 0 < c.nodeId ∧ cg.statefulEmitCache c.nodeId ≠ none
  · obtain ⟨v, hv⟩ := Option.ne_none_iff_exists'.mp hhit.2
    obtain ⟨r, hr, hcache, hs⟩ := Unfailing.reuse v cg
    rw [emitCall_hit hhit.1 hv]
    exact .inl ⟨hI.cache c hc hhit.2 hhit.1, r, hr, hcache ▸ hI.cache, hs ▸ hI.signals⟩
  · rw [emitCall_miss fun hpos => not_not.mp fun hne => hhit ⟨hpos, hne⟩]
    exact hdispatch cg hI

/-- **An expression** goes through exactly when it is accepted. -/
theorem emitExpr (hids : ConsistentIds cs) (hsym : ∀ c ∈ cs, c.SymbolOk env.symbols)
    (e : Expr D) : ∀ inBranch : Bool, (∀ c ∈ e.calls, c ∈ cs) →
    Decides (EmittedSoFar env cs signals) (JitSignalEngine.emitExpr env inBranch e)
      (e.accepted env signals = true) := by
  induction e using Expr.induct with
  | numberLiteral loc v =>
    exact fun inBranch _ => (of_unfailing (.pure _)).congr ⟨fun _ => rfl, fun _ => trivial⟩
  | identifierExpr loc n =>
    intro inBranch _ cg hI
    rcases h : cg.signalValues n with _ | v
    · refine .inr ⟨fun hn => (hI.signals n).mpr hn h,
        "Unresolved identifier in JIT expression: " ++ n, ?_⟩
      simp only [JitSignalEngine.emitExpr, h]
    · obtain ⟨r, hr, hcache, hs⟩ := Unfailing.reuse v cg
      refine .inl ⟨(hI.signals n).mp (by rw [h]; exact Option.some_ne_none v), r, ?_,
        hcache ▸ hI.cache, hs ▸ hI.signals⟩
      simp only [JitSignalEngine.emitExpr, h, hr]
  | parameterExpr loc n i =>
    intro inBranch _
    rw [JitSignalEngine.emitExpr, Expr.accepted, decide_eq_true_eq]
    by_cases hi : i < 0
    · rw [if_pos hi]
      exact (Decides.throw _).congr ⟨False.elim, fun h => absurd h (Int.not_le.mpr hi)⟩
    · rw [if_neg hi]
      exact (of_unfailing (.build _)).congr ⟨fun _ => Int.not_lt.mp hi, fun _ => trivial⟩
  | unaryOp loc k e ih =>
    intro inBranch h
    rw [JitSignalEngine.emitExpr]
    refine congr ((ih inBranch h).bind fun _ v => of_unfailing ?_) (and_true _).to_iff
    cases k with
    | plus => exact .pure _
    | minus => exact .build _
  | binaryOp loc k l r ihl ihr =>
    intro inBranch h
    rw [JitSignalEngine.emitExpr, Expr.accepted, Bool.and_eq_true]
    refine congr ((ihl inBranch fun c hc => h c (List.mem_append_left _ hc)).bind fun _ v =>
      (ihr inBranch fun c hc => h c (List.mem_append_right _ hc)).bind fun _ w =>
        of_unfailing (.build _)) ?_
    rw [and_true]
  | conditional loc c t e ihc iht ihe =>
    intro inBranch h
    have ht := iht true fun d hd => h d (List.mem_append_left _ (List.mem_append_right _ hd))
    have he := ihe true fun d hd => h d (List.mem_append_right _ hd)
    rw [JitSignalEngine.emitExpr, Expr.accepted, Bool.and_eq_true, Bool.and_eq_true]
    refine Decides.bind (ihc inBranch fun d hd =>
      h d (List.mem_append_left _ (List.mem_append_left _ hd))) fun _ cond => ?_
    split
    · refine congr (ht.bind fun _ v => he.bind fun _ w => of_unfailing (.build _)) ?_
      rw [and_true]
    · exact ht.branch he fun cg n hI => ⟨hI.cache, hI.signals⟩
  | functionCall loc n args nid sid ih =>
    intro inBranch h
    rw [JitSignalEngine.emitExpr, Expr.accepted_functionCall]
    exact Decides.emitCall hids (h ⟨n, args, nid, sid⟩ List.mem_cons_self)
      (hsym _ (h ⟨n, args, nid, sid⟩ List.mem_cons_self)) inBranch fun a ha =>
        ih a ha inBranch fun c hc =>
          h c (List.mem_cons_of_mem _ (Expr.mem_callsArgs.mpr ⟨a, ha, hc⟩))

end Decides

/-! ## Programs -/

omit [Fp D] in
/-- The tickers of a body are the first arguments of its market calls. -/
theorem mem_collectTickerSymbols {t : String} {e : Expr D} : t ∈ collectTickerSymbols e ↔
    ∃ c ∈ e.calls, isTickerFirstArgFn c.name = true ∧ ∃ a as, c.args = a :: as ∧
      a.asIdentifier = some t := by
  induction e using Expr.induct with
  | numberLiteral | identifierExpr | parameterExpr =>
    constructor
    · rintro ⟨⟩
    · rintro ⟨_, ⟨⟩, _⟩
  | unaryOp loc k e ih => exact ih
  | binaryOp loc k l r ihl ihr =>
    rw [collectTickerSymbols, List.mem_append, ihl, ihr]
    simp only [Expr.calls, List.mem_append, or_and_right, exists_or]
  | conditional loc c t e ihc iht ihe =>
    rw [collectTickerSymbols, List.mem_append, List.mem_append, ihc, iht, ihe]
    simp only [Expr.calls, List.mem_append, or_and_right, exists_or]
  | functionCall loc n args nid sid ih =>
    have hargs : ∀ as : List (Expr D), t ∈ collectTickerArgs as ↔
        ∃ a ∈ as, t ∈ collectTickerSymbols a := by
      intro as
      induction as with
      | nil =>
        constructor
        · rintro ⟨⟩
        · rintro ⟨_, ⟨⟩, _⟩
      | cons a as iha =>
        rw [collectTickerArgs, List.mem_append, iha, List.exists_mem_cons_iff]
    rw [collectTickerSymbols, List.mem_append, hargs, Expr.calls, List.exists_mem_cons_iff]
    refine or_congr ?_ ?_
    · split
      · rename_i hf
        rw [Option.mem_toList]
        cases args with
        | nil =>
          constructor
          · rintro ⟨⟩
          · rintro ⟨_, _, _, ⟨⟩, _⟩
        | cons a as =>
          refine ⟨fun h => ⟨hf, a, as, rfl, h⟩, ?_⟩
          rintro ⟨-, b, bs, hargs, h⟩
          cases hargs
          exact h
      · rename_i hf
        exact ⟨fun h => absurd h List.not_mem_nil, fun h => absurd h.1 hf⟩
    · constructor
      · rintro ⟨a, ha, h⟩
        obtain ⟨c, hc, hrest⟩ := (ih a ha).mp h
        exact ⟨c, Expr.mem_callsArgs.mpr ⟨a, ha, hc⟩, hrest⟩
      · rintro ⟨c, hc, hrest⟩
        obtain ⟨a, ha, hc⟩ := Expr.mem_callsArgs.mp hc
        exact ⟨a, ha, (ih a ha).mpr ⟨c, hc, hrest⟩⟩

/-- Each body is accepted when the signals before it have values. -/
def acceptedSignals (env : EmitEnv) : List (SignalDef D) → (String → Bool) → Prop
  | [], _ => True
  | s :: rest, signals => s.body.accepted env signals = true ∧
    acceptedSignals env rest fun n => n == s.name || signals n

/-- The signal loop. -/
theorem emitSignals_succeeds {cs : List (Call D)} (hids : ConsistentIds cs)
    (hsym : ∀ c ∈ cs, c.SymbolOk env.symbols) {signals : List (SignalDef D)}
    (hcs : ∀ s ∈ signals, ∀ c ∈ s.body.calls, c ∈ cs) (i : Nat) {names : String → Bool}
    {cg : CodegenContext D} (hcg : EmittedSoFar env cs names cg) :
    (∃ r, emitSignals env signals i cg = .ok r) ↔ acceptedSignals env signals names := by
  induction signals generalizing i names cg with
  | nil => exact ⟨fun _ => trivial, fun _ => ⟨_, rfl⟩⟩
  | cons s rest ih =>
    rw [emitSignals, acceptedSignals]
    have hbody := Decides.emitExpr hids hsym s.body false (hcs s List.mem_cons_self) cg hcg
    rcases hbody with ⟨hacc, r, hr, hI⟩ | ⟨hacc, e, he⟩
    · have hset : EmittedSoFar env cs (fun n => n == s.name || names n)
          (r.cg.setSignalValue s.name r.value) := by
        have hmono : ∀ n, names n = true → (n == s.name || names n) = true := fun n hn => by
          rw [hn, Bool.or_true]
        refine ⟨fun c hc hne hpos => ?_, fun n => ?_⟩
        · exact (hI.cache c hc hne hpos).imp_right fun h a ha => Expr.accepted_mono hmono a (h a ha)
        · rw [CodegenContext.setSignalValue]
          dsimp only
          by_cases hn : n = s.name
          · rw [if_pos hn]
            simp [hn]
          · rw [if_neg hn, hI.signals n]
            simp [hn]
      rw [← ih (fun s hs => hcs s (List.mem_cons_of_mem _ hs)) (i + 1) hset]
      constructor
      · rintro ⟨r', hr'⟩
        simp only [EmitM.bind_ok, EmitM.modify_ok, EmitM.emit_ok] at hr'
        obtain ⟨r₁, _, hr₁, ⟨_, _, rfl, ⟨_, r₄, rfl, hr₄, -⟩, -⟩, -⟩ := hr'
        rw [hr] at hr₁
        cases hr₁
        exact ⟨hacc, r₄, hr₄⟩
      · rintro ⟨-, r', hr'⟩
        exact ⟨_, EmitM.bind_ok.mpr ⟨r, _, hr, EmitM.bind_ok.mpr ⟨_, _, rfl,
          EmitM.bind_ok.mpr ⟨_, r', rfl, hr', rfl⟩, rfl⟩, rfl⟩⟩
    · constructor
      · rintro ⟨r', hr'⟩
        obtain ⟨r₁, _, hr₁, -⟩ := EmitM.bind_ok.mp hr'
        rw [he] at hr₁
        cases hr₁
      · exact fun h => absurd h.1 hacc

omit [Fp D] in
/-- The preloads find every ticker, or throw. -/
theorem prewarmProgramMarketLoads_succeeds (tickers : List String) (cg : CodegenContext D) :
    ((∀ t ∈ tickers, ∃ id, env.symbols.lookupId t = .ok id) ∧
      ∃ r, prewarmProgramMarketLoads env tickers cg = .ok r ∧
        r.cg.statefulEmitCache = cg.statefulEmitCache ∧ r.cg.signalValues = cg.signalValues) ∨
    ((¬ ∀ t ∈ tickers, ∃ id, env.symbols.lookupId t = .ok id) ∧
      ∃ e, prewarmProgramMarketLoads env tickers cg = .error e) := by
  induction tickers generalizing cg with
  | nil => exact .inl ⟨fun _ h => absurd h List.not_mem_nil, _, rfl, rfl, rfl⟩
  | cons t rest ih =>
    rw [prewarmProgramMarketLoads, List.forall_mem_cons]
    rcases hlook : env.symbols.lookupId t with e | id
    · refine .inr ⟨?_, e, rfl⟩
      rintro ⟨⟨id, hid⟩, -⟩
      cases hid
    · obtain ⟨r₁, hr₁, hc₁, hs₁⟩ := Unfailing.emitMarketFieldLoad (D := D) id .bid cg
      obtain ⟨r₂, hr₂, hc₂, hs₂⟩ := Unfailing.emitMarketFieldLoad (D := D) id .ask r₁.cg
      rw [EmitM.lift_ok_eq, EmitM.pure_bind]
      rcases ih r₂.cg with ⟨hall, r₃, hr₃, hc₃, hs₃⟩ | ⟨hall, e, he⟩
      · exact .inl ⟨⟨⟨id, rfl⟩, hall⟩, _, EmitM.bind_ok.mpr ⟨r₁, _, hr₁,
          EmitM.bind_ok.mpr ⟨r₂, r₃, hr₂, hr₃, rfl⟩, rfl⟩, hc₃.trans (hc₂.trans hc₁),
          hs₃.trans (hs₂.trans hs₁)⟩
      · exact .inr ⟨fun h => hall h.2, e, EmitM.bind_error_right hr₁
          (EmitM.bind_error_right hr₂ he)⟩

/-- **When the emission of a program succeeds**: its tickers are registered, and each body
is accepted. -/
theorem emitProgram_succeeds {signals : List (SignalDef D)}
    (hids : ConsistentIds (signals.flatMap fun s => s.body.calls))
    (hsym : ∀ c ∈ signals.flatMap fun s => s.body.calls, c.SymbolOk env.symbols) :
    (∃ code, emitProgram env signals = .ok code) ↔
      (∀ t ∈ signals.flatMap fun s => collectTickerSymbols s.body,
        ∃ id, env.symbols.lookupId t = .ok id) ∧
      acceptedSignals env signals fun _ => false := by
  have hmem : ∀ s ∈ signals, ∀ c ∈ s.body.calls, c ∈ signals.flatMap fun s => s.body.calls :=
    fun s hs c hc => List.mem_flatMap.mpr ⟨s, hs, hc⟩
  have hok : (∃ code, emitProgram env signals = .ok code) ↔
      ∃ r, (prewarmProgramMarketLoads env (signals.flatMap fun s => collectTickerSymbols s.body)
        >>= fun _ => emitSignals env signals 0) .init = .ok r := by
    unfold emitProgram
    constructor
    · rintro ⟨code, hcode⟩
      split at hcode
      · cases hcode
      · rename_i r hr
        exact ⟨r, hr⟩
    · rintro ⟨r, hr⟩
      exact ⟨_, by rw [hr]⟩
  rw [hok]
  rcases @prewarmProgramMarketLoads_succeeds D env
      (signals.flatMap fun s => collectTickerSymbols s.body) .init with
    ⟨hall, r, hr, hc, hs⟩ | ⟨hall, e, he⟩
  · have hstart : EmittedSoFar env (signals.flatMap fun s => s.body.calls) (fun _ => false) r.cg := by
      refine ⟨fun c _ hne => absurd ?_ hne, fun n => ?_⟩
      · rw [hc]
        rfl
      · rw [hs]
        exact ⟨fun h => absurd rfl h, fun h => absurd h Bool.false_ne_true⟩
    rw [← emitSignals_succeeds hids hsym hmem 0 hstart]
    constructor
    · rintro ⟨r', hr'⟩
      obtain ⟨r₁, r₂, hr₁, hr₂, -⟩ := EmitM.bind_ok.mp hr'
      rw [hr] at hr₁
      cases hr₁
      exact ⟨hall, r₂, hr₂⟩
    · rintro ⟨-, r₂, hr₂⟩
      exact ⟨_, EmitM.bind_ok.mpr ⟨r, r₂, hr, hr₂, rfl⟩⟩
  · constructor
    · rintro ⟨r', hr'⟩
      obtain ⟨r₁, _, hr₁, -⟩ := EmitM.bind_ok.mp hr'
      rw [he] at hr₁
      cases hr₁
    · exact fun h => absurd h.1 hall

/-- Emission went through. -/
theorem exists_emitted {env : EmitEnv} {signals : List (SignalDef D)}
    (h : (emitProgram env signals).toBool = true) : ∃ code, emitProgram env signals = .ok code := by
  rcases he : emitProgram env signals with e | code
  · rw [he] at h
    cases h
  · exact ⟨code, rfl⟩

end JitSignalEngine
