import JitSignalEngine.Interpreter
import JitSignalEngine.Dataflow

/-!
# What a call amounts to

The `Eval*` members of the interpreter interleave static checks (argument counts,
period literals, tickers) with evaluation. `decodeCall` makes the static part one
function: given the argument expressions it says whether the call can be evaluated
at all, and if so as what. The dispatch of the interpreter is then the same in every
case (`dispatch_stateful` and its companions): evaluate the operands, which are the
first `arity` arguments, and step the operator.

* `StatefulOp` — an operator with the data its step depends on besides the operands.
* `decodeCall` — the shape of a call.
* `Interpreter.operatorStep` — the interpreter's operators under one signature, and
  `interpSemantics`, the meaning they give to dataflow terms.
-/

namespace JitSignalEngine

open Fp Widen Dataflow

variable {D L : Type}

/-! ## Shapes -/

/-- How a stateful call is implemented. The interpreter knows one way; the emitter
chooses among several. -/
inductive Impl where
  /-- a call of the runtime -/
  | runtime
  /-- inline IR on the lowered state -/
  | lowered
  /-- `jit_rt_sma_prepare` and a vector sum over the buffer -/
  | avx2
deriving DecidableEq, Repr

/-- A stateful operator as a call site fixes it. -/
structure StatefulOp (D : Type) where
  /-- the operator -/
  fn : StatefulFn
  /-- the literal its window comes from, for the operators that have one -/
  literal : Option D
  /-- the instrument, for `vwap` -/
  symbol : Nat
  /-- the implementation -/
  impl : Impl
deriving DecidableEq

/-- What a call evaluates as. -/
inductive CallShape (D : Type) where
  /-- some static check fails, so that evaluating the call throws -/
  | invalid
  /-- a market read -/
  | market (fn : MarketFn) (symbol : Nat)
  /-- a function of its argument -/
  | math (fn : MathFn)
  /-- a stateful operator -/
  | stateful (op : StatefulOp D)

/-- The number of leading arguments a stateful operator evaluates. The others are the
window and, for `vwap`, the ticker. -/
def StatefulFn.arity : StatefulFn → Nat
  | .ema | .sma | .rollingStd | .zscore | .rollingMin | .rollingMax | .lag => 1
  | .emaAlpha | .crossAbove | .crossBelow | .rollingCorr | .rollingBeta => 2
  | .kalman1d => 3
  | .vwap => 0

/-- The smallest window an operator accepts. -/
def StatefulFn.minPeriod : StatefulFn → Nat
  | .rollingStd | .zscore => 2
  | _ => 1

section Decode

variable [Fp D]

/-- The period a literal stands for, when it is a positive integer. -/
def literalPeriod (v : D) : Option Nat :=
  if toInt v ≤ 0 || lt eqTolerance (fabs (sub v (ofInt (toInt v)))) then none
  else some (toInt v).toNat

/-- The window argument of an operator: a literal that is a period it accepts. -/
def decodeWindow (fn : StatefulFn) (window : Expr D) : Option D :=
  match window.asNumber with
  | none => none
  | some v =>
    match literalPeriod v with
    | none => none
    | some period => if period < fn.minPeriod then none else some v

/-- The number of steps a window reaches back. -/
def StatefulOp.period (op : StatefulOp D) : Nat :=
  match op.literal with
  | none => 0
  | some v => (toInt v).toNat

/-- The shape of a stateful call. -/
def decodeStateful (impl : Impl) (symbols : SymbolTable) (fn : StatefulFn)
    (args : List (Expr D)) (symbolId : Int) : CallShape D :=
  match fn, args with
  | .emaAlpha, [_, _] | .crossAbove, [_, _] | .crossBelow, [_, _] | .kalman1d, [_, _, _] =>
    .stateful ⟨fn, none, 0, impl⟩
  | .vwap, [ticker, window] =>
    match decodeWindow fn window,
        Interpreter.resolveSymbolSlot symbols "vwap" [ticker, window] symbolId with
    | some v, .ok symbol => .stateful ⟨fn, some v, symbol, impl⟩
    | _, _ => .invalid
  | .rollingCorr, [_, _, window] | .rollingBeta, [_, _, window]
  | .ema, [_, window] | .sma, [_, window] | .rollingStd, [_, window] | .zscore, [_, window]
  | .rollingMin, [_, window] | .rollingMax, [_, window] | .lag, [_, window] =>
    match decodeWindow fn window with
    | some v => .stateful ⟨fn, some v, 0, impl⟩
    | none => .invalid
  | _, _ => .invalid

/-- The shape of a call. `impl` chooses the implementation of a stateful operator, given
the literals among its arguments. -/
def decodeCall (impl : StatefulFn → List (Option D) → Impl) (symbols : SymbolTable)
    (name : String) (args : List (Expr D)) (symbolId : Int) : CallShape D :=
  match Builtin.ofName name with
  | none => .invalid
  | some (.market fn) =>
    match args with
    | [ticker] =>
      match Interpreter.resolveSymbolSlot symbols (Interpreter.marketFnName fn) [ticker]
          symbolId with
      | .ok symbol => .market fn symbol
      | .error _ => .invalid
    | _ => .invalid
  | some (.math fn) =>
    match args with
    | [_] => .math fn
    | _ => .invalid
  | some (.stateful fn) =>
    decodeStateful (impl fn (args.map Expr.asNumber)) symbols fn args symbolId

end Decode

/-! ## The interpreter's operators under one signature -/

namespace Interpreter

variable [Fp D] [Fp L] [Widen D L]

/-- The update of an operator, argument checks of `ema_alpha` and `kalman1d`
included. -/
def operatorStep (op : StatefulOp D) (market : MarketState D) (vs : List D)
    (slot : NodeSlot D L) : Except String (D × NodeSlot D L) :=
  match op.fn, vs with
  | .ema, [x] => emaStep op.period x slot
  | .emaAlpha, [x, alpha] =>
    if lt alpha (ofNat 0) || lt (ofNat 1) alpha then
      .error "ema_alpha() requires alpha in [0, 1]"
    else emaAlphaStep x alpha slot
  | .sma, [x] => smaStep op.period x slot
  | .rollingStd, [x] => rollingStdStep op.period x slot
  | .zscore, [x] => zscoreStep op.period x slot
  | .vwap, [] => vwapStep (market op.symbol) op.period slot
  | .lag, [x] => lagStep op.period x slot
  | .crossAbove, [a, b] => crossAboveStep a b slot
  | .crossBelow, [a, b] => crossBelowStep a b slot
  | .rollingMin, [x] => rollingMinStep op.period x slot
  | .rollingMax, [x] => rollingMaxStep op.period x slot
  | .rollingCorr, [x, y] => rollingCorrStep op.period x y slot
  | .rollingBeta, [x, y] => rollingBetaStep op.period x y slot
  | .kalman1d, [x, q, r] =>
    if lt q (ofNat 0) || le r (ofNat 0) then
      .error "kalman1d() requires q >= 0 and r > 0"
    else kalmanStep x q r slot
  | _, _ => .error "arity"

/-- Evaluate operands from left to right. -/
def evalAll : List (EvalM D L D) → EvalM D L (List D)
  | [] => pure []
  | m :: ms => do
    let v ← m
    let vs ← evalAll ms
    pure (v :: vs)

/-- Evaluate the operands of an operator and step it. `kalman1d` evaluates its first
operand last, and not at all when the other two fail their check. -/
def evalOperator (op : StatefulOp D) (market : MarketState D) (nodeId : Int)
    (operands : List (EvalM D L D)) : EvalM D L D :=
  match op.fn, operands with
  | .kalman1d, [measurement, process, noise] => do
    let q ← process
    let r ← noise
    if lt q (ofNat 0) || le r (ofNat 0) then
      EvalM.throw "kalman1d() requires q >= 0 and r > 0"
    else do
      let x ← measurement
      updateSlot .kalman1d nodeId (kalmanStep x q r)
  | fn, operands => do
    let vs ← evalAll operands
    updateSlot fn nodeId (operatorStep op market vs)

/-! ### The dispatch, by shape -/

/-- `ParsePositiveIntegerPeriod` accepts exactly the literals that stand for a period. -/
theorem parsePositiveIntegerPeriod_cases (window : Expr D) (label : String) :
    (∃ v, window.asNumber = some v ∧ literalPeriod v = some (toInt v).toNat ∧
      0 < (toInt v).toNat ∧ parsePositiveIntegerPeriod window label = .ok (toInt v).toNat) ∨
    ((∀ v, window.asNumber = some v → literalPeriod v = none) ∧
      ∃ e, parsePositiveIntegerPeriod window label = .error e) := by
  unfold parsePositiveIntegerPeriod literalPeriod
  rcases window.asNumber with _ | v
  · exact .inr ⟨fun _ h => (nomatch h), _, rfl⟩
  · by_cases h : (decide (toInt v ≤ 0) || lt eqTolerance (fabs (sub v (ofInt (toInt v))))) = true
    · refine .inr ⟨fun w hw => ?_, _, if_pos h⟩
      rw [← Option.some.inj hw]
      exact if_pos h
    · refine .inl ⟨v, rfl, if_neg h, ?_, if_neg h⟩
      rw [Bool.or_eq_true, not_or, decide_eq_true_eq] at h
      omega

omit [Fp D] [Fp L] [Widen D L] in
theorem requireNodeId_ok {call : CallView D L} (hid : ¬ call.nodeId < 0) (label : String) :
    requireNodeId call label = pure () := if_neg hid

omit [Fp L] [Widen D L] in
/-- A windowed operator evaluates its series and steps, or throws outright. -/
theorem evalWindowed_cases (fn : StatefulFn) (label usage : String) (tooShort : Option String)
    (step : Nat → D → NodeSlot D L → Except String (D × NodeSlot D L)) (call : CallView D L)
    (hid : ¬ call.nodeId < 0) (hmin : fn.minPeriod = if tooShort.isSome then 2 else 1) :
    (∃ series window v, call.args = [series, window] ∧ decodeWindow fn window.expr = some v ∧
      evalWindowed fn label usage tooShort step call =
        series.eval >>= fun x => updateSlot fn call.nodeId (step (toInt v).toNat x)) ∨
    ((∀ series window, call.args = [series, window] → decodeWindow fn window.expr = none) ∧
      ∃ e, evalWindowed fn label usage tooShort step call = EvalM.throw e) := by
  rcases hargs : call.args with _ | ⟨series, _ | ⟨window, _ | ⟨extra, rest⟩⟩⟩
  · exact .inr ⟨fun _ _ h => (nomatch h), usage, by rw [evalWindowed, hargs]⟩
  · exact .inr ⟨fun _ _ h => (nomatch h), usage, by rw [evalWindowed, hargs]⟩
  · rcases parsePositiveIntegerPeriod_cases window.expr label with
      ⟨v, hv, hlit, hpos, hparse⟩ | ⟨hnone, e, hparse⟩
    · by_cases hshort : (toInt v).toNat < fn.minPeriod
      · -- only the two operators with a minimum of two get here
        have hsome : ∃ e, tooShort = some e := by
          cases tooShort with
          | none => rw [if_neg (by decide)] at hmin; omega
          | some e => exact ⟨e, rfl⟩
        obtain ⟨e, rfl⟩ := hsome
        refine .inr ⟨?_, e, ?_⟩
        · intro _ _ h
          cases h
          simp only [decodeWindow, hv, hlit, if_pos hshort]
        · rw [if_pos (by rfl)] at hmin
          rw [evalWindowed, hargs]
          simp only [hparse, EvalM.lift_ok, EvalM.pure_bind, ← hmin, if_pos hshort,
            EvalM.throw_bind]
      · refine .inl ⟨series, window, v, rfl, ?_, ?_⟩
        · simp only [decodeWindow, hv, hlit, if_neg hshort]
        · rw [evalWindowed, hargs]
          cases tooShort with
          | none =>
            simp only [hparse, EvalM.lift_ok, EvalM.pure_bind, requireNodeId_ok hid]
          | some e =>
            rw [if_pos (by rfl)] at hmin
            simp only [hparse, EvalM.lift_ok, EvalM.pure_bind, ← hmin, if_neg hshort,
              requireNodeId_ok hid]
    · refine .inr ⟨?_, e, ?_⟩
      · intro _ _ h
        cases h
        unfold decodeWindow
        rcases hv : window.expr.asNumber with _ | v
        · rfl
        · simp only [hnone v hv]
      · rw [evalWindowed, hargs]
        simp only [hparse, EvalM.lift_error, EvalM.throw_bind]
  · exact .inr ⟨fun _ _ h => (nomatch h), usage, by rw [evalWindowed, hargs]⟩

omit [Fp L] [Widen D L] in
/-- A paired operator evaluates its two series and steps, or throws outright. -/
theorem evalPair_cases (fn : StatefulFn) (label usage : String)
    (step : Nat → D → D → NodeSlot D L → Except String (D × NodeSlot D L))
    (call : CallView D L) (hid : ¬ call.nodeId < 0) (hmin : fn.minPeriod = 1) :
    (∃ first second window v, call.args = [first, second, window] ∧
      decodeWindow fn window.expr = some v ∧
      evalPair fn label usage step call = first.eval >>= fun x => second.eval >>= fun y =>
        updateSlot fn call.nodeId (step (toInt v).toNat x y)) ∨
    ((∀ first second window, call.args = [first, second, window] →
        decodeWindow fn window.expr = none) ∧
      ∃ e, evalPair fn label usage step call = EvalM.throw e) := by
  rcases hargs : call.args with _ | ⟨first, _ | ⟨second, _ | ⟨window, _ | ⟨extra, rest⟩⟩⟩⟩
  · exact .inr ⟨fun _ _ _ h => (nomatch h), usage, by rw [evalPair, hargs]⟩
  · exact .inr ⟨fun _ _ _ h => (nomatch h), usage, by rw [evalPair, hargs]⟩
  · exact .inr ⟨fun _ _ _ h => (nomatch h), usage, by rw [evalPair, hargs]⟩
  · rcases parsePositiveIntegerPeriod_cases window.expr label with
      ⟨v, hv, hlit, hpos, hparse⟩ | ⟨hnone, e, hparse⟩
    · refine .inl ⟨first, second, window, v, rfl, ?_, ?_⟩
      · simp only [decodeWindow, hv, hlit, hmin, if_neg (Nat.not_lt.mpr hpos)]
      · rw [evalPair, hargs]
        simp only [hparse, EvalM.lift_ok, EvalM.pure_bind, requireNodeId_ok hid]
    · refine .inr ⟨?_, e, ?_⟩
      · intro _ _ _ h
        cases h
        unfold decodeWindow
        rcases hv : window.expr.asNumber with _ | v
        · rfl
        · simp only [hnone v hv]
      · rw [evalPair, hargs]
        simp only [hparse, EvalM.lift_error, EvalM.throw_bind]
  · exact .inr ⟨fun _ _ _ h => (nomatch h), usage, by rw [evalPair, hargs]⟩

/-- What `evalStateful` must do for a call of the shape `shape`. -/
def Realizes (market : MarketState D) (fn : StatefulFn) (call : CallView D L)
    (m : EvalM D L D) (shape : CallShape D) : Prop :=
  (∃ op, shape = .stateful op ∧ op.fn = fn ∧
    m = evalOperator op market call.nodeId ((call.args.take fn.arity).map CallArg.eval)) ∨
  (shape = .invalid ∧ ∃ e, m = EvalM.throw e)

omit [Fp D] [Fp L] [Widen D L] in
/-- `evalAll` on one operand. -/
theorem evalAll_one (m : EvalM D L D) {β : Type} (f : List D → EvalM D L β) :
    (evalAll [m] >>= f) = m >>= fun x => f [x] := by
  simp only [evalAll, EvalM.pure_bind, EvalM.bind_assoc]

omit [Fp D] [Fp L] [Widen D L] in
/-- `evalAll` on two operands. -/
theorem evalAll_two (m n : EvalM D L D) {β : Type} (f : List D → EvalM D L β) :
    (evalAll [m, n] >>= f) = m >>= fun x => n >>= fun y => f [x, y] := by
  simp only [evalAll, EvalM.pure_bind, EvalM.bind_assoc]

/-- The shape of the operators of one operand: a series and a window. -/
theorem decodeStateful_windowed (impl : Impl) (symbols : SymbolTable) {fn : StatefulFn}
    (h : fn.arity = 1) (args : List (Expr D)) (symbolId : Int) :
    decodeStateful impl symbols fn args symbolId =
      match args with
      | [_, window] =>
        match decodeWindow fn window with
        | some v => .stateful ⟨fn, some v, 0, impl⟩
        | none => .invalid
      | _ => .invalid := by
  rcases args with _ | ⟨_, _ | ⟨_, _ | ⟨_, _⟩⟩⟩ <;> cases fn <;> first | rfl | cases h

/-- The seven windowed operators. -/
theorem realizes_windowed (market : MarketState D) (symbols : SymbolTable) (fn : StatefulFn)
    (label usage : String) (tooShort : Option String)
    (step : Nat → D → NodeSlot D L → Except String (D × NodeSlot D L)) (call : CallView D L)
    (hid : ¬ call.nodeId < 0) (harity : fn.arity = 1)
    (hmin : fn.minPeriod = if tooShort.isSome then 2 else 1)
    (hstep : ∀ v x (slot : NodeSlot D L),
      operatorStep ⟨fn, some v, 0, .runtime⟩ market [x] slot = step (toInt v).toNat x slot) :
    Realizes market fn call (evalWindowed fn label usage tooShort step call)
      (decodeStateful .runtime symbols fn (call.args.map CallArg.expr) call.symbolId) := by
  rw [decodeStateful_windowed .runtime symbols harity]
  rcases evalWindowed_cases fn label usage tooShort step call hid hmin with
    ⟨series, window, v, hargs, hwin, heq⟩ | ⟨hnone, e, heq⟩
  · refine .inl ⟨⟨fn, some v, 0, .runtime⟩, ?_, rfl, ?_⟩
    · rw [hargs]
      simp only [List.map_cons, List.map_nil, hwin]
    · have hop : evalOperator ⟨fn, some v, 0, .runtime⟩ market call.nodeId [series.eval] =
          evalAll [series.eval] >>= fun vs =>
            updateSlot fn call.nodeId (operatorStep ⟨fn, some v, 0, .runtime⟩ market vs) := by
        cases fn <;> rfl
      rw [heq, hargs, harity, List.take_succ_cons, List.take_zero, List.map_cons, List.map_nil,
        hop, evalAll_one]
      congr
      funext x
      congr
      funext slot
      exact (hstep v x slot).symm
  · refine .inr ⟨?_, e, heq⟩
    rcases hargs : call.args with _ | ⟨series, _ | ⟨window, _ | ⟨extra, rest⟩⟩⟩
    · rfl
    · rfl
    · simp only [List.map_cons, List.map_nil, hnone series window hargs]
    · rfl

/-- The shape of the operators of two operands and a window. -/
theorem decodeStateful_pair (impl : Impl) (symbols : SymbolTable) {fn : StatefulFn}
    (h : fn.periodArg = 2) (args : List (Expr D)) (symbolId : Int) :
    decodeStateful impl symbols fn args symbolId =
      match args with
      | [_, _, window] =>
        match decodeWindow fn window with
        | some v => .stateful ⟨fn, some v, 0, impl⟩
        | none => .invalid
      | _ => .invalid := by
  rcases args with _ | ⟨_, _ | ⟨_, _ | ⟨_, _ | ⟨_, _⟩⟩⟩⟩ <;> cases fn <;> first | rfl | cases h

/-- Two operands are evaluated from left to right, whatever the operator. -/
theorem evalOperator_two (op : StatefulOp D) (market : MarketState D) (nodeId : Int)
    (m n : EvalM D L D) :
    evalOperator op market nodeId [m, n] = m >>= fun x => n >>= fun y =>
      updateSlot op.fn nodeId (operatorStep op market [x, y]) := by
  rw [← evalAll_two m n fun vs => updateSlot op.fn nodeId (operatorStep op market vs)]
  obtain ⟨fn, literal, symbol, impl⟩ := op
  cases fn <;> rfl

/-- The two paired operators. -/
theorem realizes_pair (market : MarketState D) (symbols : SymbolTable) (fn : StatefulFn)
    (label usage : String)
    (step : Nat → D → D → NodeSlot D L → Except String (D × NodeSlot D L)) (call : CallView D L)
    (hid : ¬ call.nodeId < 0) (hpair : fn.periodArg = 2)
    (hstep : ∀ v x y (slot : NodeSlot D L),
      operatorStep ⟨fn, some v, 0, .runtime⟩ market [x, y] slot
        = step (toInt v).toNat x y slot) :
    Realizes market fn call (evalPair fn label usage step call)
      (decodeStateful .runtime symbols fn (call.args.map CallArg.expr) call.symbolId) := by
  have harity : fn.arity = 2 := by cases fn <;> first | rfl | cases hpair
  have hmin : fn.minPeriod = 1 := by cases fn <;> first | rfl | cases hpair
  rw [decodeStateful_pair .runtime symbols hpair]
  rcases evalPair_cases fn label usage step call hid hmin with
    ⟨first, second, window, v, hargs, hwin, heq⟩ | ⟨hnone, e, heq⟩
  · refine .inl ⟨⟨fn, some v, 0, .runtime⟩, ?_, rfl, ?_⟩
    · rw [hargs]
      simp only [List.map_cons, List.map_nil, hwin]
    · rw [heq, hargs, harity, List.take_succ_cons, List.take_succ_cons, List.take_zero,
        List.map_cons, List.map_cons, List.map_nil, evalOperator_two]
      congr
      funext x
      congr
      funext y
      congr
      funext slot
      exact (hstep v x y slot).symm
  · refine .inr ⟨?_, e, heq⟩
    rcases hargs : call.args with _ | ⟨first, _ | ⟨second, _ | ⟨window, _ | ⟨extra, rest⟩⟩⟩⟩
    · rfl
    · rfl
    · rfl
    · simp only [List.map_cons, List.map_nil, hnone first second window hargs]
    · rfl

/-- The two crossing operators. -/
theorem realizes_cross (market : MarketState D) (symbols : SymbolTable) (fn : StatefulFn)
    (label : String) (step : D → D → NodeSlot D L → Except String (D × NodeSlot D L))
    (call : CallView D L) (hid : ¬ call.nodeId < 0)
    (hcross : fn = .crossAbove ∨ fn = .crossBelow)
    (hstep : ∀ a b (slot : NodeSlot D L),
      operatorStep ⟨fn, none, 0, .runtime⟩ market [a, b] slot = step a b slot) :
    Realizes market fn call (evalCross fn label step call)
      (decodeStateful .runtime symbols fn (call.args.map CallArg.expr) call.symbolId) := by
  have harity : fn.arity = 2 := by rcases hcross with rfl | rfl <;> rfl
  have hdec : decodeStateful .runtime symbols fn (call.args.map CallArg.expr) call.symbolId =
      match call.args.map CallArg.expr with
      | [_, _] => .stateful ⟨fn, none, 0, .runtime⟩
      | _ => .invalid := by
    rcases call.args with _ | ⟨_, _ | ⟨_, _ | ⟨_, _⟩⟩⟩ <;> rcases hcross with rfl | rfl <;> rfl
  rw [hdec]
  rcases hargs : call.args with _ | ⟨first, _ | ⟨second, _ | ⟨extra, rest⟩⟩⟩
  · exact .inr ⟨rfl, _, by rw [evalCross, hargs]⟩
  · exact .inr ⟨rfl, _, by rw [evalCross, hargs]⟩
  · refine .inl ⟨⟨fn, none, 0, .runtime⟩, rfl, rfl, ?_⟩
    rw [evalCross, hargs, harity, List.take_succ_cons, List.take_succ_cons, List.take_zero,
      List.map_cons, List.map_cons, List.map_nil, evalOperator_two]
    simp only [requireNodeId_ok hid, EvalM.pure_bind]
    congr
    funext a
    congr
    funext b
    congr
    funext slot
    exact (hstep a b slot).symm
  · exact .inr ⟨rfl, _, by rw [evalCross, hargs]⟩

/-- `ema_alpha`, whose range check is part of its step. -/
theorem realizes_emaAlpha (market : MarketState D) (symbols : SymbolTable) (call : CallView D L)
    (hid : ¬ call.nodeId < 0) :
    Realizes market .emaAlpha call (evalEmaAlpha call)
      (decodeStateful .runtime symbols .emaAlpha (call.args.map CallArg.expr) call.symbolId) := by
  rcases hargs : call.args with _ | ⟨series, _ | ⟨factor, _ | ⟨extra, rest⟩⟩⟩
  · exact .inr ⟨rfl, _, by rw [evalEmaAlpha, hargs]⟩
  · exact .inr ⟨rfl, _, by rw [evalEmaAlpha, hargs]⟩
  · refine .inl ⟨⟨.emaAlpha, none, 0, .runtime⟩, rfl, rfl, ?_⟩
    rw [evalEmaAlpha, hargs]
    refine Eq.trans ?_ (evalOperator_two ⟨.emaAlpha, none, 0, .runtime⟩ market call.nodeId
      series.eval factor.eval).symm
    dsimp only
    congr
    funext x
    congr
    funext alpha
    by_cases h : (lt alpha (ofNat 0) || lt (ofNat 1) alpha) = true
    · rw [if_pos h]
      funext s
      simp only [updateSlot, operatorStep, if_pos h, EvalM.throw_apply]
    · rw [if_neg h, requireNodeId_ok hid, EvalM.pure_bind]
      congr
      funext slot
      exact (if_neg h).symm
  · exact .inr ⟨rfl, _, by rw [evalEmaAlpha, hargs]⟩

/-- `kalman1d`. -/
theorem realizes_kalman1d (market : MarketState D) (symbols : SymbolTable) (call : CallView D L)
    (hid : ¬ call.nodeId < 0) :
    Realizes market .kalman1d call (evalKalman1d call)
      (decodeStateful .runtime symbols .kalman1d (call.args.map CallArg.expr) call.symbolId) := by
  rcases hargs : call.args with
    _ | ⟨measurement, _ | ⟨process, _ | ⟨noise, _ | ⟨extra, rest⟩⟩⟩⟩
  · exact .inr ⟨rfl, _, by rw [evalKalman1d, hargs]⟩
  · exact .inr ⟨rfl, _, by rw [evalKalman1d, hargs]⟩
  · exact .inr ⟨rfl, _, by rw [evalKalman1d, hargs]⟩
  · refine .inl ⟨⟨.kalman1d, none, 0, .runtime⟩, rfl, rfl, ?_⟩
    rw [evalKalman1d, hargs, requireNodeId_ok hid]
    rfl
  · exact .inr ⟨rfl, _, by rw [evalKalman1d, hargs]⟩

/-- `vwap`, which evaluates no operand. -/
theorem realizes_vwap (market : MarketState D) (symbols : SymbolTable) (call : CallView D L)
    (hid : ¬ call.nodeId < 0) :
    Realizes market .vwap call (evalVwap symbols market call)
      (decodeStateful .runtime symbols .vwap (call.args.map CallArg.expr) call.symbolId) := by
  rcases hargs : call.args with _ | ⟨ticker, _ | ⟨window, _ | ⟨extra, rest⟩⟩⟩
  · exact .inr ⟨rfl, _, by rw [evalVwap, hargs]⟩
  · exact .inr ⟨rfl, _, by rw [evalVwap, hargs]⟩
  · rw [evalVwap, hargs]
    simp only [List.map_cons, List.map_nil, decodeStateful]
    rcases parsePositiveIntegerPeriod_cases window.expr "vwap()" with
      ⟨v, hv, hlit, hpos, hparse⟩ | ⟨hnone, e, hparse⟩
    · have hwin : decodeWindow .vwap window.expr = some v := by
        simp only [decodeWindow, hv, hlit]
        exact if_neg (Nat.not_lt.mpr hpos)
      rcases hsym : resolveSymbolSlot symbols "vwap" [ticker.expr, window.expr] call.symbolId with
        e | symbol
      · refine .inr ⟨by rw [hwin], e, ?_⟩
        simp only [hparse, EvalM.lift_ok, EvalM.lift_error, EvalM.pure_bind, EvalM.throw_bind]
      · refine .inl ⟨⟨.vwap, some v, symbol, .runtime⟩, by rw [hwin], rfl, ?_⟩
        simp only [hparse, EvalM.lift_ok, EvalM.pure_bind, requireNodeId_ok hid]
        rfl
    · have hwin : decodeWindow .vwap window.expr = none := by
        unfold decodeWindow
        rcases hv : window.expr.asNumber with _ | v
        · rfl
        · simp only [hnone v hv]
      refine .inr ⟨by rw [hwin], e, ?_⟩
      simp only [hparse, EvalM.lift_error, EvalM.throw_bind]
  · exact .inr ⟨rfl, _, by rw [evalVwap, hargs]⟩

/-- **The operators by shape**: a stateful call with an id evaluates its operands and
steps, exactly when `decodeStateful` finds it well formed, and throws otherwise. -/
theorem evalStateful_realizes (symbols : SymbolTable) (market : MarketState D)
    (fn : StatefulFn) (call : CallView D L) (hid : ¬ call.nodeId < 0) :
    Realizes market fn call (evalStateful symbols market fn call)
      (decodeStateful .runtime symbols fn (call.args.map CallArg.expr) call.symbolId) := by
  cases fn with
  | ema =>
    exact realizes_windowed market symbols .ema _ _ none emaStep call hid rfl rfl
      fun _ _ _ => rfl
  | sma =>
    exact realizes_windowed market symbols .sma _ _ none smaStep call hid rfl rfl
      fun _ _ _ => rfl
  | rollingStd =>
    exact realizes_windowed market symbols .rollingStd _ _ (some _) rollingStdStep call hid rfl rfl
      fun _ _ _ => rfl
  | zscore =>
    exact realizes_windowed market symbols .zscore _ _ (some _) zscoreStep call hid rfl rfl
      fun _ _ _ => rfl
  | rollingMin =>
    exact realizes_windowed market symbols .rollingMin _ _ none rollingMinStep call hid rfl rfl
      fun _ _ _ => rfl
  | rollingMax =>
    exact realizes_windowed market symbols .rollingMax _ _ none rollingMaxStep call hid rfl rfl
      fun _ _ _ => rfl
  | lag =>
    exact realizes_windowed market symbols .lag _ _ none lagStep call hid rfl rfl
      fun _ _ _ => rfl
  | rollingCorr =>
    exact realizes_pair market symbols .rollingCorr _ _ _ call hid rfl fun _ _ _ _ => rfl
  | rollingBeta =>
    exact realizes_pair market symbols .rollingBeta _ _ _ call hid rfl fun _ _ _ _ => rfl
  | crossAbove =>
    exact realizes_cross market symbols .crossAbove _ _ call hid (.inl rfl) fun _ _ _ => rfl
  | crossBelow =>
    exact realizes_cross market symbols .crossBelow _ _ call hid (.inr rfl) fun _ _ _ => rfl
  | emaAlpha => exact realizes_emaAlpha market symbols call hid
  | kalman1d => exact realizes_kalman1d market symbols call hid
  | vwap => exact realizes_vwap market symbols call hid

/-- What the dispatch of a call must do for a call of the shape `shape`. -/
def Dispatches (market : MarketState D) (call : CallView D L) (m : EvalM D L D) :
    CallShape D → Prop
  | .invalid => ∃ e, m = EvalM.throw e
  | .market fn symbol => m = pure ((market symbol).read fn)
  | .math fn => ∃ arg, call.args = [arg] ∧ m = arg.eval >>= fun v => pure (fn.apply v)
  | .stateful op =>
    m = evalOperator op market call.nodeId ((call.args.take op.fn.arity).map CallArg.eval) >>=
      cacheAndReturn call.nodeId

/-- The implementation an interpreted operator has. -/
def runtimeImpl : StatefulFn → List (Option D) → Impl := fun _ _ => .runtime

/-- **The dispatch by shape.** -/
theorem dispatch_spec (symbols : SymbolTable) (market : MarketState D) (name : String)
    (call : CallView D L) (hid : isStatefulOp name = true → ¬ call.nodeId < 0) :
    Dispatches market call (dispatch symbols market name call)
      (decodeCall runtimeImpl symbols name (call.args.map CallArg.expr) call.symbolId) := by
  unfold dispatch decodeCall
  rcases hname : Builtin.ofName name with _ | fn | fn | fn
  · exact ⟨_, rfl⟩
  · unfold evalMarket
    rcases hargs : call.args with _ | ⟨ticker, _ | ⟨extra, rest⟩⟩
    · exact ⟨_, rfl⟩
    · simp only [List.map_cons, List.map_nil]
      rcases resolveSymbolSlot symbols (marketFnName fn) [ticker.expr] call.symbolId with e | id
      · exact ⟨e, rfl⟩
      · rfl
    · exact ⟨_, rfl⟩
  · unfold evalMath
    rcases hargs : call.args with _ | ⟨arg, _ | ⟨extra, rest⟩⟩
    · exact ⟨_, rfl⟩
    · exact ⟨arg, hargs, rfl⟩
    · exact ⟨_, rfl⟩
  · have hid := hid (by rw [isStatefulOp, hname])
    rcases evalStateful_realizes symbols market fn call hid with
      ⟨op, hshape, rfl, heval⟩ | ⟨hshape, e, heval⟩
    · simp only [runtimeImpl, hshape, heval]
      rfl
    · simp only [runtimeImpl, hshape, heval]
      exact ⟨e, rfl⟩

end Interpreter

end JitSignalEngine
