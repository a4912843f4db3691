import JitSignalEngine.CallShape
import JitSignalEngine.TickRun

/-!
# One operator over a stream

The same operator runs in two places: as an `Eval…` member of the interpreter, with its checks, and
as a `jit_rt_…` function. Both work on the slot of one node id of a context.

* `evalTick` — an `Eval…` member on a context, with an empty cache.
* `slotTick` — a runtime function on the slot of a node id.
* `evalTick_window`, `evalTick_emaAlpha`, `evalTick_vwap` — past the checks a member is the
  update of its slot.
* `runValues_slotTick` — a run on a context is a run on the slot.
-/

namespace JitSignalEngine

open Fp Widen Interpreter

variable {D L : Type}

/-! ## Ticks -/

/-- An `Eval…` member at a tick: what it returns or throws, and the context after it. -/
def evalTick (eval : EvalM D L D) (ctx : SignalContext D (NodeSlot D L)) :
    Except String (D × SignalContext D (NodeSlot D L)) :=
  match eval ⟨ctx, fun _ => none, []⟩ with
  | (.ok v, s) => .ok (v, s.ctx)
  | (.error e, _) => .error e

/-- The update of the slot of a node id. -/
def slotTick (id : Nat) (step : NodeSlot D L → Except String (D × NodeSlot D L))
    (ctx : SignalContext D (NodeSlot D L)) :
    Except String (D × SignalContext D (NodeSlot D L)) :=
  (step (ctx.slots id)).map fun out => (out.1, ctx.setSlot id out.2)

/-- An argument that evaluates to `x`. -/
def CallArg.value (x : D) : CallArg D L := ⟨.numberLiteral {} x, pure x⟩

/-- A call of an operator with the node id `id`. -/
def operandCall (id : Nat) (args : List D) : CallView D L := ⟨args.map CallArg.value, id, -1⟩

/-- A run on a context is a run on the slot. -/
theorem runValues_slotTick {I : Type} (id : Nat)
    (step : I → NodeSlot D L → Except String (D × NodeSlot D L))
    (ctx : SignalContext D (NodeSlot D L)) (is : List I) :
    runValues (fun ctx i => slotTick id (step i) ctx) ctx is =
      runValues (fun slot i => step i slot) (ctx.slots id) is := by
  induction is generalizing ctx with
  | nil => rfl
  | cons i is ih =>
    cases hstep : step i (ctx.slots id) with
    | error e => simp [runValues, runTicks, slotTick, hstep, bind, Except.bind, Except.map]
    | ok out =>
      have htick : slotTick id (step i) ctx = .ok (out.1, ctx.setSlot id out.2) := by
        simp [slotTick, hstep, Except.map]
      rw [runValues_cons htick, runValues_cons hstep, ih, SignalContext.setSlot_slots_self]

variable [Fp D] {id : Nat}

/-! ## The members past their checks -/

omit [Fp D] in
theorem evalTick_updateSlot (fn : StatefulFn) (label : String) (args : List D)
    (step : NodeSlot D L → Except String (D × NodeSlot D L))
    (ctx : SignalContext D (NodeSlot D L)) :
    evalTick (requireNodeId (operandCall id args : CallView D L) label >>= fun _ =>
      updateSlot fn id step) ctx = slotTick id step ctx := by
  have hid : requireNodeId (operandCall id args : CallView D L) label = pure () :=
    if_neg (by simp [operandCall])
  rw [hid, EvalM.pure_bind, evalTick, updateSlot, slotTick, Int.toNat_natCast]
  cases step (ctx.slots id) <;> rfl

/-- The period the prewarm reads is the one the interpreter reads. -/
theorem parsePositiveIntegerPeriod_literal {v : D} {n : Nat} (hn : 0 < n)
    (hperiod : parsePreparedPeriod (some v) = n) (label : String) :
    parsePositiveIntegerPeriod (.numberLiteral {} v) label = .ok n := by
  simp only [parsePreparedPeriod] at hperiod
  simp only [parsePositiveIntegerPeriod, Expr.asNumber]
  split at hperiod
  · omega
  · rw [if_neg ‹_›, hperiod]

/-- The operators of one series and a window, when it is not too short. -/
theorem evalTick_window (fn : StatefulFn) (label usage : String) (tooShort : Option String)
    (step : Nat → D → NodeSlot D L → Except String (D × NodeSlot D L)) {v : D} {n : Nat}
    (hn : 0 < n) (hshort : tooShort = none ∨ 2 ≤ n) (hperiod : parsePreparedPeriod (some v) = n)
    (x : D) (ctx : SignalContext D (NodeSlot D L)) :
    evalTick (evalWindowed fn label usage tooShort step (operandCall id [x, v])) ctx =
      slotTick id (step n x) ctx := by
  rw [← evalTick_updateSlot fn label [x, v]]
  simp only [evalWindowed, operandCall, List.map_cons, List.map_nil, CallArg.value,
    parsePositiveIntegerPeriod_literal hn hperiod, EvalM.lift_ok, EvalM.pure_bind]
  rcases hshort with rfl | htwo
  · rfl
  · have hlong : ¬ n < 2 := by omega
    cases tooShort
    · rfl
    · simp only [if_neg hlong]

/-- Those that take every window. -/
theorem evalTick_windowed (fn : StatefulFn) (label usage : String)
    (step : Nat → D → NodeSlot D L → Except String (D × NodeSlot D L)) {v : D} {n : Nat}
    (hn : 0 < n) (hperiod : parsePreparedPeriod (some v) = n) (x : D)
    (ctx : SignalContext D (NodeSlot D L)) :
    evalTick (evalWindowed fn label usage none step (operandCall id [x, v])) ctx =
      slotTick id (step n x) ctx :=
  evalTick_window fn label usage none step hn (.inl rfl) hperiod x ctx

/-- Those that need one of two at least. -/
theorem evalTick_windowedTwo (fn : StatefulFn) (label usage : String) (tooShort : Option String)
    (step : Nat → D → NodeSlot D L → Except String (D × NodeSlot D L)) {v : D} {n : Nat}
    (hn : 2 ≤ n) (hperiod : parsePreparedPeriod (some v) = n) (x : D)
    (ctx : SignalContext D (NodeSlot D L)) :
    evalTick (evalWindowed fn label usage tooShort step (operandCall id [x, v])) ctx =
      slotTick id (step n x) ctx :=
  evalTick_window fn label usage tooShort step (by omega) (.inr hn) hperiod x ctx

/-- `ema_alpha`, when the factor passes the check. -/
theorem evalTick_emaAlpha {alpha : D} (halpha : (lt alpha (ofNat 0) || lt (ofNat 1) alpha) = false)
    (x : D) (ctx : SignalContext D (NodeSlot D L)) :
    evalTick (evalEmaAlpha (operandCall id [x, alpha])) ctx =
      slotTick id (emaAlphaStep x alpha) ctx := by
  rw [← evalTick_updateSlot .emaAlpha "ema_alpha()" [x, alpha]]
  simp only [evalEmaAlpha, operandCall, List.map_cons, List.map_nil, CallArg.value,
    EvalM.pure_bind, halpha, Bool.false_eq_true, if_false]

/-- `vwap`, of an instrument in the slot `symbol`. -/
theorem evalTick_vwap [Fp L] [Widen D L] (symbols : SymbolTable) (market : MarketState D)
    (symbol : Nat) (ticker : CallArg D L) {v : D} {n : Nat} (hn : 0 < n)
    (hperiod : parsePreparedPeriod (some v) = n) (ctx : SignalContext D (NodeSlot D L)) :
    evalTick (evalVwap symbols market ⟨[ticker, .value v], id, symbol⟩) ctx =
      slotTick id (vwapStep (market symbol) n) ctx := by
  rw [← evalTick_updateSlot .vwap "vwap()" []]
  simp only [evalVwap, operandCall, List.map_nil, CallArg.value,
    parsePositiveIntegerPeriod_literal hn hperiod, EvalM.lift_ok, EvalM.pure_bind,
    resolveSymbolSlot, Int.natCast_nonneg, if_true, Int.toNat_natCast]
  rfl

end JitSignalEngine
