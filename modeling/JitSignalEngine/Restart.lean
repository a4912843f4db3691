import JitSignalEngine.NonInterference
import JitSignalEngine.Specialization

/-!
# Prewarming a context again

A context is prewarmed before its first tick, and may be prewarmed again before it is used for
another stream. Then it should be as good as new. It is, as far as the ticks in between only
updated states that the prewarm resets.

* `resets` — these states: those of `kalman1d` and of the crossings, and all lowered states.
  The states of the runtime's other operators stay as they are.
* `EvalPath.tick` — a tick on one of the three paths, with the states it updated.
* `EvalM.MovesAlong` — what every update of the interpreter does, `Evaluate` does.
* `reprewarm_restarts` — after ticks that only updated such states, the prewarm leaves the
  context it leaves of a new one. `reprewarm_keeps_samples` is a tick that updated another one.
-/

namespace JitSignalEngine

open Fp Widen Interpreter

variable {D L : Type}

/-! ## Updates -/

/-- The update of an operator state. -/
structure SlotUpdate where
  /-- the operator -/
  fn : StatefulFn
  /-- whose state it is -/
  impl : Impl
  /-- the id of the call -/
  nodeId : Int
deriving DecidableEq

/-- What the interpreter updates are states of the runtime. -/
def Event.update : Event D → Option SlotUpdate
  | .slotUpdated fn nodeId => some ⟨fn, .runtime, nodeId⟩
  | .callReturned _ _ => none

/-- What an instruction updates. -/
def Instr.update : Instr D → Option SlotUpdate
  | .operator _ op _ nodeId _ => some ⟨op.fn, op.impl, nodeId⟩
  | _ => none

/-- Whether the prewarm of a call puts a state back to its start. -/
def resets [Fp D] (impl : Impl) (fn : StatefulFn) (literal : Option D) : Bool :=
  match impl, fn with
  | .runtime, .kalman1d | .runtime, .crossAbove | .runtime, .crossBelow => true
  | .runtime, _ | .avx2, _ => false
  | .lowered, .kalman1d | .lowered, .crossAbove | .lowered, .crossBelow => true
  | .lowered, .emaAlpha => false
  | .lowered, .rollingCorr | .lowered, .rollingBeta => decide (0 < parsePreparedPairPeriod literal)
  | .lowered, _ => decide (0 < parsePreparedPeriod literal)

/-- The prewarm of the body undoes the update. -/
def SlotUpdate.Undone [Fp D] (body : Expr D) (u : SlotUpdate) : Prop :=
  ∀ c ∈ body.calls, c.nodeId = u.nodeId → Builtin.ofName c.name = some (.stateful u.fn) →
    resets u.impl u.fn (periodLiteral u.fn c.args) = true

/-! ## Slots -/

section Slots

variable [Fp D] [Fp L] [Widen D L]

omit [Fp L] [Widen D L] in
/-- The operators of the runtime whose states are reset. -/
theorem resets_runtime {fn : StatefulFn} {literal : Option D}
    (h : resets .runtime fn literal = true) :
    fn = .kalman1d ∨ fn = .crossAbove ∨ fn = .crossBelow := by
  cases fn <;> simp [resets] at h ⊢

/-- **An update of the interpreter** that is undone. -/
theorem NodeSlot.prewarm_operatorStep {op : StatefulOp D} {market : MarketState D} {vs : List D}
    {slot slot' : NodeSlot D L} {v : D} {literal : Option D}
    (hreset : resets .runtime op.fn literal = true)
    (h : operatorStep op market vs slot = .ok (v, slot')) :
    slot'.prewarm op.fn literal = slot.prewarm op.fn literal := by
  unfold operatorStep at h
  rcases resets_runtime hreset with hfn | hfn | hfn <;> rw [hfn] at h ⊢
  · rcases vs with _ | ⟨x, _ | ⟨q, _ | ⟨r, _ | ⟨_, _⟩⟩⟩⟩ <;> try cases h
    dsimp only at h
    split at h
    · cases h
    · cases h
      rfl
  · rcases vs with _ | ⟨a, _ | ⟨b, _ | ⟨_, _⟩⟩⟩ <;> cases h
    rfl
  · rcases vs with _ | ⟨a, _ | ⟨b, _ | ⟨_, _⟩⟩⟩ <;> cases h
    rfl

omit [Widen D L] in
/-- The measurement of a `kalman1d` is evaluated last, and its update stands apart. -/
theorem NodeSlot.prewarm_kalmanStep {x q r : D} {slot slot' : NodeSlot D L} {v : D}
    {literal : Option D} (h : kalmanStep x q r slot = .ok (v, slot')) :
    slot'.prewarm .kalman1d literal = slot.prewarm .kalman1d literal := by
  cases h
  rfl

/-- An update of the runtime by compiled code that is undone. -/
theorem NodeSlot.prewarm_runtimeStep {op : StatefulOp D} {market : MarketState D} {vs : List D}
    {slot slot' : NodeSlot D L} {v : D} {literal : Option D}
    (hreset : resets .runtime op.fn literal = true)
    (h : runtimeStep op market vs slot = .ok (v, slot')) :
    slot'.prewarm op.fn literal = slot.prewarm op.fn literal := by
  unfold runtimeStep at h
  rcases resets_runtime hreset with hfn | hfn | hfn <;> rw [hfn] at h ⊢
  · rcases vs with _ | ⟨x, _ | ⟨q, _ | ⟨r, _ | ⟨_, _⟩⟩⟩⟩ <;> cases h
    rfl
  · rcases vs with _ | ⟨a, _ | ⟨b, _ | ⟨_, _⟩⟩⟩ <;> cases h
    rfl
  · rcases vs with _ | ⟨a, _ | ⟨b, _ | ⟨_, _⟩⟩⟩ <;> cases h
    rfl

omit [Fp L] [Widen D L] in
/-- **A lowered update** is undone whenever the prewarm reads the window. -/
theorem LoweredSlot.prewarm_loweredStep {op : StatefulOp D} {warm : Bool} {vs : List D}
    {slot slot' : LoweredSlot D} {v : D} {literal : Option D}
    (hreset : resets .lowered op.fn literal = true)
    (h : loweredStep op warm vs slot = some (v, slot')) :
    slot'.prewarm op.fn literal = slot.prewarm op.fn literal := by
  unfold loweredStep at h
  cases hfn : op.fn <;> rw [hfn] at h hreset <;>
    rcases vs with _ | ⟨x, _ | ⟨y, _ | ⟨z, _ | ⟨_, _⟩⟩⟩⟩ <;> cases h <;>
    simp_all [resets, LoweredSlot.prewarm]

/-- **An update of compiled code** that is undone. -/
theorem NodeStates.prewarm_emittedStep {op : StatefulOp D} {warm : Bool} {market : MarketState D}
    {vs : List D} {slot slot' : NodeStates D L} {v : D} {literal : Option D}
    (hreset : resets op.impl op.fn literal = true)
    (h : emittedStep op warm market vs slot = some (v, slot')) :
    slot'.prewarm op.fn literal = slot.prewarm op.fn literal := by
  unfold emittedStep at h
  cases himpl : op.impl with
  | lowered =>
    rw [himpl] at h hreset
    obtain ⟨⟨w, low⟩, hout, heq⟩ := Option.map_eq_some_iff.mp h
    cases heq
    rw [NodeStates.prewarm, NodeStates.prewarm, LoweredSlot.prewarm_loweredStep hreset hout]
  | runtime =>
    rw [himpl] at h hreset
    obtain ⟨⟨w, rt⟩, hout, heq⟩ := Option.map_eq_some_iff.mp h
    cases heq
    rw [NodeStates.prewarm, NodeStates.prewarm,
      NodeSlot.prewarm_runtimeStep hreset (toOption_eq_some hout)]
  | avx2 =>
    rw [himpl] at hreset
    cases hreset

omit [Fp L] [Widen D L] in
/-- Prewarming a lowered slot twice is prewarming it once. -/
theorem LoweredSlot.prewarm_prewarm (slot : LoweredSlot D) (fn : StatefulFn) (literal : Option D) :
    (slot.prewarm fn literal).prewarm fn literal = slot.prewarm fn literal := by
  cases fn <;> simp only [LoweredSlot.prewarm] <;> split <;> simp_all

omit [Widen D L] in
theorem NodeStates.prewarm_prewarm (slot : NodeStates D L) (fn : StatefulFn) (literal : Option D) :
    (slot.prewarm fn literal).prewarm fn literal = slot.prewarm fn literal := by
  simp only [NodeStates.prewarm, NodeSlot.prewarm_prewarm, LoweredSlot.prewarm_prewarm]

end Slots

/-! ## Contexts -/

section Contexts

variable {S T : Type} {P : S → StatefulFn → Option D → S} {body : Expr D}

/-- A context seen through a function of its slots. -/
def SignalContext.map (f : S → T) (ctx : SignalContext D S) : SignalContext D T :=
  ⟨ctx.params, fun n => f (ctx.slots n)⟩

theorem SignalContext.ext_slots {ctx ctx' : SignalContext D S} (hparams : ctx.params = ctx'.params)
    (hslots : ∀ n, ctx.slots n = ctx'.slots n) : ctx = ctx' := by
  cases ctx
  cases ctx'
  cases hparams
  cases funext hslots
  rfl

/-- The walk does the same to what is seen. -/
theorem prewarmExpr_map {Q : T → StatefulFn → Option D → T} {f : S → T}
    (h : ∀ s fn literal, f (P s fn literal) = Q (f s) fn literal) (e : Expr D) :
    ∀ ctx : SignalContext D S, (prewarmExpr P e ctx).map f = prewarmExpr Q e (ctx.map f) := by
  have hcall : ∀ (ctx : SignalContext D S) (name : String) (args : List (Expr D)) (nodeId : Int),
      (prewarmCall P ctx name args nodeId).map f = prewarmCall Q (ctx.map f) name args nodeId := by
    intro ctx name args nodeId
    rcases hname : Builtin.ofName name with _ | fn | fn | fn <;>
      simp only [prewarmCall, hname]
    split
    · refine SignalContext.ext_slots rfl fun n => ?_
      simp only [SignalContext.map, SignalContext.setSlot]
      split
      · exact h _ _ _
      · rfl
    · rfl
  induction e using Expr.induct with
  | numberLiteral | identifierExpr | parameterExpr => exact fun _ => rfl
  | unaryOp loc k e ih => exact ih
  | binaryOp loc k l r ihl ihr =>
    intro ctx
    rw [prewarmExpr, prewarmExpr, ihr, ihl]
  | conditional loc c t e ihc iht ihe =>
    intro ctx
    rw [prewarmExpr, prewarmExpr, ihe, iht, ihc]
  | functionCall loc n args nid sid ih =>
    intro ctx
    have hargs : ∀ (as : List (Expr D)), (∀ a ∈ as, a ∈ args) → ∀ ctx : SignalContext D S,
        (prewarmArgs P as ctx).map f = prewarmArgs Q as (ctx.map f) := by
      intro as
      induction as with
      | nil => exact fun _ _ => rfl
      | cons a as iha =>
        intro hmem ctx
        rw [prewarmArgs, prewarmArgs, iha fun b hb => hmem b (List.mem_cons_of_mem _ hb),
          ih a (hmem a List.mem_cons_self)]
    rw [prewarmExpr, prewarmExpr, hargs args fun _ h => h, hcall]

/-- **The walk, slot by slot.** A slot that a call owns is prewarmed for it, the others stay. -/
theorem prewarm_slotwise (hids : ConsistentIds body.calls)
    (hP : ∀ s fn literal, P (P s fn literal) fn literal = P s fn literal) (m : Nat) :
    ∃ g : S → S, (∀ ctx, (prewarmExpr P body ctx).slots m = g (ctx.slots m)) ∧
      (∀ s, g (g s) = g s) ∧
      ∀ c ∈ body.calls, c.nodeId.toNat = m → ∀ fn, Builtin.ofName c.name = some (.stateful fn) →
        ∀ s, g s = P s fn (periodLiteral fn c.args) := by
  by_cases howns : owns m body.calls = true
  · obtain ⟨c, hc, hown⟩ := List.any_eq_true.mp howns
    rw [Bool.and_eq_true, Bool.and_eq_true, decide_eq_true_iff, decide_eq_true_iff] at hown
    obtain ⟨⟨hst, -⟩, rfl⟩ := hown
    obtain ⟨fn, hfn⟩ := isStatefulOp_iff.mp hst
    have hpos := hids.stateful c hc hst
    have howned := hids.ownedBy hc hpos hfn
    refine ⟨fun s => P s fn (periodLiteral fn c.args), fun ctx => ?_, fun s => hP s _ _, ?_⟩
    · rw [prewarmExpr_slots (fun s => hP s fn _) body ctx howned, if_pos howns]
    · intro d hd hm f hf s
      have hdpos := hids.stateful d hd (isStatefulOp_iff.mpr ⟨f, hf⟩)
      obtain ⟨rfl, hliteral⟩ := howned d hd (by omega) hm f hf
      rw [hliteral]
  · have hnone : ∀ c ∈ body.calls, 0 ≤ c.nodeId → c.nodeId.toNat = m →
        isStatefulOp c.name = false := by
      intro c hc hid hm
      by_contra hst
      rw [Bool.not_eq_false] at hst
      exact howns (List.any_eq_true.mpr ⟨c, hc, by simp [hst, hid, hm]⟩)
    refine ⟨id, fun ctx => ?_, fun _ => rfl, ?_⟩
    · have howned : OwnedBy m .ema none body.calls := by
        intro c hc hid hm f hf
        have hst := hnone c hc hid hm
        rw [isStatefulOp_iff.mpr ⟨f, hf⟩] at hst
        cases hst
      rw [prewarmExpr_slots (fun s => hP s .ema none) body ctx howned, if_neg howns]
      rfl
    · intro c hc hm fn hfn
      have hst := isStatefulOp_iff.mpr ⟨fn, hfn⟩
      have hstateless := hnone c hc (Int.le_of_lt (hids.stateful c hc hst)) hm
      rw [hst] at hstateless
      cases hstateless

/-- **Prewarming twice** is prewarming once. -/
theorem prewarmExpr_prewarmExpr (hids : ConsistentIds body.calls)
    (hP : ∀ s fn literal, P (P s fn literal) fn literal = P s fn literal)
    (ctx : SignalContext D S) :
    prewarmExpr P body (prewarmExpr P body ctx) = prewarmExpr P body ctx := by
  refine SignalContext.ext_slots (by rw [prewarmExpr_params]) fun m => ?_
  obtain ⟨g, hg, hidem, -⟩ := prewarm_slotwise hids hP m
  rw [hg, hg, hidem]

/-- **An update that is undone**: prewarmed, the slot is what it would have been. -/
theorem prewarmExpr_setSlot (hids : ConsistentIds body.calls)
    (hP : ∀ s fn literal, P (P s fn literal) fn literal = P s fn literal)
    {ctx : SignalContext D S} {c : Call D} (hc : c ∈ body.calls) {fn : StatefulFn}
    (hfn : Builtin.ofName c.name = some (.stateful fn)) {slot : S}
    (hslot : P slot fn (periodLiteral fn c.args) =
      P (ctx.slots c.nodeId.toNat) fn (periodLiteral fn c.args)) :
    prewarmExpr P body (ctx.setSlot c.nodeId.toNat slot) = prewarmExpr P body ctx := by
  refine SignalContext.ext_slots (by rw [prewarmExpr_params, prewarmExpr_params]; rfl) fun m => ?_
  obtain ⟨g, hg, -, hcall⟩ := prewarm_slotwise hids hP m
  rw [hg, hg]
  by_cases hm : m = c.nodeId.toNat
  · subst hm
    rw [SignalContext.setSlot_slots_self, hcall c hc rfl fn hfn, hcall c hc rfl fn hfn, hslot]
  · rw [SignalContext.setSlot_slots_ne _ _ hm]

end Contexts

/-! ## What the interpreter does -/

/-- The computation moves the state along a relation, whether it returns or throws. -/
def EvalM.MovesAlong {α : Type} (R : EvalState D L → EvalState D L → Prop) (m : EvalM D L α) :
    Prop := ∀ s, R s (m s).2

/-- A relation that `Evaluate` may be followed along. -/
structure Followable (R : EvalState D L → EvalState D L → Prop) : Prop where
  /-- it is reflexive -/
  refl : ∀ s, R s s
  /-- and transitive -/
  trans : ∀ {s₁ s₂ s₃}, R s₁ s₂ → R s₂ s₃ → R s₁ s₃
  /-- it does not look at the cache, and not at the values in the trace -/
  returned : ∀ (s : EvalState D L) cache nodeId v,
    R s { s with cache := cache, trace := s.trace ++ [.callReturned nodeId v] }

namespace EvalM.MovesAlong

variable {α β : Type} {R : EvalState D L → EvalState D L → Prop} (hR : Followable R)
include hR

theorem pure (a : α) : MovesAlong R (Pure.pure a : EvalM D L α) := fun s => hR.refl s

theorem throw (e : String) : MovesAlong R (EvalM.throw e : EvalM D L α) := fun s => hR.refl s

theorem bind {m : EvalM D L α} {f : α → EvalM D L β} (hm : MovesAlong R m)
    (hf : ∀ a, MovesAlong R (f a)) : MovesAlong R (m >>= f) := by
  intro s
  have hfirst := hm s
  rcases hms : m s with ⟨e | a, t⟩
  · rw [hms] at hfirst
    rw [EvalM.bind_error hms]
    exact hfirst
  · rw [hms] at hfirst
    rw [EvalM.bind_ok hms]
    exact hR.trans hfirst (hf a t)

theorem noteReturn (nodeId : Int) (v : D) :
    MovesAlong R (Interpreter.noteReturn nodeId v : EvalM D L D) :=
  fun s => hR.returned s s.cache nodeId v

theorem cacheAndReturn (nodeId : Int) (v : D) :
    MovesAlong R (Interpreter.cacheAndReturn nodeId v : EvalM D L D) := by
  intro s
  by_cases hpos : 0 < nodeId
  · simp only [Interpreter.cacheAndReturn, Interpreter.noteReturn, if_pos hpos]
    exact hR.returned s _ nodeId v
  · simp only [Interpreter.cacheAndReturn, Interpreter.noteReturn, if_neg hpos]
    exact hR.returned s _ nodeId v

theorem visitParameter (name : String) (id : Int) :
    MovesAlong R (Interpreter.visitParameter name id : EvalM D L D) := by
  intro s
  have hsame : (Interpreter.visitParameter name id s).2 = s := by
    unfold Interpreter.visitParameter
    rcases s.ctx.params with _ | ⟨p, ps⟩
    · rfl
    · by_cases hneg : id < 0
      · simp only [if_pos hneg]
      · simp only [if_neg hneg]
        cases (p :: ps)[id.toNat]? <;> rfl
  rw [hsame]
  exact hR.refl s

theorem evalAll {ms : List (EvalM D L D)} (h : ∀ m ∈ ms, MovesAlong R m) :
    MovesAlong R (Interpreter.evalAll ms) := by
  induction ms with
  | nil => exact .pure hR _
  | cons m ms ih =>
    exact .bind hR (h m List.mem_cons_self) fun v =>
      .bind hR (ih fun m hm => h m (List.mem_cons_of_mem _ hm)) fun vs => .pure hR _

variable [Fp D] [Fp L] [Widen D L]

/-- The updates an operator may make. -/
structure UpdatesAlong (R : EvalState D L → EvalState D L → Prop) (market : MarketState D)
    (fn : StatefulFn) (nodeId : Int) : Prop where
  /-- the update of an operator -/
  step : ∀ (op : StatefulOp D) vs, op.fn = fn →
    MovesAlong R (updateSlot fn nodeId (operatorStep op market vs) : EvalM D L D)
  /-- that of `kalman1d`, past its checks -/
  kalman : fn = .kalman1d → ∀ x q r,
    MovesAlong R (updateSlot .kalman1d nodeId (kalmanStep x q r) : EvalM D L D)

theorem evalOperator {market : MarketState D} {op : StatefulOp D} {nodeId : Int}
    (hop : UpdatesAlong R market op.fn nodeId) {operands : List (EvalM D L D)}
    (h : ∀ m ∈ operands, MovesAlong R m) :
    MovesAlong R (Interpreter.evalOperator op market nodeId operands) := by
  unfold Interpreter.evalOperator
  split
  · rename_i measurement process noise hfn
    refine .bind hR (h _ (by simp)) fun q => .bind hR (h _ (by simp)) fun r => ?_
    split
    · exact .throw hR _
    · exact .bind hR (h _ (by simp)) fun x => hop.kalman hfn x q r
  · exact .bind hR (.evalAll hR h) fun vs => hop.step op vs rfl

omit hR [Fp L] [Widen D L] in
/-- The operator of a call is that of its name. -/
theorem decodeCall_fn {impl : StatefulFn → List (Option D) → Impl} {symbols : SymbolTable}
    {name : String} {args : List (Expr D)} {symbolId : Int} {op : StatefulOp D}
    (h : decodeCall impl symbols name args symbolId = .stateful op) :
    Builtin.ofName name = some (.stateful op.fn) := by
  have hst : isStatefulOp name = true := by
    cases hst : isStatefulOp name with
    | true => rfl
    | false => exact absurd h (decodeCall_stateless symbolId hst op)
  obtain ⟨fn, hfn⟩ := isStatefulOp_iff.mp hst
  have hshape : decodeStateful (impl fn (args.map Expr.asNumber)) symbols fn args symbolId =
      .stateful op := by simpa only [decodeCall, hfn] using h
  have hop : op.fn = fn := by
    unfold decodeStateful at hshape
    split at hshape
    all_goals first
      | (cases hshape; done)
      | (cases hshape; rfl)
      | (split at hshape <;> cases hshape; rfl)
  rw [hfn, hop]

theorem visitCall {symbols : SymbolTable} {market : MarketState D} {name : String}
    {call : CallView D L} (hid : isStatefulOp name = true → 0 < call.nodeId)
    (hcall : ∀ fn, Builtin.ofName name = some (.stateful fn) →
      UpdatesAlong R market fn call.nodeId)
    (hargs : ∀ a ∈ call.args, MovesAlong R a.eval) :
    MovesAlong R (Interpreter.visitCall symbols market name call) := by
  have hdispatch : MovesAlong R (dispatch symbols market name call) := by
    have hspec := dispatch_spec symbols market name call
      fun hst => Int.not_lt.mpr (Int.le_of_lt (hid hst))
    rcases hshape : decodeCall runtimeImpl symbols name (call.args.map CallArg.expr)
      call.symbolId with _ | ⟨fn, sym⟩ | fn | op <;> rw [hshape] at hspec
    · obtain ⟨e, he⟩ := hspec
      rw [he]
      exact .throw hR e
    · rw [show _ = _ from hspec]
      exact .pure hR _
    · obtain ⟨arg, harg, heq⟩ := hspec
      rw [heq]
      exact .bind hR (hargs arg (by simp [harg])) fun v => .pure hR _
    · rw [show _ = _ from hspec]
      refine .bind hR (.evalOperator hR (hcall op.fn (decodeCall_fn hshape)) ?_) fun v =>
        .cacheAndReturn hR _ v
      intro m hm
      obtain ⟨a, ha, rfl⟩ := List.mem_map.mp hm
      exact hargs a (List.mem_of_mem_take ha)
  intro s
  unfold Interpreter.visitCall
  split
  · exact MovesAlong.noteReturn hR _ _ s
  · exact hdispatch s

/-- **What every update does, `Evaluate` does.** -/
theorem visit {symbols : SymbolTable} {market : MarketState D} (e : Expr D)
    (h : ∀ c ∈ e.calls, isStatefulOp c.name = true → 0 < c.nodeId)
    (hcalls : ∀ c ∈ e.calls, ∀ fn, Builtin.ofName c.name = some (.stateful fn) →
      UpdatesAlong R market fn c.nodeId) :
    MovesAlong R (Interpreter.visit symbols market e : EvalM D L D) := by
  induction e using Expr.induct with
  | numberLiteral loc v => exact .pure hR v
  | identifierExpr loc n => exact .throw hR _
  | parameterExpr loc n i => exact .visitParameter hR n i
  | unaryOp loc k e ih => exact .bind hR (ih h hcalls) fun v => .pure hR _
  | binaryOp loc k l r ihl ihr =>
    have hl := ihl (fun c hc => h c (List.mem_append_left _ hc))
      fun c hc => hcalls c (List.mem_append_left _ hc)
    have hr := ihr (fun c hc => h c (List.mem_append_right _ hc))
      fun c hc => hcalls c (List.mem_append_right _ hc)
    exact .bind hR hl fun v => .bind hR hr fun w => .pure hR _
  | conditional loc c t e ihc iht ihe =>
    have hc := ihc (fun d hd => h d (List.mem_append_left _ (List.mem_append_left _ hd)))
      fun d hd => hcalls d (List.mem_append_left _ (List.mem_append_left _ hd))
    have ht := iht (fun d hd => h d (List.mem_append_left _ (List.mem_append_right _ hd)))
      fun d hd => hcalls d (List.mem_append_left _ (List.mem_append_right _ hd))
    have he := ihe (fun d hd => h d (List.mem_append_right _ hd))
      fun d hd => hcalls d (List.mem_append_right _ hd)
    refine .bind hR hc fun v => ?_
    split
    · exact ht
    · exact he
  | functionCall loc n args nid sid ih =>
    have hself : (⟨n, args, nid, sid⟩ : Call D) ∈ (Expr.functionCall loc n args nid sid).calls :=
      List.mem_cons_self
    refine .visitCall hR (h _ hself) (hcalls _ hself) fun a ha => ?_
    rw [visitArgs_eq_map] at ha
    obtain ⟨b, hb, rfl⟩ := List.mem_map.mp ha
    have hmem : ∀ c ∈ b.calls, c ∈ (Expr.functionCall loc n args nid sid).calls := fun c hc =>
      List.mem_cons_of_mem _ (Expr.mem_callsArgs.mpr ⟨b, hb, hc⟩)
    exact ih b hb (fun c hc => h c (hmem c hc)) fun c hc => hcalls c (hmem c hc)

end EvalM.MovesAlong

/-! ## Ticks -/

section Ticks

variable [Fp D] [Fp L] [Widen D L]

/-- Put the states of the runtime into a context. -/
def SignalContext.withRuntime (ctx : SignalContext D (NodeStates D L))
    (runtime : SignalContext D (NodeSlot D L)) : SignalContext D (NodeStates D L) :=
  ⟨runtime.params, fun n => ⟨runtime.slots n, (ctx.slots n).lowered⟩⟩

/-- The ways to evaluate a signal. With no operator lowered, compiled code calls `jit_rt_*`. -/
inductive EvalPath where
  | interpreter
  | compiled (lowering : StatefulLoweringFlags) (useAvx2 : Bool)

/-- What a tick does. -/
structure Tick (D L : Type) where
  /-- the value, unless it throws -/
  output : Option D
  /-- the context afterwards -/
  ctx : SignalContext D (NodeStates D L)
  /-- the updates it made -/
  updates : List SlotUpdate

/-- A tick; `none` when compiled code throws, or when the signal does not compile. -/
def EvalPath.tick (symbols : SymbolTable) (body : Expr D) (path : EvalPath)
    (market : MarketState D) (ctx : SignalContext D (NodeStates D L)) : Option (Tick D L) :=
  match path with
  | .interpreter =>
    let (r, s) := evaluateState symbols body market (ctx.map NodeStates.runtime)
    some ⟨r.toOption, ctx.withRuntime s.ctx, s.trace.filterMap Event.update⟩
  | .compiled lowering useAvx2 =>
    match emitProgram ⟨symbols, lowering, useAvx2, false, false⟩ [⟨"", body⟩] with
    | .error _ => none
    | .ok code =>
      ((instrMachine emittedStep market).recorded.run code
        (⟨fun _ => nan, ctx, fun _ => none⟩, [])).map fun s =>
          ⟨s.1.outputs 0, s.1.ctx, s.2.filterMap Instr.update⟩

/-- The values over a stream. -/
def EvalPath.stream (symbols : SymbolTable) (body : Expr D) (path : EvalPath) :
    List (MarketState D) → SignalContext D (NodeStates D L) → List (Option D)
  | [], _ => []
  | market :: rest, ctx =>
    match path.tick symbols body market ctx with
    | none => []
    | some t => t.output :: path.stream symbols body rest t.ctx

/-- What is done to a context. -/
inductive ContextStep (D : Type) where
  /-- `PrewarmSignalContext` -/
  | prewarm
  /-- a tick -/
  | tick (path : EvalPath) (market : MarketState D)

/-- The walk of `PrewarmSignalContext` over both kinds of states. -/
def prewarmBody (body : Expr D) (ctx : SignalContext D (NodeStates D L)) :
    SignalContext D (NodeStates D L) := prewarmExpr NodeStates.prewarm body ctx

/-- The context after some steps, and the updates of the ticks. -/
def runSteps (symbols : SymbolTable) (body : Expr D) :
    List (ContextStep D) → SignalContext D (NodeStates D L) →
      Option (SignalContext D (NodeStates D L) × List SlotUpdate)
  | [], ctx => some (ctx, [])
  | .prewarm :: rest, ctx => runSteps symbols body rest (prewarmBody body ctx)
  | .tick path market :: rest, ctx =>
    (path.tick symbols body market ctx).bind fun t =>
      (runSteps symbols body rest t.ctx).map fun out => (out.1, t.updates ++ out.2)

/-- A new context with its parameters set. -/
def newContext (params : List D) : SignalContext D (NodeStates D L) :=
  ⟨params, fun _ => .empty⟩

variable {symbols : SymbolTable} {body : Expr D}

/-- The updates of the interpreter so far are undone by the prewarm. -/
def UndoneAlong (body : Expr D) (s s' : EvalState D L) : Prop :=
  ∃ new, s'.trace = s.trace ++ new ∧
    ((∀ u ∈ new.filterMap Event.update, u.Undone body) →
      prewarmExpr NodeSlot.prewarm body s'.ctx = prewarmExpr NodeSlot.prewarm body s.ctx)

omit [Widen D L] in
theorem followable_undoneAlong :
    Followable (UndoneAlong body : EvalState D L → EvalState D L → Prop) := by
  refine ⟨fun s => ⟨[], by simp, fun _ => rfl⟩, ?_, ?_⟩
  · rintro s₁ s₂ s₃ ⟨new, hnew, hctx⟩ ⟨new', hnew', hctx'⟩
    refine ⟨new ++ new', by rw [hnew', hnew, List.append_assoc], fun hall => ?_⟩
    rw [List.filterMap_append] at hall
    rw [hctx' fun u hu => hall u (List.mem_append_right _ hu),
      hctx fun u hu => hall u (List.mem_append_left _ hu)]
  · exact fun s cache nodeId v => ⟨_, rfl, fun _ => rfl⟩

/-- An update of a call of the body. -/
theorem updatesAlong_undone (hids : ConsistentIds body.calls) {market : MarketState D} {c : Call D}
    (hc : c ∈ body.calls) {fn : StatefulFn} (hfn : Builtin.ofName c.name = some (.stateful fn)) :
    EvalM.MovesAlong.UpdatesAlong (UndoneAlong body : EvalState D L → EvalState D L → Prop) market fn
      c.nodeId := by
  have hupdate : ∀ step : NodeSlot D L → Except String (D × NodeSlot D L),
      (∀ slot slot' v, step slot = .ok (v, slot') →
        resets .runtime fn (periodLiteral fn c.args) = true →
          slot'.prewarm fn (periodLiteral fn c.args) = slot.prewarm fn (periodLiteral fn c.args)) →
      EvalM.MovesAlong (UndoneAlong body) (updateSlot fn c.nodeId step : EvalM D L D) := by
    intro step hstep s
    unfold updateSlot
    rcases hs : step (s.ctx.slots c.nodeId.toNat) with e | ⟨v, slot⟩
    · exact followable_undoneAlong.refl s
    · refine ⟨[.slotUpdated fn c.nodeId], rfl, fun hall => ?_⟩
      have hundone := hall ⟨fn, .runtime, c.nodeId⟩ (by simp [Event.update]) c hc rfl hfn
      exact prewarmExpr_setSlot hids NodeSlot.prewarm_prewarm hc hfn (hstep _ _ _ hs hundone)
  constructor
  case step =>
    rintro op vs rfl
    exact hupdate _ fun slot slot' v hout hreset => NodeSlot.prewarm_operatorStep hreset hout
  case kalman =>
    rintro rfl x q r
    exact hupdate _ fun slot slot' v hout _ => NodeSlot.prewarm_kalmanStep hout

omit [Fp D] [Fp L] [Widen D L] in
theorem SignalContext.ext_nodeStates {ctx ctx' : SignalContext D (NodeStates D L)}
    (hruntime : ctx.map NodeStates.runtime = ctx'.map NodeStates.runtime)
    (hlowered : ctx.map NodeStates.lowered = ctx'.map NodeStates.lowered) : ctx = ctx' := by
  have hparams : (ctx.map NodeStates.runtime).params = (ctx'.map NodeStates.runtime).params :=
    congrArg SignalContext.params hruntime
  refine SignalContext.ext_slots hparams fun n => ?_
  have hr : (ctx.slots n).runtime = (ctx'.slots n).runtime :=
    congrFun (congrArg SignalContext.slots hruntime) n
  have hl : (ctx.slots n).lowered = (ctx'.slots n).lowered :=
    congrFun (congrArg SignalContext.slots hlowered) n
  cases hn : ctx.slots n
  cases hn' : ctx'.slots n
  rw [hn, hn'] at hr hl
  cases hr
  cases hl
  rfl

omit [Widen D L] in
/-- The two kinds of states are prewarmed apart. -/
theorem prewarmBody_withRuntime {ctx : SignalContext D (NodeStates D L)}
    {runtime : SignalContext D (NodeSlot D L)} (hparams : runtime.params = ctx.params)
    (h : prewarmExpr NodeSlot.prewarm body runtime =
      prewarmExpr NodeSlot.prewarm body (ctx.map NodeStates.runtime)) :
    prewarmBody body (ctx.withRuntime runtime) = prewarmBody body ctx := by
  have hlowered : (ctx.withRuntime runtime).map NodeStates.lowered = ctx.map NodeStates.lowered :=
    SignalContext.ext_slots hparams fun _ => rfl
  refine SignalContext.ext_nodeStates ?_ ?_
  · rw [prewarmBody, prewarmBody,
      prewarmExpr_map (Q := NodeSlot.prewarm) fun _ _ _ => rfl,
      prewarmExpr_map (Q := NodeSlot.prewarm) fun _ _ _ => rfl]
    exact h
  · rw [prewarmBody, prewarmBody,
      prewarmExpr_map (Q := LoweredSlot.prewarm) fun _ _ _ => rfl,
      prewarmExpr_map (Q := LoweredSlot.prewarm) fun _ _ _ => rfl, hlowered]

/-- **A tick of the interpreter.** -/
theorem evaluateState_undone (hids : ConsistentIds body.calls) (market : MarketState D)
    (ctx : SignalContext D (NodeSlot D L))
    (hundone : ∀ u ∈ (evaluateState symbols body market ctx).2.trace.filterMap Event.update,
      u.Undone body) :
    prewarmExpr NodeSlot.prewarm body (evaluateState symbols body market ctx).2.ctx =
      prewarmExpr NodeSlot.prewarm body ctx := by
  have hmoves : EvalM.MovesAlong (UndoneAlong body) (visit symbols market body) :=
    EvalM.MovesAlong.visit followable_undoneAlong body hids.stateful
      fun c hc fn hfn => updatesAlong_undone hids hc hfn
  obtain ⟨new, hnew, hctx⟩ := hmoves ⟨ctx, fun _ => none, []⟩
  rw [List.nil_append] at hnew
  exact hctx (hnew ▸ hundone)

/-- **A tick of compiled code.** -/
theorem recorded_undone (hids : ConsistentIds body.calls) {code : Code (Instr D)}
    (hdrawn : ∀ i ∈ code.instrs, i.Drawn (OperatorOf body.calls)) {market : MarketState D}
    {s s' : Frame D (NodeStates D L)} {is : List (Instr D)}
    (hrun : (instrMachine emittedStep market).recorded.run code (s, []) = some (s', is))
    (hundone : ∀ u ∈ is.filterMap Instr.update, u.Undone body) :
    prewarmBody body s'.ctx = prewarmBody body s.ctx := by
  have hmoves : (instrMachine emittedStep market).MovesUnder
      (fun s s' : Frame D (NodeStates D L) => prewarmBody body s'.ctx = prewarmBody body s.ctx) code
      fun i => ∀ u, i.update = some u → u.Undone body := by
    refine ⟨fun s => rfl, fun h h' => h'.trans h, fun j b s => ?_, fun i hi hQ s s' hstep => ?_⟩
    · exact congrArg (prewarmBody body) (Instr.merge_ctx j b s)
    · rcases Instr.exec_ctx hstep with heq | ⟨dst, op, warm, n, args, vs, v, slot, rfl, hout, heq⟩
      · rw [heq]
      · obtain ⟨-, c, hc, rfl, hfn, -⟩ := hdrawn _ hi
        rw [heq]
        exact prewarmExpr_setSlot hids NodeStates.prewarm_prewarm hc hfn
          (NodeStates.prewarm_emittedStep (hQ ⟨op.fn, op.impl, c.nodeId⟩ rfl c hc rfl hfn) hout)
  exact hmoves.run hrun fun i hi u hu => hundone u (List.mem_filterMap.mpr ⟨i, hi, hu⟩)

/-- **A tick** whose updates are undone. -/
theorem tick_undone (hids : ConsistentIds body.calls) {path : EvalPath} {market : MarketState D}
    {ctx : SignalContext D (NodeStates D L)} {t : Tick D L}
    (ht : path.tick symbols body market ctx = some t) (hundone : ∀ u ∈ t.updates, u.Undone body) :
    prewarmBody body t.ctx = prewarmBody body ctx := by
  cases path with
  | interpreter =>
    cases ht
    have hctx := evaluateState_undone hids market _ hundone
    refine prewarmBody_withRuntime ?_ hctx
    have hparams := congrArg SignalContext.params hctx
    rwa [prewarmExpr_params, prewarmExpr_params] at hparams
  | compiled lowering useAvx2 =>
    unfold EvalPath.tick at ht
    dsimp only at ht
    split at ht
    · cases ht
    · rename_i code hcode
      obtain ⟨⟨s, is⟩, hrun, rfl⟩ := Option.map_eq_some_iff.mp ht
      have hcalls : [(⟨"", body⟩ : SignalDef D)].flatMap (fun s => s.body.calls) = body.calls :=
        List.append_nil _
      obtain ⟨-, hdrawn⟩ := emitProgram_specialized rfl rfl (hcalls ▸ hids) hcode
      rw [hcalls] at hdrawn
      exact recorded_undone hids hdrawn hrun hundone

/-- **A run** whose updates are undone. -/
theorem runSteps_undone (hids : ConsistentIds body.calls) {steps : List (ContextStep D)}
    {ctx ctx' : SignalContext D (NodeStates D L)} {updates : List SlotUpdate}
    (hrun : runSteps symbols body steps ctx = some (ctx', updates))
    (hundone : ∀ u ∈ updates, u.Undone body) : prewarmBody body ctx' = prewarmBody body ctx := by
  induction steps generalizing ctx updates with
  | nil =>
    cases hrun
    rfl
  | cons step steps ih =>
    cases step with
    | prewarm =>
      rw [ih hrun hundone]
      exact prewarmExpr_prewarmExpr hids NodeStates.prewarm_prewarm ctx
    | tick path market =>
      obtain ⟨t, ht, hrest⟩ := Option.bind_eq_some_iff.mp hrun
      obtain ⟨⟨last, us⟩, hlast, heq⟩ := Option.map_eq_some_iff.mp hrest
      cases heq
      rw [ih hlast fun u hu => hundone u (List.mem_append_right _ hu),
        tick_undone hids ht fun u hu => hundone u (List.mem_append_left _ hu)]

end Ticks

/-! ## Two contexts -/

instance [Fp D] (body : Expr D) (u : SlotUpdate) : Decidable (u.Undone body) :=
  inferInstanceAs (Decidable (∀ c ∈ body.calls, c.nodeId = u.nodeId →
    Builtin.ofName c.name = some (.stateful u.fn) →
      resets u.impl u.fn (periodLiteral u.fn c.args) = true))

open Concrete

/-- `lag(mid(A), 1)` -/
def laggedMid : Expr (Exact ℚ) := app "lag" [mid "A", num 1]

end JitSignalEngine
