import JitSignalEngine.AllocatedRun
import JitSignalEngine.Inlining

/-!
# Signals that share a context

The signals of a program are evaluated one after the other on one context. Their ids do
not overlap, so none of them sees what the others leave behind.

* `ContextsAgree` — two contexts with the same parameters and the same states in some
  slots.
* `LocalTo` — a computation that reads and writes these slots only. One lemma per
  construct of the interpreter.
* `evaluate_local` — an `Evaluate` is local to the slots of the stateful calls of its body.
* `allocateProgramFrom_ordered` — the ids of a signal lie above those of the signals before.
* `evaluateProgram_alone` — on a shared context, in any order, each signal does what it
  does alone.
* `signals_do_not_interfere` — so the order makes no difference.
-/

namespace JitSignalEngine

open Fp Widen Interpreter

variable {D L : Type}

/-! ## Locality -/

/-- The contexts have the same parameters and, in the slots `N`, the same states. -/
structure ContextsAgree (N : Nat → Prop) (ctx ctx' : SignalContext D (NodeSlot D L)) : Prop where
  /-- the parameters -/
  params : ctx.params = ctx'.params
  /-- the states -/
  slots : ∀ n, N n → ctx.slots n = ctx'.slots n

namespace ContextsAgree

variable {N : Nat → Prop} {ctx ctx' ctx'' : SignalContext D (NodeSlot D L)}

theorem refl (ctx : SignalContext D (NodeSlot D L)) : ContextsAgree N ctx ctx :=
  ⟨rfl, fun _ _ => rfl⟩

theorem symm (h : ContextsAgree N ctx ctx') : ContextsAgree N ctx' ctx :=
  ⟨h.params.symm, fun n hn => (h.slots n hn).symm⟩

theorem trans (h : ContextsAgree N ctx ctx') (h' : ContextsAgree N ctx' ctx'') :
    ContextsAgree N ctx ctx'' :=
  ⟨h.params.trans h'.params, fun n hn => (h.slots n hn).trans (h'.slots n hn)⟩

end ContextsAgree

/-- The states of two `Evaluate` calls agree in the slots `N` and in the cache. -/
structure StatesAgree (N : Nat → Prop) (s s' : EvalState D L) : Prop where
  /-- the contexts -/
  ctx : ContextsAgree N s.ctx s'.ctx
  /-- `stateful_eval_cache_` -/
  cache : s.cache = s'.cache

/-- The computation reads and writes the slots `N` only. -/
structure LocalTo {α : Type} (N : Nat → Prop) (m : EvalM D L α) : Prop where
  /-- what it returns or throws depends on nothing else -/
  result : ∀ {s s'}, StatesAgree N s s' → (m s).1 = (m s').1
  /-- and neither does what it leaves there -/
  agree : ∀ {s s'}, StatesAgree N s s' → StatesAgree N (m s).2 (m s').2
  /-- the other slots and the parameters stay as they are -/
  frame : ∀ s, ContextsAgree (fun n => ¬ N n) (m s).2.ctx s.ctx

namespace LocalTo

variable {α β : Type} {N : Nat → Prop}

theorem pure (a : α) : LocalTo N (Pure.pure a : EvalM D L α) :=
  ⟨fun _ => rfl, id, fun s => .refl s.ctx⟩

theorem throw (e : String) : LocalTo N (EvalM.throw e : EvalM D L α) :=
  ⟨fun _ => rfl, id, fun s => .refl s.ctx⟩

theorem bind {m : EvalM D L α} {f : α → EvalM D L β} (hm : LocalTo N m)
    (hf : ∀ a, LocalTo N (f a)) : LocalTo N (m >>= f) := by
  have hcases : ∀ s, (∃ e t, m s = (.error e, t) ∧ (m >>= f) s = (.error e, t)) ∨
      ∃ a t, m s = (.ok a, t) ∧ (m >>= f) s = f a t := by
    intro s
    rcases hms : m s with ⟨e | a, t⟩
    · exact .inl ⟨e, t, rfl, EvalM.bind_error hms⟩
    · exact .inr ⟨a, t, rfl, EvalM.bind_ok hms⟩
  have hboth : ∀ {s s'}, StatesAgree N s s' →
      ((m >>= f) s).1 = ((m >>= f) s').1 ∧ StatesAgree N ((m >>= f) s).2 ((m >>= f) s').2 := by
    intro s s' h
    have hres := hm.result h
    have hagree := hm.agree h
    obtain ⟨e, t, hms, hb⟩ | ⟨a, t, hms, hb⟩ := hcases s
    · obtain ⟨e', t', hms', hb'⟩ | ⟨a', t', hms', hb'⟩ := hcases s'
      · rw [hms, hms'] at hres hagree
        rw [hb, hb']
        exact ⟨congrArg Except.error (Except.error.inj hres), hagree⟩
      · rw [hms, hms'] at hres
        cases hres
    · obtain ⟨e', t', hms', hb'⟩ | ⟨a', t', hms', hb'⟩ := hcases s'
      · rw [hms, hms'] at hres
        cases hres
      · rw [hms, hms'] at hres hagree
        rw [hb, hb']
        obtain rfl := Except.ok.inj hres
        exact ⟨(hf a).result hagree, (hf a).agree hagree⟩
  refine ⟨fun h => (hboth h).1, fun h => (hboth h).2, fun s => ?_⟩
  have hframe := hm.frame s
  obtain ⟨e, t, hms, hb⟩ | ⟨a, t, hms, hb⟩ := hcases s
  · rw [hms] at hframe
    rw [hb]
    exact hframe
  · rw [hms] at hframe
    rw [hb]
    exact ((hf a).frame t).trans hframe

/-- The update of a slot is local to it. -/
theorem updateSlot {fn : StatefulFn} {nodeId : Int} (hN : N nodeId.toNat)
    (step : NodeSlot D L → Except String (D × NodeSlot D L)) :
    LocalTo N (Interpreter.updateSlot fn nodeId step) := by
  have hcases : ∀ s : EvalState D L,
      (∃ e, step (s.ctx.slots nodeId.toNat) = .error e ∧
        Interpreter.updateSlot fn nodeId step s = (.error e, s)) ∨
      ∃ v slot, step (s.ctx.slots nodeId.toNat) = .ok (v, slot) ∧
        Interpreter.updateSlot fn nodeId step s = (.ok v, { s with
          ctx := s.ctx.setSlot nodeId.toNat slot
          trace := s.trace ++ [.slotUpdated fn nodeId] }) := by
    intro s
    unfold Interpreter.updateSlot
    rcases step (s.ctx.slots nodeId.toNat) with e | ⟨v, slot⟩
    · exact .inl ⟨e, rfl, rfl⟩
    · exact .inr ⟨v, slot, rfl, rfl⟩
  have hboth : ∀ {s s'}, StatesAgree N s s' →
      (Interpreter.updateSlot fn nodeId step s).1 = (Interpreter.updateSlot fn nodeId step s').1 ∧
      StatesAgree N (Interpreter.updateSlot fn nodeId step s).2
        (Interpreter.updateSlot fn nodeId step s').2 := by
    intro s s' h
    obtain ⟨e, hstep, hs⟩ | ⟨v, slot, hstep, hs⟩ := hcases s
    · obtain ⟨e', hstep', hs'⟩ | ⟨v', slot', hstep', hs'⟩ := hcases s'
      · rw [← h.ctx.slots _ hN, hstep] at hstep'
        cases hstep'
        rw [hs, hs']
        exact ⟨rfl, h⟩
      · rw [← h.ctx.slots _ hN, hstep] at hstep'
        cases hstep'
    · obtain ⟨e', hstep', hs'⟩ | ⟨v', slot', hstep', hs'⟩ := hcases s'
      · rw [← h.ctx.slots _ hN, hstep] at hstep'
        cases hstep'
      · rw [← h.ctx.slots _ hN, hstep] at hstep'
        cases hstep'
        rw [hs, hs']
        refine ⟨rfl, ⟨h.ctx.params, fun n hn => ?_⟩, h.cache⟩
        simp only [SignalContext.setSlot]
        by_cases heq : n = nodeId.toNat
        · rw [if_pos heq, if_pos heq]
        · rw [if_neg heq, if_neg heq]
          exact h.ctx.slots n hn
  refine ⟨fun h => (hboth h).1, fun h => (hboth h).2, fun s => ?_⟩
  obtain ⟨e, -, hs⟩ | ⟨v, slot, -, hs⟩ := hcases s
  · rw [hs]
    exact .refl s.ctx
  · rw [hs]
    refine ⟨rfl, fun n hn => ?_⟩
    simp only [SignalContext.setSlot]
    rw [if_neg]
    rintro rfl
    exact hn hN

theorem noteReturn (nodeId : Int) (v : D) :
    LocalTo N (Interpreter.noteReturn nodeId v : EvalM D L D) :=
  ⟨fun _ => rfl, fun h => ⟨h.ctx, h.cache⟩, fun s => .refl s.ctx⟩

theorem cacheAndReturn (nodeId : Int) (v : D) :
    LocalTo N (Interpreter.cacheAndReturn nodeId v : EvalM D L D) := by
  refine ⟨fun _ => rfl, fun {s s'} h => ?_, fun s => ?_⟩
  · by_cases hpos : 0 < nodeId
    · simp only [Interpreter.cacheAndReturn, Interpreter.noteReturn, if_pos hpos]
      refine ⟨h.ctx, ?_⟩
      dsimp only
      rw [h.cache]
    · simp only [Interpreter.cacheAndReturn, Interpreter.noteReturn, if_neg hpos]
      exact ⟨h.ctx, h.cache⟩
  · by_cases hpos : 0 < nodeId
    · simp only [Interpreter.cacheAndReturn, Interpreter.noteReturn, if_pos hpos]
      exact .refl s.ctx
    · simp only [Interpreter.cacheAndReturn, Interpreter.noteReturn, if_neg hpos]
      exact .refl s.ctx

theorem visitParameter (name : String) (id : Int) :
    LocalTo N (Interpreter.visitParameter name id : EvalM D L D) := by
  have hsame : ∀ s : EvalState D L, (Interpreter.visitParameter name id s).2 = s := by
    intro s
    unfold Interpreter.visitParameter
    rcases s.ctx.params with _ | ⟨p, ps⟩
    · rfl
    · by_cases hneg : id < 0
      · simp only [if_pos hneg]
      · simp only [if_neg hneg]
        cases (p :: ps)[id.toNat]? <;> rfl
  refine ⟨fun {s s'} h => ?_, fun {s s'} h => by rw [hsame, hsame]; exact h,
    fun s => by rw [hsame]; exact .refl s.ctx⟩
  unfold Interpreter.visitParameter
  rw [h.ctx.params]
  rcases s'.ctx.params with _ | ⟨p, ps⟩
  · rfl
  · by_cases hneg : id < 0
    · simp only [if_pos hneg]
    · simp only [if_neg hneg]
      cases (p :: ps)[id.toNat]? <;> rfl

theorem evalAll {ms : List (EvalM D L D)} (h : ∀ m ∈ ms, LocalTo N m) :
    LocalTo N (Interpreter.evalAll ms) := by
  induction ms with
  | nil => exact .pure _
  | cons m ms ih =>
    exact (h m List.mem_cons_self).bind fun v =>
      (ih fun m hm => h m (List.mem_cons_of_mem _ hm)).bind fun vs => .pure _

variable [Fp D] [Fp L] [Widen D L]

/-- An operator is local when its operands are. -/
theorem evalOperator {nodeId : Int} (hN : N nodeId.toNat) (op : StatefulOp D)
    (market : MarketState D) {operands : List (EvalM D L D)}
    (h : ∀ m ∈ operands, LocalTo N m) :
    LocalTo N (Interpreter.evalOperator op market nodeId operands) := by
  unfold Interpreter.evalOperator
  split
  · refine (h _ (by simp)).bind fun q => (h _ (by simp)).bind fun r => ?_
    by_cases hbad : (lt q (ofNat 0) || le r (ofNat 0)) = true
    · rw [if_pos hbad]
      exact .throw _
    · rw [if_neg hbad]
      exact (h _ (by simp)).bind fun x => .updateSlot hN _
  · exact (LocalTo.evalAll h).bind fun vs => .updateSlot hN _

/-- A call is local when its arguments are. -/
theorem visitCall {symbols : SymbolTable} {market : MarketState D} {name : String}
    {call : CallView D L} (hid : isStatefulOp name = true → 0 < call.nodeId ∧ N call.nodeId.toNat)
    (hargs : ∀ a ∈ call.args, LocalTo N a.eval) :
    LocalTo N (Interpreter.visitCall symbols market name call) := by
  have hdispatch : LocalTo N (dispatch symbols market name call) := by
    have hspec := dispatch_spec symbols market name call
      fun hst => Int.not_lt.mpr (Int.le_of_lt (hid hst).1)
    rcases hshape : decodeCall runtimeImpl symbols name (call.args.map CallArg.expr)
      call.symbolId with _ | ⟨fn, sym⟩ | fn | op <;> rw [hshape] at hspec
    · obtain ⟨e, he⟩ := hspec
      rw [he]
      exact .throw e
    · rw [show _ = _ from hspec]
      exact .pure _
    · obtain ⟨arg, harg, heq⟩ := hspec
      rw [heq]
      exact (hargs arg (by simp [harg])).bind fun v => .pure _
    · have hst : isStatefulOp name = true := by
        cases hst : isStatefulOp name with
        | true => rfl
        | false => exact absurd hshape (decodeCall_stateless call.symbolId hst op)
      rw [show _ = _ from hspec]
      refine (LocalTo.evalOperator (hid hst).2 op market ?_).bind fun v => .cacheAndReturn _ v
      intro m hm
      obtain ⟨a, ha, rfl⟩ := List.mem_map.mp hm
      exact hargs a (List.mem_of_mem_take ha)
  -- a cached id returns at once, in both states
  have hsame : ∀ {s s' : EvalState D L}, StatesAgree N s s' → ∃ m : EvalM D L D, LocalTo N m ∧
      Interpreter.visitCall symbols market name call s = m s ∧
      Interpreter.visitCall symbols market name call s' = m s' := by
    intro s s' h
    by_cases hpos : 0 < call.nodeId
    · cases hc : s.cache call.nodeId with
      | none =>
        refine ⟨_, hdispatch, ?_, ?_⟩
        · simp only [Interpreter.visitCall, if_pos hpos, hc]
        · rw [h.cache] at hc
          simp only [Interpreter.visitCall, if_pos hpos, hc]
      | some v =>
        refine ⟨_, .noteReturn call.nodeId v, ?_, ?_⟩
        · simp only [Interpreter.visitCall, if_pos hpos, hc]
        · rw [h.cache] at hc
          simp only [Interpreter.visitCall, if_pos hpos, hc]
    · refine ⟨_, hdispatch, ?_, ?_⟩ <;> simp only [Interpreter.visitCall, if_neg hpos]
  refine ⟨fun {s s'} h => ?_, fun {s s'} h => ?_, fun s => ?_⟩
  · obtain ⟨m, hm, hs, hs'⟩ := hsame h
    rw [hs, hs']
    exact hm.result h
  · obtain ⟨m, hm, hs, hs'⟩ := hsame h
    rw [hs, hs']
    exact hm.agree h
  · obtain ⟨m, hm, hs, -⟩ := hsame (show StatesAgree N s s from ⟨.refl s.ctx, rfl⟩)
    rw [hs]
    exact hm.frame s

/-- **An expression is local** to the slots of its stateful calls. -/
theorem visit {symbols : SymbolTable} {market : MarketState D} (e : Expr D)
    (h : ∀ c ∈ e.calls, isStatefulOp c.name = true → 0 < c.nodeId ∧ N c.nodeId.toNat) :
    LocalTo N (Interpreter.visit symbols market e : EvalM D L D) := by
  induction e using Expr.induct with
  | numberLiteral loc v => exact .pure v
  | identifierExpr loc n => exact .throw _
  | parameterExpr loc n i => exact .visitParameter n i
  | unaryOp loc k e ih => exact (ih h).bind fun v => .pure _
  | binaryOp loc k l r ihl ihr =>
    exact (ihl fun c hc => h c (List.mem_append_left _ hc)).bind fun v =>
      (ihr fun c hc => h c (List.mem_append_right _ hc)).bind fun w => .pure _
  | conditional loc c t e ihc iht ihe =>
    refine (ihc fun d hd => h d (List.mem_append_left _ (List.mem_append_left _ hd))).bind
      fun v => ?_
    by_cases hv : truthy v = true
    · rw [if_pos hv]
      exact iht fun d hd => h d (List.mem_append_left _ (List.mem_append_right _ hd))
    · rw [if_neg hv]
      exact ihe fun d hd => h d (List.mem_append_right _ hd)
  | functionCall loc n args nid sid ih =>
    refine LocalTo.visitCall (h ⟨n, args, nid, sid⟩ List.mem_cons_self) fun a ha => ?_
    rw [visitArgs_eq_map] at ha
    obtain ⟨b, hb, rfl⟩ := List.mem_map.mp ha
    exact ih b hb fun c hc =>
      h c (List.mem_cons_of_mem _ (Expr.mem_callsArgs.mpr ⟨b, hb, hc⟩))

end LocalTo

/-! ## Evaluation of one signal -/

/-- The slots a body uses: those of its stateful calls. -/
def UsesSlot (body : Expr D) (n : Nat) : Prop :=
  ∃ c ∈ body.calls, isStatefulOp c.name = true ∧ c.nodeId.toNat = n

variable [Fp D] [Fp L] [Widen D L]

/-- **`Evaluate` is local** to the slots the body uses. -/
theorem evaluate_local (symbols : SymbolTable) {body : Expr D}
    (hids : ∀ c ∈ body.calls, isStatefulOp c.name = true → 0 < c.nodeId)
    (market : MarketState D) {ctx ctx' : SignalContext D (NodeSlot D L)}
    (h : ContextsAgree (UsesSlot body) ctx ctx') :
    (evaluate symbols body market ctx).1 = (evaluate symbols body market ctx').1 ∧
      ContextsAgree (UsesSlot body) (evaluate symbols body market ctx).2
        (evaluate symbols body market ctx').2 ∧
      ContextsAgree (fun n => ¬ UsesSlot body n) (evaluate symbols body market ctx).2 ctx := by
  have hlocal : LocalTo (UsesSlot body) (visit symbols market body : EvalM D L D) :=
    .visit body fun c hc hst => ⟨hids c hc hst, c, hc, hst, rfl⟩
  have hstart : StatesAgree (UsesSlot body) (⟨ctx, fun _ => none, []⟩ : EvalState D L)
      ⟨ctx', fun _ => none, []⟩ := ⟨h, rfl⟩
  exact ⟨hlocal.result hstart, (hlocal.agree hstart).ctx, hlocal.frame _⟩

/-! ## Evaluation of a program -/

/-- One tick of a program: `Evaluate` for the signals at these positions, in this order, on
one context. The result of each, and the context afterwards. -/
def evaluateProgram (symbols : SymbolTable) (signals : List (SignalDef D))
    (market : MarketState D) : List Nat → SignalContext D (NodeSlot D L) →
    (Nat → Option (Except String D)) × SignalContext D (NodeSlot D L)
  | [], ctx => (fun _ => none, ctx)
  | i :: order, ctx =>
    match signals[i]? with
    | none => evaluateProgram symbols signals market order ctx
    | some signal =>
      let (result, ctx) := evaluate symbols signal.body market ctx
      let (results, ctx) := evaluateProgram symbols signals market order ctx
      (fun j => if j = i then some result else results j, ctx)

/-- The shared context before tick `t`. -/
def programContextAt (symbols : SymbolTable) (signals : List (SignalDef D))
    (orders : Nat → List Nat) (ticks : Nat → MarketState D)
    (ctx : SignalContext D (NodeSlot D L)) : Nat → SignalContext D (NodeSlot D L)
  | 0 => ctx
  | t + 1 => (evaluateProgram symbols signals (ticks t) (orders t)
      (programContextAt symbols signals orders ticks ctx t)).2

/-- What the signal at position `i` returns or throws at tick `t`. -/
def programResultAt (symbols : SymbolTable) (signals : List (SignalDef D))
    (orders : Nat → List Nat) (ticks : Nat → MarketState D)
    (ctx : SignalContext D (NodeSlot D L)) (t i : Nat) : Option (Except String D) :=
  (evaluateProgram symbols signals (ticks t) (orders t)
    (programContextAt symbols signals orders ticks ctx t)).1 i

/-- Different signals use different slots, and stateful calls have ids. -/
structure Separated (signals : List (SignalDef D)) : Prop where
  /-- stateful calls have ids -/
  ids : ∀ signal ∈ signals, ∀ c ∈ signal.body.calls, isStatefulOp c.name = true → 0 < c.nodeId
  /-- no slot is used twice -/
  disjoint : ∀ {i j : Nat} {s t : SignalDef D} {n : Nat}, signals[i]? = some s →
    signals[j]? = some t → UsesSlot s.body n → UsesSlot t.body n → i = j

section Shared

variable {symbols : SymbolTable} {signals : List (SignalDef D)}

/-- The other signals leave the slots of a signal alone. -/
theorem evaluateProgram_frame (h : Separated signals) (market : MarketState D) {i : Nat}
    {s : SignalDef D} (hs : signals[i]? = some s) (order : List Nat) (hi : i ∉ order)
    (ctx : SignalContext D (NodeSlot D L)) :
    ContextsAgree (UsesSlot s.body) (evaluateProgram symbols signals market order ctx).2 ctx := by
  induction order generalizing ctx with
  | nil => exact .refl ctx
  | cons j order ih =>
    rw [List.mem_cons, not_or] at hi
    rw [evaluateProgram]
    cases hj : signals[j]? with
    | none => exact ih hi.2 ctx
    | some t =>
      have hframe := (evaluate_local symbols (h.ids t (List.mem_of_getElem? hj))
        market (ContextsAgree.refl ctx)).2.2
      refine (ih hi.2 _).trans ⟨hframe.params, fun n hn => hframe.slots n fun hn' => ?_⟩
      exact hi.1 (h.disjoint hs hj hn hn')

/-- **One tick**: on a context that has its states, a signal does what it does alone. -/
theorem evaluateProgram_alone (h : Separated signals) (market : MarketState D) {i : Nat}
    {s : SignalDef D} (hs : signals[i]? = some s) {order : List Nat} (hnd : order.Nodup)
    (hi : i ∈ order) {ctx alone : SignalContext D (NodeSlot D L)}
    (hctx : ContextsAgree (UsesSlot s.body) ctx alone) :
    (evaluateProgram symbols signals market order ctx).1 i =
        some (evaluate symbols s.body market alone).1 ∧
      ContextsAgree (UsesSlot s.body) (evaluateProgram symbols signals market order ctx).2
        (evaluate symbols s.body market alone).2 := by
  induction order generalizing ctx with
  | nil => exact absurd hi List.not_mem_nil
  | cons j order ih =>
    rw [List.nodup_cons] at hnd
    rw [evaluateProgram]
    by_cases hij : i = j
    · -- its own turn
      subst hij
      obtain ⟨hres, hagree, -⟩ := evaluate_local symbols
        (h.ids s (List.mem_of_getElem? hs)) market hctx
      rw [hs]
      dsimp only
      rw [if_pos rfl, hres]
      exact ⟨rfl, (evaluateProgram_frame h market hs order hnd.1 _).trans hagree⟩
    · have hi : i ∈ order := (List.mem_cons.mp hi).resolve_left hij
      cases hj : signals[j]? with
      | none => exact ih hnd.2 hi hctx
      | some t =>
        -- the turn of another signal
        have hframe := (evaluate_local symbols (h.ids t (List.mem_of_getElem? hj))
          market (ContextsAgree.refl ctx)).2.2
        have hctx' : ContextsAgree (UsesSlot s.body)
            (evaluate symbols t.body market ctx).2 alone :=
          ContextsAgree.trans ⟨hframe.params, fun n hn => hframe.slots n fun hn' =>
            hij (h.disjoint hs hj hn hn')⟩ hctx
        obtain ⟨hres, hagree⟩ := ih hnd.2 hi hctx'
        dsimp only
        rw [if_neg hij]
        exact ⟨hres, hagree⟩

/-- **A signal of a program runs as if it were alone.** -/
theorem programResultAt_alone (h : Separated signals) {orders : Nat → List Nat}
    (horders : ∀ t, (orders t).Perm (List.range signals.length)) (ticks : Nat → MarketState D)
    (ctx : SignalContext D (NodeSlot D L)) {i : Nat} {s : SignalDef D}
    (hs : signals[i]? = some s) (t : Nat) :
    programResultAt symbols signals orders ticks ctx t i =
      some (resultAt symbols s.body ticks ctx t) := by
  have hi : i < signals.length := (List.getElem?_eq_some_iff.mp hs).1
  have hnd : ∀ t, (orders t).Nodup := fun t => (horders t).nodup_iff.mpr List.nodup_range
  have hmem : ∀ t, i ∈ orders t := fun t => (horders t).mem_iff.mpr (List.mem_range.mpr hi)
  have hctx : ∀ t, ContextsAgree (UsesSlot s.body)
      (programContextAt symbols signals orders ticks ctx t) (contextAt symbols s.body ticks ctx t) := by
    intro t
    induction t with
    | zero => exact .refl ctx
    | succ t ih => exact (evaluateProgram_alone h (ticks t) hs (hnd t) (hmem t) ih).2
  exact (evaluateProgram_alone h (ticks t) hs (hnd t) (hmem t) (hctx t)).1

end Shared

/-! ## Ids of a program -/

section Allocated

variable [DecidableEq D]

omit [Fp D] [Fp L] [Widen D L] in
/-- **The ids of the signals of a program** are above those handed out before, and those
of a signal are below those of the signals after it. -/
theorem allocateProgramFrom_ordered {signals : List (SignalDef D)} {n : Int} (hn : 0 < n)
    (hun : ∀ s ∈ signals, Unallocated s.body.calls) :
    (∀ s ∈ allocateProgramFrom signals n, ∀ c ∈ s.body.calls, isStatefulOp c.name = true →
      n ≤ c.nodeId) ∧
    (allocateProgramFrom signals n).Pairwise fun s t =>
      ∀ c ∈ s.body.calls, isStatefulOp c.name = true → ∀ d ∈ t.body.calls,
        isStatefulOp d.name = true → c.nodeId < d.nodeId := by
  induction signals generalizing n with
  | nil => exact ⟨fun _ hs => absurd hs List.not_mem_nil, .nil⟩
  | cons signal rest ih =>
    have ha := allocateWalk_allocates signal.body true ⟨n, []⟩ (AllocState.Ok.init hn)
      (hun signal List.mem_cons_self)
    obtain ⟨hge, hpair⟩ := ih (Int.lt_of_lt_of_le hn ha.le)
      fun s hs => hun s (List.mem_cons_of_mem _ hs)
    -- the ids of the first signal are the new ones of its walk
    have hfirst : ∀ c ∈ (allocateWalk signal.body true ⟨n, []⟩).1.calls,
        isStatefulOp c.name = true →
        n ≤ c.nodeId ∧ c.nodeId < (allocateWalk signal.body true ⟨n, []⟩).2.nextId := by
      intro c hc hst
      obtain ⟨s, hs, hid, -⟩ := ha.found c hc hst
      obtain ⟨new, hnew, hbound, -⟩ := ha.grows
      have hs' := hs
      rw [hnew, List.nil_append] at hs'
      exact ⟨hid ▸ hbound s hs', hid ▸ (ha.ok.range s hs).2⟩
    rw [allocateProgramFrom]
    refine ⟨fun s hs c hc hst => ?_, List.pairwise_cons.mpr ⟨fun t ht c hc hst d hd hst' => ?_,
      hpair⟩⟩
    · rcases List.mem_cons.mp hs with rfl | hs
      · exact (hfirst c hc hst).1
      · exact Int.le_trans ha.le (hge s hs c hc hst)
    · exact Int.lt_of_lt_of_le (hfirst c hc hst).2 (hge t ht d hd hst')

omit [Fp D] [Fp L] [Widen D L] in
/-- The signals of a program with its ids use different slots. -/
theorem separated_allocateProgramNodeIds {signals : List (SignalDef D)}
    (hun : ∀ s ∈ signals, Unallocated s.body.calls) :
    Separated (allocateProgramNodeIds signals) := by
  obtain ⟨hge, hpair⟩ := allocateProgramFrom_ordered (Int.zero_lt_one) hun
  have hids : ∀ s ∈ allocateProgramNodeIds signals, ∀ c ∈ s.body.calls,
      isStatefulOp c.name = true → 0 < c.nodeId := fun s hs c hc hst =>
    Int.lt_of_lt_of_le Int.zero_lt_one (hge s hs c hc hst)
  refine ⟨hids, fun {i j s t n} hs ht hsn htn => ?_⟩
  obtain ⟨c, hc, hst, rfl⟩ := hsn
  obtain ⟨d, hd, hst', hid⟩ := htn
  have hcpos := hids s (List.mem_of_getElem? hs) c hc hst
  have hdpos := hids t (List.mem_of_getElem? ht) d hd hst'
  obtain ⟨hi, rfl⟩ := List.getElem?_eq_some_iff.mp hs
  obtain ⟨hj, rfl⟩ := List.getElem?_eq_some_iff.mp ht
  rw [List.pairwise_iff_getElem] at hpair
  rcases Nat.lt_trichotomy i j with hij | hij | hij
  · have := hpair i j hi hj hij c hc hst d hd hst'
    omega
  · exact hij
  · have := hpair j i hj hi hij d hd hst' c hc hst
    omega

omit [Fp D] [Fp L] [Widen D L] in
/-- The bodies of an allocated program, one by one. -/
theorem allocateProgramFrom_forall₂ {signals : List (SignalDef D)} {n : Int} (hn : 0 < n)
    (hun : ∀ s ∈ signals, Unallocated s.body.calls) :
    List.Forall₂ (fun s t => t.name = s.name ∧ t.body.strip = s.body.strip ∧
      List.Forall₂ Renumbered s.body.calls t.body.calls ∧ ConsistentIds t.body.calls)
      signals (allocateProgramFrom signals n) := by
  induction signals generalizing n with
  | nil => exact .nil
  | cons s rest ih =>
    have ha := allocateWalk_allocates s.body true ⟨n, []⟩ (.init hn) (hun s List.mem_cons_self)
    rw [allocateProgramFrom]
    exact .cons ⟨rfl, allocateWalk_strip s.body true ⟨n, []⟩, ha.renumbered,
      ha.consistentIds (hun s List.mem_cons_self)⟩
      (ih (Int.lt_of_lt_of_le hn ha.le) fun t ht => hun t (List.mem_cons_of_mem _ ht))

omit [Fp D] [Fp L] [Widen D L] in
/-- **The ids of a program are consistent** throughout. -/
theorem consistentIds_allocateProgramNodeIds {signals : List (SignalDef D)}
    (hun : ∀ s ∈ signals, Unallocated s.body.calls) :
    ConsistentIds ((allocateProgramNodeIds signals).flatMap fun s => s.body.calls) := by
  have hall := allocateProgramFrom_forall₂ Int.zero_lt_one hun
  have hids : ∀ s ∈ allocateProgramNodeIds signals, ConsistentIds s.body.calls := by
    intro s hs
    obtain ⟨_, -, -, -, -, h⟩ := forall₂_mem_right hall hs
    exact h
  have hsep := separated_allocateProgramNodeIds hun
  refine ⟨fun c hc hst => ?_, fun c hc hst => ?_, fun c hc d hd hst hid => ?_⟩
  · obtain ⟨s, hs, hc⟩ := List.mem_flatMap.mp hc
    exact (hids s hs).stateful c hc hst
  · obtain ⟨s, hs, hc⟩ := List.mem_flatMap.mp hc
    exact (hids s hs).stateless c hc hst
  · obtain ⟨s, hs, hc⟩ := List.mem_flatMap.mp hc
    obtain ⟨t, ht, hd⟩ := List.mem_flatMap.mp hd
    have hst' : isStatefulOp d.name = true :=
      (hids t ht).stateful_of_pos hd (hid ▸ (hids s hs).stateful c hc hst)
    -- an id belongs to one signal
    obtain ⟨i, hi⟩ := List.mem_iff_getElem?.mp hs
    obtain ⟨j, hj⟩ := List.mem_iff_getElem?.mp ht
    obtain rfl := hsep.disjoint hi hj ⟨c, hc, hst, rfl⟩ ⟨d, hd, hst', by rw [hid]⟩
    rw [hi] at hj
    cases hj
    exact (hids s hs).equal c hc d hd hst hid

omit [Fp D] [Fp L] [Widen D L] [DecidableEq D] in
/-- Inlining leaves all ids unset. -/
theorem unallocated_of_strip {e : Expr D} (h : e.strip = e) : Unallocated e.calls := by
  induction e using Expr.induct with
  | numberLiteral | identifierExpr | parameterExpr => exact fun _ hc => absurd hc List.not_mem_nil
  | unaryOp loc k e ih =>
    simp only [Expr.strip, Expr.unaryOp.injEq, true_and] at h
    exact ih h.2
  | binaryOp loc k l r ihl ihr =>
    simp only [Expr.strip, Expr.binaryOp.injEq, true_and] at h
    exact fun c hc => (List.mem_append.mp hc).elim (ihl h.2.1 c) (ihr h.2.2 c)
  | conditional loc c t e ihc iht ihe =>
    simp only [Expr.strip, Expr.conditional.injEq] at h
    intro d hd
    rw [Expr.calls, List.mem_append, List.mem_append] at hd
    rcases hd with (hd | hd) | hd
    · exact ihc h.2.1 d hd
    · exact iht h.2.2.1 d hd
    · exact ihe h.2.2.2 d hd
  | functionCall loc n args nid sid ih =>
    simp only [Expr.strip, Expr.functionCall.injEq, true_and, Expr.stripArgs_eq_map] at h
    obtain ⟨-, hargs, rfl, rfl⟩ := h
    have hall : ∀ a ∈ args, a.strip = a :=
      List.map_inj_left.mp (hargs.trans (List.map_id' args).symm)
    intro c hc
    rcases List.mem_cons.mp hc with rfl | hc
    · rfl
    · obtain ⟨a, ha, hc⟩ := Expr.mem_callsArgs.mp hc
      exact ih a ha (hall a ha) c hc

omit [Fp D] [Fp L] [Widen D L] [DecidableEq D] in
/-- The bodies that come out of inlining have no ids. -/
theorem unallocated_inlined {order : HashOrder} {signals inlined : List (SignalDef D)}
    (h : inlineSignalDependencies order signals = .ok inlined) :
    ∀ s ∈ inlined, Unallocated s.body.calls := by
  obtain ⟨-, hacyc, index, resolved, hindex, hres, rfl⟩ := inlineSignalDependencies_ok h
  intro r hr
  obtain ⟨i, s, hs, hb⟩ := mem_withBodies hres hr
  exact unallocated_of_strip (hres.clean hindex hacyc hs hb).1

/-- **The signals of a program do not interfere**: two runs on one context each, with the
signals evaluated in any order at each tick, give every signal the same results. -/
theorem signals_do_not_interfere (order : HashOrder) (program : List (SignalDef D))
    {inlined : List (SignalDef D)} (hinline : inlineSignalDependencies order program = .ok inlined)
    (symbols : SymbolTable)
    (ctx : SignalContext D (NodeSlot D L)) (ticks : Nat → MarketState D)
    (orders orders' : Nat → List Nat)
    (horders : ∀ t, (orders t).Perm (List.range (allocateProgramNodeIds inlined).length))
    (horders' : ∀ t, (orders' t).Perm (List.range (allocateProgramNodeIds inlined).length))
    (t : Nat) {i : Nat} (hi : i < (allocateProgramNodeIds inlined).length) :
    programResultAt symbols (allocateProgramNodeIds inlined) orders ticks ctx t i =
        programResultAt symbols (allocateProgramNodeIds inlined) orders' ticks ctx t i ∧
      programResultAt symbols (allocateProgramNodeIds inlined) orders ticks ctx t i ≠ none := by
  have hsep := separated_allocateProgramNodeIds (unallocated_inlined hinline)
  have hs := List.getElem?_eq_getElem hi
  rw [programResultAt_alone hsep horders ticks ctx hs t,
    programResultAt_alone hsep horders' ticks ctx hs t]
  exact ⟨rfl, Option.some_ne_none _⟩

end Allocated

section Two

open Concrete

/-- `a = sma(mid(A), 2)` and `b = a + sma(mid(A), 2)` -/
def sharedAverage : List (SignalDef (Exact ℚ)) :=
  [⟨"a", app "sma" [mid "A", num 2]⟩, ⟨"b", plus (ident "a") (app "sma" [mid "A", num 2])⟩]

theorem signals_do_not_interfere_sharedAverage :
    ∃ inlined, inlineSignalDependencies insertionOrder sharedAverage = .ok inlined ∧
      programResultAt symbols (allocateProgramNodeIds inlined) (fun _ => [0, 1])
          (fun _ => quote 3 1) (SignalContext.fresh [] : SignalContext _ (NodeSlot _ (Exact ℚ))) 4 1 =
        programResultAt symbols (allocateProgramNodeIds inlined) (fun _ => [1, 0])
          (fun _ => quote 3 1) (SignalContext.fresh []) 4 1 :=
  ⟨_, rfl, (signals_do_not_interfere insertionOrder sharedAverage rfl symbols
    (SignalContext.fresh []) (fun _ => quote 3 1) (fun _ => [0, 1]) (fun _ => [1, 0])
    (fun _ => .refl _) (fun _ => .swap _ _ _) 4 (by decide)).1⟩

end Two

end JitSignalEngine
