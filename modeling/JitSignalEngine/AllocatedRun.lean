import JitSignalEngine.Allocation

/-!
# Runs of allocated bodies

A signal is parsed, gets its ids, and is prewarmed into a fresh context; then the ticks
come. This module puts the pieces together: on such a run the interpreter returns, tick
by tick, the value of the plan of the body.

* `prewarmExpr_slots` — what prewarming leaves in a slot.
* `KalmanSafe` — the one condition on a body: the order in which `kalman1d` evaluates
  its operands must not matter for the ids inside shared calls.
* `wellNumbered_allocateNodeIds` — the ids of `AllocateNodeIds` can be followed.
* `interpreter_run` — a run from a fresh context is a run of the plan.
-/

namespace JitSignalEngine

open Fp Widen Dataflow Interpreter

variable {D L : Type}

/-! ## Prewarming -/

/-- Some stateful call of the list owns the slot `m`. -/
def owns (m : Nat) (cs : List (Call D)) : Bool :=
  cs.any fun c => isStatefulOp c.name && decide (0 ≤ c.nodeId) && decide (c.nodeId.toNat = m)

/-- All stateful calls that own the slot `m` are calls of `fn` with the same literal. -/
def OwnedBy (m : Nat) (fn : StatefulFn) (literal : Option D) (cs : List (Call D)) : Prop :=
  ∀ c ∈ cs, 0 ≤ c.nodeId → c.nodeId.toNat = m → ∀ f, Builtin.ofName c.name = some (.stateful f) →
    f = fn ∧ periodLiteral f c.args = literal

theorem owns_append (m : Nat) (cs ds : List (Call D)) :
    owns m (cs ++ ds) = (owns m cs || owns m ds) := List.any_append

theorem OwnedBy.left {m : Nat} {fn : StatefulFn} {literal : Option D} {cs ds : List (Call D)}
    (h : OwnedBy m fn literal (cs ++ ds)) : OwnedBy m fn literal cs :=
  fun c hc => h c (List.mem_append_left _ hc)

theorem OwnedBy.right {m : Nat} {fn : StatefulFn} {literal : Option D} {cs ds : List (Call D)}
    (h : OwnedBy m fn literal (cs ++ ds)) : OwnedBy m fn literal ds :=
  fun c hc => h c (List.mem_append_right _ hc)

section Prewarm

variable {S : Type} {P : S → StatefulFn → Option D → S} {m : Nat} {fn : StatefulFn}
  {literal : Option D}

/-- What is prewarmed twice is prewarmed once. -/
theorem prewarm_both (hP : ∀ s, P (P s fn literal) fn literal = P s fn literal) (a b : Bool)
    (s : S) :
    (if b then P (if a then P s fn literal else s) fn literal else if a then P s fn literal else s)
      = if a || b then P s fn literal else s := by
  cases a <;> cases b <;> simp [hP]

/-- One call of the prewarm walk. -/
theorem prewarmCall_slots {c : Call D} (h : OwnedBy m fn literal [c])
    (ctx : SignalContext D S) :
    (prewarmCall P ctx c.name c.args c.nodeId).slots m =
      if owns m [c] then P (ctx.slots m) fn literal else ctx.slots m := by
  unfold prewarmCall owns
  rcases hname : Builtin.ofName c.name with _ | f | f | f
  · simp [isStatefulOp, hname]
  · simp [isStatefulOp, hname]
  · simp [isStatefulOp, hname]
  · by_cases hid : 0 ≤ c.nodeId
    · by_cases hm : c.nodeId.toNat = m
      · obtain ⟨rfl, hlit⟩ := h c List.mem_cons_self hid hm f hname
        simp [isStatefulOp, hname, hid, hm, hlit, SignalContext.setSlot]
      · simp [isStatefulOp, hname, hid, hm, SignalContext.setSlot, Ne.symm hm]
    · simp [isStatefulOp, hname, hid]

/-- **What prewarming leaves in a slot.** -/
theorem prewarmExpr_slots (hP : ∀ s, P (P s fn literal) fn literal = P s fn literal)
    (e : Expr D) : ∀ ctx : SignalContext D S, OwnedBy m fn literal e.calls →
      (prewarmExpr P e ctx).slots m =
        if owns m e.calls then P (ctx.slots m) fn literal else ctx.slots m := by
  induction e using Expr.induct with
  | numberLiteral | identifierExpr | parameterExpr => intro ctx _; rfl
  | unaryOp loc k e ih => intro ctx h; exact ih ctx h
  | binaryOp loc k l r ihl ihr =>
    intro ctx h
    rw [prewarmExpr, ihr _ h.right, ihl _ h.left, Expr.calls, owns_append, prewarm_both hP]
  | conditional loc c t e ihc iht ihe =>
    intro ctx h
    rw [prewarmExpr, ihe _ h.right, iht _ h.left.right, ihc _ h.left.left, Expr.calls, owns_append,
      owns_append, prewarm_both hP, prewarm_both hP, Bool.or_assoc]
  | functionCall loc n args nid sid ih =>
    intro ctx h
    have hargs : ∀ (as : List (Expr D)), (∀ a ∈ as, a ∈ args) → ∀ ctx : SignalContext D S,
        OwnedBy m fn literal (Expr.callsArgs as) → (prewarmArgs P as ctx).slots m =
          if owns m (Expr.callsArgs as) then P (ctx.slots m) fn literal else ctx.slots m := by
      intro as
      induction as with
      | nil => intro _ ctx _; rfl
      | cons a as iha =>
        intro hmem ctx h
        rw [prewarmArgs, iha (fun b hb => hmem b (List.mem_cons_of_mem _ hb)) _ h.right,
          ih a (hmem a List.mem_cons_self) _ h.left, Expr.callsArgs, owns_append, prewarm_both hP]
    have h : OwnedBy m fn literal ([⟨n, args, nid, sid⟩] ++ Expr.callsArgs args) := h
    have hself := prewarmCall_slots (P := P) h.left ctx
    rw [prewarmExpr, hargs args (fun _ h => h) _ h.right, hself, prewarm_both hP, ← owns_append]
    rfl

/-- What the prewarm of a slot keeps, that of a context keeps. -/
theorem prewarmExpr_keeps {Q : S → Prop} (h : ∀ s fn literal, Q s → Q (P s fn literal))
    (e : Expr D) : ∀ ctx : SignalContext D S, (∀ m, Q (ctx.slots m)) →
      ∀ m, Q ((prewarmExpr P e ctx).slots m) := by
  induction e using Expr.induct with
  | numberLiteral | identifierExpr | parameterExpr => exact fun _ hctx => hctx
  | unaryOp loc k e ih => exact ih
  | binaryOp loc k l r ihl ihr => exact fun ctx hctx => ihr _ (ihl ctx hctx)
  | conditional loc c t e ihc iht ihe => exact fun ctx hctx => ihe _ (iht _ (ihc ctx hctx))
  | functionCall loc n args nid sid ih =>
    intro ctx hctx
    have hargs : ∀ as : List (Expr D), (∀ a ∈ as, a ∈ args) → ∀ ctx : SignalContext D S,
        (∀ m, Q (ctx.slots m)) → ∀ m, Q ((prewarmArgs P as ctx).slots m) := by
      intro as
      induction as with
      | nil => exact fun _ _ hctx => hctx
      | cons a as iha =>
        intro hmem ctx hctx
        exact iha (fun b hb => hmem b (List.mem_cons_of_mem _ hb)) _
          (ih a (hmem a List.mem_cons_self) ctx hctx)
    refine hargs args (fun _ h => h) _ fun m => ?_
    rw [prewarmCall]
    split
    · split
      · dsimp only [SignalContext.setSlot]
        split
        · exact h _ _ _ (hctx _)
        · exact hctx m
      · exact hctx m
    · exact hctx m

/-- Prewarming does not touch the parameters. -/
theorem prewarmExpr_params (e : Expr D) : ∀ ctx : SignalContext D S,
    (prewarmExpr P e ctx).params = ctx.params := by
  induction e using Expr.induct with
  | numberLiteral | identifierExpr | parameterExpr => intro ctx; rfl
  | unaryOp loc k e ih => intro ctx; exact ih ctx
  | binaryOp loc k l r ihl ihr => intro ctx; rw [prewarmExpr, ihr, ihl]
  | conditional loc c t e ihc iht ihe => intro ctx; rw [prewarmExpr, ihe, iht, ihc]
  | functionCall loc n args nid sid ih =>
    intro ctx
    have hargs : ∀ (as : List (Expr D)), (∀ a ∈ as, a ∈ args) → ∀ ctx : SignalContext D S,
        (prewarmArgs P as ctx).params = ctx.params := by
      intro as
      induction as with
      | nil => intro _ ctx; rfl
      | cons a as iha =>
        intro hmem ctx
        rw [prewarmArgs, iha fun b hb => hmem b (List.mem_cons_of_mem _ hb),
          ih a (hmem a List.mem_cons_self)]
    have hself : (prewarmCall P ctx n args nid).params = ctx.params := by
      unfold prewarmCall
      rcases Builtin.ofName n with _ | f | f | f <;> dsimp only
      split <;> rfl
    rw [prewarmExpr, hargs args fun _ h => h, hself]

end Prewarm

/-! ## Consistent ids -/

/-- Ids are there exactly for the stateful calls, and calls with the same id are
structurally equal. -/
structure ConsistentIds (cs : List (Call D)) : Prop where
  /-- stateful calls have ids -/
  stateful : ∀ c ∈ cs, isStatefulOp c.name = true → 0 < c.nodeId
  /-- other calls have none -/
  stateless : ∀ c ∈ cs, isStatefulOp c.name = false → c.nodeId < 0
  /-- an id stands for one call, up to structural equality -/
  equal : ∀ c ∈ cs, ∀ d ∈ cs, isStatefulOp c.name = true → c.nodeId = d.nodeId →
    c.strip = d.strip

/-- Structurally equal calls have the same name and structurally equal arguments. -/
theorem Call.strip_inj {c d : Call D} (h : c.strip = d.strip) :
    c.name = d.name ∧ c.args.map Expr.strip = d.args.map Expr.strip := by
  unfold Call.strip at h
  injection h with _ hname hargs
  exact ⟨hname, hargs⟩

theorem sameFaces_of_strip {as bs : List (Expr D)} (h : as.map Expr.strip = bs.map Expr.strip) :
    SameFaces as bs := by
  induction as generalizing bs with
  | nil =>
    rw [List.map_nil, eq_comm, List.map_eq_nil_iff] at h
    rw [h]
    exact .nil
  | cons a as ih =>
    cases bs with
    | nil => cases h
    | cons b bs =>
      rw [List.map_cons, List.map_cons, List.cons.injEq] at h
      exact .cons (by rw [← a.face_strip, h.1, b.face_strip]) (ih h.2)

theorem sizeArgs_of_strip {as bs : List (Expr D)} (h : as.map Expr.strip = bs.map Expr.strip) :
    Expr.sizeArgs as = Expr.sizeArgs bs := by
  have hsize : ∀ cs : List (Expr D), Expr.sizeArgs (cs.map Expr.strip) = Expr.sizeArgs cs := by
    intro cs
    induction cs with
    | nil => rfl
    | cons c cs ih => rw [List.map_cons, Expr.sizeArgs, Expr.sizeArgs, c.size_strip, ih]
  rw [← hsize as, h, hsize]

theorem periodLiteral_congr (fn : StatefulFn) {as bs : List (Expr D)} (h : SameFaces as bs) :
    periodLiteral fn as = periodLiteral fn bs := by
  have hget : ∀ cs : List (Expr D), periodLiteral fn cs =
      ((cs.map Expr.asNumber)[fn.periodArg]?).join := by
    intro cs
    rw [periodLiteral, List.getElem?_map]
    rcases cs[fn.periodArg]? with _ | c <;> rfl
  rw [hget, hget, h.asNumbers]

namespace ConsistentIds

variable {body : Expr D}

/-- A call with an id is a stateful call. -/
theorem stateful_of_pos {cs : List (Call D)} (h : ConsistentIds cs) {c : Call D} (hc : c ∈ cs)
    (hpos : 0 < c.nodeId) : isStatefulOp c.name = true := by
  cases hst : isStatefulOp c.name with
  | true => rfl
  | false =>
    have := h.stateless c hc hst
    omega

/-- No call occurs inside another call with its id. -/
theorem acyclic (h : ConsistentIds body.calls) {c : Call D} (hc : c ∈ body.calls)
    (hst : isStatefulOp c.name = true) : ∀ d ∈ Expr.callsArgs c.args, d.nodeId ≠ c.nodeId := by
  intro d hd hid
  have hstrip := h.equal c hc d (Expr.callsArgs_subset body hc hd) hst hid.symm
  have hsize := sizeArgs_of_strip (Call.strip_inj hstrip).2
  obtain ⟨a, ha, hda⟩ := Expr.mem_callsArgs.mp hd
  have := Expr.sizeArgs_lt_of_mem_calls a hda
  have := Expr.size_le_sizeArgs ha
  omega

theorem callOk (h : ConsistentIds body.calls) {symbols : SymbolTable}
    (hsym : ∀ c ∈ body.calls, c.SymbolOk symbols) : ∀ c ∈ body.calls, CallOk symbols c :=
  fun c hc => ⟨hsym c hc, h.stateful c hc, h.stateless c hc, h.acyclic hc⟩

/-- The calls that own the slot of a call are calls of the same operator. -/
theorem ownedBy {cs : List (Call D)} (h : ConsistentIds cs) {c : Call D} (hc : c ∈ cs)
    (hpos : 0 < c.nodeId) {fn : StatefulFn} (hfn : Builtin.ofName c.name = some (.stateful fn)) :
    OwnedBy c.nodeId.toNat fn (periodLiteral fn c.args) cs := by
  intro d hd hid hm f hf
  have hst : isStatefulOp c.name = true := isStatefulOp_iff.mpr ⟨fn, hfn⟩
  obtain ⟨hname, hargs⟩ := Call.strip_inj (h.equal c hc d hd hst (by omega))
  rw [hname, hf, Option.some.injEq, Builtin.stateful.injEq] at hfn
  exact ⟨hfn, by rw [hfn, periodLiteral_congr fn (sameFaces_of_strip hargs)]⟩

end ConsistentIds

/-! ## The start of a run -/

section Start

variable [Fp D] [Fp L] [Widen D L]

omit [Fp L] [Widen D L] in
theorem MonoDequeState.monoInit_monoInit (st : MonoDequeState D) (n : Nat) :
    (st.monoInit n).monoInit n = st.monoInit n := by
  unfold monoInit
  by_cases h : st.cap = n + 1
  · rw [if_pos h, if_pos h]
  · rw [if_neg h, if_pos rfl]

omit [Widen D L] in
/-- Prewarming a slot twice is prewarming it once. -/
theorem NodeSlot.prewarm_prewarm (slot : NodeSlot D L) (fn : StatefulFn) (literal : Option D) :
    (slot.prewarm fn literal).prewarm fn literal = slot.prewarm fn literal := by
  have hring : ∀ (st : RingStatsState D L) (n : Nat), (st.prewarm n).prewarm n = st.prewarm n := by
    intro st n
    unfold RingStatsState.prewarm
    by_cases h : 0 < n ∧ st.capacity ≠ n
    · rw [if_pos h, if_neg (fun hc => hc.2 rfl)]
    · rw [if_neg h, if_neg h]
  cases fn with
  | ema => simp only [NodeSlot.prewarm]; split <;> rfl
  | emaAlpha => rfl
  | sma => simp only [NodeSlot.prewarm, hring]
  | rollingStd => simp only [NodeSlot.prewarm, hring]
  | zscore => simp only [NodeSlot.prewarm, hring]
  | vwap =>
    by_cases h : 0 < parsePreparedPeriod literal ∧
      slot.vwap.capacity ≠ parsePreparedPeriod literal
    · simp only [NodeSlot.prewarm, if_pos h]
      exact if_neg fun hc => hc.2 rfl
    · simp only [NodeSlot.prewarm, if_neg h]
  | lag =>
    by_cases h : 0 < parsePreparedPeriod literal ∧ slot.lag.capacity ≠ parsePreparedPeriod literal
    · simp only [NodeSlot.prewarm, if_pos h]
      exact if_neg fun hc => hc.2 rfl
    · simp only [NodeSlot.prewarm, if_neg h]
  | rollingMin =>
    by_cases h : 0 < parsePreparedPeriod literal
    · simp only [NodeSlot.prewarm, if_pos h, MonoDequeState.monoInit_monoInit]
    · simp only [NodeSlot.prewarm, if_neg h]
  | rollingMax =>
    by_cases h : 0 < parsePreparedPeriod literal
    · simp only [NodeSlot.prewarm, if_pos h, MonoDequeState.monoInit_monoInit]
    · simp only [NodeSlot.prewarm, if_neg h]
  | rollingCorr =>
    by_cases h : 0 < parsePreparedPairPeriod literal ∧
      slot.rollingCorr.capacity ≠ parsePreparedPairPeriod literal
    · simp only [NodeSlot.prewarm, if_pos h]
      exact if_neg fun hc => hc.2 rfl
    · simp only [NodeSlot.prewarm, if_neg h]
  | rollingBeta =>
    by_cases h : 0 < parsePreparedPairPeriod literal ∧
      slot.rollingBeta.capacity ≠ parsePreparedPairPeriod literal
    · simp only [NodeSlot.prewarm, if_pos h]
      exact if_neg fun hc => hc.2 rfl
    · simp only [NodeSlot.prewarm, if_neg h]
  | crossAbove => rfl
  | crossBelow => rfl
  | kalman1d => rfl

omit [Widen D L] in
/-- The slot of a decoded operator is the prewarmed slot of its call. -/
theorem StatefulOp.slot_eq {impl : Impl} {fn : StatefulFn} {args : List (Expr D)}
    {op : StatefulOp D} (h : DecodedAs impl fn args op) :
    (op.slot : NodeSlot D L) = NodeSlot.empty.prewarm fn (periodLiteral fn args) := by
  rw [StatefulOp.slot, h.fn_eq]
  rcases h.literal with hlit | hlit
  · rcases h.windowless hlit with rfl | rfl | rfl | rfl <;> rfl
  · rw [hlit]

/-- A context right after it was made, given its parameters, and prewarmed. -/
def freshContext (params : List D) (body : Expr D) : SignalContext D (NodeSlot D L) :=
  prewarmSignalContext (.fresh params) ⟨"", body⟩

omit [Widen D L] in
/-- What a fresh context holds for the id of a stateful call. -/
theorem freshContext_slots {body : Expr D} (hids : ConsistentIds body.calls) (params : List D)
    {c : Call D} (hc : c ∈ body.calls) {fn : StatefulFn}
    (hfn : Builtin.ofName c.name = some (.stateful fn)) :
    (freshContext params body : SignalContext D (NodeSlot D L)).slots c.nodeId.toNat =
      NodeSlot.empty.prewarm fn (periodLiteral fn c.args) := by
  have hst := isStatefulOp_iff.mpr ⟨fn, hfn⟩
  have hpos := hids.stateful c hc hst
  have howns : owns c.nodeId.toNat body.calls = true := by
    refine List.any_eq_true.mpr ⟨c, hc, ?_⟩
    rw [hst, decide_eq_true (Int.le_of_lt hpos), decide_eq_true rfl]
    rfl
  have hslot := prewarmExpr_slots (P := NodeSlot.prewarm) (fun s => s.prewarm_prewarm fn _)
    body (SignalContext.fresh params : SignalContext D (NodeSlot D L)) (hids.ownedBy hc hpos hfn)
  rw [if_pos howns] at hslot
  exact hslot

omit [Fp L] [Widen D L] in
/-- The operator of a site is the one decoded from its call. -/
theorem Extends.decodedAs {env : ScheduleEnv D} {path : Path D} {calls : List (Call D)}
    {δ δ' : Dict D} {sites : List (Int × Site D)} (hx : Extends env path calls δ δ' sites) {n : Int}
    {S : Site D} (hS : (n, S) ∈ sites) {op : StatefulOp D} {plans : List (Plan D)}
    (hplan : S.plan = .call op plans) {fn : StatefulFn}
    (hfn : Builtin.ofName S.name = some (.stateful fn)) :
    env.shape S.name S.args = .stateful op ∧
      DecodedAs (env.impl fn (S.args.map Expr.asNumber)) fn S.args op := by
  have hp := hplan.symm.trans (hx.plan hS)
  rcases decodeCall_stateful env.impl env.symbols S.args hfn with hinv | ⟨op', hshape, hdec⟩
  · rw [show env.shape S.name S.args = .invalid from hinv] at hp
    cases hp
  · rw [show env.shape S.name S.args = .stateful op' from hshape] at hp
    rw [(Term.call.inj hp).1]
    exact ⟨hshape, hdec⟩

/-- **A fresh context is where the schedule starts.** -/
theorem betweenTicks_fresh {symbols : SymbolTable} {body : Expr D}
    (h : WellNumbered symbols body) (hids : ConsistentIds body.calls) (params : List D)
    (ticks : Nat → MarketState D) :
    BetweenTicks params ticks h.table 0 (freshContext params body : SignalContext D (NodeSlot D L)) where
  ctxParams := prewarmExpr_params body _
  slots := by
    intro n S op args hS hplan
    have hx := schedule_extends _ body [] .empty h.nodup
    have hmem := (siteTable_eq_some h.nodup).mp hS
    obtain ⟨hst, c, hc, rfl, hname, hargs⟩ := hx.call hmem
    obtain ⟨fn, hfn⟩ := isStatefulOp_iff.mp hst
    have hdec := (hx.decodedAs hmem hplan hfn).2
    have hfaces : SameFaces S.args c.args := hargs ▸ sameFaces_outline c.args
    have hslot := freshContext_slots (L := L) hids params hc
      (show Builtin.ofName c.name = some (.stateful fn) from hname ▸ hfn)
    rw [slotAt, Semantics.stateAt]
    change _ = (op.slot : NodeSlot D L)
    rw [StatefulOp.slot_eq hdec, periodLiteral_congr fn hfaces]
    exact hslot

end Start

/-! ## The order in which `kalman1d` evaluates its operands -/

/-- Whether a call in the noise arguments of a `kalman1d` that got its id from a call in
the measurement has the same ids inside. An id was handed out inside the `kalman1d`
when it is larger than that of the `kalman1d`. -/
def Call.KalmanSafe (c : Call D) : Prop :=
  match c.args with
  | [x, q, r] => Builtin.ofName c.name = some (.stateful .kalman1d) →
    ∀ a ∈ q.calls ++ r.calls, ∀ b ∈ x.calls, a.nodeId = b.nodeId → c.nodeId < a.nodeId →
      a.outline = b.outline
  | _ => True

/-- `Call.KalmanSafe` of all calls of a body. -/
def KalmanSafe (body : Expr D) : Prop := ∀ c ∈ body.calls, c.KalmanSafe

section Kalman

variable [Fp D] {env : ScheduleEnv D} {body : Expr D}

/-- A site inside the measurement of a `kalman1d` stands for a call there. -/
theorem site_in_measurement (h : (siteIds (schedule env [] body .empty).sites).Nodup) {n : Int}
    {S : Site D} (hS : (n, S) ∈ (schedule env [] body .empty).sites) {x q r : Expr D}
    (hargs : S.args = [x, q, r]) {m : Int} {T : Site D}
    (hT : (m, T) ∈ (schedule env S.path x S.dict).sites) :
    (m, T) ∈ (scheduleArgs env S.path S.args S.dict).sites ∧
      ∃ b ∈ x.calls, b.nodeId = m ∧ LooksLike b T := by
  have hx := schedule_extends env body [] .empty h
  have hnodup := hx.nodup hS
  rw [hargs] at hnodup ⊢
  have hnodup : (siteIds ((schedule env S.path x S.dict).sites ++ _)).Nodup := hnodup
  rw [siteIds, List.map_append, List.nodup_append] at hnodup
  obtain ⟨_, b, hb, hid, hlook⟩ := (schedule_extends env x S.path S.dict hnodup.1).call hT
  exact ⟨List.mem_append_left _ hT, b, hb, hid, hlook⟩

omit [Fp D] in
/-- The calls of an argument's outline are outlines. -/
theorem outline_of_mem_calls {e : Expr D} {c : Call D} (h : c ∈ e.outline.calls) :
    ∃ d ∈ e.calls, c = d.outline := by
  rw [Expr.calls_outline] at h
  obtain ⟨d, hd, rfl⟩ := List.mem_map.mp h
  exact ⟨d, hd, rfl⟩

/-- The condition on the calls of a body implies the one on its sites. -/
theorem kalmanOrdered_of_safe (h : (siteIds (schedule env [] body .empty).sites).Nodup)
    (hord : ∀ {n S}, (n, S) ∈ (schedule env [] body .empty).sites →
      ∀ y ∈ (scheduleArgs env S.path S.args S.dict).sites, n < y.1)
    (hsafe : KalmanSafe body) :
    KalmanOrdered env (siteTable (schedule env [] body .empty).sites) := by
  intro n S hS hname x q r hxqr a ha T hT
  have hmem := (siteTable_eq_some h).mp hS
  obtain ⟨hinner, b, hb, hid, hlook⟩ := site_in_measurement h hmem hxqr hT
  have hlt := hord hmem _ hinner
  obtain ⟨_, c, hc, rfl, hcname, hcargs⟩ := (schedule_extends env body [] .empty h).call hmem
  -- back from the outlines of the site to the call
  rw [hxqr] at hcargs
  obtain ⟨name, args, nid, sid⟩ := c
  obtain ⟨x', l₁, rfl, rfl, h₁⟩ := List.map_eq_cons_iff.mp hcargs
  obtain ⟨q', l₂, rfl, rfl, h₂⟩ := List.map_eq_cons_iff.mp h₁
  obtain ⟨r', l₃, rfl, rfl, h₃⟩ := List.map_eq_cons_iff.mp h₂
  obtain rfl := List.map_eq_nil_iff.mp h₃
  have hkal := hsafe _ hc (hcname ▸ hname)
  obtain ⟨b', hb', rfl⟩ := outline_of_mem_calls hb
  have ⟨a', ha', hao⟩ : ∃ a' ∈ q'.calls ++ r'.calls, a = a'.outline := by
    rcases List.mem_append.mp ha with ha | ha
    · obtain ⟨a', ha', hao⟩ := outline_of_mem_calls ha
      exact ⟨a', List.mem_append_left _ ha', hao⟩
    · obtain ⟨a', ha', hao⟩ := outline_of_mem_calls ha
      exact ⟨a', List.mem_append_right _ ha', hao⟩
  subst hao
  have heq := hkal a' ha' b' hb' hid.symm hlt
  rw [heq]
  exact hlook

end Kalman

/-! ## Runs on the ids of the allocator -/

section Allocated

variable [DecidableEq D]

theorem forall₂_mem_right {α β : Type} {R : α → β → Prop} {as : List α} {bs : List β}
    (h : List.Forall₂ R as bs) {b : β} (hb : b ∈ bs) : ∃ a ∈ as, R a b := by
  induction h with
  | nil => exact absurd hb List.not_mem_nil
  | cons hab _ ih =>
    rcases List.mem_cons.mp hb with rfl | hb
    · exact ⟨_, List.mem_cons_self, hab⟩
    · obtain ⟨a, ha, hR⟩ := ih hb
      exact ⟨a, List.mem_cons_of_mem _ ha, hR⟩

omit [DecidableEq D] in
/-- Allocated ids are consistent. -/
theorem Allocates.consistentIds {u : Bool} {cs cs' : List (Call D)} {us : List (Expr D)}
    {st st' : AllocState D} (h : Allocates u cs us cs' st st') (hun : Unallocated cs) :
    ConsistentIds cs' where
  stateful c hc hst := by
    obtain ⟨s, hs, hid, _⟩ := h.found c hc hst
    exact hid ▸ (h.ok.range s hs).1
  stateless c hc hst := by
    obtain ⟨d, hd, hren⟩ := forall₂_mem_right h.renumbered hc
    rw [hren.stateless (hren.name ▸ hst), hun d hd]
    decide
  equal c hc d hd hst hid := by
    obtain ⟨s, hs, hsid, hsc⟩ := h.found c hc hst
    have hpos := (h.ok.range s hs).1
    have hst' : isStatefulOp d.name = true := by
      cases hst' : isStatefulOp d.name with
      | true => rfl
      | false =>
        obtain ⟨e, he, hren⟩ := forall₂_mem_right h.renumbered hd
        have h₁ := hren.stateless (hren.name ▸ hst')
        have h₂ := hun e he
        omega
    obtain ⟨s', hs', hsid', hsd⟩ := h.found d hd hst'
    obtain rfl := h.ok.unique hs hs' (hsid.trans (hid.trans hsid'.symm))
    exact hsc.symm.trans hsd

omit [DecidableEq D] in
/-- Allocation keeps symbol ids in order. -/
theorem Allocates.symbolOk {u : Bool} {cs cs' : List (Call D)} {us : List (Expr D)}
    {st st' : AllocState D} (h : Allocates u cs us cs' st st') {symbols : SymbolTable}
    (hsym : ∀ c ∈ cs, c.SymbolOk symbols) : ∀ c ∈ cs', c.SymbolOk symbols := by
  intro c hc hf hs a as hargs
  obtain ⟨d, hd, hren⟩ := forall₂_mem_right h.renumbered hc
  have hfaces := sameFaces_of_strip hren.args
  rw [hargs] at hfaces
  cases hd' : d.args with
  | nil => rw [hd'] at hfaces; cases hfaces
  | cons b bs =>
    rw [hd'] at hfaces
    cases hfaces with
    | cons hab _ =>
      obtain ⟨ticker, ht, hl⟩ := hsym d hd (hren.name ▸ hf) (hren.symbolId ▸ hs) b bs hd'
      exact ⟨ticker, (asIdentifier_eq_of_face hab).trans ht, hren.symbolId ▸ hl⟩

variable [Fp D]

/-- The schedule of an allocated body. -/
theorem allocateNodeIds_scheduled (env : ScheduleEnv D) {body : Expr D}
    (hun : Unallocated body.calls) :
    SitesOk env .empty (schedule env [] (allocateNodeIds body) .empty).dict
      (schedule env [] (allocateNodeIds body) .empty).sites ⟨1, []⟩
      (allocateWalk body true ⟨1, []⟩).2 :=
  walk_scheduled env body true ⟨1, []⟩ [] .empty (.init Int.one_pos) hun rfl
    ⟨fun h => (nomatch h), fun _ hs => absurd hs List.not_mem_nil⟩

omit [Fp D] in
theorem allocateNodeIds_allocates {body : Expr D} (hun : Unallocated body.calls) :
    Allocates true body.calls body.unconditional (allocateNodeIds body).calls ⟨1, []⟩
      (allocateWalk body true ⟨1, []⟩).2 :=
  allocateWalk_allocates body true ⟨1, []⟩ (.init Int.one_pos) hun

/-- **The interpreter can be followed on bodies whose ids were handed out** from `n` on. -/
theorem wellNumbered_walk {symbols : SymbolTable} {body : Expr D} (hun : Unallocated body.calls)
    {n : Int} (hn : 0 < n)
    (hsym : ∀ c ∈ (allocateWalk body true ⟨n, []⟩).1.calls, c.SymbolOk symbols)
    (hsafe : KalmanSafe (allocateWalk body true ⟨n, []⟩).1) :
    WellNumbered symbols (allocateWalk body true ⟨n, []⟩).1 :=
  have ha := allocateWalk_allocates body true ⟨n, []⟩ (.init hn) hun
  have hs := walk_scheduled (interpEnv symbols) body true ⟨n, []⟩ [] .empty (.init hn) hun rfl
    ⟨fun h => (nomatch h), fun _ hs => absurd hs List.not_mem_nil⟩
  { callOk := (ha.consistentIds hun).callOk hsym
    nodup := hs.nodup
    kalman := kalmanOrdered_of_safe hs.nodup hs.ordered hsafe }

theorem wellNumbered_allocateNodeIds {symbols : SymbolTable} {body : Expr D}
    (hun : Unallocated body.calls) (hsym : ∀ c ∈ body.calls, c.SymbolOk symbols)
    (hsafe : KalmanSafe (allocateNodeIds body)) : WellNumbered symbols (allocateNodeIds body) :=
  wellNumbered_walk hun Int.one_pos ((allocateNodeIds_allocates hun).symbolOk hsym) hsafe

variable [Fp L] [Widen D L]

variable (L) in
/-- What `Evaluate` returns or throws at tick `t` of a run from a fresh context. -/
def runResult (symbols : SymbolTable) (body : Expr D) (params : List D)
    (ticks : Nat → MarketState D) (t : Nat) : Except String D :=
  resultAt symbols body ticks (freshContext params body : SignalContext D (NodeSlot D L)) t

variable (L) in
/-- The value of the plan of a body at tick `t` of a run. -/
def planValue (symbols : SymbolTable) (body : Expr D) (params : List D)
    (ticks : Nat → MarketState D) (t : Nat) : Option D :=
  (interpSemantics L params).val ticks (planOf (interpEnv symbols) body) always t

omit [DecidableEq D] in
/-- A run of a body whose ids can be followed. -/
theorem interpreter_run {symbols : SymbolTable} {body : Expr D} (h : WellNumbered symbols body)
    (hids : ConsistentIds body.calls) (params : List D) (ticks : Nat → MarketState D) (t : Nat) :
    ((∀ s < t, (runResult L symbols body params ticks s).toOption ≠ none) ↔
      ∀ s < t, planValue L symbols body params ticks s ≠ none) ∧
    ((∀ s < t, planValue L symbols body params ticks s ≠ none) →
      (runResult L symbols body params ticks t).toOption = planValue L symbols body params ticks t) :=
  have hstart := betweenTicks_fresh (L := L) h hids params ticks
  ⟨returns_iff h hstart t, resultAt_eq h hstart t⟩

end Allocated

end JitSignalEngine
