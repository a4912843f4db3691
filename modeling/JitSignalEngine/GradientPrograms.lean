import JitSignalEngine.GradientCalls

/-!
# Compiled gradient programs follow the forward evaluator

A call of a compiled gradient program loads the fields of all tickers, and computes the signals one
after the other, all under one emission cache. The evaluator clears its cache before every signal.
The signals of a program share no ids, so neither finds anything of another signal.

* `ForwardGradient.resultsAt` — the evaluator on all signals at every tick, each tick for its own
  parameter.
* `emitGradientSignals_triple` — the signals.
* `runGradientProgram_follows` — a call.
* `gradient_code_refines_forward` — a run.
-/

namespace JitSignalEngine

open Fp Widen Builder GradientEmitM

variable {D L : Type}

/-! ## The evaluator on a program -/

namespace ForwardGradient

variable [Fp D] [Fp L] [Widen D L]

/-- `EvaluateSignalGradient` on one signal after the other, up to the first exception. -/
def evaluateSignals (symbols : SymbolTable) (market : MarketState D) (paramId : Int) :
    List (SignalDef D) → ForwardState D L → Except String (List (ValueGradient D) × ForwardState D L)
  | [], s => .ok ([], s)
  | signal :: rest, s => do
    let (r, s) := evaluateSignalGradient symbols signal.body market s paramId
    let v ← r
    let (vs, s) ← evaluateSignals symbols market paramId rest s
    .ok (v :: vs, s)

/-- The state before tick `n`. -/
def stateAt (symbols : SymbolTable) (signals : List (SignalDef D)) (ticks : Nat → MarketState D)
    (paramIds : Nat → Int) (s : ForwardState D L) : Nat → Except String (ForwardState D L)
  | 0 => .ok s
  | n + 1 => do
    let s ← stateAt symbols signals ticks paramIds s n
    let (_, s) ← evaluateSignals symbols (ticks n) (paramIds n) signals s
    .ok s

/-- What the signals return at tick `n`. -/
def resultsAt (symbols : SymbolTable) (signals : List (SignalDef D)) (ticks : Nat → MarketState D)
    (paramIds : Nat → Int) (s : ForwardState D L) (n : Nat) :
    Except String (List (ValueGradient D)) := do
  let s ← stateAt symbols signals ticks paramIds s n
  let (vs, _) ← evaluateSignals symbols (ticks n) (paramIds n) signals s
  .ok vs

end ForwardGradient

/-! ## Signals -/

/-- The ids of a body. -/
def Expr.stepIds (e : Expr D) (id : Int) : Prop :=
  ∃ c ∈ e.calls, isStatefulOp c.name = true ∧ c.nodeId = id

/-- No call of the signals was emitted. -/
def NotEmitted (signals : List (SignalDef D)) (s : GradientCg D) : Prop :=
  ∀ signal ∈ signals, ∀ id, signal.body.stepIds id → s.statefulGradEmitCache id = none

/-- The signals share no ids. -/
def DisjointIds (signals : List (SignalDef D)) : Prop :=
  signals.Pairwise fun s t => ∀ id, s.body.stepIds id → ¬ t.body.stepIds id

/-- Emission for other signals. -/
theorem NotEmitted.of_grows {signals : List (SignalDef D)} {ids : Int → Prop} {s s' : GradientCg D}
    (hids : ∀ signal ∈ signals, ∀ id, ids id → ¬ signal.body.stepIds id) (h : s.Grows ids s')
    (hs : NotEmitted signals s) : NotEmitted signals s' := by
  intro signal hsignal id hid
  by_contra hne
  obtain ⟨vg, hvg⟩ := Option.ne_none_iff_exists'.mp hne
  rcases h.cached id vg hvg with hold | ⟨hnew, -⟩
  · rw [hs signal hsignal id hid] at hold
    cases hold
  · exact hids signal hsignal id hnew hid

/-- The call for a signal, after the results in `done` were written. -/
def GradientTick.at (X : GradientTick D) (ids : Int → Prop) (done : List (ValueGradient D)) :
    GradientTick D :=
  { X with
    ids := ids
    written := fun i => done[i]? }

/-- The state of the evaluator between signals. -/
def ForwardState.fresh (fs : ForwardState D L) : ForwardState D L :=
  { fs with cache := fun _ => none }

section Triples

variable [Fp D] {X : GradientTick D} {Γ : List (Operand D × D)} {fs : ForwardState D L}
  {done : List (ValueGradient D)} {s : GradientCg D} {A : Set Name} {f : GradFrame D L}
  {ids : Int → Prop}

/-- **A signal begins.** -/
theorem InStep.enter (h : InStep (X.at (fun _ => False) done) Γ fs.fresh s A f)
    (hnone : ∀ id, ids id → s.statefulGradEmitCache id = none) :
    InStep (X.at ids done) Γ fs.fresh s A f := by
  refine ⟨h.states, { h.caches with cached := fun id vg hid hvg _ => ?_ }, h.live, h.written⟩
  rw [hnone id hid] at hvg
  cases hvg

/-- **A signal ends.** -/
theorem InStep.leave (h : InStep (X.at ids done) Γ fs s A f) :
    InStep (X.at (fun _ => False) done) [] fs.fresh s A f :=
  ⟨{ h.states with }, { h.caches with
    cached := fun _ _ hid => hid.elim
    emitted := fun _ hne => absurd rfl hne }, fun _ hp => absurd hp List.not_mem_nil, h.written⟩

variable [Fp L] [Widen D L]

/-- An instruction without result. -/
theorem emit_triple {i : GradInstr D} (hdefs : i.defs = [])
    {P Q : Assertion (GradientCg D) Name (GradFrame D L)}
    (h : ∀ s A f, P s A f → ∃ f', i.exec X.market X.target f = some f' ∧ Q s A f') :
    Triple X.machine GradInstr.names P (GradientEmitM.emit i) fun _ => Q := by
  refine .instr fun s A f _ hP => ?_
  obtain ⟨f', hexec, hQ⟩ := h s A f hP
  refine ⟨f', hexec, ?_⟩
  have hset : {n | n ∈ GradInstr.names.defs i} ∪ A = A := by
    change {n | n ∈ i.defs} ∪ A = A
    rw [hdefs]
    simp
  rw [hset]
  exact hQ

omit [Fp D] [Fp L] [Widen D L] in
/-- One result more. -/
theorem getElem?_concat_map {α β : Type} (g : α → β) (l : List α) (v : α) (i : Nat) :
    (l ++ [v])[i]?.map g = if i = l.length then some (g v) else l[i]?.map g := by
  rcases Nat.lt_trichotomy i l.length with h | rfl | h
  · rw [List.getElem?_append_left h, if_neg h.ne]
  · rw [if_pos rfl, List.getElem?_concat_length]
    rfl
  · rw [if_neg h.ne', List.getElem?_eq_none (by simpa using Nat.succ_le_of_lt h),
      List.getElem?_eq_none h.le]

/-- **The stores** of a signal, before what follows. -/
theorem store_triple {K : GradientCg D → Prop} {ir : ValueGradientIr D} {v : ValueGradient D}
    {k : GradientEmitM D Unit} {Q : Unit → Assertion (GradientCg D) Name (GradFrame D L)}
    (hk : Triple X.machine GradInstr.names
      (fun s A f => InStep (X.at ids (done ++ [v])) (listPair ir v Γ) fs s A f ∧ K s) k Q) :
    Triple X.machine GradInstr.names
      (fun s A f => InStep (X.at ids done) (listPair ir v Γ) fs s A f ∧ K s)
      (do
        GradientEmitM.emit (.scalar (.store done.length ir.value))
        GradientEmitM.emit (.storeGradient done.length ir.gradient)
        k) Q := by
  refine .bind (Q := fun _ s A f => ∃ f₀ : GradFrame D L,
      (InStep (X.at ids done) (listPair ir v Γ) fs s A f₀ ∧ K s) ∧
        f = { f₀ with scalar := f₀.scalar.store done.length v.value })
    (emit_triple rfl ?_) fun _ => .bind (emit_triple rfl ?_) fun _ => hk
  · intro s A f h
    refine ⟨_, rfl, f, h, ?_⟩
    rw [← h.1.eval .head]
  · rintro s A f ⟨f₀, ⟨h, hK⟩, rfl⟩
    have hg : ir.gradient.eval f₀.scalar.regs = v.gradient := h.eval Listed.head.tail
    refine ⟨_, rfl, ⟨h.states, { h.caches with }, h.live, fun i => ?_⟩, hK⟩
    obtain ⟨hv, hgrad⟩ := h.written i
    dsimp only [GradFrame.storeGradient, Frame.store, GradientTick.at] at hv hgrad ⊢
    rw [getElem?_concat_map, getElem?_concat_map, hv, hgrad, hg]
    exact ⟨rfl, rfl⟩

/-- The names of the signals are not looked at. -/
theorem setSignal_triple {K : GradientCg D → Prop} {name : String} {ir : ValueGradientIr D}
    (hK : ∀ s, K s → K (s.setSignal name ir)) :
    Triple X.machine GradInstr.names (fun s A f => InStep X Γ fs s A f ∧ K s)
      (Builder.modify fun s => s.setSignal name ir) fun _ s A f => InStep X Γ fs s A f ∧ K s :=
  .modify fun _ _ _ h => ⟨⟨h.1.states, { h.1.caches with }, h.1.live, h.1.written⟩, hK _ h.2⟩

/-- A signal the evaluator returns on. -/
theorem evaluateSignalGradient_ok {symbols : SymbolTable} {body : Expr D}
    {market : MarketState D} {target : Nat} {v : ValueGradient D}
    (h : (ForwardGradient.evaluateSignalGradient symbols body market fs target).1 = .ok v) :
    (ForwardGradient.evalExpr symbols market target body).exec fs.fresh = (.ok v,
      (ForwardGradient.evaluateSignalGradient symbols body market fs target).2) := by
  unfold ForwardGradient.evaluateSignalGradient at h ⊢
  split at h
  · cases h
  · rw [if_neg ‹_›]
    split at h
    · cases h
    · rw [if_neg ‹_›]
      exact Prod.ext h rfl

/-- **The signals**, by induction on them. -/
theorem emitGradientSignals_triple {env : EmitEnv} (hids : ConsistentIds X.calls)
    (hzero : lt (ofNat 0 : D) (ofNat 0) = false) {signals : List (SignalDef D)}
    (hmem : ∀ signal ∈ signals, ∀ c ∈ signal.body.calls, c ∈ X.calls)
    (hnoise : ∀ c ∈ X.calls, Builtin.ofName c.name = some (.stateful .kalman1d) →
      NoisesFixed X.params c.args)
    (hdisjoint : DisjointIds signals) (done : List (ValueGradient D)) {vs : List (ValueGradient D)}
    {fs' : ForwardState D L}
    (hvs : ForwardGradient.evaluateSignals env.symbols X.market X.target signals fs =
      .ok (vs, fs')) :
    Triple X.machine GradInstr.names
      (fun s A f => InStep (X.at (fun _ => False) done) [] fs.fresh s A f ∧ NotEmitted signals s)
      (emitGradientSignals env signals done.length)
      fun _ => InStep (X.at (fun _ => False) (done ++ vs)) [] fs'.fresh := by
  induction signals generalizing fs done vs with
  | nil =>
    cases hvs
    rw [List.append_nil]
    exact (Triple.pure ()).conseq (fun _ _ _ h => h) fun _ _ _ _ h => h.2.1
  | cons signal rest ih =>
    obtain ⟨v, hv, hvs⟩ := except_bind_ok.mp hvs
    obtain ⟨⟨ws, fs₂⟩, hws, hvs⟩ := except_bind_ok.mp hvs
    cases hvs
    obtain ⟨hother, hdisjoint⟩ := List.pairwise_cons.mp hdisjoint
    have hcalls := hmem signal List.mem_cons_self
    have hown : ∀ c ∈ signal.body.calls, c.HasId signal.body.stepIds := fun c hc =>
      ⟨fun hst => ⟨hids.stateful c (hcalls c hc) hst, c, hc, hst, rfl⟩,
        fun hst => (hids.stateless c (hcalls c hc) hst).le⟩
    have hbody : EmitsForward (L := L) (X.at signal.body.stepIds done)
        (emitValueGradient env signal.body)
        (ForwardGradient.evalExpr env.symbols X.market X.target signal.body) :=
      emitValueGradient_follows (X := X.at signal.body.stepIds done) hids hzero hcalls hown
        fun c hc => hnoise c (hcalls c hc)
    have htriple := hbody [] fs.fresh v _ (evaluateSignalGradient_ok hv)
    have hrest := ih (fun t ht => hmem t (List.mem_cons_of_mem _ ht)) hdisjoint (done ++ [v]) hws
    rw [List.append_assoc, List.singleton_append, List.length_append, List.length_singleton] at hrest
    rw [emitGradientSignals]
    refine .bind ((htriple.frame (emitValueGradient_grows hown) fun s s' hs =>
      NotEmitted.of_grows hother hs).conseq ?_ fun _ _ _ _ h => h) fun ir => ?_
    · rintro s A f ⟨h, hnone⟩
      exact ⟨h.enter fun id hid => hnone signal List.mem_cons_self id hid,
        fun t ht => hnone t (List.mem_cons_of_mem _ ht)⟩
    · exact .bind (setSignal_triple fun s hs => hs) fun _ =>
        store_triple (hrest.conseq (fun s A f h => ⟨h.1.leave, h.2⟩) fun _ _ _ _ h => h)

/-! ### The loads before the signals -/

omit [Fp D] [Fp L] [Widen D L] in
variable (ids) in
theorem prewarm_grows (env : EmitEnv) (tickers : List String) :
    Moves (GradientCg.Grows (D := D) ids) (liftScalar (prewarmProgramMarketLoads env tickers)) := by
  induction tickers with
  | nil => exact .pure .refl ()
  | cons ticker rest ih =>
    rw [prewarmProgramMarketLoads]
    simp only [liftScalar_bind, liftScalar_lift]
    exact .bind .trans (.lift .refl _) fun symbol => .bind .trans (load_grows symbol .bid)
      fun _ => .bind .trans (load_grows symbol .ask) fun _ => ih

theorem prewarm_triple (env : EmitEnv) (tickers : List String) :
    Triple X.machine GradInstr.names (InStep X [] fs)
      (liftScalar (prewarmProgramMarketLoads env tickers)) fun _ => InStep X [] fs := by
  have hdrop : ∀ {Γ : List (Operand D × D)} {s A} {f : GradFrame D L}, InStep X Γ fs s A f →
      InStep X [] fs s A f := fun h => h.relist fun _ hp => absurd hp List.not_mem_nil
  induction tickers with
  | nil => exact (Triple.pure ()).conseq (fun _ _ _ h => h) fun _ _ _ _ h => h.2
  | cons ticker rest ih =>
    rw [prewarmProgramMarketLoads]
    simp only [liftScalar_bind, liftScalar_lift]
    refine .bind (.lift _) fun symbol => ?_
    refine .bind ((load_triple symbol .bid).conseq (fun _ _ _ h => h.2) fun _ _ _ _ => hdrop)
      fun _ => .bind ((load_triple symbol .ask).conseq (fun _ _ _ h => h) fun _ _ _ _ => hdrop)
        fun _ => ih

end Triples

/-! ## Calls -/

section Runs

variable [Fp D] [Fp L] [Widen D L] {env : EmitEnv} {signals : List (SignalDef D)} {params : List D}
  {code : Code (GradInstr D)}

/-- **A call of the compiled function** returns what the evaluator returns. -/
theorem runGradientProgram_follows
    (hids : ConsistentIds (signals.flatMap fun s => s.body.calls)) (hdisjoint : DisjointIds signals)
    (hzero : lt (ofNat 0 : D) (ofNat 0) = false)
    (hnoise : ∀ c ∈ signals.flatMap fun s => s.body.calls,
      Builtin.ofName c.name = some (.stateful .kalman1d) → NoisesFixed params c.args)
    (hemit : emitGradientProgram env signals = .ok code) (hscope : code.Scoped GradInstr.names ∅)
    {market : MarketState D} {target : Nat} (htarget : target < params.length)
    {fs fs' : ForwardState D L} {ctx : GradientContext D L}
    (hctx : StatesFollow params (signals.flatMap fun s => s.body.calls) fs ctx)
    {vs : List (ValueGradient D)}
    (hvs : ForwardGradient.evaluateSignals env.symbols market target signals fs = .ok (vs, fs')) :
    ∃ f, runGradientProgram code market target ctx = some f ∧
      StatesFollow params (signals.flatMap fun s => s.body.calls) fs' f.context ∧
      ∀ i, f.scalar.outputs i = vs[i]?.map ValueGradient.value ∧
        f.gradients i = vs[i]?.map ValueGradient.gradient := by
  unfold emitGradientProgram at hemit
  split at hemit
  · cases hemit
  · rename_i r hr
    cases hemit
    let X : GradientTick D := ⟨market, params, target, htarget,
      signals.flatMap fun s => s.body.calls, fun _ => False, fun i => ([] : List (ValueGradient D))[i]?⟩
    -- nothing is in scope and nothing was emitted
    have hstart : InStep X [] fs.fresh .init ∅ (.start ctx) := by
      refine ⟨{ hctx with }, ?_, fun _ hp => absurd hp List.not_mem_nil, fun i => ⟨rfl, rfl⟩⟩
      exact
        { scope := fun _ hm => hm.elim
          loaded := fun _ _ _ ha => (nomatch ha)
          stepped := fun _ _ hvg => (nomatch hvg)
          fields := fun _ _ _ ha => (nomatch ha)
          cached := fun _ _ hid => hid.elim
          emitted := fun _ hne => absurd rfl hne }
    have hsignals : Triple X.machine GradInstr.names
        (fun s A f => InStep X [] fs.fresh s A f ∧ NotEmitted signals s)
        (emitGradientSignals env signals 0) fun _ => InStep (X.at (fun _ => False) vs) [] fs'.fresh :=
      emitGradientSignals_triple (X := X) hids hzero
        (fun signal hsignal c hc => List.mem_flatMap.mpr ⟨signal, hsignal, hc⟩) hnoise hdisjoint [] hvs
    have hprogram : Triple X.machine GradInstr.names
        (fun s A f => InStep X [] fs.fresh s A f ∧ NotEmitted signals s)
        (do
          GradientEmitM.emit (.scalar .symbolCtx)
          liftScalar (prewarmProgramMarketLoads env
            (signals.flatMap fun s => collectTickerSymbols s.body))
          emitGradientSignals env signals 0)
        fun _ => InStep (X.at (fun _ => False) vs) [] fs'.fresh :=
      .bind (emit_triple rfl fun s A f h => ⟨f, rfl, h⟩) fun _ =>
        .bind ((prewarm_triple env _).frame (prewarm_grows (fun _ => False) env _)
          fun s s' hs => NotEmitted.of_grows (fun _ _ _ hid => hid.elim) hs) fun _ => hsignals
    obtain ⟨f, hrun, h⟩ := hprogram.apply hr hscope ⟨hstart, fun _ _ _ _ => rfl⟩
    exact ⟨f, hrun, { h.states with }, h.written⟩

/-! ## Runs -/

/-- The context of the compiled program, prewarmed for it, with the sensitivities
`SetStandaloneParameters` leaves. -/
def preparedGradient (params : List D) (signals : List (SignalDef D)) : GradientContext D L :=
  ⟨preparedContext params signals, fun _ => .empty, params.length⟩

omit [Widen D L] in
/-- The prewarm sets up what the helpers rely on. -/
theorem NodeSlot.sizedFor_prewarm (fn : StatefulFn) (literal : Option D) :
    (NodeSlot.empty.prewarm fn literal : NodeSlot D L).SizedFor fn (parsePreparedPeriod literal) := by
  intro hpos
  cases fn with
  | sma =>
    change RingStatsState.Prepared _ (RingStatsState.prewarm .init _)
    rw [RingStatsState.prewarm_init hpos]
    exact .reset hpos
  | lag =>
    have hlag : (NodeSlot.empty.prewarm .lag literal : NodeSlot D L) =
        { NodeSlot.empty with lag := .reset (parsePreparedPeriod literal) } := if_pos ⟨hpos, hpos.ne⟩
    rw [hlag]
    exact .reset hpos
  | rollingMin | rollingMax =>
    simp only [NodeSlot.prewarm, NodeSlot.empty]
    rw [if_pos hpos, RollingMinMaxState.init, MonoDequeState.monoInit_init]
  | ema | emaAlpha | rollingStd | zscore | vwap | rollingCorr | rollingBeta | crossAbove | crossBelow
  | kalman1d => trivial

omit [Widen D L] in
/-- What the prewarm of all signals leaves in a slot. -/
theorem prewarmSignals_slots {m : Nat} {fn : StatefulFn} {literal : Option D}
    (ctx : SignalContext D (NodeSlot D L))
    (h : OwnedBy m fn literal (signals.flatMap fun s => s.body.calls)) :
    (signals.foldl prewarmSignalContext ctx).slots m =
      if owns m (signals.flatMap fun s => s.body.calls) then (ctx.slots m).prewarm fn literal
      else ctx.slots m := by
  have hP : ∀ s : NodeSlot D L, (s.prewarm fn literal).prewarm fn literal = s.prewarm fn literal :=
    fun s => s.prewarm_prewarm fn literal
  induction signals generalizing ctx with
  | nil => rfl
  | cons s rest ih =>
    have h : OwnedBy m fn literal (s.body.calls ++ rest.flatMap fun s => s.body.calls) := h
    rw [List.foldl_cons, ih _ h.right, prewarmSignalContext,
      prewarmExpr_slots hP s.body ctx h.left, prewarm_both hP, ← owns_append]
    rfl

omit [Widen D L] in
/-- What the prewarm leaves for a call. -/
theorem preparedContext_slots (hids : ConsistentIds (signals.flatMap fun s => s.body.calls))
    {c : Call D} (hc : c ∈ signals.flatMap fun s => s.body.calls) {fn : StatefulFn}
    (hfn : Builtin.ofName c.name = some (.stateful fn)) :
    (preparedContext (L := L) params signals).slots c.nodeId.toNat =
      NodeSlot.empty.prewarm fn (periodLiteral fn c.args) := by
  have hst := isStatefulOp_iff.mpr ⟨fn, hfn⟩
  have hpos := hids.stateful c hc hst
  have howns : owns c.nodeId.toNat (signals.flatMap fun s => s.body.calls) = true := by
    refine List.any_eq_true.mpr ⟨c, hc, ?_⟩
    rw [hst, decide_eq_true hpos.le, decide_eq_true rfl]
    rfl
  have hslot := prewarmSignals_slots (SignalContext.fresh params : SignalContext D (NodeSlot D L))
    (hids.ownedBy hc hpos hfn)
  rw [if_pos howns] at hslot
  exact hslot

omit [Widen D L] in
/-- Both start alike. -/
theorem preparedGradient_follows (hids : ConsistentIds (signals.flatMap fun s => s.body.calls))
    (hzero : lt (ofNat 0 : D) (ofNat 0) = false) :
    StatesFollow (L := L) params (signals.flatMap fun s => s.body.calls)
      (preparedForward params signals) (preparedGradient params signals) := by
  obtain ⟨hparams, hslots⟩ := preparedContext_unused (L := L) params signals
  refine ⟨hparams, hparams, rfl, rfl, fun j => ⟨_, rfl⟩, rfl, fun j => ?_, fun c hc fn hfn => ?_⟩
  · change lt ((preparedContext (L := L) params signals).slots j).kalman1d.p (ofNat 0) = false
    rw [(hslots j).kalman1d]
    exact hzero
  · change (((preparedContext (L := L) params signals).slots _).SizedFor fn _)
    rw [preparedContext_slots hids hc hfn]
    exact NodeSlot.sizedFor_prewarm fn _

/-- **A run up to a tick**, by induction on the ticks. -/
theorem gradientContextAt_follows
    (hids : ConsistentIds (signals.flatMap fun s => s.body.calls)) (hdisjoint : DisjointIds signals)
    (hzero : lt (ofNat 0 : D) (ofNat 0) = false)
    (hnoise : ∀ c ∈ signals.flatMap fun s => s.body.calls,
      Builtin.ofName c.name = some (.stateful .kalman1d) → NoisesFixed params c.args)
    (hemit : emitGradientProgram env signals = .ok code) (hscope : code.Scoped GradInstr.names ∅)
    {ticks : Nat → MarketState D} {targets : Nat → Nat} (htargets : ∀ n, targets n < params.length)
    {n : Nat} {fs : ForwardState D L}
    (hfs : ForwardGradient.stateAt env.symbols signals ticks (fun n => targets n)
      (preparedForward params signals) n = .ok fs) :
    ∃ ctx, gradientContextAt code ticks (fun n => targets n) (preparedGradient params signals) n =
        some ctx ∧ StatesFollow params (signals.flatMap fun s => s.body.calls) fs ctx := by
  induction n generalizing fs with
  | zero =>
    cases hfs
    exact ⟨_, rfl, preparedGradient_follows hids hzero⟩
  | succ n ih =>
    obtain ⟨fs₀, hfs₀, hfs⟩ := except_bind_ok.mp hfs
    obtain ⟨⟨vs, fs₁⟩, hvs, hfs⟩ := except_bind_ok.mp hfs
    cases hfs
    obtain ⟨ctx, hctx, hfollows⟩ := ih hfs₀
    obtain ⟨f, hrun, hstates, -⟩ := runGradientProgram_follows hids hdisjoint hzero hnoise hemit hscope
      (htargets n) hfollows hvs
    refine ⟨f.context, ?_, hstates⟩
    rw [gradientContextAt, hctx, Option.bind_some, hrun]
    rfl

omit [Fp D] [Fp L] [Widen D L] in
/-- The ids of an allocated program. -/
theorem disjointIds_allocateProgramNodeIds [DecidableEq D] {program : List (SignalDef D)}
    (hun : ∀ s ∈ program, Unallocated s.body.calls) :
    DisjointIds (allocateProgramNodeIds program) := by
  refine (allocateProgramFrom_ordered Int.zero_lt_one hun).2.imp fun {s t} h => ?_
  rintro id ⟨c, hc, hst, rfl⟩ ⟨d, hd, hst', hid⟩
  have := h c hc hst d hd hst'
  omega

/-- **Compiled gradient programs refine the forward evaluator.** At every tick the caller may ask for
another parameter. Where the evaluator returns on all signals at all ticks so far, the compiled
function returns, and writes the values and the gradients the evaluator returns. The node ids are
those of the set-up pass, the code is in scope as the verifier requires, and the noises of `kalman1d`
are fixed. -/
theorem gradient_code_refines_forward [DecidableEq D] (hzero : lt (ofNat 0 : D) (ofNat 0) = false)
    {program : List (SignalDef D)} (hun : ∀ s ∈ program, Unallocated s.body.calls)
    (hnoise : ∀ s ∈ allocateProgramNodeIds program, ∀ c ∈ s.body.calls,
      Builtin.ofName c.name = some (.stateful .kalman1d) → NoisesFixed params c.args)
    (hemit : emitGradientProgram env (allocateProgramNodeIds program) = .ok code)
    (hscope : code.Scoped GradInstr.names ∅) (ticks : Nat → MarketState D) {targets : Nat → Nat}
    (htargets : ∀ n, targets n < params.length) {n : Nat} {vs : List (ValueGradient D)}
    (hvs : ForwardGradient.resultsAt env.symbols (allocateProgramNodeIds program) ticks
      (fun n => targets n) (preparedForward (L := L) params (allocateProgramNodeIds program)) n =
        .ok vs) :
    ∃ f, gradientFrameAt code ticks (fun n => targets n)
        (preparedGradient (L := L) params (allocateProgramNodeIds program)) n = some f ∧
      ∀ i, f.scalar.outputs i = vs[i]?.map ValueGradient.value ∧
        f.gradients i = vs[i]?.map ValueGradient.gradient := by
  have hids := consistentIds_allocateProgramNodeIds hun
  have hdisjoint := disjointIds_allocateProgramNodeIds hun
  have hnoise : ∀ c ∈ (allocateProgramNodeIds program).flatMap fun s => s.body.calls,
      Builtin.ofName c.name = some (.stateful .kalman1d) → NoisesFixed params c.args :=
    List.forall_mem_flatMap.mpr hnoise
  obtain ⟨fs, hfs, hlast⟩ := except_bind_ok.mp hvs
  obtain ⟨⟨ws, fs'⟩, hws, hlast⟩ := except_bind_ok.mp hlast
  cases hlast
  obtain ⟨ctx, hctx, hfollows⟩ := gradientContextAt_follows hids hdisjoint hzero hnoise hemit hscope
    htargets hfs
  obtain ⟨f, hrun, -, hwritten⟩ := runGradientProgram_follows hids hdisjoint hzero hnoise hemit hscope
    (htargets n) hfollows hws
  exact ⟨f, by rw [gradientFrameAt, hctx, Option.bind_some, hrun], hwritten⟩

end Runs

section Example

open Concrete

/-- Literal noises. -/
theorem noisesFixed_of_literals [Fp D] {params : List D} {args : List (Expr D)} {v : D}
    (hq : (args[1]?.bind Expr.asNumber).isSome = true)
    (hr : args[2]?.bind Expr.asNumber = some v) (hv : NoiseAboveFloor v) :
    NoisesFixed params args := by
  rintro x q r rest rfl
  obtain ⟨u, hu⟩ := Option.isSome_iff_exists.mp hq
  have hnumber : ∀ {e : Expr D} {w : D}, e.asNumber = some w → e.fixedValue params = some w := by
    intro e w he
    cases e with
    | numberLiteral loc y => exact he
    | identifierExpr | parameterExpr | unaryOp | binaryOp | conditional | functionCall => cases he
  exact ⟨Expr.calls_of_fixedValue (hnumber hu), v, hnumber hr, hv⟩

/-- `slope = ema_alpha(p * mid(A), q)` and
`level = if mid(A) > 3 then q * lag(mid(A), 1) else kalman1d(p * mid(A), 0, 1)` -/
def slopeAndLevel : List (SignalDef (Exact ℚ)) :=
  [⟨"slope", app "ema_alpha" [.binaryOp {} .mul (.parameterExpr {} "p" 0) (mid "A"),
      .parameterExpr {} "q" 1]⟩,
    ⟨"level", ifThenElse (gt (mid "A") (num 3))
      (.binaryOp {} .mul (.parameterExpr {} "q" 1) (app "lag" [mid "A", num 1]))
      (app "kalman1d" [.binaryOp {} .mul (.parameterExpr {} "p" 0) (mid "A"), num 0, num 1])⟩]

/-- The price rises. -/
def rise (t : Nat) : MarketState (Exact ℚ) := quote (2 + 2 * t) (2 + 2 * t)

/-- Four ticks, `p = 3` and `q = 1 / 2`, for `p` and for `q` in turn. The last tick is for `q`. -/
theorem gradient_code_refines_forward_slopeAndLevel :
    ∃ code, emitGradientProgram (scalarEnv symbols) (allocateProgramNodeIds slopeAndLevel) =
        .ok code ∧
      ∃ f, gradientFrameAt code rise (fun n => (n % 2 : Nat))
          (preparedGradient (L := Exact ℚ) [.val 3, .val (1 / 2)]
            (allocateProgramNodeIds slopeAndLevel)) 3 = some f ∧
        ∀ i, f.scalar.outputs i = ([⟨.val (75 / 4), .val (27 / 2)⟩, ⟨.val 3, .val 6⟩] :
              List (ValueGradient (Exact ℚ)))[i]?.map ValueGradient.value ∧
          f.gradients i = ([⟨.val (75 / 4), .val (27 / 2)⟩, ⟨.val 3, .val 6⟩] :
              List (ValueGradient (Exact ℚ)))[i]?.map ValueGradient.gradient := by
  have hemit : (emitGradientProgram (scalarEnv symbols)
      (allocateProgramNodeIds slopeAndLevel)).toOption.any (fun code =>
        decide (code.Scoped GradInstr.names ∅)) = true := by decide +kernel
  rw [Option.any_eq_true] at hemit
  obtain ⟨code, hcode, hscope⟩ := hemit
  have hun : ∀ s ∈ slopeAndLevel, ∀ c ∈ s.body.calls, c.nodeId = -1 := by decide +kernel
  have hliterals : ∀ s ∈ allocateProgramNodeIds slopeAndLevel, ∀ c ∈ s.body.calls,
      Builtin.ofName c.name = some (.stateful .kalman1d) →
        (c.args[1]?.bind Expr.asNumber).isSome = true ∧
          c.args[2]?.bind Expr.asNumber = some (.val 1) := by decide +kernel
  refine ⟨code, toOption_eq_some hcode, gradient_code_refines_forward (by decide) hun
    (fun s hs c hc hname => ?_) (toOption_eq_some hcode) (of_decide_eq_true hscope) rise ?_
    (toOption_eq_some (by decide +kernel))⟩
  · obtain ⟨hq, hr⟩ := hliterals s hs c hc hname
    exact noisesFixed_of_literals hq hr (noiseAboveFloor_exact (by norm_num))
  · exact fun n => Nat.mod_lt n Nat.zero_lt_two

end Example

end JitSignalEngine
