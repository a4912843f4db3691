import JitSignalEngine.Inlining
import JitSignalEngine.VectorPrograms

/-!
# Inlined programs agree with their originals

A program can be compiled as it is, with references resolved through `signal_values`, or after
`InlineSignalDependencies`, with a copy of a body for every reference. The copies of a stateful
body own states of their own. They stay in step with the original when all of them are stepped at
every tick, that is when no copy is stepped in a branch only.

* `everyTick` — the plan of an expression whose calls are all stepped at every tick. It does not
  look at ids.
* `schedule_everyTick` — what is stepped outside branches follows that plan.
* `everyTickPlans_inlined` — inlining keeps it.
* `inlined_code_agrees` — the two programs compile together, and write the same.
-/

namespace JitSignalEngine

open Fp Widen Dataflow EmittedTick

variable {D L : Type}

/-! ## Plans without ids -/

section EveryTick

variable [Fp D] (env : ScheduleEnv D)

mutual

/-- The plan of an expression all of whose calls are stepped at every tick. -/
def everyTick : Expr D → Plan D
  | .numberLiteral _ v => .leaf (.number v)
  | .identifierExpr _ n => (env.refs n).getD (.leaf .fail)
  | .parameterExpr _ _ i => .leaf (.param i)
  | .unaryOp _ k e => .map (.op k) (everyTick e)
  | .binaryOp _ k a b => .zip k (everyTick a) (everyTick b)
  | .conditional _ c a b => .cond (everyTick c) (everyTick a) (everyTick b)
  | .functionCall _ name args _ _ => .now (callPlan (env.shape name args) (everyTickArgs args))

/-- `everyTick` on an argument list. -/
def everyTickArgs : List (Expr D) → List (Plan D)
  | [] => []
  | a :: as => everyTick a :: everyTickArgs as

end

theorem everyTickArgs_eq (args : List (Expr D)) :
    everyTickArgs env args = args.map (everyTick env) := by
  induction args with
  | nil => rfl
  | cons a as ih => rw [everyTickArgs, ih, List.map_cons]

variable {env}

theorem everyTick_steady (hrefs : ∀ n p, env.refs n = some p → p.Steady) (e : Expr D) :
    (everyTick env e).Steady := by
  induction e using Expr.induct with
  | numberLiteral | parameterExpr | functionCall => trivial
  | identifierExpr loc n =>
    rw [everyTick]
    rcases hn : env.refs n with _ | p
    · trivial
    · exact hrefs n p hn
  | unaryOp loc k e ih => exact ih
  | binaryOp loc k a b iha ihb => exact ⟨iha, ihb⟩
  | conditional loc c a b ihc iha ihb => exact ⟨ihc, iha, ihb⟩

/-- Ids do not matter. -/
theorem everyTick_strip (e : Expr D) : everyTick env e.strip = everyTick env e := by
  induction e using Expr.induct with
  | numberLiteral | identifierExpr | parameterExpr => rfl
  | unaryOp loc k e ih => rw [Expr.strip, everyTick, everyTick, ih]
  | binaryOp loc k a b iha ihb => rw [Expr.strip, everyTick, everyTick, iha, ihb]
  | conditional loc c a b ihc iha ihb => rw [Expr.strip, everyTick, everyTick, ihc, iha, ihb]
  | functionCall loc name args nid sid ih =>
    have hargs : args.map (everyTick env ∘ Expr.strip) = args.map (everyTick env) :=
      List.map_congr_left ih
    have hfaces : SameFaces (args.map Expr.strip) args := by
      refine sameFaces_of_strip ?_
      rw [List.map_map]
      exact List.map_congr_left fun a _ => a.strip_strip
    rw [Expr.strip, Expr.stripArgs_eq_map, everyTick, everyTick, everyTickArgs_eq, everyTickArgs_eq,
      List.map_map, hargs, ScheduleEnv.shape, ScheduleEnv.shape, decodeCall_congr _ _ _ hfaces]

/-- Structurally equal calls have one plan. -/
theorem Call.everyTick_congr {c d : Call D} (h : c.strip = d.strip) :
    callPlan (env.shape c.name c.args) (everyTickArgs env c.args) =
      callPlan (env.shape d.name d.args) (everyTickArgs env d.args) := by
  have hplans := congrArg (everyTick env) h
  have hcall : ∀ c : Call D, everyTick env c.strip =
      .now (callPlan (env.shape c.name c.args) (everyTickArgs env c.args)) := by
    intro c
    have hstrip : everyTick env _ = everyTick env _ :=
      everyTick_strip (.functionCall {} c.name c.args c.nodeId c.symbolId)
    rw [Expr.strip, Expr.stripArgs_eq_map] at hstrip
    rw [Call.strip, hstrip, everyTick]
  rw [hcall, hcall] at hplans
  injection hplans

end EveryTick

/-! ## What is stepped outside branches -/

section Flat

variable {S : Type} {M : Semantics (Leaf D) UnaryFn BinaryOpKind (StatefulOp D) (MarketState D) D S}
  {ticks : Nat → MarketState D}

theorem same_callPlan (shape : CallShape D) {ps qs : List (Plan D)}
    (h : List.Forall₂ (M.Same ticks) ps qs) :
    M.Same ticks (callPlan shape ps) (callPlan shape qs) := by
  cases shape with
  | invalid => exact .refl _
  | market => exact .refl _
  | math fn =>
    cases h with
    | nil => exact .refl _
    | cons hp hps =>
      cases hps with
      | nil => exact hp.map _
      | cons => exact .refl _
  | stateful op => exact .call (List.forall₂_take op.fn.arity h) op

/-- Only stateful calls are stepped. -/
theorem steady_callPlan {shape : CallShape D} (hshape : ∀ op, shape ≠ .stateful op)
    {ps : List (Plan D)} (h : ∀ p ∈ ps, p.Steady) : (callPlan shape ps).Steady := by
  cases shape with
  | invalid | market => trivial
  | math fn =>
    rcases ps with _ | ⟨p, _ | ⟨_, _⟩⟩
    · trivial
    · exact h p List.mem_cons_self
    · trivial
  | stateful op => exact absurd rfl (hshape op)

variable [Fp D] {env env' : ScheduleEnv D} {cs : List (Call D)}

variable (M ticks env') in
/-- **The dictionary invariant**: what an id stands for is the call stepped at every tick. -/
def Dict.EveryTick (δ : Dict D) (cs : List (Call D)) : Prop :=
  ∀ c ∈ cs, ∀ p, δ c.nodeId = some p →
    M.Same ticks p (callPlan (env'.shape c.name c.args) (everyTickArgs env' c.args))

variable (M ticks env') in
/-- A plan at a position is one that is stepped at every tick. -/
structure StepsEveryTick (cs : List (Call D)) (path : Path D) (δ : Dict D) (p q : Plan D) :
    Prop where
  /-- so are the plans of ids -/
  dict : δ.EveryTick M ticks env' cs
  /-- in a branch nothing is stepped -/
  steady : path ≠ [] → p.Steady
  /-- the values -/
  same : M.Same ticks p q

/-- Other references. -/
structure RefsAgree (M : Semantics (Leaf D) UnaryFn BinaryOpKind (StatefulOp D) (MarketState D) D S)
    (ticks : Nat → MarketState D) (env env' : ScheduleEnv D) : Prop where
  /-- tickers are the same -/
  symbols : env'.symbols = env.symbols
  /-- operators are implemented in the same way -/
  impl : env'.impl = env.impl
  /-- references have the same values -/
  refs : ∀ n, Option.Rel (M.Same ticks) (env.refs n) (env'.refs n)
  /-- at every position -/
  steady : ∀ n p, env'.refs n = some p → p.Steady

theorem RefsAgree.shape (h : RefsAgree M ticks env env') (name : String) (args : List (Expr D)) :
    env'.shape name args = env.shape name args := by
  rw [ScheduleEnv.shape, ScheduleEnv.shape, h.symbols, h.impl]

/-- **A schedule without calls in branches** has the values of the calls stepped at every tick. -/
theorem schedule_everyTick (henv : RefsAgree M ticks env env') (hids : ConsistentIds cs)
    (e : Expr D) : ∀ (path : Path D) (δ : Dict D), (∀ c ∈ e.calls, c ∈ cs) →
      δ.EveryTick M ticks env' cs → (∀ x ∈ (schedule env path e δ).sites, x.2.path = []) →
      StepsEveryTick M ticks env' cs path (schedule env path e δ).dict (schedule env path e δ).plan
        (everyTick env' e) := by
  induction e using Expr.induct with
  | numberLiteral | parameterExpr => exact fun path δ _ hδ _ => ⟨hδ, fun _ => trivial, .refl _⟩
  | identifierExpr loc n =>
    intro path δ _ hδ _
    have hn := henv.refs n
    rw [schedule, everyTick, refPlan]
    rcases hp : env.refs n with _ | p <;> rcases hq : env'.refs n with _ | q <;>
      rw [hp, hq] at hn <;> cases hn
    · exact ⟨hδ, fun _ => trivial, .refl _⟩
    · rename_i hpq
      exact ⟨hδ, fun _ => trivial, (Semantics.same_now p).trans hpq⟩
  | unaryOp loc k e ih =>
    intro path δ hcs hδ hflat
    obtain ⟨hd, hs, he⟩ := ih path δ hcs hδ hflat
    exact ⟨hd, hs, he.map _⟩
  | binaryOp loc k a b iha ihb =>
    intro path δ hcs hδ hflat
    have hcs : ∀ c ∈ a.calls ++ b.calls, c ∈ cs := hcs
    rw [List.forall_mem_append] at hcs
    rw [schedule, List.forall_mem_append] at hflat
    obtain ⟨hda, hsa, ha⟩ := iha path δ hcs.1 hδ hflat.1
    obtain ⟨hdb, hsb, hb⟩ := ihb path _ hcs.2 hda hflat.2
    exact ⟨hdb, fun hne => ⟨hsa hne, hsb hne⟩, ha.zip hb _⟩
  | conditional loc c a b ihc iha ihb =>
    intro path δ hcs hδ hflat
    have hcs : ∀ x ∈ c.calls ++ a.calls ++ b.calls, x ∈ cs := hcs
    rw [List.forall_mem_append, List.forall_mem_append] at hcs
    rw [schedule, List.forall_mem_append, List.forall_mem_append] at hflat
    obtain ⟨hdc, hsc, hc⟩ := ihc path δ hcs.1.1 hδ hflat.1.1
    obtain ⟨hda, hsa, ha⟩ := iha _ _ hcs.1.2 hdc hflat.1.2
    obtain ⟨hdb, hsb, hb⟩ := ihb _ _ hcs.2 hda hflat.2
    have hsa := hsa (List.cons_ne_nil _ _)
    have hsb := hsb (List.cons_ne_nil _ _)
    exact ⟨hdb, fun hne => ⟨hsc hne, hsa, hsb⟩, hc.cond ha hb hsa hsb
      (everyTick_steady henv.steady a) (everyTick_steady henv.steady b)⟩
  | functionCall loc name args nid sid ih =>
    intro path δ hcs hδ hflat
    have hargs : ∀ as : List (Expr D), (∀ a ∈ as, a ∈ args) → ∀ δ : Dict D,
        δ.EveryTick M ticks env' cs → (∀ x ∈ (scheduleArgs env path as δ).sites, x.2.path = []) →
        (scheduleArgs env path as δ).dict.EveryTick M ticks env' cs ∧
          (path ≠ [] → ∀ p ∈ (scheduleArgs env path as δ).plans, p.Steady) ∧
          List.Forall₂ (M.Same ticks) (scheduleArgs env path as δ).plans
            (everyTickArgs env' as) := by
      intro as
      induction as with
      | nil => exact fun _ _ hδ _ => ⟨hδ, fun _ _ hp => absurd hp List.not_mem_nil, .nil⟩
      | cons a as iha =>
        intro hmem δ hδ hflat
        rw [scheduleArgs, List.forall_mem_append] at hflat
        obtain ⟨hda, hsa, ha⟩ := ih a (hmem a List.mem_cons_self) path δ
          (fun c hc => hcs c (List.mem_cons_of_mem _
            (Expr.mem_callsArgs.mpr ⟨a, hmem a List.mem_cons_self, hc⟩))) hδ hflat.1
        obtain ⟨hds, hss, has⟩ := iha (fun b hb => hmem b (List.mem_cons_of_mem _ hb)) _ hda hflat.2
        exact ⟨hds, fun hne => List.forall_mem_cons.mpr ⟨hsa hne, hss hne⟩, .cons ha has⟩
    have hmem : ⟨name, args, nid, sid⟩ ∈ cs := hcs _ List.mem_cons_self
    rcases hn : δ nid with _ | p
    · rw [schedule_fresh env hn] at hflat ⊢
      unfold scheduleCall at hflat ⊢
      rw [everyTick]
      cases hst : isStatefulOp name with
      | true =>
        rw [hst, if_pos rfl] at hflat
        rw [if_pos rfl]
        have hpath : path = [] := hflat _ List.mem_cons_self
        obtain ⟨hd, -, has⟩ := hargs args (fun _ h => h) δ hδ
          fun x hx => hflat x (List.mem_cons_of_mem _ hx)
        have hsame : M.Same ticks
            (callPlan (env.shape name args) (scheduleArgs env path args δ).plans)
            (callPlan (env'.shape name args) (everyTickArgs env' args)) := by
          rw [henv.shape]
          exact same_callPlan _ has
        refine ⟨?_, fun hne => absurd hpath hne, hsame.trans (Semantics.same_now _).symm⟩
        rw [if_pos (by rw [hpath]; rfl)]
        intro c hc p hp
        dsimp only at hp
        by_cases hcn : c.nodeId = nid
        · rw [hcn, Dict.insert_self, Option.some.injEq] at hp
          rw [← hp, ← Call.everyTick_congr (hids.equal _ hmem c hc hst hcn.symm)]
          exact hsame
        · rw [Dict.insert_ne _ _ hcn] at hp
          exact hd c hc p hp
      | false =>
        rw [hst, if_neg Bool.false_ne_true] at hflat
        rw [if_neg Bool.false_ne_true]
        obtain ⟨hd, hs, has⟩ := hargs args (fun _ h => h) δ hδ hflat
        refine ⟨hd, fun hne => steady_callPlan (decodeCall_stateless (-1) hst) (hs hne), ?_⟩
        rw [henv.shape]
        exact (same_callPlan _ has).trans (Semantics.same_now _).symm
    · rw [schedule_alias env hn, everyTick]
      exact ⟨hδ, fun _ => trivial,
        (Semantics.same_now p).trans ((hδ _ hmem p hn).trans (Semantics.same_now _).symm)⟩

/-- The plans of the signals, when all calls are stepped at every tick. -/
def everyTickPlans (env : ScheduleEnv D) : List (SignalDef D) → List (Plan D)
  | [] => []
  | s :: rest =>
    everyTick env s.body :: everyTickPlans (env.addRef s.name (everyTick env s.body)) rest

omit [Fp D] in
theorem RefsAgree.addRef (h : RefsAgree M ticks env env') (name : String) {p q : Plan D}
    (hpq : M.Same ticks p q) (hq : q.Steady) :
    RefsAgree M ticks (env.addRef name p) (env'.addRef name q) where
  symbols := h.symbols
  impl := h.impl
  refs n := by
    unfold ScheduleEnv.addRef
    dsimp only
    split
    · exact .some hpq
    · exact h.refs n
  steady n r hr := by
    unfold ScheduleEnv.addRef at hr
    dsimp only at hr
    split at hr
    · cases hr
      exact hq
    · exact h.steady n r hr

/-- **The plans of a program** that steps all calls outside branches. -/
theorem programPlans_everyTick (henv : RefsAgree M ticks env env') {signals : List (SignalDef D)}
    (hids : ∀ s ∈ signals, ConsistentIds s.body.calls) (hout : SteppedOutside env signals) :
    List.Forall₂ (M.Same ticks) (programPlans env signals) (everyTickPlans env' signals) := by
  induction signals generalizing env env' with
  | nil => exact .nil
  | cons s rest ih =>
    rw [SteppedOutside, programSites, List.forall_mem_append] at hout
    have hbody := (schedule_everyTick henv (hids s List.mem_cons_self) s.body [] .empty
      (fun _ hc => hc) (fun _ _ _ hp => by cases hp) hout.1).same
    exact .cons hbody (ih (henv.addRef s.name hbody (everyTick_steady henv.steady s.body))
      (fun t ht => hids t (List.mem_cons_of_mem _ ht)) hout.2)

/-- Ids do not matter. -/
theorem everyTickPlans_congr (env : ScheduleEnv D) {signals signals' : List (SignalDef D)}
    (h : List.Forall₂ (fun s t => t.name = s.name ∧ t.body.strip = s.body.strip) signals signals') :
    everyTickPlans env signals' = everyTickPlans env signals := by
  induction h generalizing env with
  | nil => rfl
  | @cons s t ss ts hst _ ih =>
    have hbody : everyTick env t.body = everyTick env s.body := by
      rw [← everyTick_strip t.body, hst.2, everyTick_strip]
    rw [everyTickPlans, everyTickPlans, hbody, hst.1, ih]

end Flat

/-! ## References -/

section References

variable [Fp D] {defs : String → Option (Expr D)}

omit [Fp D] in
/-- Literals stay. -/
theorem Expr.replaceRefs_of_number {a : Expr D} {v : D} (h : a.asNumber = some v) :
    a.replaceRefs defs = a := by
  cases a with
  | numberLiteral => rfl
  | _ => cases h

omit [Fp D] in
/-- Only references become literals. -/
theorem Expr.asNumber_replaceRefs {a : Expr D} (h : a.asIdentifier = none) :
    (a.replaceRefs defs).asNumber = a.asNumber := by
  cases a with
  | identifierExpr => cases h
  | _ => rfl

/-- The arguments of a call after inlining. -/
def replacedArgs (defs : String → Option (Expr D)) (name : String) (args : List (Expr D)) :
    List (Expr D) :=
  if isTickerFirstArgFn name then Expr.replaceRefsCall defs args else Expr.replaceRefsArgs defs args

omit [Fp D] in
theorem length_replacedArgs (name : String) (args : List (Expr D)) :
    (replacedArgs defs name args).length = args.length := by
  unfold replacedArgs
  split
  · cases args with
    | nil => rfl
    | cons a as =>
      rw [Expr.replaceRefsCall, Expr.replaceRefsArgs_eq, List.length_cons, List.length_map,
        List.length_cons]
  · rw [Expr.replaceRefsArgs_eq, List.length_map]

variable (defs) in
/-- Operands may be replaced, the window and the ticker may not. -/
theorem decodeStateful_replaceRefs {impl : Impl} {symbols : SymbolTable} {fn : StatefulFn}
    {args : List (Expr D)} (hvalid : decodeStateful impl symbols fn args (-1) ≠ .invalid) :
    decodeStateful impl symbols fn (if fn = .vwap then Expr.replaceRefsCall defs args
        else Expr.replaceRefsArgs defs args) (-1) =
      decodeStateful impl symbols fn args (-1) := by
  rcases args with _ | ⟨a, _ | ⟨b, _ | ⟨c, _ | ⟨d, as⟩⟩⟩⟩
  · cases fn <;> rfl
  · cases fn <;> rfl
  · rcases hb : b.asNumber with _ | v
    · cases fn
      case emaAlpha | crossAbove | crossBelow => rfl
      all_goals simp [decodeStateful, decodeWindow, hb] at hvalid
    · have hkept : b.replaceRefs defs = b := Expr.replaceRefs_of_number hb
      cases fn <;>
        simp [decodeStateful, Expr.replaceRefsArgs, Expr.replaceRefsCall, hkept]
  · rcases hc : c.asNumber with _ | v
    · cases fn
      case kalman1d => rfl
      all_goals simp [decodeStateful, decodeWindow, hc] at hvalid
    · have hkept : c.replaceRefs defs = c := Expr.replaceRefs_of_number hc
      cases fn <;>
        simp [decodeStateful, Expr.replaceRefsArgs, Expr.replaceRefsCall, hkept]
  · cases fn <;> exact absurd rfl hvalid

/-- Outside `kalman1d` the flags alone decide. -/
theorem loweringEnv_impl_literals (symbols : SymbolTable) (flags : StatefulLoweringFlags)
    {fn : StatefulFn} (h : fn ≠ .kalman1d) (literals literals' : List (Option D)) :
    (loweringEnv symbols flags).impl fn literals =
      (loweringEnv symbols flags).impl fn literals' := by
  have himpl : ∀ literals : List (Option D), (loweringEnv symbols flags).impl fn literals =
      if (fn.loweringFlag.map flags).getD false then .lowered else .runtime := by
    intro literals
    cases fn with
    | kalman1d => exact absurd rfl h
    | sma =>
      unfold EmitEnv.impl loweringEnv
      dsimp only
      split
      · cases ‹StatefulFn.sma = .kalman1d›
      · rfl
      · rfl
    | _ => rfl
  rw [himpl, himpl]

/-- Where `kalman1d` is lowered, its noise is given without references. -/
def Call.NoiseKept (flags : StatefulLoweringFlags) (c : Call D) : Prop :=
  flags .kalman1d = true → Builtin.ofName c.name = some (.stateful .kalman1d) →
    ∀ a ∈ c.args.drop 1, a.asIdentifier = none

theorem loweringEnv_impl_replaceRefs (symbols : SymbolTable) {flags : StatefulLoweringFlags}
    {fn : StatefulFn} {args : List (Expr D)} (h : fn = .kalman1d → flags .kalman1d = true →
      ∀ a ∈ args.drop 1, a.asIdentifier = none) :
    (loweringEnv symbols flags).impl fn ((Expr.replaceRefsArgs defs args).map Expr.asNumber) =
      (loweringEnv symbols flags).impl fn (args.map Expr.asNumber) := by
  by_cases hfn : fn = .kalman1d
  · subst hfn
    rw [Expr.replaceRefsArgs_eq]
    cases hflag : flags .kalman1d with
    | false =>
      have hruntime : ∀ literals : List (Option D),
          (loweringEnv symbols flags).impl .kalman1d literals = .runtime := by
        intro literals
        rcases loweringEnv_impl symbols flags .kalman1d literals with h | ⟨-, flag, hf, hset⟩
        · exact h
        · cases hf
          rw [hflag] at hset
          cases hset
      rw [hruntime, hruntime]
    | true =>
      rcases args with _ | ⟨x, as⟩
      · rfl
      · have hrest : (as.map (·.replaceRefs defs)).map Expr.asNumber = as.map Expr.asNumber := by
          rw [List.map_map]
          exact List.map_congr_left fun a ha => Expr.asNumber_replaceRefs (h rfl hflag a ha)
        rw [List.map_cons, List.map_cons, hrest, List.map_cons]
        unfold EmitEnv.impl
        dsimp only
        rcases as.map Expr.asNumber with _ | ⟨q, _ | ⟨r, _ | ⟨_, _⟩⟩⟩ <;> rfl
  · exact loweringEnv_impl_literals symbols flags hfn _ _

/-- **The shape of a call** is kept when references are replaced. -/
theorem decodeCall_replaceRefs {symbols : SymbolTable} {flags : StatefulLoweringFlags}
    {name : String}
    {args : List (Expr D)} {nid sid : Int}
    (hvalid : decodeCall (loweringEnv symbols flags).impl symbols name args (-1) ≠ .invalid)
    (hkept : Call.NoiseKept flags ⟨name, args, nid, sid⟩) :
    decodeCall (loweringEnv symbols flags).impl symbols name (replacedArgs defs name args) (-1) =
      decodeCall (loweringEnv symbols flags).impl symbols name args (-1) := by
  unfold replacedArgs isTickerFirstArgFn
  unfold decodeCall at hvalid ⊢
  unfold Call.NoiseKept at hkept
  rcases hname : Builtin.ofName name with _ | fn | fn | fn <;> rw [hname] at hvalid hkept <;>
    dsimp only at hvalid ⊢
  · rw [if_pos rfl]
    rcases hargs : args with _ | ⟨a, _ | ⟨b, as⟩⟩
    · rfl
    · rfl
    · rfl
  · rw [if_neg Bool.false_ne_true]
    rcases hargs : args with _ | ⟨a, _ | ⟨b, as⟩⟩
    · rfl
    · rfl
    · rfl
  · by_cases hfn : fn = .vwap
    · subst hfn
      rw [if_pos rfl, ← decodeStateful_replaceRefs defs hvalid, if_pos rfl,
        loweringEnv_impl_literals symbols flags (by decide) _ (args.map Expr.asNumber)]
    · rw [if_neg (by cases fn <;> first | exact Bool.false_ne_true | exact absurd rfl hfn),
        loweringEnv_impl_replaceRefs symbols fun hk hflag => hkept hflag (by rw [hk])]
      have hkeeps := decodeStateful_replaceRefs defs hvalid
      rwa [if_neg hfn] at hkeeps

omit [Fp D] in
theorem CallShape.ne_invalid {shape : CallShape D} (h : shape.isValid = true) :
    shape ≠ .invalid := by
  rintro rfl
  cases h

omit [Fp D] in
theorem callPlan_congr {shape : CallShape D} {ps qs : List (Plan D)} (hlen : ps.length = qs.length)
    (h : ps.take shape.arity = qs.take shape.arity) : callPlan shape ps = callPlan shape qs := by
  cases shape with
  | invalid | market => rfl
  | math fn =>
    have h : ps.take 1 = qs.take 1 := h
    rcases ps with _ | ⟨p, _ | ⟨_, _⟩⟩ <;> rcases qs with _ | ⟨q, _ | ⟨_, _⟩⟩ <;>
      first | (cases h; rfl) | cases hlen
  | stateful op => exact congrArg (Term.call op) h

/-- What tickers belong to is not evaluated. -/
theorem arity_of_tickerFirst {impl : StatefulFn → List (Option D) → Impl} {symbols : SymbolTable}
    {name : String} (h : isTickerFirstArgFn name = true) (args : List (Expr D)) :
    (decodeCall impl symbols name args (-1)).arity = 0 := by
  unfold isTickerFirstArgFn at h
  unfold decodeCall
  rcases hname : Builtin.ofName name with _ | fn | fn | fn <;> rw [hname] at h <;> dsimp only at h ⊢
  · rfl
  · split
    · split <;> rfl
    · rfl
  · cases h
  · cases fn
    case vwap =>
      unfold decodeStateful
      split
      all_goals first | rfl | (split <;> rfl)
    all_goals cases h

/-- The arguments a call evaluates are replaced. -/
theorem take_replacedArgs {impl : StatefulFn → List (Option D) → Impl} {symbols : SymbolTable}
    (name : String) (args args' : List (Expr D)) :
    (replacedArgs defs name args).take (decodeCall impl symbols name args' (-1)).arity =
      (args.take (decodeCall impl symbols name args' (-1)).arity).map (·.replaceRefs defs) := by
  unfold replacedArgs
  split
  · rename_i hticker
    rw [arity_of_tickerFirst hticker, List.take_zero, List.take_zero, List.map_nil]
  · rw [Expr.replaceRefsArgs_eq, List.map_take]

variable {symbols : SymbolTable} {flags : StatefulLoweringFlags} {names names' : String → Bool}

/-- **Inlining keeps the plan.** -/
theorem everyTick_replaceRefs {refs refs' : String → Option (Plan D)}
    (hnames : ∀ n, names n = true → ∃ b, defs n = some b ∧ refs n =
      some (everyTick { (loweringEnv symbols flags).toSchedule with refs := refs' } b)) (e : Expr D)
    (hacc : e.accepted (loweringEnv symbols flags) names = true)
    (hkept : ∀ c ∈ e.calls, c.NoiseKept flags) :
    everyTick { (loweringEnv symbols flags).toSchedule with refs := refs' } (e.replaceRefs defs) =
      everyTick { (loweringEnv symbols flags).toSchedule with refs := refs } e := by
  induction e using Expr.induct with
  | numberLiteral | parameterExpr => rfl
  | identifierExpr loc n =>
    obtain ⟨b, hb, hn⟩ := hnames n hacc
    rw [Expr.replaceRefs, hb, Option.getD_some, everyTick]
    dsimp only
    rw [hn, Option.getD_some]
  | unaryOp loc k e ih => rw [Expr.replaceRefs, everyTick, everyTick, ih hacc hkept]
  | binaryOp loc k a b iha ihb =>
    rw [Expr.accepted, Bool.and_eq_true] at hacc
    have hkept : ∀ c ∈ a.calls ++ b.calls, c.NoiseKept flags := hkept
    rw [List.forall_mem_append] at hkept
    rw [Expr.replaceRefs, everyTick, everyTick, iha hacc.1 hkept.1, ihb hacc.2 hkept.2]
  | conditional loc c a b ihc iha ihb =>
    rw [Expr.accepted, Bool.and_eq_true, Bool.and_eq_true] at hacc
    have hkept : ∀ x ∈ c.calls ++ a.calls ++ b.calls, x.NoiseKept flags := hkept
    rw [List.forall_mem_append, List.forall_mem_append] at hkept
    rw [Expr.replaceRefs, everyTick, everyTick, ihc hacc.1 hkept.1.1, iha hacc.2.1 hkept.1.2,
      ihb hacc.2.2 hkept.2]
  | functionCall loc name args nid sid ih =>
    obtain ⟨hvalid, hargs⟩ := Expr.accepted_functionCall.mp hacc
    have hshape : ScheduleEnv.shape { (loweringEnv symbols flags).toSchedule with refs := refs' }
          name (replacedArgs defs name args) =
        ScheduleEnv.shape { (loweringEnv symbols flags).toSchedule with refs := refs } name args :=
      decodeCall_replaceRefs (CallShape.ne_invalid hvalid) (hkept _ List.mem_cons_self)
    change everyTick _ (.functionCall loc name (replacedArgs defs name args) nid sid) = _
    rw [everyTick, everyTick, everyTickArgs_eq, everyTickArgs_eq, hshape]
    refine congrArg Term.now (callPlan_congr ?_ ?_)
    · rw [List.length_map, List.length_map, length_replacedArgs]
    · rw [← List.map_take, ← List.map_take, ScheduleEnv.shape, take_replacedArgs, List.map_map]
      refine List.map_congr_left fun a ha => ih a (List.mem_of_mem_take ha) (hargs a ha) ?_
      intro c hc
      exact hkept c (List.mem_cons_of_mem _
        (Expr.mem_callsArgs.mpr ⟨a, List.mem_of_mem_take ha, hc⟩))

/-- Inlining keeps what can be emitted. -/
theorem Expr.accepted_replaceRefs (hnames : ∀ n, names n = true → ∃ b, defs n = some b ∧
      b.accepted (loweringEnv symbols flags) names' = true) (e : Expr D)
    (hacc : e.accepted (loweringEnv symbols flags) names = true)
    (hkept : ∀ c ∈ e.calls, c.NoiseKept flags) :
    (e.replaceRefs defs).accepted (loweringEnv symbols flags) names' = true := by
  induction e using Expr.induct with
  | numberLiteral => rfl
  | parameterExpr => exact hacc
  | identifierExpr loc n =>
    obtain ⟨b, hb, hn⟩ := hnames n hacc
    rwa [Expr.replaceRefs, hb]
  | unaryOp loc k e ih => exact ih hacc hkept
  | binaryOp loc k a b iha ihb =>
    rw [Expr.accepted, Bool.and_eq_true] at hacc
    have hkept : ∀ c ∈ a.calls ++ b.calls, c.NoiseKept flags := hkept
    rw [List.forall_mem_append] at hkept
    rw [Expr.replaceRefs, Expr.accepted, iha hacc.1 hkept.1, ihb hacc.2 hkept.2, Bool.true_and]
  | conditional loc c a b ihc iha ihb =>
    rw [Expr.accepted, Bool.and_eq_true, Bool.and_eq_true] at hacc
    have hkept : ∀ x ∈ c.calls ++ a.calls ++ b.calls, x.NoiseKept flags := hkept
    rw [List.forall_mem_append, List.forall_mem_append] at hkept
    rw [Expr.replaceRefs, Expr.accepted, ihc hacc.1 hkept.1.1, iha hacc.2.1 hkept.1.2,
      ihb hacc.2.2 hkept.2, Bool.true_and, Bool.true_and]
  | functionCall loc name args nid sid ih =>
    obtain ⟨hvalid, hargs⟩ := Expr.accepted_functionCall.mp hacc
    have hshape : decodeCall (loweringEnv symbols flags).impl (loweringEnv symbols flags).symbols
        name (replacedArgs defs name args) (-1) = _ :=
      decodeCall_replaceRefs (CallShape.ne_invalid hvalid) (hkept _ List.mem_cons_self)
    change (Expr.functionCall loc name (replacedArgs defs name args) nid sid).accepted _ _ = true
    refine Expr.accepted_functionCall.mpr ⟨(congrArg CallShape.isValid hshape).trans hvalid, ?_⟩
    · dsimp only
      rw [hshape, take_replacedArgs, List.forall_mem_map]
      refine fun a ha => ih a (List.mem_of_mem_take ha) (hargs a ha) fun c hc => ?_
      exact hkept c (List.mem_cons_of_mem _
        (Expr.mem_callsArgs.mpr ⟨a, List.mem_of_mem_take ha, hc⟩))

/-- What a call without ticker does not evaluate is a literal. -/
theorem number_of_rest {impl : StatefulFn → List (Option D) → Impl} {name : String}
    {args : List (Expr D)} (hvalid : decodeCall impl symbols name args (-1) ≠ .invalid)
    (hticker : isTickerFirstArgFn name = false) :
    ∀ a ∈ args.drop (decodeCall impl symbols name args (-1)).arity, ∃ v, a.asNumber = some v := by
  unfold isTickerFirstArgFn at hticker
  unfold decodeCall at hvalid ⊢
  rcases hname : Builtin.ofName name with _ | fn | fn | fn <;> rw [hname] at hticker hvalid <;>
    dsimp only at hticker hvalid ⊢
  · exact absurd rfl hvalid
  · cases hticker
  · rcases args with _ | ⟨a, _ | ⟨b, as⟩⟩
    · exact absurd rfl hvalid
    · exact fun _ hb => absurd hb List.not_mem_nil
    · exact absurd rfl hvalid
  · rcases decodeStateful_inv (impl fn (args.map Expr.asNumber)) symbols fn args with
      hinvalid | ⟨op, hop, hdec⟩
    · exact absurd hinvalid hvalid
    rw [hop, CallShape.arity, hdec.fn_eq]
    have hwindow : ∀ w : Expr D, w.asNumber = none → decodeWindow fn w = none := by
      intro w hw
      rw [decodeWindow, hw]
    rcases args with _ | ⟨a, _ | ⟨b, _ | ⟨c, _ | ⟨d, as⟩⟩⟩⟩
    · exact fun x hx => absurd (List.mem_of_mem_drop hx) List.not_mem_nil
    · cases fn <;> exact absurd rfl hvalid
    · rcases hb : b.asNumber with _ | v
      · cases fn
        case emaAlpha | crossAbove | crossBelow => exact fun x hx => absurd hx List.not_mem_nil
        case vwap => cases hticker
        all_goals simp [decodeStateful, hwindow b hb] at hvalid
      · cases fn
        case vwap => cases hticker
        case emaAlpha | crossAbove | crossBelow => exact fun x hx => absurd hx List.not_mem_nil
        case kalman1d | rollingCorr | rollingBeta => exact absurd rfl hvalid
        all_goals exact List.forall_mem_singleton.mpr ⟨v, hb⟩
    · rcases hc : c.asNumber with _ | v
      · cases fn
        case kalman1d => exact fun x hx => absurd hx List.not_mem_nil
        all_goals simp [decodeStateful, hwindow c hc] at hvalid
      · cases fn
        case kalman1d => exact fun x hx => absurd hx List.not_mem_nil
        case rollingCorr | rollingBeta => exact List.forall_mem_singleton.mpr ⟨v, hc⟩
        all_goals exact absurd rfl hvalid
    · cases fn <;> exact absurd rfl hvalid

/-- Nothing is replaced in a call with a ticker. -/
theorem replacedArgs_of_ticker {impl : StatefulFn → List (Option D) → Impl} {name : String}
    {args : List (Expr D)} (hvalid : decodeCall impl symbols name args (-1) ≠ .invalid)
    (hticker : isTickerFirstArgFn name = true) : replacedArgs defs name args = args := by
  rw [replacedArgs, if_pos hticker]
  unfold isTickerFirstArgFn at hticker
  unfold decodeCall at hvalid
  rcases hname : Builtin.ofName name with _ | fn | fn | fn <;> rw [hname] at hticker hvalid <;>
    dsimp only at hticker hvalid
  · cases hticker
  · rcases args with _ | ⟨a, _ | ⟨b, as⟩⟩
    · rfl
    · rfl
    · exact absurd rfl hvalid
  · cases hticker
  · cases fn
    case vwap =>
      rcases args with _ | ⟨t, _ | ⟨w, _ | ⟨_, _⟩⟩⟩
      · rfl
      · rfl
      · rcases hw : w.asNumber with _ | v
        · simp [decodeStateful, decodeWindow, hw] at hvalid
        · rw [Expr.replaceRefsCall, Expr.replaceRefsArgs, Expr.replaceRefsArgs,
            Expr.replaceRefs_of_number hw]
      · exact absurd rfl hvalid
    all_goals cases hticker

omit [Fp D] in
theorem mem_collectTickerArgs {t : String} {as : List (Expr D)} :
    t ∈ collectTickerArgs as ↔ ∃ a ∈ as, t ∈ collectTickerSymbols a := by
  induction as with
  | nil => simp [collectTickerArgs]
  | cons a as ih => rw [collectTickerArgs, List.mem_append, ih, List.exists_mem_cons_iff]

/-- Inlining keeps the tickers. -/
theorem collectTickerSymbols_replaceRefs {P : String → Prop} (hnames : ∀ n, names n = true →
      ∃ b, defs n = some b ∧ ∀ t ∈ collectTickerSymbols b, P t) (e : Expr D)
    (hacc : e.accepted (loweringEnv symbols flags) names = true)
    (htickers : ∀ t ∈ collectTickerSymbols e, P t) :
    ∀ t ∈ collectTickerSymbols (e.replaceRefs defs), P t := by
  induction e using Expr.induct with
  | numberLiteral | parameterExpr => exact htickers
  | identifierExpr loc n =>
    obtain ⟨b, hb, hn⟩ := hnames n hacc
    rwa [Expr.replaceRefs, hb]
  | unaryOp loc k e ih => exact ih hacc htickers
  | binaryOp loc k a b iha ihb =>
    rw [Expr.accepted, Bool.and_eq_true] at hacc
    rw [collectTickerSymbols, List.forall_mem_append] at htickers
    rw [Expr.replaceRefs, collectTickerSymbols, List.forall_mem_append]
    exact ⟨iha hacc.1 htickers.1, ihb hacc.2 htickers.2⟩
  | conditional loc c a b ihc iha ihb =>
    rw [Expr.accepted, Bool.and_eq_true, Bool.and_eq_true] at hacc
    rw [collectTickerSymbols, List.forall_mem_append, List.forall_mem_append] at htickers
    rw [Expr.replaceRefs, collectTickerSymbols, List.forall_mem_append, List.forall_mem_append]
    exact ⟨⟨ihc hacc.1 htickers.1.1, iha hacc.2.1 htickers.1.2⟩, ihb hacc.2.2 htickers.2⟩
  | functionCall loc name args nid sid ih =>
    obtain ⟨hvalid, hargs⟩ := Expr.accepted_functionCall.mp hacc
    change ∀ t ∈ collectTickerSymbols
      (.functionCall loc name (replacedArgs defs name args) nid sid), P t
    cases hticker : isTickerFirstArgFn name with
    | true => rwa [replacedArgs_of_ticker (CallShape.ne_invalid hvalid) hticker]
    | false =>
      rw [collectTickerSymbols, List.forall_mem_append] at htickers ⊢
      rw [hticker, if_neg Bool.false_ne_true]
      refine ⟨fun t ht => absurd ht List.not_mem_nil, fun t ht => ?_⟩
      obtain ⟨b, hb, htb⟩ := mem_collectTickerArgs.mp ht
      rw [replacedArgs, hticker, if_neg Bool.false_ne_true, Expr.replaceRefsArgs_eq] at hb
      obtain ⟨a, ha, rfl⟩ := List.mem_map.mp hb
      have hta : ∀ t ∈ collectTickerSymbols a, P t :=
        fun t ht => htickers.2 t (mem_collectTickerArgs.mpr ⟨a, ha, ht⟩)
      rcases List.mem_append.mp (List.take_append_drop (decodeCall (loweringEnv symbols flags).impl
        (loweringEnv symbols flags).symbols name args (-1)).arity args ▸ ha) with htake | hdrop
      · exact ih a ha (hargs a htake) hta t htb
      · obtain ⟨v, hv⟩ := number_of_rest (CallShape.ne_invalid hvalid) hticker a hdrop
        rw [Expr.replaceRefs_of_number hv] at htb
        exact hta t htb

omit [Fp D] in
/-- The calls of a stripped expression. -/
theorem Expr.calls_strip (e : Expr D) : e.strip.calls =
    e.calls.map fun c => ⟨c.name, c.args.map Expr.strip, -1, -1⟩ := by
  induction e using Expr.induct with
  | numberLiteral | identifierExpr | parameterExpr => rfl
  | unaryOp loc k e ih => exact ih
  | binaryOp loc k l r ihl ihr => rw [Expr.strip, Expr.calls, Expr.calls, ihl, ihr, List.map_append]
  | conditional loc c t e ihc iht ihe =>
    rw [Expr.strip, Expr.calls, Expr.calls, ihc, iht, ihe, List.map_append, List.map_append]
  | functionCall loc n args nid sid ih =>
    have hargs : ∀ as : List (Expr D), (∀ a ∈ as, a ∈ args) →
        Expr.callsArgs (as.map Expr.strip) =
          (Expr.callsArgs as).map fun c => ⟨c.name, c.args.map Expr.strip, -1, -1⟩ := by
      intro as
      induction as with
      | nil => exact fun _ => rfl
      | cons a as iha =>
        intro hmem
        rw [List.map_cons, Expr.callsArgs, Expr.callsArgs, ih a (hmem a List.mem_cons_self),
          iha fun b hb => hmem b (List.mem_cons_of_mem _ hb), List.map_append]
    rw [Expr.strip, Expr.stripArgs_eq_map, Expr.calls, Expr.calls, hargs args fun _ h => h,
      List.map_cons]

omit [Fp D] in
theorem mem_collectTickerSymbols_strip {t : String} {e : Expr D} :
    t ∈ collectTickerSymbols e.strip ↔ t ∈ collectTickerSymbols e := by
  rw [mem_collectTickerSymbols, mem_collectTickerSymbols, Expr.calls_strip]
  simp only [List.mem_map, exists_exists_and_eq_and]
  refine exists_congr fun c => and_congr_right fun _ => and_congr_right fun _ => ?_
  rcases c.args with _ | ⟨a, as⟩
  · exact ⟨fun ⟨_, _, h, _⟩ => (nomatch h), fun ⟨_, _, h, _⟩ => (nomatch h)⟩
  · have hface := asIdentifier_eq_of_face a.face_strip
    rw [List.map_cons]
    constructor
    · rintro ⟨_, _, h, ht⟩
      cases h
      exact ⟨a, as, rfl, hface.symm.trans ht⟩
    · rintro ⟨_, _, h, ht⟩
      cases h
      exact ⟨a.strip, as.map Expr.strip, rfl, hface.trans ht⟩

/-! ## Programs -/

/-- Bodies that refer to no signal. -/
theorem everyTick_refs {refs refs' : String → Option (Plan D)} (e : Expr D)
    (hacc : e.accepted (loweringEnv symbols flags) (fun _ => false) = true) :
    everyTick { (loweringEnv symbols flags).toSchedule with refs := refs } e =
      everyTick { (loweringEnv symbols flags).toSchedule with refs := refs' } e := by
  induction e using Expr.induct with
  | numberLiteral | parameterExpr => rfl
  | identifierExpr => cases hacc
  | unaryOp loc k e ih => rw [everyTick, everyTick, ih hacc]
  | binaryOp loc k a b iha ihb =>
    rw [Expr.accepted, Bool.and_eq_true] at hacc
    rw [everyTick, everyTick, iha hacc.1, ihb hacc.2]
  | conditional loc c a b ihc iha ihb =>
    rw [Expr.accepted, Bool.and_eq_true, Bool.and_eq_true] at hacc
    rw [everyTick, everyTick, ihc hacc.1, iha hacc.2.1, ihb hacc.2.2]
  | functionCall loc name args nid sid ih =>
    obtain ⟨-, hargs⟩ := Expr.accepted_functionCall.mp hacc
    rw [everyTick, everyTick, everyTickArgs_eq, everyTickArgs_eq]
    refine congrArg Term.now (callPlan_congr ?_ ?_)
    · rw [List.length_map, List.length_map]
    · rw [← List.map_take, ← List.map_take]
      exact List.map_congr_left fun a ha => ih a (List.mem_of_mem_take ha) (hargs a ha)

variable (symbols flags) in
/-- What inlining makes of a signal. -/
structure InlinedBody (b : Expr D) : Prop where
  /-- it can be emitted without signals -/
  accepted : b.accepted (loweringEnv symbols flags) (fun _ => false) = true
  /-- its tickers are registered -/
  tickers : ∀ t ∈ collectTickerSymbols b, ∃ id, symbols.lookupId t = .ok id

/-- **Inlining keeps the plans of a program.** -/
theorem everyTickPlans_inlined {program inlined : List (SignalDef D)}
    (hinlined : List.Forall₂ (fun s r => r.body = (s.body.replaceRefs defs).strip ∧
      defs s.name = some r.body) program inlined) {refs : String → Option (Plan D)}
    (hnames : ∀ n, names n = true → ∃ b, defs n = some b ∧ InlinedBody symbols flags b ∧
      refs n = some (everyTick (loweringEnv symbols flags).toSchedule b))
    (hacc : acceptedSignals (loweringEnv symbols flags) program names)
    (hkept : ∀ s ∈ program, ∀ c ∈ s.body.calls, c.NoiseKept flags)
    (htickers : ∀ s ∈ program, ∀ t ∈ collectTickerSymbols s.body,
      ∃ id, symbols.lookupId t = .ok id) :
    everyTickPlans { (loweringEnv symbols flags).toSchedule with refs := refs } program =
        inlined.map (fun r => everyTick (loweringEnv symbols flags).toSchedule r.body) ∧
      ∀ r ∈ inlined, InlinedBody symbols flags r.body := by
  induction hinlined generalizing names refs with
  | nil => exact ⟨rfl, fun _ hr => absurd hr List.not_mem_nil⟩
  | @cons s r ss rs hsr hrest ih =>
    obtain ⟨hbody, hdef⟩ := hsr
    have hk := hkept s List.mem_cons_self
    have hplan : everyTick { (loweringEnv symbols flags).toSchedule with refs := refs } s.body =
        everyTick (loweringEnv symbols flags).toSchedule r.body := by
      rw [hbody, everyTick_strip]
      refine (everyTick_replaceRefs (fun n hn => ?_) s.body hacc.1 hk).symm
      obtain ⟨b, hb, -, href⟩ := hnames n hn
      exact ⟨b, hb, href⟩
    have hr : InlinedBody symbols flags r.body := by
      refine ⟨?_, ?_⟩
      · rw [hbody, Expr.accepted_strip]
        refine Expr.accepted_replaceRefs (fun n hn => ?_) s.body hacc.1 hk
        obtain ⟨b, hb, hib, -⟩ := hnames n hn
        exact ⟨b, hb, hib.accepted⟩
      · intro t ht
        rw [hbody, mem_collectTickerSymbols_strip] at ht
        refine collectTickerSymbols_replaceRefs (fun n hn => ?_) s.body hacc.1
          (htickers s List.mem_cons_self) t ht
        obtain ⟨b, hb, hib, -⟩ := hnames n hn
        exact ⟨b, hb, hib.tickers⟩
    have hnames' : ∀ n, (n == s.name || names n) = true → ∃ b, defs n = some b ∧
        InlinedBody symbols flags b ∧ (if n = s.name then
          some (everyTick (loweringEnv symbols flags).toSchedule r.body) else refs n) =
            some (everyTick (loweringEnv symbols flags).toSchedule b) := by
      intro n hn
      by_cases hns : n = s.name
      · rw [if_pos hns]
        exact ⟨r.body, hns ▸ hdef, hr, rfl⟩
      · rw [if_neg hns]
        rw [beq_false_of_ne hns, Bool.false_or] at hn
        exact hnames n hn
    obtain ⟨hplans, hbodies⟩ := ih hnames' hacc.2 (fun t ht => hkept t (List.mem_cons_of_mem _ ht))
      fun t ht => htickers t (List.mem_cons_of_mem _ ht)
    rw [everyTickPlans, hplan, List.map_cons]
    exact ⟨congrArg _ hplans, List.forall_mem_cons.mpr ⟨hr, hbodies⟩⟩

/-- The plans of inlined bodies. -/
theorem everyTickPlans_of_inlined {inlined : List (SignalDef D)}
    (h : ∀ r ∈ inlined, InlinedBody symbols flags r.body) (refs : String → Option (Plan D)) :
    everyTickPlans { (loweringEnv symbols flags).toSchedule with refs := refs } inlined =
      inlined.map fun r => everyTick (loweringEnv symbols flags).toSchedule r.body := by
  induction inlined generalizing refs with
  | nil => rfl
  | cons r rest ih =>
    rw [everyTickPlans, List.map_cons]
    exact congrArg₂ _ (everyTick_refs r.body (h r List.mem_cons_self).accepted)
      (ih (fun t ht => h t (List.mem_cons_of_mem _ ht)) _)

omit [Fp D] in
theorem bodyOf_of_mem {signals : List (SignalDef D)} (hnd : (signals.map (·.name)).Nodup)
    {s : SignalDef D} (hs : s ∈ signals) : bodyOf signals s.name = some s.body := by
  induction signals with
  | nil => exact absurd hs List.not_mem_nil
  | cons a rest ih =>
    rw [List.map_cons, List.nodup_cons] at hnd
    rcases List.mem_cons.mp hs with rfl | hs
    · rw [bodyOf, List.find?_cons_of_pos (by simp), Option.map_some]
    · have hne : a.name ≠ s.name := fun h => hnd.1 (h ▸ List.mem_map_of_mem hs)
      rw [bodyOf, List.find?_cons_of_neg (by simpa using hne)]
      exact ih hnd.2 hs

omit [Fp D] in
/-- What inlining returns, signal by signal. -/
theorem inlined_forall₂ {order : HashOrder} {program inlined : List (SignalDef D)}
    (hinline : inlineSignalDependencies order program = .ok inlined)
    (hnames : ∀ s ∈ program, ∀ n ∈ tickers s.body, n ∉ program.map (·.name)) :
    List.Forall₂ (fun s r => r.body = (s.body.replaceRefs (bodyOf inlined)).strip ∧
      bodyOf inlined s.name = some r.body) program inlined := by
  obtain ⟨herr, -, hok⟩ := inlineSignalDependencies_exact program hnames
  obtain ⟨-, hlen, hbodies, -⟩ := hok order inlined hinline
  have hnd : (program.map (·.name)).Nodup := by
    by_contra hnd
    obtain ⟨err, he⟩ := (herr order).mpr (.inl hnd)
    rw [hinline] at he
    cases he
  have hsame : inlined.map (·.name) = program.map (·.name) := by
    refine List.ext_getElem? fun i => ?_
    rw [List.getElem?_map, List.getElem?_map]
    rcases hs : program[i]? with _ | s
    · rw [List.getElem?_eq_none_iff, ← hlen, ← List.getElem?_eq_none_iff] at hs
      rw [hs]
    · rw [hbodies i s hs]
      rfl
  refine List.forall₂_iff_get.mpr ⟨hlen.symm, fun i hi hi' => ?_⟩
  have hr : inlined[i]? = some inlined[i] := List.getElem?_eq_getElem hi'
  have hbody := hbodies i program[i] (List.getElem?_eq_getElem hi)
  rw [hr, Option.some.injEq] at hbody
  refine ⟨congrArg SignalDef.body hbody, ?_⟩
  have hname : program[i].name = inlined[i].name := (congrArg SignalDef.name hbody).symm
  rw [List.get_eq_getElem, hname]
  exact bodyOf_of_mem (hsame ▸ hnd) (List.getElem_mem hi')

/-- Structurally equal programs are accepted together. -/
theorem acceptedSignals_congr {env : EmitEnv} {signals signals' : List (SignalDef D)}
    (h : List.Forall₂ (fun s t => t.name = s.name ∧ t.body.strip = s.body.strip) signals signals') :
    acceptedSignals env signals names ↔ acceptedSignals env signals' names := by
  induction h generalizing names with
  | nil => rfl
  | @cons s t ss ts hst _ ih =>
    rw [acceptedSignals, acceptedSignals, ih, hst.1, ← Expr.accepted_strip, ← hst.2,
      Expr.accepted_strip]

/-- Signals that refer to none. -/
theorem acceptedSignals_of_forall {env : EmitEnv} {signals : List (SignalDef D)}
    (h : ∀ s ∈ signals, s.body.accepted env (fun _ => false) = true) :
    acceptedSignals env signals names := by
  induction signals generalizing names with
  | nil => trivial
  | cons s rest ih =>
    have hmono : ∀ n : String, false = true → names n = true := fun _ hn => nomatch hn
    exact ⟨s.body.accepted_mono hmono (h s List.mem_cons_self),
      ih fun t ht => h t (List.mem_cons_of_mem _ ht)⟩

variable [DecidableEq D]

omit [Fp D] in
/-- The calls of an inlined program have no symbol ids. -/
theorem symbolOk_inlined {order : HashOrder} {program inlined : List (SignalDef D)}
    (hinline : inlineSignalDependencies order program = .ok inlined) (symbols : SymbolTable) :
    ∀ s ∈ allocateProgramNodeIds inlined, ∀ c ∈ s.body.calls, c.SymbolOk symbols := by
  intro s hs c hc
  obtain ⟨r, hr, -, -, hcalls, -⟩ := forall₂_mem_right
    (allocateProgramFrom_forall₂ Int.zero_lt_one (unallocated_inlined hinline)) hs
  obtain ⟨-, hacyc, index, resolved, hindex, hres, rfl⟩ := inlineSignalDependencies_ok hinline
  obtain ⟨i, t, ht, hb⟩ := mem_withBodies hres hr
  have hstrip := (hres.clean hindex hacyc ht hb).1
  obtain ⟨d, hd, hdc⟩ := forall₂_mem_right hcalls hc
  rw [← hstrip, Expr.calls_strip] at hd
  obtain ⟨_, -, rfl⟩ := List.mem_map.mp hd
  have hsid : c.symbolId = -1 := hdc.symbolId
  exact fun _ hbound => absurd hbound (by rw [hsid]; decide)

end References

/-! ## Runs -/

section Runs

variable [Fp D] [Fp L] [Widen D L]

/-- **Schedules with the same values** are followed by code with the same outputs. -/
theorem EmittedTick.Compiled.compiledOutputsAt_congr {X Y : EmittedTick D (NodeStates D L)}
    {signals signals' : List (SignalDef D)} {code code' : Code (Instr D)}
    {ctx ctx' : SignalContext D (NodeStates D L)} (hX : X.Compiled signals code)
    (hY : Y.Compiled signals' code') (hstepX : X.step = emittedStep) (hstepY : Y.step = emittedStep)
    (hticks : Y.ticks = X.ticks) (hctx : (X.atTime 0).Ticked .init ctx)
    (hctx' : (Y.atTime 0).Ticked .init ctx')
    (hsame : ∀ t, Y.outputsAt signals' t = X.outputsAt signals t) (N : Nat) :
    compiledOutputsAt (fun _ => code) X.ticks ctx N =
      compiledOutputsAt (fun _ => code') X.ticks ctx' N := by
  have hbefore : ∀ t, (∀ s < t, X.outputsAt signals s ≠ none) →
      compiledOutputsAt (fun _ => code) X.ticks ctx t =
        compiledOutputsAt (fun _ => code') X.ticks ctx' t := by
    intro t hok
    rw [hX.outputsAt_eq hstepX hctx t hok, ← hticks,
      hY.outputsAt_eq hstepY hctx' t fun s hs => hsame s ▸ hok s hs, hsame]
  by_cases hok : ∀ t < N, X.outputsAt signals t ≠ none
  · exact hbefore N hok
  · -- both end at the first tick without values
    simp only [not_forall, not_not, exists_prop] at hok
    obtain ⟨hlt, hnone⟩ := Nat.find_spec hok
    have hfirst : ∀ s < Nat.find hok, X.outputsAt signals s ≠ none := fun s hs hs' =>
      Nat.find_min hok hs ⟨hs.trans hlt, hs'⟩
    have hend := hX.outputsAt_eq hstepX hctx _ hfirst
    rw [hnone, Option.map_none] at hend
    have hend' := (hbefore _ hfirst).symm.trans hend
    rw [not_ne_iff.mp (mt (compiledOutputsAt_of_le hlt.le) (not_not_intro hend)),
      not_ne_iff.mp (mt (compiledOutputsAt_of_le hlt.le) (not_not_intro hend'))]

variable [DecidableEq D]

omit [Fp D] [Fp L] [Widen D L] in
/-- Allocation gives ids and nothing else. -/
theorem allocated_strip {program : List (SignalDef D)}
    (hun : ∀ s ∈ program, Unallocated s.body.calls) :
    List.Forall₂ (fun s t => t.name = s.name ∧ t.body.strip = s.body.strip) program
      (allocateProgramNodeIds program) :=
  (allocateProgramFrom_forall₂ Int.zero_lt_one hun).imp fun _ _ h => ⟨h.1, h.2.1⟩

omit [Fp L] [Widen D L] in
/-- When an allocated program is emitted. -/
theorem emitProgram_allocated (env : EmitEnv) {program : List (SignalDef D)}
    (hun : ∀ s ∈ program, Unallocated s.body.calls)
    (hsym : ∀ s ∈ allocateProgramNodeIds program, ∀ c ∈ s.body.calls, c.SymbolOk env.symbols) :
    (∃ code, emitProgram env (allocateProgramNodeIds program) = .ok code) ↔
      (∀ s ∈ program, ∀ t ∈ collectTickerSymbols s.body, ∃ id, env.symbols.lookupId t = .ok id) ∧
        acceptedSignals env program fun _ => false := by
  have hstrip := allocated_strip hun
  rw [emitProgram_succeeds (consistentIds_allocateProgramNodeIds hun)
    (List.forall_mem_flatMap.mpr hsym), ← acceptedSignals_congr hstrip, List.forall_mem_flatMap]
  refine and_congr_left fun _ => ⟨fun h s hs t ht => ?_, fun h s' hs' t ht => ?_⟩
  · obtain ⟨s', hs', -, hbody⟩ := forall₂_mem_right hstrip.flip hs
    refine h s' hs' t (mem_collectTickerSymbols_strip.mp ?_)
    rwa [hbody, mem_collectTickerSymbols_strip]
  · obtain ⟨s, hs, -, hbody⟩ := forall₂_mem_right hstrip hs'
    refine h s hs t (mem_collectTickerSymbols_strip.mp ?_)
    rwa [← hbody, mem_collectTickerSymbols_strip]

/-- The values of a program that steps all calls outside branches. -/
theorem outputsAt_everyTick {env : EmitEnv} {program : List (SignalDef D)}
    (hun : ∀ s ∈ program, Unallocated s.body.calls)
    (hout : SteppedOutside env.toSchedule (allocateProgramNodeIds program)) (params : List D)
    (ticks : Nat → MarketState D) (t : Nat) :
    (compiledRun (L := L) env (allocateProgramNodeIds program) params ticks).outputsAt
        (allocateProgramNodeIds program) t =
      (codeSemantics L params).vals ticks (everyTickPlans env.toSchedule program) always t := by
  have hids : ∀ s ∈ allocateProgramNodeIds program, ConsistentIds s.body.calls := by
    intro s hs
    obtain ⟨_, -, -, -, -, h⟩ :=
      forall₂_mem_right (allocateProgramFrom_forall₂ Int.zero_lt_one hun) hs
    exact h
  have hrefs : RefsAgree (codeSemantics L params) ticks env.toSchedule env.toSchedule :=
    ⟨rfl, rfl, fun _ => .none, fun _ _ h => nomatch h⟩
  rw [← everyTickPlans_congr env.toSchedule (allocated_strip hun)]
  exact Semantics.vals_of_same (programPlans_everyTick hrefs hids hout) t

/-- **An inlined program agrees with its original**, where no ticker has the name of a signal and
both step all their calls outside branches: it compiles, and the two functions return at the same
ticks and write the same. -/
theorem inlined_code_agrees {symbols : SymbolTable} {flags : StatefulLoweringFlags}
    {order : HashOrder} {program inlined : List (SignalDef D)}
    (hinline : inlineSignalDependencies order program = .ok inlined)
    (hnames : ∀ s ∈ program, ∀ n ∈ tickers s.body, n ∉ program.map (·.name))
    (hkept : ∀ s ∈ program, ∀ c ∈ s.body.calls, c.NoiseKept flags)
    (hun : ∀ s ∈ program, Unallocated s.body.calls)
    (hsym : ∀ s ∈ allocateProgramNodeIds program, ∀ c ∈ s.body.calls, c.SymbolOk symbols)
    (hout : SteppedOutside (loweringEnv symbols flags).toSchedule (allocateProgramNodeIds program))
    (hout' : SteppedOutside (loweringEnv symbols flags).toSchedule (allocateProgramNodeIds inlined))
    {code : Code (Instr D)}
    (hemit : emitProgram (loweringEnv symbols flags) (allocateProgramNodeIds program) = .ok code) :
    ∃ code', emitProgram (loweringEnv symbols flags) (allocateProgramNodeIds inlined) = .ok code' ∧
      ∀ (params : List D) (ticks : Nat → MarketState D) (N : Nat),
        compiledOutputsAt (fun _ => code') ticks (prewarmProgramContext (newContext params)
            (allocateProgramNodeIds inlined) : SignalContext D (NodeStates D L)) N =
          compiledOutputsAt (fun _ => code) ticks (prewarmProgramContext (newContext params)
            (allocateProgramNodeIds program) : SignalContext D (NodeStates D L)) N := by
  have hun' := unallocated_inlined hinline
  have hsym' := symbolOk_inlined hinline symbols
  obtain ⟨htickers, hacc⟩ :=
    (emitProgram_allocated (loweringEnv symbols flags) hun hsym).mp ⟨code, hemit⟩
  obtain ⟨hplans, hbodies⟩ := everyTickPlans_inlined (inlined_forall₂ hinline hnames)
    (fun _ hn => absurd hn Bool.false_ne_true) hacc hkept htickers
  obtain ⟨code', hemit'⟩ := (emitProgram_allocated (loweringEnv symbols flags) hun' hsym').mpr
    ⟨fun s hs => (hbodies s hs).tickers,
      acceptedSignals_of_forall fun s hs => (hbodies s hs).accepted⟩
  refine ⟨code', hemit', fun params ticks N => ?_⟩
  have hcompiled : ∀ {program code}, (∀ s ∈ program, Unallocated s.body.calls) →
      (∀ s ∈ allocateProgramNodeIds program, ∀ c ∈ s.body.calls, c.SymbolOk symbols) →
      SteppedOutside (loweringEnv symbols flags).toSchedule (allocateProgramNodeIds program) →
      emitProgram (loweringEnv symbols flags) (allocateProgramNodeIds program) = .ok code →
      (compiledRun (L := L) (loweringEnv symbols flags) (allocateProgramNodeIds program) params
        ticks).Compiled (allocateProgramNodeIds program) code := by
    intro program code hun hsym hout hemit
    exact compiled_allocated rfl hun hsym hemit
      (fun _ => (emitProgram_inScope rfl hun hsym hemit).2.mpr (volumeScoped_of_steppedOutside hun
        (valid_of_emitted (loweringEnv symbols flags) hun hsym hemit) hout))
      (fun h => nomatch h) fun h => nomatch h
  refine (hcompiled hun' hsym' hout' hemit').compiledOutputsAt_congr (hcompiled hun hsym hout hemit)
    rfl rfl rfl (compiledRun_ticked _ hun' params ticks) (compiledRun_ticked _ hun params ticks)
    (fun t => ?_) N
  rw [outputsAt_everyTick hun hout, outputsAt_everyTick hun' hout',
    show everyTickPlans (loweringEnv symbols flags).toSchedule program = _ from hplans,
    ← everyTickPlans_of_inlined hbodies fun _ => none]
  rfl

end Runs

/-! ## An example -/

section Averages

open Concrete

/-- `m = ema(mid(A), 3)` and `s = m + (if m > 5 then m else 0)` -/
def averageAbove : List (SignalDef (Exact ℚ)) :=
  [⟨"m", app "ema" [mid "A", num 3]⟩,
    ⟨"s", plus (ident "m") (ifThenElse (gt (ident "m") (num 5)) (ident "m") (num 0))⟩]

/-- What inlining makes of them. -/
def inlinedAverage : List (SignalDef (Exact ℚ)) :=
  [⟨"m", app "ema" [mid "A", num 3]⟩,
    ⟨"s", plus (app "ema" [mid "A", num 3]) (ifThenElse (gt (app "ema" [mid "A", num 3]) (num 5))
      (app "ema" [mid "A", num 3]) (num 0))⟩]

theorem inlined_code_agrees_averageAbove :
    inlineSignalDependencies insertionOrder averageAbove = .ok inlinedAverage ∧
      ∃ code, emitProgram (loweringEnv symbols .none) (allocateProgramNodeIds averageAbove) =
        .ok code ∧
      ∃ code', emitProgram (loweringEnv symbols .none) (allocateProgramNodeIds inlinedAverage) =
        .ok code' ∧
      ∀ (params : List (Exact ℚ)) (ticks : Nat → MarketState (Exact ℚ)) (N : Nat),
        compiledOutputsAt (fun _ => code') ticks (prewarmProgramContext (newContext params)
            (allocateProgramNodeIds inlinedAverage) :
              SignalContext _ (NodeStates (Exact ℚ) (Exact ℚ))) N =
          compiledOutputsAt (fun _ => code) ticks (prewarmProgramContext (newContext params)
            (allocateProgramNodeIds averageAbove) :
              SignalContext _ (NodeStates (Exact ℚ) (Exact ℚ))) N := by
  have hinline : inlineSignalDependencies insertionOrder averageAbove = .ok inlinedAverage := rfl
  refine ⟨hinline, ?_⟩
  obtain ⟨code, hcode⟩ : ∃ code, emitProgram (loweringEnv symbols .none)
      (allocateProgramNodeIds averageAbove) = .ok code := exists_emitted (by decide +kernel)
  have hun : ∀ s ∈ averageAbove, ∀ c ∈ s.body.calls, c.nodeId = -1 := by decide +kernel
  have hpaths : ((programSites (loweringEnv symbols .none).toSchedule
      (allocateProgramNodeIds averageAbove)).all fun x => x.2.path.isEmpty) = true := by
    decide +kernel
  have hpaths' : ((programSites (loweringEnv symbols .none).toSchedule (allocateProgramNodeIds
      inlinedAverage)).all fun x => x.2.path.isEmpty) = true := by
    decide +kernel
  exact ⟨code, hcode, inlined_code_agrees hinline (by decide +kernel)
    (fun _ _ _ _ hflag => absurd hflag Bool.false_ne_true) hun
    (symbolOk_of_unset (by decide +kernel))
    (fun x hx => List.isEmpty_iff.mp (List.all_eq_true.mp hpaths x hx))
    (fun x hx => List.isEmpty_iff.mp (List.all_eq_true.mp hpaths' x hx)) hcode⟩

end Averages

end JitSignalEngine
