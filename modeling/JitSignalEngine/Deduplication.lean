import JitSignalEngine.AllocatedRun
import JitSignalEngine.Exact

/-!
# Deduplication without conditionals

In a body without conditionals every stateful call is stepped at every tick, so copies
of a structurally equal call hold the same state whether or not they share a slot. The
plan of such a body does not depend on its ids at all (`simplify_schedule`), and two
numberings of the same body run alike up to the first tick that throws
(`dedup_transparent`).

At a tick that throws they part: the evaluation stops between two copies, of which one
has been stepped and the other has not (`dedup_not_transparent`).

* `purePlan` — the plan of a body whose calls share nothing.
* `DistinctIds` — ids that share nothing.
-/

namespace JitSignalEngine

open Fp Widen Dataflow Dataflow.Semantics Interpreter

variable {D L : Type}

/-! ## Distinct ids -/

/-- The ids of the stateful calls of a list. -/
def statefulIds (cs : List (Call D)) : List Int :=
  (cs.filter fun c => isStatefulOp c.name).map Call.nodeId

/-- Pairwise distinct ids for the stateful calls. -/
structure DistinctIds (cs : List (Call D)) : Prop where
  /-- stateful calls have ids -/
  stateful : ∀ c ∈ cs, isStatefulOp c.name = true → 0 < c.nodeId
  /-- other calls have none -/
  stateless : ∀ c ∈ cs, isStatefulOp c.name = false → c.nodeId < 0
  /-- no two stateful calls have the same id -/
  nodup : (statefulIds cs).Nodup

theorem statefulIds_append (cs ds : List (Call D)) :
    statefulIds (cs ++ ds) = statefulIds cs ++ statefulIds ds := by
  rw [statefulIds, List.filter_append, List.map_append, statefulIds, statefulIds]

theorem mem_statefulIds {cs : List (Call D)} {c : Call D} (hc : c ∈ cs)
    (hst : isStatefulOp c.name = true) : c.nodeId ∈ statefulIds cs :=
  List.mem_map_of_mem (List.mem_filter.mpr ⟨hc, hst⟩)

theorem DistinctIds.consistentIds {cs : List (Call D)} (h : DistinctIds cs) : ConsistentIds cs where
  stateful := h.stateful
  stateless := h.stateless
  equal c hc d hd hst hid := by
    have hpos := h.stateful c hc hst
    have hst' : isStatefulOp d.name = true := by
      cases hst' : isStatefulOp d.name with
      | true => rfl
      | false =>
        have := h.stateless d hd hst'
        omega
    rw [List.inj_on_of_nodup_map h.nodup (List.mem_filter.mpr ⟨hc, hst⟩)
      (List.mem_filter.mpr ⟨hd, hst'⟩) hid]

/-- A call and the calls inside it are a stretch of the calls of the body. -/
theorem Expr.calls_sublist {c : Call D} (e : Expr D) (h : c ∈ e.calls) :
    (c :: callsArgs c.args).Sublist e.calls := by
  induction e using Expr.induct with
  | numberLiteral | identifierExpr | parameterExpr => exact absurd h List.not_mem_nil
  | unaryOp loc k e ih => exact ih h
  | binaryOp loc k l r ihl ihr =>
    rcases List.mem_append.mp h with h | h
    · exact (ihl h).trans (List.sublist_append_left _ _)
    · exact (ihr h).trans (List.sublist_append_right _ _)
  | conditional loc c t e ihc iht ihe =>
    rcases List.mem_append.mp h with h | h
    · refine List.Sublist.trans ?_ (List.sublist_append_left _ _)
      rcases List.mem_append.mp h with h | h
      · exact (ihc h).trans (List.sublist_append_left _ _)
      · exact (iht h).trans (List.sublist_append_right _ _)
    · exact (ihe h).trans (List.sublist_append_right _ _)
  | functionCall loc n args nid sid ih =>
    rcases List.mem_cons.mp h with rfl | h
    · exact List.Sublist.refl _
    · obtain ⟨a, ha, hc⟩ := mem_callsArgs.mp h
      have hargs : ∀ as : List (Expr D), a ∈ as → a.calls.Sublist (callsArgs as) := by
        intro as
        induction as with
        | nil => exact fun h => absurd h List.not_mem_nil
        | cons b bs ihb =>
          intro h
          rcases List.mem_cons.mp h with rfl | h
          · exact List.sublist_append_left _ _
          · exact (ihb h).trans (List.sublist_append_right _ _)
      exact (ih a ha hc).trans ((hargs args ha).trans (List.sublist_cons_self _ _))

section Distinct

variable [Fp D] (env : ScheduleEnv D)

/-- Every site is that of a stateful call, in order. -/
theorem siteIds_sublist (e : Expr D) : ∀ (path : Path D) (δ : Dict D),
    (siteIds (schedule env path e δ).sites).Sublist (statefulIds e.calls) := by
  induction e using Expr.induct with
  | numberLiteral | identifierExpr | parameterExpr => intro path δ; exact List.Sublist.refl _
  | unaryOp loc k e ih => intro path δ; exact ih path δ
  | binaryOp loc k a b iha ihb =>
    intro path δ
    rw [Expr.calls, statefulIds_append, schedule, siteIds, List.map_append]
    exact (iha path δ).append (ihb path _)
  | conditional loc c a b ihc iha ihb =>
    intro path δ
    rw [Expr.calls, statefulIds_append, statefulIds_append, schedule, siteIds, List.map_append,
      List.map_append]
    exact ((ihc path δ).append (iha _ _)).append (ihb _ _)
  | functionCall loc name args nid sid ih =>
    intro path δ
    have hargs : ∀ (as : List (Expr D)), (∀ a ∈ as, a ∈ args) → ∀ δ,
        (siteIds (scheduleArgs env path as δ).sites).Sublist
          (statefulIds (Expr.callsArgs as)) := by
      intro as
      induction as with
      | nil => intro _ δ; exact List.Sublist.refl _
      | cons a as iha =>
        intro hmem δ
        rw [Expr.callsArgs, statefulIds_append, scheduleArgs, siteIds, List.map_append]
        exact (ih a (hmem a List.mem_cons_self) path δ).append
          (iha (fun b hb => hmem b (List.mem_cons_of_mem _ hb)) _)
    have hargs := hargs args (fun _ h => h) δ
    have hcons : statefulIds (Expr.functionCall loc name args nid sid).calls =
        statefulIds [⟨name, args, nid, sid⟩] ++ statefulIds (Expr.callsArgs args) :=
      statefulIds_append [⟨name, args, nid, sid⟩] _
    rw [hcons]
    rcases hδ : δ nid with _ | p
    · rw [schedule_fresh env hδ]
      unfold scheduleCall
      cases hst : isStatefulOp name with
      | true =>
        have hself : statefulIds [(⟨name, args, nid, sid⟩ : Call D)] = [nid] := by
          simp [statefulIds, hst]
        rw [if_pos rfl, hself]
        exact hargs.cons_cons nid
      | false =>
        rw [if_neg Bool.false_ne_true]
        exact hargs.trans (List.sublist_append_right _ _)
    · rw [schedule_alias env hδ]
      exact List.nil_sublist _

variable {env}

/-- **The interpreter can be followed on distinct ids.** -/
theorem wellNumbered_of_distinct {symbols : SymbolTable} {body : Expr D}
    (h : DistinctIds body.calls) (hsym : ∀ c ∈ body.calls, c.SymbolOk symbols) :
    WellNumbered symbols body := by
  have hnodup : (siteIds (schedule (interpEnv symbols) [] body .empty).sites).Nodup :=
    h.nodup.sublist (siteIds_sublist _ body [] .empty)
  refine ⟨h.consistentIds.callOk hsym, hnodup, ?_⟩
  intro n S hS hname x q r hxqr a ha T hT
  -- a call in the noise arguments cannot have the id of one in the measurement
  have hmem := (siteTable_eq_some hnodup).mp hS
  obtain ⟨_, b, hb, hid, hlook⟩ := site_in_measurement hnodup hmem hxqr hT
  obtain ⟨_, c, hc, _, _, hcargs⟩ := (schedule_extends _ body [] .empty hnodup).call hmem
  rw [hxqr] at hcargs
  obtain ⟨name, args, nid, sid⟩ := c
  obtain ⟨x', l₁, rfl, rfl, h₁⟩ := List.map_eq_cons_iff.mp hcargs
  obtain ⟨q', l₂, rfl, rfl, h₂⟩ := List.map_eq_cons_iff.mp h₁
  obtain ⟨r', l₃, rfl, rfl, h₃⟩ := List.map_eq_cons_iff.mp h₂
  obtain rfl := List.map_eq_nil_iff.mp h₃
  obtain ⟨b', hb', rfl⟩ := outline_of_mem_calls hb
  have ⟨a', ha', hao⟩ : ∃ a' ∈ q'.calls ++ r'.calls, a = a'.outline := by
    rcases List.mem_append.mp ha with ha | ha
    · obtain ⟨a', ha', hao⟩ := outline_of_mem_calls ha
      exact ⟨a', List.mem_append_left _ ha', hao⟩
    · obtain ⟨a', ha', hao⟩ := outline_of_mem_calls ha
      exact ⟨a', List.mem_append_right _ ha', hao⟩
  subst hao
  have hsub := (Expr.calls_sublist body hc)
  have hsub' : (x'.calls ++ (q'.calls ++ r'.calls)).Sublist body.calls := by
    refine List.Sublist.trans ?_ ((List.sublist_cons_self _ _).trans hsub)
    simp only [Expr.callsArgs, List.append_nil]
    exact List.Sublist.refl _
  have hnd := h.nodup.sublist ((hsub'.filter _).map Call.nodeId)
  rw [← statefulIds, statefulIds_append, List.nodup_append] at hnd
  have hbm := hsub'.subset (List.mem_append_left _ hb')
  have ham := hsub'.subset (List.mem_append_right _ ha')
  have hbst : isStatefulOp b'.name = true := by
    have := (schedule_extends _ body [] .empty hnodup).call
      ((schedule_extends _ body [] .empty hnodup).inner hmem _
        (site_in_measurement hnodup hmem hxqr hT).1)
    rw [show b'.name = T.name from hlook.1]
    exact this.1
  have hast : isStatefulOp a'.name = true :=
    h.consistentIds.stateful_of_pos ham (by
      have := h.stateful b' hbm hbst
      have hid : b'.nodeId = a'.nodeId := hid
      omega)
  have hid' : b'.nodeId = a'.nodeId := hid
  exact absurd hid' (hnd.2.2 b'.nodeId (mem_statefulIds hb' hbst) a'.nodeId
    (mem_statefulIds ha' hast))

end Distinct

/-! ## Plans without sharing -/

mutual

/-- Whether an expression contains no conditional. -/
def Expr.branchFree : Expr D → Bool
  | .numberLiteral _ _ => true
  | .identifierExpr _ _ => true
  | .parameterExpr _ _ _ => true
  | .unaryOp _ _ e => e.branchFree
  | .binaryOp _ _ l r => l.branchFree && r.branchFree
  | .functionCall _ _ args _ _ => branchFreeArgs args
  | .conditional _ _ _ _ => false

/-- `Expr.branchFree` for an argument list. -/
def Expr.branchFreeArgs : List (Expr D) → Bool
  | [] => true
  | a :: as => a.branchFree && branchFreeArgs as

end

/-- Whether there are conditionals does not depend on ids. -/
theorem Expr.branchFree_strip (e : Expr D) : e.strip.branchFree = e.branchFree := by
  induction e using Expr.induct with
  | numberLiteral | identifierExpr | parameterExpr | conditional => rfl
  | unaryOp loc k e ih => exact ih
  | binaryOp loc k l r ihl ihr => rw [strip, branchFree, branchFree, ihl, ihr]
  | functionCall loc n args nid sid ih =>
    have hargs : ∀ as : List (Expr D), (∀ a ∈ as, a.strip.branchFree = a.branchFree) →
        branchFreeArgs (stripArgs as) = branchFreeArgs as := by
      intro as
      induction as with
      | nil => intro _; rfl
      | cons a as iha =>
        intro h
        rw [stripArgs, branchFreeArgs, branchFreeArgs, h a List.mem_cons_self,
          iha fun b hb => h b (List.mem_cons_of_mem _ hb)]
    rw [strip, branchFree, branchFree, hargs args ih]

theorem Expr.branchFree_of_mem {a : Expr D} {as : List (Expr D)} (h : branchFreeArgs as = true)
    (ha : a ∈ as) : a.branchFree = true := by
  induction as with
  | nil => exact absurd ha List.not_mem_nil
  | cons b bs ih =>
    rw [branchFreeArgs, Bool.and_eq_true] at h
    rcases List.mem_cons.mp ha with rfl | ha
    · exact h.1
    · exact ih h.2 ha

section Pure

variable [Fp D] (env : ScheduleEnv D)

mutual

/-- The plan of an expression in which no two calls share a state. -/
def purePlan : Expr D → Plan D
  | .numberLiteral _ v => .leaf (.number v)
  | .identifierExpr _ n => refPlan env n
  | .parameterExpr _ _ i => .leaf (.param i)
  | .unaryOp _ k e => .map (.op k) (purePlan e)
  | .binaryOp _ k a b => .zip k (purePlan a) (purePlan b)
  | .conditional _ c a b => .cond (purePlan c) (purePlan a) (purePlan b)
  | .functionCall _ name args _ _ => callPlan (env.shape name args) (purePlans args)

/-- The plans of an argument list. -/
def purePlans : List (Expr D) → List (Plan D)
  | [] => []
  | a :: as => purePlan a :: purePlans as

end

theorem purePlans_eq_map (as : List (Expr D)) : purePlans env as = as.map (purePlan env) := by
  induction as with
  | nil => rfl
  | cons a as ih => rw [purePlans, ih, List.map_cons]

/-- Ids do not matter to a plan without sharing. -/
theorem purePlan_strip (e : Expr D) : purePlan env e.strip = purePlan env e := by
  induction e using Expr.induct with
  | numberLiteral | identifierExpr | parameterExpr => rfl
  | unaryOp loc k e ih => rw [Expr.strip, purePlan, purePlan, ih]
  | binaryOp loc k a b iha ihb => rw [Expr.strip, purePlan, purePlan, iha, ihb]
  | conditional loc c a b ihc iha ihb => rw [Expr.strip, purePlan, purePlan, ihc, iha, ihb]
  | functionCall loc name args nid sid ih =>
    have hfaces : SameFaces (args.map Expr.strip) args :=
      sameFaces_of_strip (by
        rw [List.map_map]
        exact List.map_congr_left fun a _ => a.strip_strip)
    rw [Expr.strip, Expr.stripArgs_eq_map, purePlan, purePlan, purePlans_eq_map, purePlans_eq_map,
      List.map_map, ScheduleEnv.shape, decodeCall_congr _ _ _ hfaces, ← ScheduleEnv.shape]
    exact congrArg _ (List.map_congr_left ih)

/-- The plan of a call that shares nothing. -/
def Call.purePlan (c : Call D) : Plan D := callPlan (env.shape c.name c.args) (purePlans env c.args)

theorem Call.purePlan_congr {c d : Call D} (h : c.strip = d.strip) :
    c.purePlan env = d.purePlan env := by
  have hpure : ∀ c : Call D, c.purePlan env = JitSignalEngine.purePlan env c.strip := by
    intro c
    have := purePlan_strip env (.functionCall {} c.name c.args (-1) (-1))
    rw [Expr.strip, Expr.stripArgs_eq_map] at this
    rw [Call.strip, this, JitSignalEngine.purePlan, Call.purePlan]
  rw [hpure, hpure, h]

section Simplify

variable {S : Type} {params : List D} {init : StatefulOp D → S}
  {step : StatefulOp D → MarketState D → List D → S → Option (D × S)}

/-- Simplifying the plan of a call simplifies the plans of its arguments. -/
theorem simplify_callPlan (shape : CallShape D) {ps qs : List (Plan D)}
    (h : ps.map (simplify (planLiterals params init step) true)
      = qs.map (simplify (planLiterals params init step) true)) :
    simplify (planLiterals params init step) true (callPlan shape ps)
      = simplify (planLiterals params init step) true (callPlan shape qs) := by
  have hlen : ps.length = qs.length := by simpa using congrArg List.length h
  cases shape with
  | invalid | market => rfl
  | math fn =>
    match ps, qs, hlen with
    | [], [], _ => rfl
    | [p], [q], _ =>
      rw [List.map_singleton, List.map_singleton, List.singleton_inj] at h
      rw [callPlan, callPlan, simplify, simplify, h]
    | _ :: _ :: _, _ :: _ :: _, _ => rfl
  | stateful op =>
    rw [callPlan, callPlan, simplify, simplify, simplifyArgs_eq_map, simplifyArgs_eq_map,
      List.map_take, List.map_take, h]

/-- A dictionary whose plans are those of the calls with their ids. -/
def PureDict (params : List D) (init : StatefulOp D → S)
    (step : StatefulOp D → MarketState D → List D → S → Option (D × S)) (cs : List (Call D))
    (δ : Dict D) : Prop :=
  ∀ c ∈ cs, ∀ p, δ c.nodeId = some p →
    simplify (planLiterals params init step) true p
      = simplify (planLiterals params init step) true (c.purePlan env)

/-- **Without conditionals the plan does not depend on the ids.** -/
theorem simplify_schedule (params : List D) (init : StatefulOp D → S)
    (step : StatefulOp D → MarketState D → List D → S → Option (D × S)) {cs : List (Call D)}
    (hids : ConsistentIds cs) (e : Expr D) :
    ∀ δ : Dict D, e.calls ⊆ cs → e.branchFree = true → PureDict env params init step cs δ →
      simplify (planLiterals params init step) true (schedule env [] e δ).plan
          = simplify (planLiterals params init step) true (purePlan env e) ∧
        PureDict env params init step cs (schedule env [] e δ).dict := by
  induction e using Expr.induct with
  | numberLiteral | identifierExpr | parameterExpr => intro δ _ _ hδ; exact ⟨rfl, hδ⟩
  | unaryOp loc k e ih =>
    intro δ hcs hfree hδ
    obtain ⟨hp, hd⟩ := ih δ hcs hfree hδ
    rw [schedule, purePlan, simplify, simplify, hp]
    exact ⟨rfl, hd⟩
  | binaryOp loc k a b iha ihb =>
    intro δ hcs hfree hδ
    rw [Expr.branchFree, Bool.and_eq_true] at hfree
    obtain ⟨hpa, hda⟩ := iha δ (fun c hc => hcs (List.mem_append_left _ hc)) hfree.1 hδ
    obtain ⟨hpb, hdb⟩ := ihb _ (fun c hc => hcs (List.mem_append_right _ hc)) hfree.2 hda
    rw [schedule, purePlan, simplify, simplify, hpa, hpb]
    exact ⟨rfl, hdb⟩
  | conditional => intro _ _ hfree _; exact absurd hfree Bool.false_ne_true
  | functionCall loc name args nid sid ih =>
    intro δ hcs hfree hδ
    have hself : (⟨name, args, nid, sid⟩ : Call D) ∈ cs := hcs List.mem_cons_self
    have hargs : ∀ (as : List (Expr D)), (∀ a ∈ as, a ∈ args) → ∀ δ : Dict D,
        PureDict env params init step cs δ →
        (scheduleArgs env [] as δ).plans.map (simplify (planLiterals params init step) true)
            = (purePlans env as).map (simplify (planLiterals params init step) true) ∧
          PureDict env params init step cs (scheduleArgs env [] as δ).dict := by
      intro as
      induction as with
      | nil => intro _ δ hδ; exact ⟨rfl, hδ⟩
      | cons a as iha =>
        intro hmem δ hδ
        obtain ⟨hp, hd⟩ := ih a (hmem a List.mem_cons_self) δ
          (fun c hc => hcs (List.mem_cons_of_mem _
            (Expr.mem_callsArgs.mpr ⟨a, hmem a List.mem_cons_self, hc⟩)))
          (Expr.branchFree_of_mem hfree (hmem a List.mem_cons_self)) hδ
        obtain ⟨hps, hds⟩ := iha (fun b hb => hmem b (List.mem_cons_of_mem _ hb)) _ hd
        rw [scheduleArgs, purePlans, List.map_cons, List.map_cons, hp, hps]
        exact ⟨rfl, hds⟩
    rcases hδn : δ nid with _ | p
    · obtain ⟨hps, hds⟩ := hargs args (fun _ h => h) δ hδ
      have hplan := simplify_callPlan (env.shape name args) hps
      rw [schedule_fresh env hδn, scheduleCall]
      cases hst : isStatefulOp name with
      | false =>
        rw [if_neg Bool.false_ne_true]
        exact ⟨hplan, hds⟩
      | true =>
        rw [if_pos rfl]
        refine ⟨hplan, ?_⟩
        intro d hd p hdp
        by_cases hid : nid = d.nodeId
        · -- the calls with the new id are structurally equal
          have hstrip := hids.equal _ hself d hd hst hid
          rw [← hid] at hdp
          dsimp only at hdp
          rw [if_pos List.isEmpty_nil, Dict.insert_self, Option.some.injEq] at hdp
          rw [← hdp, hplan, ← Call.purePlan_congr env hstrip, Call.purePlan]
        · dsimp only at hdp
          rw [if_pos List.isEmpty_nil, Dict.insert_ne _ _ (Ne.symm hid)] at hdp
          exact hds d hd p hdp
    · rw [schedule_alias env hδn, simplify, if_pos rfl]
      exact ⟨hδ _ hself p hδn, hδ⟩

end Simplify

end Pure

/-! ## The ids of a body without conditionals -/

section Ids

variable [DecidableEq D]

omit [DecidableEq D] in
/-- All remembered calls stand outside the branches, and no two are structurally
equal. -/
structure AllocState.Deduped (st : AllocState D) : Prop where
  /-- nothing was found in a branch -/
  unconditional : ∀ s ∈ st.seen, s.unconditional = true
  /-- what was known got no new id -/
  unique : ∀ s ∈ st.seen, ∀ s' ∈ st.seen, s.node.strip = s'.node.strip → s = s'

/-- Without conditionals every call that gets a new id is new. -/
theorem allocateWalk_deduped (e : Expr D) : ∀ st : AllocState D, st.Ok → Unallocated e.calls →
    e.branchFree = true → st.Deduped → (allocateWalk e true st).2.Deduped := by
  induction e using Expr.induct with
  | numberLiteral | identifierExpr | parameterExpr => intro st _ _ _ hd; exact hd
  | unaryOp loc k e ih => intro st hst hun hfree hd; exact ih st hst hun hfree hd
  | binaryOp loc k l r ihl ihr =>
    intro st hst hun hfree hd
    rw [Expr.branchFree, Bool.and_eq_true] at hfree
    have hunl : Unallocated l.calls := fun c hc => hun c (List.mem_append_left _ hc)
    have hl := allocateWalk_allocates l true st hst hunl
    exact ihr _ hl.ok (fun c hc => hun c (List.mem_append_right _ hc)) hfree.2
      (ihl st hst hunl hfree.1 hd)
  | conditional => intro st _ _ hfree _; exact absurd hfree Bool.false_ne_true
  | functionCall loc n args nid sid ih =>
    intro st hst hun hfree hd
    have hargs : ∀ (as : List (Expr D)), (∀ a ∈ as, a ∈ args) → ∀ st : AllocState D, st.Ok →
        st.Deduped → (allocateWalkArgs as true st).2.Deduped := by
      intro as
      induction as with
      | nil => intro _ st _ hd; exact hd
      | cons a as iha =>
        intro hmem st hst hd
        have huna : Unallocated a.calls := fun c hc =>
          hun c (List.mem_cons_of_mem _ (Expr.mem_callsArgs.mpr ⟨a, hmem a List.mem_cons_self, hc⟩))
        have ha := allocateWalk_allocates a true st hst huna
        exact iha (fun b hb => hmem b (List.mem_cons_of_mem _ hb)) _ ha.ok
          (ih a (hmem a List.mem_cons_self) st hst huna
            (Expr.branchFree_of_mem hfree (hmem a List.mem_cons_self)) hd)
    have hnid : nid = -1 := hun _ List.mem_cons_self
    have hself := assignNodeId_allocates hst loc n sid hnid true
      (allocateWalkArgs_strip args true (assignNodeId st loc n args nid sid true).2)
    have hnext : (assignNodeId st loc n args nid sid true).2.Deduped := by
      by_cases hname : isStatefulOp n = true
      · rcases assignNodeId_cases hst loc args sid hname hnid true with
          ⟨_, _, _, _, heq⟩ | ⟨hnew, heq⟩
        · rw [heq]
          exact hd
        · rw [heq]
          -- nothing remembered equals the new call
          have hne : ∀ s ∈ st.seen,
              s.node.strip ≠ (Expr.functionCall loc n args nid sid).strip :=
            fun s hs h => hnew ⟨s, hs, hd.unconditional s hs, h⟩
          constructor
          · intro s hs
            rcases List.mem_append.mp hs with hs | hs
            · exact hd.unconditional s hs
            · rw [List.mem_singleton.mp hs]
          · intro s hs s' hs' h
            rcases List.mem_append.mp hs with hs | hs <;>
              rcases List.mem_append.mp hs' with hs' | hs'
            · exact hd.unique s hs s' hs' h
            · rw [List.mem_singleton.mp hs'] at h
              exact absurd h (hne s hs)
            · rw [List.mem_singleton.mp hs] at h
              exact absurd h.symm (hne s' hs')
            · rw [List.mem_singleton.mp hs, List.mem_singleton.mp hs']
      · unfold assignNodeId
        rw [Bool.eq_false_iff.mpr hname, Bool.false_and, if_neg Bool.false_ne_true]
        exact hd
    exact hargs args (fun _ h => h) _ hself.ok hnext

omit [DecidableEq D] in
/-- Where the ids of calls are determined by their structure, so are the outlines. -/
theorem outline_of_strip (a : Expr D) : ∀ b : Expr D,
    (∀ c ∈ a.calls, ∀ d ∈ b.calls, c.strip = d.strip → c.nodeId = d.nodeId) →
    a.strip = b.strip → a.outline = b.outline := by
  induction a using Expr.induct with
  | numberLiteral loc v | identifierExpr loc n | parameterExpr loc n i =>
    intro b _ h
    cases b with
    | numberLiteral | identifierExpr | parameterExpr => exact h
    | _ => simp [Expr.strip] at h
  | unaryOp loc k e ih =>
    intro b hids h
    cases b with
    | unaryOp loc' k' e' =>
      rw [Expr.strip, Expr.strip, Expr.unaryOp.injEq] at h
      rw [Expr.outline, Expr.outline, h.2.1, ih e' hids h.2.2]
    | _ => simp [Expr.strip] at h
  | binaryOp loc k l r ihl ihr =>
    intro b hids h
    cases b with
    | binaryOp loc' k' l' r' =>
      rw [Expr.strip, Expr.strip, Expr.binaryOp.injEq] at h
      rw [Expr.outline, Expr.outline, h.2.1,
        ihl l' (fun c hc d hd => hids c (List.mem_append_left _ hc) d (List.mem_append_left _ hd))
          h.2.2.1,
        ihr r' (fun c hc d hd => hids c (List.mem_append_right _ hc) d (List.mem_append_right _ hd))
          h.2.2.2]
    | _ => simp [Expr.strip] at h
  | conditional loc c t e ihc iht ihe =>
    intro b hids h
    cases b with
    | conditional loc' c' t' e' =>
      rw [Expr.strip, Expr.strip, Expr.conditional.injEq] at h
      rw [Expr.outline, Expr.outline,
        ihc c' (fun x hx y hy => hids x (List.mem_append_left _ (List.mem_append_left _ hx)) y
          (List.mem_append_left _ (List.mem_append_left _ hy))) h.2.1,
        iht t' (fun x hx y hy => hids x (List.mem_append_left _ (List.mem_append_right _ hx)) y
          (List.mem_append_left _ (List.mem_append_right _ hy))) h.2.2.1,
        ihe e' (fun x hx y hy => hids x (List.mem_append_right _ hx) y
          (List.mem_append_right _ hy)) h.2.2.2]
    | _ => simp [Expr.strip] at h
  | functionCall loc n args nid sid ih =>
    intro b hids h
    cases b with
    | functionCall loc' n' args' nid' sid' =>
      rw [Expr.strip, Expr.strip, Expr.functionCall.injEq, Expr.stripArgs_eq_map,
        Expr.stripArgs_eq_map] at h
      have hargs : ∀ as : List (Expr D), (∀ a ∈ as, a ∈ args) → ∀ bs : List (Expr D),
          (∀ b ∈ bs, b ∈ args') → as.map Expr.strip = bs.map Expr.strip →
          as.map Expr.outline = bs.map Expr.outline := by
        intro as
        induction as with
        | nil =>
          intro _ bs _ h
          rw [List.map_nil, eq_comm, List.map_eq_nil_iff] at h
          rw [h]
        | cons a as iha =>
          intro hmem bs hmem' h
          cases bs with
          | nil => cases h
          | cons b bs =>
            rw [List.map_cons, List.map_cons, List.cons.injEq] at h
            rw [List.map_cons, List.map_cons,
              ih a (hmem a List.mem_cons_self) b (fun c hc d hd =>
                hids c (List.mem_cons_of_mem _
                    (Expr.mem_callsArgs.mpr ⟨a, hmem a List.mem_cons_self, hc⟩))
                  d (List.mem_cons_of_mem _
                    (Expr.mem_callsArgs.mpr ⟨b, hmem' b List.mem_cons_self, hd⟩))) h.1,
              iha (fun c hc => hmem c (List.mem_cons_of_mem _ hc)) bs
                (fun c hc => hmem' c (List.mem_cons_of_mem _ hc)) h.2]
      have hid : nid = nid' := hids _ List.mem_cons_self _ List.mem_cons_self (by
        rw [Call.strip, Call.strip, h.2.1, h.2.2.1])
      rw [Expr.outline, Expr.outline, Expr.outlineArgs_eq_map, Expr.outlineArgs_eq_map, h.2.1, hid,
        hargs args (fun _ h => h) args' (fun _ h => h) h.2.2.1]
    | _ => simp [Expr.strip] at h

/-- Without conditionals the structure of a call determines its id. -/
theorem nodeId_of_strip {body : Expr D} (hun : Unallocated body.calls)
    (hfree : body.branchFree = true) : ∀ c ∈ (allocateNodeIds body).calls,
    ∀ d ∈ (allocateNodeIds body).calls, c.strip = d.strip → c.nodeId = d.nodeId := by
  intro c hc d hd h
  have ha := allocateNodeIds_allocates hun
  have hdup := allocateWalk_deduped body ⟨1, []⟩ (.init Int.one_pos) hun hfree
    ⟨fun _ hs => absurd hs List.not_mem_nil, fun _ hs => absurd hs List.not_mem_nil⟩
  have hname := (Call.strip_inj h).1
  cases hst : isStatefulOp c.name with
  | true =>
    obtain ⟨s, hs, hsid, hsc⟩ := ha.found c hc hst
    obtain ⟨s', hs', hsid', hsd⟩ := ha.found d hd (hname ▸ hst)
    rw [← hsid, ← hsid', hdup.unique s hs s' hs' (hsc.trans (h.trans hsd.symm))]
  | false =>
    obtain ⟨x, hx, hren⟩ := forall₂_mem_right ha.renumbered hc
    obtain ⟨y, hy, hren'⟩ := forall₂_mem_right ha.renumbered hd
    rw [hren.stateless (hren.name ▸ hst), hren'.stateless (hren'.name ▸ hname ▸ hst), hun x hx,
      hun y hy]

/-- Without conditionals the order of evaluation in `kalman1d` does not matter. -/
theorem kalmanSafe_of_branchFree {body : Expr D} (hun : Unallocated body.calls)
    (hfree : body.branchFree = true) : KalmanSafe (allocateNodeIds body) := by
  intro k hk
  unfold Call.KalmanSafe
  split
  · rename_i x q r hargs
    intro _ a ha b hb hid hlt
    have hids := (allocateNodeIds_allocates hun).consistentIds hun
    have hsub : ∀ c ∈ x.calls ++ (q.calls ++ r.calls), c ∈ (allocateNodeIds body).calls := by
      intro c hc
      refine Expr.callsArgs_subset _ hk ?_
      rw [hargs, Expr.callsArgs, Expr.callsArgs, Expr.callsArgs, Expr.callsArgs, List.append_nil]
      exact hc
    have ham := hsub a (List.mem_append_right _ ha)
    have hbm := hsub b (List.mem_append_left _ hb)
    have hst : isStatefulOp a.name = true := by
      have := hids.stateful k hk (isStatefulOp_iff.mpr ⟨_, ‹_›⟩)
      exact hids.stateful_of_pos ham (by omega)
    obtain ⟨hname, hargs'⟩ := Call.strip_inj (hids.equal a ham b hbm hst hid)
    have hcalls : ∀ {c : Call D}, c ∈ (allocateNodeIds body).calls →
        ∀ d ∈ c :: Expr.callsArgs c.args, d ∈ (allocateNodeIds body).calls := by
      intro c hc d hd
      rcases List.mem_cons.mp hd with rfl | hd
      · exact hc
      · exact Expr.callsArgs_subset _ hc hd
    have hout := outline_of_strip (.functionCall {} a.name a.args a.nodeId a.symbolId)
      (.functionCall {} b.name b.args b.nodeId b.symbolId)
      (fun c hc d hd => nodeId_of_strip hun hfree c (hcalls ham c hc) d (hcalls hbm d hd))
      (by rw [Expr.strip, Expr.strip, Expr.stripArgs_eq_map, Expr.stripArgs_eq_map, hname, hargs'])
    rw [Expr.outline, Expr.outline, Expr.functionCall.injEq, Expr.outlineArgs_eq_map,
      Expr.outlineArgs_eq_map] at hout
    rw [Call.outline, Call.outline, hout.2.1, hout.2.2.1, hid]
  · trivial

end Ids

/-! ## Two numberings of one body -/

section Transparent

variable [DecidableEq D] [Fp D] [Fp L] [Widen D L]

omit [DecidableEq D] in
/-- The plan of a body without conditionals has the values of the plan without
sharing. -/
theorem planValue_of_branchFree {symbols : SymbolTable} {body : Expr D}
    (hids : ConsistentIds body.calls) (hfree : body.branchFree = true) (params : List D)
    (ticks : Nat → MarketState D) (t : Nat) :
    planValue L symbols body params ticks t =
      (interpSemantics L params).val ticks (purePlan (interpEnv symbols) body) always t := by
  have hplan := (simplify_schedule (interpEnv symbols) params
    (StatefulOp.slot : StatefulOp D → NodeSlot D L)
    (fun op market vs slot => (operatorStep op market vs slot).toOption) hids body .empty
    (fun _ h => h) hfree fun _ _ _ h => nomatch h).1
  rw [planValue, planOf]
  refine (congrFun (val_simplify ticks (planLiterals params _ _) _ true always fun _ => rfl) t).symm
    |>.trans ?_
  rw [hplan]
  exact congrFun (val_simplify ticks (planLiterals params _ _) _ true always fun _ => rfl) t

/-- **Up to the first tick that throws, sharing cannot be observed** in a body without
conditionals: with the ids of `AllocateNodeIds` and with pairwise distinct ids, the runs
return the same values and throw for the first time at the same tick. -/
theorem dedup_transparent {symbols : SymbolTable} {body distinct : Expr D}
    (hfree : body.branchFree = true) (hun : Unallocated body.calls)
    (hsym : ∀ c ∈ body.calls, c.SymbolOk symbols) (hstrip : distinct.strip = body.strip)
    (hdistinct : DistinctIds distinct.calls) (hsym' : ∀ c ∈ distinct.calls, c.SymbolOk symbols)
    (params : List D) (ticks : Nat → MarketState D) (t : Nat) :
    ((∀ s < t, (runResult L symbols (allocateNodeIds body) params ticks s).toOption ≠ none) ↔
      ∀ s < t, (runResult L symbols distinct params ticks s).toOption ≠ none) ∧
    ((∀ s < t, (runResult L symbols (allocateNodeIds body) params ticks s).toOption ≠ none) →
      (runResult L symbols (allocateNodeIds body) params ticks t).toOption =
        (runResult L symbols distinct params ticks t).toOption) := by
  have hids := (allocateNodeIds_allocates hun).consistentIds hun
  have hfree' : ∀ {e : Expr D}, e.strip = body.strip → e.branchFree = true := by
    intro e h
    rw [← e.branchFree_strip, h, body.branchFree_strip, hfree]
  have halloc := interpreter_run (L := L)
    (wellNumbered_allocateNodeIds hun hsym (kalmanSafe_of_branchFree hun hfree)) hids params ticks t
  have hdist := interpreter_run (L := L) (wellNumbered_of_distinct hdistinct hsym')
    hdistinct.consistentIds params ticks t
  -- both plans have the values of the plan that shares nothing
  have hvalue : ∀ s, planValue L symbols (allocateNodeIds body) params ticks s =
      planValue L symbols distinct params ticks s := by
    intro s
    rw [planValue_of_branchFree hids (hfree' (allocateWalk_strip body true ⟨1, []⟩)),
      planValue_of_branchFree hdistinct.consistentIds (hfree' hstrip),
      ← purePlan_strip _ (allocateNodeIds body), allocateNodeIds, allocateWalk_strip, ← hstrip,
      purePlan_strip]
  have hreturns : (∀ s < t, planValue L symbols (allocateNodeIds body) params ticks s ≠ none) ↔
      ∀ s < t, planValue L symbols distinct params ticks s ≠ none :=
    forall₂_congr fun s _ => by rw [hvalue]
  refine ⟨halloc.1.trans (hreturns.trans hdist.1.symm), fun hret => ?_⟩
  have hplan := halloc.1.mp hret
  rw [halloc.2 hplan, hdist.2 (hreturns.mp hplan), hvalue]

end Transparent

/-! ## After a tick that throws -/

section AfterThrow

open Concrete

/-- `sma(mid(A), 2) + ema_alpha(mid(A), mid(B)) + sma(mid(A), 2)`, with the given ids. -/
def interruptedSum (i j k : Int) : Expr (Exact ℚ) :=
  plus (plus (app "sma" [mid "A", num 2] i) (app "ema_alpha" [mid "A", mid "B"] j))
    (app "sma" [mid "A", num 2] k)

/-- `A` counts up in steps of two. At tick 1 the smoothing factor is out of range. -/
def interruptingTicks (t : Nat) : MarketState (Exact ℚ) :=
  quote (2 * t + 1) (if t = 1 then 2 else 1)

/-- No symbol id of `interruptedSum` is set. -/
theorem interruptedSum_symbolOk (i j k : Int) :
    ∀ c ∈ (interruptedSum i j k).calls, c.SymbolOk symbols := by
  intro c hc _ hs
  have hid : c.symbolId = -1 := by
    simp only [interruptedSum, plus, app, mid, num, ident, Expr.calls, Expr.callsArgs,
      List.append_nil, List.nil_append, List.cons_append, List.mem_cons, List.not_mem_nil,
      or_false] at hc
    rcases hc with rfl | rfl | rfl | rfl | rfl | rfl | rfl <;> rfl
  omega

theorem interruptedSum_unallocated : Unallocated (interruptedSum (-1) (-1) (-1)).calls := by
  simp [Unallocated, interruptedSum, plus, app, mid, num, ident, Expr.calls, Expr.callsArgs]

theorem interruptedSum_distinct : DistinctIds (interruptedSum 1 2 3).calls where
  stateful := by decide +kernel
  stateless := by decide +kernel
  nodup := by decide +kernel

/-- At tick 1 both runs throw, as at every first tick that throws. -/
theorem dedup_transparent_interruptedSum :
    (runResult (Exact ℚ) symbols (allocateNodeIds (interruptedSum (-1) (-1) (-1))) []
        interruptingTicks 1).toOption =
      (runResult (Exact ℚ) symbols (interruptedSum 1 2 3) [] interruptingTicks 1).toOption :=
  (dedup_transparent (by decide) interruptedSum_unallocated (interruptedSum_symbolOk _ _ _)
    (show (interruptedSum 1 2 3).strip = _ from rfl) interruptedSum_distinct
    (interruptedSum_symbolOk _ _ _) [] interruptingTicks 1).2 (by decide +kernel)

/-- **Sharing can be observed after a tick that throws**: at tick 1 the first `sma` has
been stepped when `ema_alpha` throws, the second has not. -/
theorem dedup_not_transparent :
    (interruptedSum (-1) (-1) (-1)).branchFree = true ∧
      Unallocated (interruptedSum (-1) (-1) (-1)).calls ∧
      (interruptedSum 1 2 3).strip = (interruptedSum (-1) (-1) (-1)).strip ∧
      DistinctIds (interruptedSum 1 2 3).calls ∧
      (runResult (Exact ℚ) symbols (allocateNodeIds (interruptedSum (-1) (-1) (-1))) []
        interruptingTicks 2).toOption = some (.val 13) ∧
      (runResult (Exact ℚ) symbols (interruptedSum 1 2 3) [] interruptingTicks 2).toOption
        = some (.val 12) :=
  ⟨by decide, interruptedSum_unallocated, rfl, interruptedSum_distinct, by decide +kernel,
    by decide +kernel⟩

end AfterThrow

end JitSignalEngine
