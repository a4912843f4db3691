import JitSignalEngine.LoweredPrograms
import JitSignalEngine.VectorExecution

/-!
# Vectorized programs agree with scalar programs

A vectorized program evaluates both branches of every conditional, and selects. Where all stateful
calls of a program are stepped outside branches, or repeat the id of a call that is, it writes in
every lane what the scalar program writes on the market and the context of that lane.

* `emitProgram_straight` — vector code has no branches.
* `SteppedOutside` — the condition.
* `volumeScoped_of_steppedOutside` — under it, scalar code is emitted in scope.
* `Ticked.ctx_eq` — a schedule leaves one context.
* `vectorized_matches_lanes` — a run of a vectorized program.
-/

namespace JitSignalEngine

open Fp Widen Dataflow EmittedTick

variable {D L : Type}

/-! ## Vector code has no branches -/

/-- Emission writes no branches. -/
def EmitsStraight {α : Type} (m : EmitM D α) : Prop :=
  ∀ cg r, m cg = .ok r → r.code.Straight

namespace EmitsStraight

variable {α β : Type}

theorem pure (a : α) : EmitsStraight (Pure.pure a : EmitM D α) := by
  intro cg r hr
  rw [EmitM.pure_ok.mp hr]
  trivial

theorem bind {m : EmitM D α} {f : α → EmitM D β} (hm : EmitsStraight m)
    (hf : ∀ a, EmitsStraight (f a)) : EmitsStraight (m >>= f) := by
  intro cg r hr
  obtain ⟨r₁, r₂, hr₁, hr₂, rfl⟩ := EmitM.bind_ok.mp hr
  exact Code.straight_append.mpr ⟨hm _ _ hr₁, hf _ _ _ hr₂⟩

theorem throw (e : String) : EmitsStraight (EmitM.throw e : EmitM D α) := fun _ _ hr =>
  (EmitM.throw_ok.mp hr).elim

theorem lift (v : Except String α) : EmitsStraight (EmitM.lift v : EmitM D α) := by
  intro cg r hr
  obtain ⟨a, -, rfl⟩ := EmitM.lift_ok.mp hr
  trivial

theorem modify (f : CodegenContext D → CodegenContext D) : EmitsStraight (EmitM.modify f) := by
  intro cg r hr
  rw [EmitM.modify_ok.mp hr]
  trivial

theorem emit (i : Instr D) : EmitsStraight (EmitM.emit i) := by
  intro cg r hr
  rw [EmitM.emit_ok.mp hr]
  trivial

theorem build (i : Nat → Instr D) : EmitsStraight (EmitM.build i) := by
  intro cg r hr
  rw [EmitM.build_ok.mp hr]
  trivial

theorem reuse (v : Operand D) : EmitsStraight (EmitM.reuse v) := by
  cases v with
  | const v => exact .pure _
  | reg n => exact (emit _).bind fun _ => .pure _

theorem emitMarketFieldLoad (symbol : Nat) (field : MarketField) :
    EmitsStraight (JitSignalEngine.emitMarketFieldLoad symbol field : EmitM D (Operand D)) := by
  intro cg r hr
  unfold JitSignalEngine.emitMarketFieldLoad at hr
  split at hr
  · exact reuse _ _ _ hr
  · exact (build _).bind (fun _ => (modify _).bind fun _ => .pure _) _ _ hr

variable [Fp D] {env : EmitEnv} (hvec : env.vectorized = true)

theorem emitMarketValue (fn : MarketFn) (symbol : Nat) :
    EmitsStraight (JitSignalEngine.emitMarketValue fn symbol : EmitM D (Operand D)) := by
  have hload := emitMarketFieldLoad (D := D) symbol
  cases fn with
  | bid => exact hload .bid
  | ask => exact hload .ask
  | mid => exact (hload .bid).bind fun _ => (hload .ask).bind fun _ => (build _).bind fun _ => build _
  | spread => exact (hload .bid).bind fun _ => (hload .ask).bind fun _ => build _

omit [Fp D] in
theorem emitAll {ms : List (EmitM D (Operand D))} (h : ∀ m ∈ ms, EmitsStraight m) :
    EmitsStraight (JitSignalEngine.emitAll ms) := by
  induction ms with
  | nil => exact .pure _
  | cons m ms ih =>
    exact (h m List.mem_cons_self).bind fun _ =>
      (ih fun m hm => h m (List.mem_cons_of_mem _ hm)).bind fun _ => .pure _

include hvec

omit [Fp D] in
theorem emitOperands (op : StatefulOp D) {ms : List (EmitM D (Operand D))}
    (h : ∀ m ∈ ms, EmitsStraight m) : EmitsStraight (JitSignalEngine.emitOperands env op ms) := by
  unfold JitSignalEngine.emitOperands
  split
  · unfold emitVwapLoads
    rw [if_pos hvec]
    exact (build _).bind fun _ => (build _).bind fun _ => (build _).bind fun _ => .pure _
  · exact .pure _
  · exact emitAll h

omit [Fp D] in
theorem emitOperator (op : StatefulOp D) (inBranch : Bool) (nodeId : Int) (args : List (Operand D)) :
    EmitsStraight (JitSignalEngine.emitOperator env op inBranch nodeId args) := by
  have hid : EmitsStraight (getNodeId nodeId : EmitM D Int) := by
    intro cg r hr
    unfold getNodeId at hr
    split at hr <;> cases hr <;> trivial
  have hbase : EmitsStraight (emitBase env op) := by
    unfold emitBase
    split
    · rw [if_pos hvec]
      exact .pure _
    · exact .pure _
  exact hid.bind fun _ => hbase.bind fun _ => (build _).bind fun _ =>
    (modify _).bind fun _ => .pure _

/-- **Vector code has no branches**: a conditional is a select. -/
theorem emitExpr (e : Expr D) (hsym : ∀ c ∈ e.calls, c.SymbolOk env.symbols) (inBranch : Bool) :
    EmitsStraight (JitSignalEngine.emitExpr env inBranch e) := by
  induction e using Expr.induct generalizing inBranch with
  | numberLiteral loc v => exact .pure _
  | identifierExpr loc n =>
    intro cg r hr
    simp only [JitSignalEngine.emitExpr] at hr
    split at hr
    · exact reuse _ _ _ hr
    · cases hr
  | parameterExpr loc n i =>
    rw [JitSignalEngine.emitExpr]
    split
    · exact .throw _
    · exact .build _
  | unaryOp loc k e ih =>
    rw [JitSignalEngine.emitExpr]
    refine (ih hsym inBranch).bind fun v => ?_
    cases k with
    | plus => exact .pure _
    | minus => exact .build _
  | binaryOp loc k l r ihl ihr =>
    rw [JitSignalEngine.emitExpr]
    exact (ihl (fun c hc => hsym c (List.mem_append_left _ hc)) inBranch).bind fun _ =>
      (ihr (fun c hc => hsym c (List.mem_append_right _ hc)) inBranch).bind fun _ => .build _
  | conditional loc c t e ihc iht ihe =>
    simp only [JitSignalEngine.emitExpr, if_pos hvec]
    have hsym : ∀ x ∈ c.calls ++ t.calls ++ e.calls, x.SymbolOk env.symbols := hsym
    rw [List.forall_mem_append, List.forall_mem_append] at hsym
    exact (ihc hsym.1.1 inBranch).bind fun _ => (iht hsym.1.2 true).bind fun _ =>
      (ihe hsym.2 true).bind fun _ => .build _
  | functionCall loc name args nid sid ih =>
    have hargs : ∀ a ∈ args, EmitsStraight (JitSignalEngine.emitExpr env inBranch a) :=
      fun a ha => ih a ha (fun c hc => hsym c (List.mem_cons_of_mem _
        (Expr.mem_callsArgs.mpr ⟨a, ha, hc⟩))) inBranch
    have hspec := @emitDispatch_spec D _ env inBranch ⟨name, emitArgs env inBranch args, nid, sid⟩
      (by rw [map_expr_emitArgs]; exact hsym _ List.mem_cons_self)
    dsimp only at hspec
    rw [map_expr_emitArgs, emitArgs_eq_map] at hspec
    intro cg r hr
    rw [JitSignalEngine.emitExpr, emitArgs_eq_map] at hr
    unfold emitCall at hr
    split at hr
    · exact reuse _ _ _ hr
    · revert hr
      suffices h : EmitsStraight (emitDispatch env inBranch
          ⟨name, args.map fun a => ⟨a, JitSignalEngine.emitExpr env inBranch a⟩, nid, sid⟩) from
        h cg r
      rcases hshape : decodeCall env.impl env.symbols name args (-1) with _ | ⟨fn, symbol⟩ | fn | op <;>
        rw [hshape] at hspec
      · obtain ⟨e, he⟩ := hspec
        rw [he]
        exact throw e
      · rw [show _ = _ from hspec]
        exact emitMarketValue fn symbol
      · obtain ⟨arg, harg, heq⟩ := hspec
        obtain ⟨a, ha, rfl⟩ := List.map_eq_singleton_iff.mp harg
        rw [heq]
        exact (hargs a (by simp [ha])).bind fun _ => .build _
      · rw [show _ = _ from hspec]
        refine (emitOperands hvec op fun m hm => ?_).bind fun _ => emitOperator hvec op _ _ _
        rw [← List.map_take, List.map_map] at hm
        obtain ⟨a, ha, rfl⟩ := List.mem_map.mp hm
        exact hargs a (List.mem_of_mem_take ha)

omit hvec [Fp D] in
theorem prewarmProgramMarketLoads (tickers : List String) :
    EmitsStraight (JitSignalEngine.prewarmProgramMarketLoads env tickers : EmitM D Unit) := by
  induction tickers with
  | nil => exact .pure _
  | cons t rest ih =>
    exact (lift _).bind fun _ => (emitMarketFieldLoad _ _).bind fun _ =>
      (emitMarketFieldLoad _ _).bind fun _ => ih

theorem emitSignals (signals : List (SignalDef D))
    (hsym : ∀ s ∈ signals, ∀ c ∈ s.body.calls, c.SymbolOk env.symbols) (i : Nat) :
    EmitsStraight (JitSignalEngine.emitSignals env signals i) := by
  induction signals generalizing i with
  | nil => exact .pure _
  | cons s rest ih =>
    exact (emitExpr hvec s.body (hsym s List.mem_cons_self) false).bind fun _ =>
      (modify _).bind fun _ => (emit _).bind fun _ =>
        ih (fun s hs => hsym s (List.mem_cons_of_mem _ hs)) (i + 1)

end EmitsStraight

/-- **The code of a vectorized program** has no branches. -/
theorem emitProgram_straight [Fp D] {env : EmitEnv} (hvec : env.vectorized = true)
    {signals : List (SignalDef D)}
    (hsym : ∀ s ∈ signals, ∀ c ∈ s.body.calls, c.SymbolOk env.symbols) {code : Code (Instr D)}
    (hemit : emitProgram env signals = .ok code) : code.Straight := by
  have hbases : ∀ bases, (hoistedCode bases : Code (Instr D)).Straight := by
    intro bases
    induction bases with
    | nil => trivial
    | cons f rest ih => exact ih
  unfold emitProgram at hemit
  split at hemit
  · cases hemit
  · rename_i r hr
    cases hemit
    exact Code.straight_append.mpr ⟨hbases _, (EmitsStraight.prewarmProgramMarketLoads _).bind
      (fun _ => EmitsStraight.emitSignals hvec signals hsym 0) _ _ hr⟩

/-! ## Calls that are stepped outside branches -/

/-- **The condition on a program**: every stateful call is stepped outside branches, or repeats the
id of a call that is. -/
def SteppedOutside [Fp D] (env : ScheduleEnv D) (signals : List (SignalDef D)) : Prop :=
  ∀ x ∈ programSites env signals, x.2.path = []

section Volumes

variable [Fp D] {env : EmitEnv} {start : Int} {path : Path D} {δ δ₁ δ₂ : Dict D}
  {sc sc₁ sc₂ : VolumeScope}

/-- What the pass over the volumes knows where the schedule of a signal, whose ids begin at `start`,
has stepped the ids of `δ`. -/
structure VolumesAt (start : Int) (δ : Dict D) (sc : VolumeScope) : Prop where
  /-- only ids of this signal are stepped -/
  fresh : ∀ {n}, n < start → δ n = none
  /-- of these it has seen those that were -/
  seen : ∀ {n}, start ≤ n → (n ∈ sc.seen ↔ δ n ≠ none)
  /-- all loads are visible -/
  visible : sc.visible = sc.loaded
  /-- they were used in scope -/
  ok : sc.ok = true

/-- What a piece of code does to the volumes: in a branch nothing. -/
structure KeepsVolumes (start : Int) (path : Path D) (δ δ' : Dict D) (sc sc' : VolumeScope) :
    Prop where
  /-- afterwards -/
  after : VolumesAt start δ' sc'
  /-- in a branch nothing is stepped -/
  branch : path ≠ [] → δ' = δ ∧ sc' = sc

omit [Fp D] in
theorem KeepsVolumes.refl (path : Path D) (h : VolumesAt start δ sc) :
    KeepsVolumes start path δ δ sc sc :=
  ⟨h, fun _ => ⟨rfl, rfl⟩⟩

omit [Fp D] in
theorem KeepsVolumes.trans (h : KeepsVolumes start path δ δ₁ sc sc₁)
    (h' : KeepsVolumes start path δ₁ δ₂ sc₁ sc₂) : KeepsVolumes start path δ δ₂ sc sc₂ :=
  ⟨h'.after, fun hp => ⟨(h'.branch hp).1.trans (h.branch hp).1,
    (h'.branch hp).2.trans (h.branch hp).2⟩⟩

omit [Fp D] in
/-- A stateful operator outside branches. -/
theorem VolumesAt.operator (h : VolumesAt start δ sc) (op : StatefulOp D) {n : Int} (hn : start ≤ n)
    (p : Plan D) : VolumesAt start (δ.insert n p) (sc.operator op n) := by
  have hreads : (sc.reads op).seen = sc.seen ∧ (sc.reads op).visible = (sc.reads op).loaded ∧
      (sc.reads op).ok = true := by
    unfold VolumeScope.reads
    split
    · unfold VolumeScope.load
      split
      · rename_i hmem
        refine ⟨rfl, h.visible, ?_⟩
        rw [h.visible, decide_eq_true hmem, Bool.and_true]
        exact h.ok
      · exact ⟨rfl, congrArg _ h.visible, h.ok⟩
    · exact ⟨rfl, h.visible, h.ok⟩
  refine ⟨fun hm => ?_, fun {m} hm => ?_, hreads.2.1, hreads.2.2⟩
  · rw [Dict.insert_ne _ _ (by omega)]
    exact h.fresh hm
  · change m ∈ n :: (sc.reads op).seen ↔ _
    rw [hreads.1, List.mem_cons, h.seen hm]
    by_cases hmn : m = n
    · rw [hmn, Dict.insert_self]
      simp
    · rw [Dict.insert_ne _ _ hmn]
      simp [hmn]

/-- What the pass needs to know of a call. -/
structure Steppable (env : EmitEnv) (start : Int) (c : Call D) : Prop where
  /-- it can be emitted -/
  valid : decodeCall env.impl env.symbols c.name c.args (-1) ≠ .invalid
  /-- stateful calls have ids -/
  stateful : isStatefulOp c.name = true → start ≤ c.nodeId
  /-- other calls have none -/
  stateless : isStatefulOp c.name = false → c.nodeId ≤ 0

/-- **The pass over an expression** whose calls are stepped outside branches. -/
theorem Expr.keepsVolumes (senv : ScheduleEnv D) (hstart : 0 < start) (e : Expr D)
    (hcs : ∀ c ∈ e.calls, Steppable env start c) :
    ∀ (path : Path D) {δ : Dict D} {sc : VolumeScope}, VolumesAt start δ sc →
      (∀ x ∈ (schedule senv path e δ).sites, x.2.path = []) →
      KeepsVolumes start path δ (schedule senv path e δ).dict sc (e.volumeScope env sc) := by
  induction e using Expr.induct with
  | numberLiteral | identifierExpr | parameterExpr => exact fun path _ _ h _ => .refl path h
  | unaryOp loc k e ih => exact fun path _ _ h hflat => ih hcs path h hflat
  | binaryOp loc k l r ihl ihr =>
    intro path δ sc h hflat
    have hcs : ∀ c ∈ l.calls ++ r.calls, Steppable env start c := hcs
    rw [List.forall_mem_append] at hcs
    rw [schedule, List.forall_mem_append] at hflat
    have hl := ihl hcs.1 path h hflat.1
    exact hl.trans (ihr hcs.2 path hl.after hflat.2)
  | conditional loc c t e ihc iht ihe =>
    intro path δ sc h hflat
    have hcs : ∀ x ∈ c.calls ++ t.calls ++ e.calls, Steppable env start x := hcs
    rw [List.forall_mem_append, List.forall_mem_append] at hcs
    rw [schedule, List.forall_mem_append, List.forall_mem_append] at hflat
    have hc := ihc hcs.1.1 path h hflat.1.1
    -- the branches step nothing
    obtain ⟨htd, hts⟩ := (iht hcs.1.2 _ hc.after hflat.1.2).branch (List.cons_ne_nil _ _)
    have hafter : VolumesAt start (schedule senv (((schedule senv path c δ).plan,
        true) :: path) t (schedule senv path c δ).dict).dict (c.volumeScope env sc) := by
      rw [htd]
      exact hc.after
    obtain ⟨hed, hes⟩ := (ihe hcs.2 _ hafter hflat.2).branch (List.cons_ne_nil _ _)
    have hscope : (Expr.conditional loc c t e).volumeScope env sc = c.volumeScope env sc := by
      rw [Expr.volumeScope, hts]
      exact congrArg (VolumeScope.leave · (c.volumeScope env sc).visible) hes
    rw [schedule, hscope]
    dsimp only
    rw [hed, htd]
    exact hc
  | functionCall loc name args nid sid ih =>
    intro path δ sc h hflat
    have hargs : ∀ as : List (Expr D), (∀ a ∈ as, a ∈ args) → ∀ {δ : Dict D} {sc : VolumeScope},
        VolumesAt start δ sc → (∀ x ∈ (scheduleArgs senv path as δ).sites, x.2.path = []) →
        KeepsVolumes start path δ (scheduleArgs senv path as δ).dict sc
          (as.foldl (fun sc a => a.volumeScope env sc) sc) := by
      intro as
      induction as with
      | nil => exact fun _ _ _ h _ => .refl path h
      | cons a as iha =>
        intro hmem δ sc h hflat
        rw [scheduleArgs, List.forall_mem_append] at hflat
        have ha := ih a (hmem a List.mem_cons_self) (fun c hc => hcs c (List.mem_cons_of_mem _
          (Expr.mem_callsArgs.mpr ⟨a, hmem a List.mem_cons_self, hc⟩))) path h hflat.1
        exact ha.trans (iha (fun b hb => hmem b (List.mem_cons_of_mem _ hb)) ha.after hflat.2)
    obtain ⟨hvalid, hstateful, hstateless⟩ := hcs ⟨name, args, nid, sid⟩ List.mem_cons_self
    rw [schedule] at hflat ⊢
    rw [Expr.volumeScope]
    rcases hδ : δ nid with _ | p <;> rw [hδ] at hflat <;> dsimp only at hflat ⊢
    · have hunseen : ¬ (0 < nid ∧ nid ∈ sc.seen) := by
        rintro ⟨hpos, hmem⟩
        cases hst : isStatefulOp name with
        | false => exact absurd (hstateless hst) (Int.not_le.mpr hpos)
        | true => exact (h.seen (hstateful hst)).mp hmem hδ
      rw [if_neg hunseen, Expr.volumeScopeArgs_eq_foldl]
      have hrest := scheduleArgs_take senv path (calls_of_rest rfl hvalid) δ
      have hsub : ∀ x ∈ (scheduleArgs senv path args δ).sites,
          x ∈ (scheduleCall senv path name args nid δ
            (scheduleArgs senv path args δ)).sites := by
        intro x hx
        unfold scheduleCall
        split
        · exact List.mem_cons_of_mem _ hx
        · exact hx
      have hoperands := hargs _ (fun a ha => List.mem_of_mem_take ha) h
        (by rw [hrest]; exact fun x hx => hflat x (hsub x hx))
      rw [hrest] at hoperands
      unfold scheduleCall at hflat ⊢
      cases hst : isStatefulOp name with
      | false =>
        have hcall : ∀ sc : VolumeScope,
            sc.call (decodeCall env.impl env.symbols name args (-1)) nid = sc := by
          intro sc
          rcases hshape : decodeCall env.impl env.symbols name args (-1) with _ | _ | _ | op
          · rfl
          · rfl
          · rfl
          · exact absurd hshape (decodeCall_stateless (-1) hst op)
        rw [hcall]
        exact hoperands
      | true =>
        rw [hst, if_pos rfl] at hflat
        have hpath : path = [] := hflat _ List.mem_cons_self
        obtain ⟨op, hop⟩ : ∃ op, decodeCall env.impl env.symbols name args (-1) = .stateful op := by
          rcases hshape : decodeCall env.impl env.symbols name args (-1) with _ | _ | _ | op
          · exact absurd hshape hvalid
          · have := stateless_of_shape hshape (by rintro _ ⟨⟩) (by rintro ⟨⟩)
            exact absurd (hst.symm.trans this) (by decide)
          · have := stateless_of_shape hshape (by rintro _ ⟨⟩) (by rintro ⟨⟩)
            exact absurd (hst.symm.trans this) (by decide)
          · exact ⟨op, rfl⟩
        rw [if_pos rfl, if_pos (by rw [hpath]; rfl), hop]
        rw [hop] at hoperands
        exact ⟨hoperands.after.operator op (hstateful hst) _, fun hne => absurd hpath hne⟩
    · have hge : start ≤ nid := by
        by_contra hlt
        rw [h.fresh (Int.not_le.mp hlt)] at hδ
        cases hδ
      have hseen : nid ∈ sc.seen := (h.seen hge).mpr (by rw [hδ]; exact Option.some_ne_none p)
      rw [if_pos ⟨Int.lt_of_lt_of_le hstart hge, hseen⟩]
      exact .refl path h

variable [DecidableEq D]

/-- The pass over the signals of a program. -/
theorem volumeScope_signals {signals : List (SignalDef D)}
    (hun : ∀ s ∈ signals, Unallocated s.body.calls) (hstart : 0 < start) (senv : ScheduleEnv D)
    (hcs : ∀ s ∈ allocateProgramFrom signals start, ∀ c ∈ s.body.calls,
      decodeCall env.impl env.symbols c.name c.args (-1) ≠ .invalid)
    (hout : SteppedOutside senv (allocateProgramFrom signals start))
    (hseen : ∀ m ∈ sc.seen, m < start) (hvisible : sc.visible = sc.loaded) (hok : sc.ok = true) :
    ((allocateProgramFrom signals start).foldl
      (fun (sc : VolumeScope) s => s.body.volumeScope env sc) sc).ok = true := by
  induction signals generalizing start senv sc with
  | nil => exact hok
  | cons s rest ih =>
    have ha := allocateWalk_allocates s.body true ⟨start, []⟩ (AllocState.Ok.init hstart)
      (hun s List.mem_cons_self)
    have hs := walk_scheduled senv s.body true ⟨start, []⟩ [] .empty (.init hstart)
      (hun s List.mem_cons_self) rfl ⟨by rintro k p ⟨⟩, fun _ hs => absurd hs List.not_mem_nil⟩
    have hids := ha.consistentIds (hun s List.mem_cons_self)
    have hge := (allocateProgramFrom_ordered hstart hun).1
    rw [allocateProgramFrom] at hcs hout hge ⊢
    rw [SteppedOutside, programSites, List.forall_mem_append] at hout
    rw [List.foldl_cons]
    -- the pass over the first body
    have hbegin : VolumesAt start (.empty : Dict D) sc :=
      { fresh := fun _ => rfl
        seen := fun hle => iff_of_false (fun hm => absurd (hseen _ hm) (Int.not_lt.mpr hle))
          fun hne => hne rfl
        visible := hvisible
        ok := hok }
    have hbody := (Expr.keepsVolumes senv hstart (allocateWalk s.body true ⟨start, []⟩).1
      (fun c hc => ⟨hcs _ List.mem_cons_self c hc, hge _ List.mem_cons_self c hc,
        fun hst => (hids.stateless c hc hst).le⟩) [] hbegin hout.1).after
    refine ih (fun t ht => hun t (List.mem_cons_of_mem _ ht)) (Int.lt_of_lt_of_le hstart ha.le)
      _ (fun t ht => hcs t (List.mem_cons_of_mem _ ht)) hout.2 (fun m hm => ?_) hbody.visible hbody.ok
    rcases lt_or_ge m start with hlt | hle
    · exact Int.lt_of_lt_of_le hlt ha.le
    · obtain ⟨p, hp⟩ := Option.ne_none_iff_exists'.mp ((hbody.seen hle).mp hm)
      exact (hs.range hp).2

/-- **Scalar code is emitted in scope** where all calls are stepped outside branches. -/
theorem volumeScoped_of_steppedOutside {program : List (SignalDef D)}
    (hun : ∀ s ∈ program, Unallocated s.body.calls)
    (hcs : ∀ s ∈ allocateProgramNodeIds program, ∀ c ∈ s.body.calls,
      decodeCall env.impl env.symbols c.name c.args (-1) ≠ .invalid)
    (hout : SteppedOutside env.toSchedule (allocateProgramNodeIds program)) :
    volumeScoped env (allocateProgramNodeIds program) = true :=
  volumeScope_signals hun Int.zero_lt_one env.toSchedule hcs hout
    (fun _ hm => absurd hm List.not_mem_nil) rfl rfl

end Volumes

/-! ## The contexts of a run -/

section Contexts

variable [Fp D] {env : EmitEnv}

/-- The calls of an accepted expression can be emitted. -/
theorem Expr.accepted_calls {signals : String → Bool} (e : Expr D)
    (h : e.accepted env signals = true) :
    ∀ c ∈ e.calls, decodeCall env.impl env.symbols c.name c.args (-1) ≠ .invalid := by
  induction e using Expr.induct with
  | numberLiteral | identifierExpr | parameterExpr => exact fun _ hc => absurd hc List.not_mem_nil
  | unaryOp loc k e ih => exact ih h
  | binaryOp loc k l r ihl ihr =>
    rw [Expr.accepted, Bool.and_eq_true] at h
    exact List.forall_mem_append.mpr ⟨ihl h.1, ihr h.2⟩
  | conditional loc c t e ihc iht ihe =>
    rw [Expr.accepted, Bool.and_eq_true, Bool.and_eq_true] at h
    exact List.forall_mem_append.mpr ⟨List.forall_mem_append.mpr ⟨ihc h.1, iht h.2.1⟩, ihe h.2.2⟩
  | functionCall loc name args nid sid ih =>
    obtain ⟨hvalid, hargs⟩ := Expr.accepted_functionCall.mp h
    have hne : decodeCall env.impl env.symbols name args (-1) ≠ .invalid := by
      intro hinvalid
      rw [hinvalid] at hvalid
      cases hvalid
    refine List.forall_mem_cons.mpr ⟨hne, fun c hc => ?_⟩
    obtain ⟨a, ha, hca⟩ := Expr.mem_callsArgs.mp hc
    -- what is not evaluated contains no calls
    rcases List.mem_append.mp (List.take_append_drop
      (decodeCall env.impl env.symbols name args (-1)).arity args ▸ ha) with htake | hdrop
    · exact ih a ha (hargs a htake) c hca
    · rw [calls_of_rest rfl hne a hdrop] at hca
      exact absurd hca List.not_mem_nil

theorem acceptedSignals_calls {signals : List (SignalDef D)} {names : String → Bool}
    (h : acceptedSignals env signals names) : ∀ s ∈ signals, ∀ c ∈ s.body.calls,
      decodeCall env.impl env.symbols c.name c.args (-1) ≠ .invalid := by
  induction signals generalizing names with
  | nil => exact fun _ hs => absurd hs List.not_mem_nil
  | cons s rest ih => exact List.forall_mem_cons.mpr ⟨s.body.accepted_calls h.1, ih h.2⟩

variable [DecidableEq D]

variable (env) in
/-- The calls of a program that was emitted. -/
theorem valid_of_emitted {program : List (SignalDef D)}
    (hun : ∀ s ∈ program, Unallocated s.body.calls)
    (hsym : ∀ s ∈ allocateProgramNodeIds program, ∀ c ∈ s.body.calls, c.SymbolOk env.symbols)
    {code : Code (Instr D)} (hemit : emitProgram env (allocateProgramNodeIds program) = .ok code) :
    ∀ s ∈ allocateProgramNodeIds program, ∀ c ∈ s.body.calls,
      decodeCall env.impl env.symbols c.name c.args (-1) ≠ .invalid := by
  have hsym' : ∀ c ∈ (allocateProgramNodeIds program).flatMap fun s => s.body.calls,
      c.SymbolOk env.symbols := by
    intro c hc
    obtain ⟨s, hs, hc⟩ := List.mem_flatMap.mp hc
    exact hsym s hs c hc
  exact acceptedSignals_calls ((emitProgram_succeeds
    (consistentIds_allocateProgramNodeIds hun) hsym').mp ⟨code, hemit⟩).2

omit [DecidableEq D] in
/-- The plan of a site of a program that was emitted. -/
theorem site_plan_call {senv : ScheduleEnv D} {signals : List (SignalDef D)}
    (hcs : ∀ s ∈ signals, ∀ c ∈ s.body.calls,
      decodeCall senv.impl senv.symbols c.name c.args (-1) ≠ .invalid)
    (hnd : (siteIds (programSites senv signals)).Nodup) {n : Int} {S : Site D}
    (hS : (n, S) ∈ programSites senv signals) : ∃ op args, S.plan = .call op args := by
  obtain ⟨s, hs, refs, hmem, hx⟩ := programSites_extends senv hnd hS
  obtain ⟨hst, c, hc, -, hname, hargs⟩ := hx.call hmem
  obtain ⟨fn, hfn⟩ := isStatefulOp_iff.mp hst
  have hshape : decodeCall senv.impl senv.symbols S.name S.args (-1) =
      decodeCall senv.impl senv.symbols c.name c.args (-1) := by
    rw [← hname, ← hargs, decodeCall_outline]
  rcases decodeCall_stateful senv.impl senv.symbols S.args hfn with hinvalid | ⟨op, hop, -⟩
  · exact absurd (hshape.symm.trans hinvalid) (hcs s hs c hc)
  · have hplan := hx.plan hmem
    rw [show ScheduleEnv.shape { senv with refs := refs } S.name S.args = .stateful op from hop]
      at hplan
    exact ⟨op, _, hplan⟩

/-- **A schedule leaves one context**, however its program is emitted. -/
theorem EmittedTick.Ticked.ctx_eq [Fp L] [Widen D L] {env' : EmitEnv}
    (henv : (env'.toSchedule : ScheduleEnv D) = env.toSchedule) {program : List (SignalDef D)}
    (hun : ∀ s ∈ program, Unallocated s.body.calls)
    (hcs : ∀ s ∈ allocateProgramNodeIds program, ∀ c ∈ s.body.calls,
      decodeCall env.impl env.symbols c.name c.args (-1) ≠ .invalid) {params : List D}
    {ticks : Nat → MarketState D} {t : Nat} {ctx ctx' : SignalContext D (NodeStates D L)}
    (h : ((compiledRun (L := L) env (allocateProgramNodeIds program) params ticks).atTime t).Ticked
      .init ctx)
    (h' : ((compiledRun (L := L) env' (allocateProgramNodeIds program) params ticks).atTime
      t).Ticked .init ctx') : ctx = ctx' := by
  have hnd := (programSites_allocated env.toSchedule hun Int.zero_lt_one).1
  have hsites : (compiledRun (L := L) env' (allocateProgramNodeIds program) params ticks).sites =
      (compiledRun (L := L) env (allocateProgramNodeIds program) params ticks).sites :=
    congrArg (fun senv => siteTable (programSites senv (allocateProgramNodeIds program))) henv
  have hslots : ctx.slots = ctx'.slots := by
    funext k
    by_cases hk : ∃ n S, (compiledRun (L := L) env (allocateProgramNodeIds program) params
        ticks).sites n = some S ∧ n.toNat = k
    · obtain ⟨n, S, hS, rfl⟩ := hk
      obtain ⟨op, args, hplan⟩ := site_plan_call hcs hnd ((siteTable_eq_some hnd).mp hS)
      exact (h.slots hS hplan).trans (h'.slots (hsites ▸ hS) hplan).symm
    · have hnot : ∀ n S, (compiledRun (L := L) env (allocateProgramNodeIds program) params
          ticks).sites n = some S → n.toNat ≠ k := fun n S hS hn => hk ⟨n, S, hS, hn⟩
      exact (h.rest hnot).trans (h'.rest fun n S hS => hnot n S (hsites ▸ hS)).symm
  obtain ⟨params₁, slots₁⟩ := ctx
  obtain ⟨params₂, slots₂⟩ := ctx'
  cases h.ctxParams
  cases h'.ctxParams
  cases hslots
  rfl

end Contexts

/-! ## Runs -/

/-- The schedule of vector code. AVX2 makes no difference to it. -/
def vectorEnv (symbols : SymbolTable) (flags : StatefulLoweringFlags) (useAvx2 : Bool) : EmitEnv :=
  ⟨symbols, flags, useAvx2, false, true⟩

section Runs

variable [Fp D]

/-- Vector code and scalar code follow one schedule. -/
theorem vectorEnv_toSchedule (symbols : SymbolTable) (flags : StatefulLoweringFlags)
    (useAvx2 : Bool) : ((vectorEnv symbols flags useAvx2).toSchedule : ScheduleEnv D) =
      (loweringEnv symbols flags).toSchedule := by
  have himpl : ((vectorEnv symbols flags useAvx2).impl : StatefulFn → List (Option D) → Impl) =
      (loweringEnv symbols flags).impl := by
    funext fn literals
    unfold EmitEnv.impl vectorEnv loweringEnv
    dsimp only
    split
    · rfl
    · simp
    · rfl
  unfold EmitEnv.toSchedule
  rw [himpl]
  rfl

variable [Fp L] [Widen D L]

/-- A run that returns has returned before. -/
theorem compiledOutputsAt_of_le {code : Nat → Code (Instr D)} {ticks : Nat → MarketState D}
    {ctx : SignalContext D (NodeStates D L)} {t n : Nat} (hle : t ≤ n)
    (h : compiledOutputsAt code ticks ctx n ≠ none) : compiledOutputsAt code ticks ctx t ≠ none := by
  induction n with
  | zero => rwa [Nat.le_zero.mp hle]
  | succ n ih =>
    rcases Nat.le_succ_iff.mp hle with hle | rfl
    · refine ih hle fun hnone => h ?_
      have hctx : compiledContextAt code ticks ctx (n + 1) = none := by
        rw [compiledContextAt]
        rcases hbefore : compiledContextAt code ticks ctx n with _ | before
        · rfl
        · rw [compiledOutputsAt, hbefore, Option.bind_some, Option.map_eq_none_iff] at hnone
          rw [Option.bind_some, hnone, Option.map_none]
      rw [compiledOutputsAt, hctx, Option.bind_none]
    · exact h

/-- Where a run returns, its schedule has values. -/
theorem EmittedTick.Compiled.outputsAt_ne_none {X : EmittedTick D (NodeStates D L)}
    {signals : List (SignalDef D)} {code : Code (Instr D)} {ctx : SignalContext D (NodeStates D L)}
    (h : X.Compiled signals code) (hstep : X.step = emittedStep) (hctx : (X.atTime 0).Ticked .init ctx)
    {n : Nat} (hreturns : compiledOutputsAt (fun _ => code) X.ticks ctx n ≠ none) (t : Nat)
    (ht : t ≤ n) : X.outputsAt signals t ≠ none := by
  induction t using Nat.strong_induction_on with
  | _ t ih =>
    intro hnone
    apply compiledOutputsAt_of_le ht hreturns
    rw [h.outputsAt_eq hstep hctx t fun s hs => ih s hs (hs.le.trans ht), hnone, Option.map_none]

variable [DecidableEq D]

/-- **One lane.** Emitted for scalars or for vectors, a program that steps all its calls outside
branches writes the same outputs and leaves the same contexts. -/
theorem emitted_lane {symbols : SymbolTable} {flags : StatefulLoweringFlags} {useAvx2 : Bool}
    {program : List (SignalDef D)} (hun : ∀ s ∈ program, Unallocated s.body.calls)
    (hsym : ∀ s ∈ allocateProgramNodeIds program, ∀ c ∈ s.body.calls, c.SymbolOk symbols)
    (hout : SteppedOutside (loweringEnv symbols flags).toSchedule (allocateProgramNodeIds program))
    {scalarCode vectorCode : Code (Instr D)}
    (hscalar : emitProgram (loweringEnv symbols flags) (allocateProgramNodeIds program) =
      .ok scalarCode)
    (hvector : emitProgram (vectorEnv symbols flags useAvx2) (allocateProgramNodeIds program) =
      .ok vectorCode)
    {params : List D} (hreads : ∀ s ∈ allocateProgramNodeIds program, ∀ i ∈ s.body.paramsIn false,
      paramValue params i ≠ none) (ticks : Nat → MarketState D) {N : Nat}
    {fresh : SignalContext D (NodeStates D L)} (hfresh : fresh =
      prewarmProgramContext (newContext params) (allocateProgramNodeIds program))
    (hreturns : compiledOutputsAt (fun _ => scalarCode) ticks fresh N ≠ none) :
    (∃ outputs, compiledOutputsAt (fun _ => scalarCode) ticks fresh N = some outputs ∧
      compiledOutputsAt (fun _ => vectorCode) ticks fresh N = some outputs) ∧
    ∃ after, compiledContextAt (fun _ => scalarCode) ticks fresh (N + 1) = some after ∧
      compiledContextAt (fun _ => vectorCode) ticks fresh (N + 1) = some after := by
  subst hfresh
  have henv := vectorEnv_toSchedule (D := D) symbols flags useAvx2
  have hvalid := valid_of_emitted (loweringEnv symbols flags) hun hsym hscalar
  set X : EmittedTick D (NodeStates D L) := compiledRun (loweringEnv symbols flags)
    (allocateProgramNodeIds program) params ticks
  set Y : EmittedTick D (NodeStates D L) := compiledRun (vectorEnv symbols flags useAvx2)
    (allocateProgramNodeIds program) params ticks
  have hX : X.Compiled (allocateProgramNodeIds program) scalarCode :=
    compiled_allocated rfl hun hsym hscalar
      (fun _ => (emitProgram_inScope rfl hun hsym hscalar).2.mpr
        (volumeScoped_of_steppedOutside hun hvalid hout))
      (fun h => absurd h Bool.false_ne_true) (fun h => absurd h Bool.false_ne_true)
  have hY : Y.Compiled (allocateProgramNodeIds program) vectorCode :=
    compiled_allocated rfl hun hsym hvector (fun h => nomatch h)
      (fun _ => by rw [henv]; exact hout) fun _ => hreads
  have hstartX := compiledRun_ticked (L := L) (loweringEnv symbols flags) hun params ticks
  have hstartY := compiledRun_ticked (L := L) (vectorEnv symbols flags useAvx2) hun params ticks
  have hsame : ∀ t, Y.outputsAt (allocateProgramNodeIds program) t =
      X.outputsAt (allocateProgramNodeIds program) t := by
    intro t
    exact congrArg (fun senv =>
      X.semantics.vals ticks (programPlans senv (allocateProgramNodeIds program)) always t) henv
  have hsome := hX.outputsAt_ne_none rfl hstartX hreturns
  have hsomeY : ∀ t ≤ N, Y.outputsAt (allocateProgramNodeIds program) t ≠ none :=
    fun t ht => hsame t ▸ hsome t ht
  obtain ⟨xs, hxs⟩ := Option.ne_none_iff_exists'.mp (hsome N (Nat.le_refl N))
  refine ⟨⟨fun k => xs[k]?, ?_, ?_⟩, ?_⟩
  · rw [show compiledOutputsAt _ ticks _ N = _ from
      hX.outputsAt_eq rfl hstartX N fun t ht => hsome t (Nat.le_of_lt ht), hxs, Option.map_some]
  · rw [show compiledOutputsAt _ ticks _ N = _ from
      hY.outputsAt_eq rfl hstartY N fun t ht => hsomeY t (Nat.le_of_lt ht), hsame, hxs,
      Option.map_some]
  · obtain ⟨after, hafter, htickedX⟩ := hX.contextAt rfl hstartX (N + 1)
      fun t ht => hsome t (Nat.le_of_lt_succ ht)
    obtain ⟨after', hafter', htickedY⟩ := hY.contextAt rfl hstartY (N + 1)
      fun t ht => hsomeY t (Nat.le_of_lt_succ ht)
    obtain rfl := htickedX.ctx_eq henv hun hvalid htickedY
    exact ⟨after, hafter, hafter'⟩

end Runs

/-! ## An example -/

section Symbols

open Concrete

/-- `s = ema(mid(A), 3) + (if mid(A) > 5 then ema(mid(A), 3) else gain)` -/
def averageTwice : List (SignalDef (Exact ℚ)) :=
  [⟨"s", plus (app "ema" [mid "A", num 3]) (ifThenElse (gt (mid "A") (num 5))
    (app "ema" [mid "A", num 3]) (.parameterExpr {} "gain" 0))⟩]

/-- Two symbols, whose prices cross. -/
def crossingQuotes (t lane : Nat) : MarketState (Exact ℚ) :=
  if t = lane then quote 2 1 else quote 10 1

end Symbols

end JitSignalEngine
