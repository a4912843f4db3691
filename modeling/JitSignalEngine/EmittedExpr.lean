import JitSignalEngine.EmissionSchedule

/-!
# Emitted expressions follow their schedules

The code of a body, run in slots that are in the state the schedule of the body says, computes
the value of the plan and leaves the slots in the state the schedule says for the next tick.
With `vectorized` set both branches of a conditional are run. Then no operator may be stepped in
a branch, and the parameters that are read there must be available.

* `Expr.paramsIn` — the parameters that are read in branches.
* `EmittedTick.Ready` — what is known where an expression is emitted.
* `EmittedTick.Follows` — what is known about the code.
* `EmittedTick.emitExpr_follows` — the code of every expression.
-/

namespace JitSignalEngine

open Fp Dataflow EmitM

variable {D σ α β : Type}

mutual

/-- The parameters that are read in the branches of an expression, if `inBranch` is set
everywhere in it. A stateful call in a branch is left out. -/
def Expr.paramsIn (inBranch : Bool) : Expr D → List Int
  | .numberLiteral _ _ => []
  | .identifierExpr _ _ => []
  | .parameterExpr _ _ i => if inBranch then [i] else []
  | .unaryOp _ _ e => e.paramsIn inBranch
  | .binaryOp _ _ l r => l.paramsIn inBranch ++ r.paramsIn inBranch
  | .conditional _ c t e => c.paramsIn inBranch ++ (t.paramsIn true ++ e.paramsIn true)
  | .functionCall _ n args _ _ =>
    if inBranch && isStatefulOp n then [] else Expr.paramsInArgs inBranch args

/-- The parameters that are read in the branches of arguments. -/
def Expr.paramsInArgs (inBranch : Bool) : List (Expr D) → List Int
  | [] => []
  | a :: as => a.paramsIn inBranch ++ Expr.paramsInArgs inBranch as

end

theorem Expr.mem_paramsInArgs {inBranch : Bool} {as : List (Expr D)} {i : Int} :
    i ∈ Expr.paramsInArgs inBranch as ↔ ∃ a ∈ as, i ∈ a.paramsIn inBranch := by
  induction as with
  | nil => simp [Expr.paramsInArgs]
  | cons a as ih => rw [Expr.paramsInArgs, List.mem_append, ih, List.exists_mem_cons_iff]

namespace EmittedTick

variable [Fp D] {X : EmittedTick D σ} {cg : CodegenContext D} {A : Set Name}
  {δ δ' δ₁ δ₂ : Dict D} {s : Frame D σ} {sites sites' : List (Int × Site D)} {γ : Type}

variable (X) in
/-- The parameters are there. -/
def Reads (ids : List Int) : Prop := ∀ i ∈ ids, paramValue X.params i ≠ none

variable (X) in
/-- Scalar code uses cached values where their definitions are in scope. -/
def InScope (c : Code (Instr D)) (A : Set Name) : Prop :=
  X.env.vectorized = false → c.Scoped Instr.names A

omit [Fp D] in
theorem Reads.append {ids ids' : List Int} (h : X.Reads (ids ++ ids')) :
    X.Reads ids ∧ X.Reads ids' :=
  ⟨fun i hi => h i (List.mem_append_left _ hi), fun i hi => h i (List.mem_append_right _ hi)⟩

omit [Fp D] in
theorem InScope.append {c d : Code (Instr D)} (h : X.InScope (c.append d) A) :
    X.InScope c A ∧ X.InScope d (c.scope A) :=
  ⟨fun hv => ((Code.scoped_append _ _ _ _).mp (h hv)).1,
    fun hv => ((Code.scoped_append _ _ _ _).mp (h hv)).2⟩

variable (X) in
/-- **What is known where an expression is emitted**, from its calls and its sites. -/
structure Ready (cg : CodegenContext D) (δ : Dict D) (path : Path D) (inBranch : Bool)
    (calls : List (Call D)) (sites : List (Int × Site D)) : Prop where
  /-- ids are different -/
  nodup : (siteIds sites).Nodup
  /-- they are new -/
  new : ∀ n ∈ siteIds sites, cg.statefulEmitCache n = none
  /-- the sites are those of the program -/
  table : ∀ x ∈ sites, X.sites x.1 = some x.2
  /-- ids that are stepped at every tick are cached -/
  known : ∀ {n p}, δ n = some p → 0 < n ∧ cg.statefulEmitCache n ≠ none
  /-- the calls can be emitted -/
  emittable : ∀ c ∈ calls, Emittable X.env X.tickers c
  /-- `inBranch` says whether there are branches around -/
  inBranch : inBranch = true → path ≠ []
  /-- vector code steps nothing in a branch -/
  flat : X.env.vectorized = true → ∀ x ∈ sites, x.2.path = []

namespace Ready

variable {path : Path D} {inBranch : Bool} {cs cs' : List (Call D)}

/-- Part of the code. -/
theorem sub (h : X.Ready cg δ path inBranch cs sites) (hcs : ∀ c ∈ cs', c ∈ cs)
    (hs : sites'.Sublist sites) : X.Ready cg δ path inBranch cs' sites' where
  nodup := h.nodup.sublist (hs.map _)
  new n hn := h.new n ((hs.map _).subset hn)
  table x hx := h.table x (hs.subset hx)
  known := h.known
  emittable c hc := h.emittable c (hcs c hc)
  inBranch := h.inBranch
  flat hv x hx := h.flat hv x (hs.subset hx)

theorem left (h : X.Ready cg δ path inBranch (cs ++ cs') (sites ++ sites')) :
    X.Ready cg δ path inBranch cs sites :=
  h.sub (fun _ => List.mem_append_left _) (List.sublist_append_left _ _)

/-- After some of the code. -/
theorem right {r : Emitted D γ} (h : X.Ready cg δ path inBranch (cs ++ cs') (sites ++ sites'))
    (hpos : ∀ {n S}, X.sites n = some S → 0 < n) (hc : Caches cg sites r)
    (hx : Extends X.scheduleEnv path cs δ δ' sites) : X.Ready r.cg δ' path inBranch cs' sites' := by
  have hnd := h.nodup
  rw [siteIds, List.map_append, List.nodup_append] at hnd
  refine ⟨hnd.2.1, fun n hn => ?_, fun x hx => h.table x (List.mem_append_right _ hx), ?_,
    fun c hc => h.emittable c (List.mem_append_right _ hc), h.inBranch,
    fun hv x hx => h.flat hv x (List.mem_append_right _ hx)⟩
  · by_contra hne
    rcases (hc.ids n).mp hne with hold | hsite
    · refine hold (h.new n ?_)
      rw [siteIds, List.map_append]
      exact List.mem_append_right _ hn
    · exact hnd.2.2 n hsite n hn rfl
  · intro n p hn
    rcases hx.source hn with hold | ⟨S, hS, -⟩
    · exact ⟨(h.known hold).1, (hc.ids n).mpr (.inl (h.known hold).2)⟩
    · exact ⟨hpos (h.table _ (List.mem_append_left _ hS)),
        (hc.ids n).mpr (.inr (List.mem_map_of_mem hS))⟩

/-- In a branch. -/
theorem branch (h : X.Ready cg δ path inBranch cs sites) (cb : Plan D × Bool) :
    X.Ready cg δ (cb :: path) true cs sites :=
  { h with inBranch := fun _ => List.cons_ne_nil _ _ }

/-- Vector code has no sites in a branch. -/
theorem sites_nil (h : X.Ready cg δ path inBranch cs sites) (hv : X.env.vectorized = true)
    (hb : inBranch = true) (hx : Extends X.scheduleEnv path cs δ δ' sites) : sites = [] := by
  refine List.eq_nil_iff_forall_not_mem.mpr fun x hmem => h.inBranch hb ?_
  have hsuffix := hx.suffix hmem
  rw [h.flat hv x hmem] at hsuffix
  exact List.suffix_nil.mp hsuffix

end Ready

variable (X) in
/-- **What is known about emitted code** and the value `v` the schedule gives it. -/
structure Follows (cg : CodegenContext D) (δ δ' : Dict D) (sites : List (Int × Site D))
    (path : Path D) (inBranch : Bool) (ids : List Int) (r : Emitted D α)
    (P : CodegenContext D → Frame D σ → α → β → Prop) (v : Option β) : Prop where
  /-- the caches -/
  caches : Caches cg sites r
  /-- a run of the code, where operators are only run when they are reached -/
  runs : ∀ {A s}, X.Running cg A δ s → X.InScope r.code A →
    (sites ≠ [] → X.reached path X.time = true) → (X.env.vectorized = true → X.Reads ids) →
    X.Runs cg A δ' r P s v
  /-- code that vector code runs in a branch has a value -/
  total : ∀ {A s}, X.env.vectorized = true → inBranch = true → X.Running cg A δ s → X.Reads ids →
    v ≠ none

variable (X) in
/-- The code of an expression follows its schedule. -/
def EmitsSchedule (e : Expr D) : Prop :=
  ∀ (path : Path D) (inBranch : Bool) {cg : CodegenContext D} {δ : Dict D}
    {r : Emitted D (Operand D)},
    X.Ready cg δ path inBranch e.calls (schedule X.scheduleEnv path e δ).sites →
    emitExpr X.env inBranch e cg = .ok r →
    X.Follows cg δ (schedule X.scheduleEnv path e δ).dict (schedule X.scheduleEnv path e δ).sites path
      inBranch (e.paramsIn inBranch) r Operand.Holds
      (X.value (schedule X.scheduleEnv path e δ).plan path)

/-- After code that steps nothing, whether it is run or not. -/
theorem Running.pass {path : Path D} {cs : List (Call D)} {r : Emitted D γ}
    (h : X.Running cg A δ s) (hc : Caches cg sites r) (hnil : sites = [])
    (hx : Extends X.scheduleEnv path cs δ δ' sites) : X.Running r.cg A δ' s := by
  subst hnil
  refine (h.skip hc (fun x hx => absurd hx List.not_mem_nil)
    fun x hx => absurd hx List.not_mem_nil).restrict fun hn => ?_
  refine (hx.source hn).resolve_right ?_
  rintro ⟨S, hS, -⟩
  exact List.not_mem_nil hS

/-! ### Atoms -/

theorem emitsSchedule_numberLiteral (loc : SourceLoc) (v : D) :
    X.EmitsSchedule (.numberLiteral loc v) := by
  intro path inBranch cg δ r _ hr
  cases EmitM.pure_ok.mp hr
  exact ⟨.pure cg _ _, fun h _ _ _ => .pure h ⟨fun n hn => (nomatch hn), rfl⟩,
    fun _ _ _ _ hv => Option.some_ne_none v hv⟩

theorem emitsSchedule_identifierExpr (loc : SourceLoc) (n : String) :
    X.EmitsSchedule (.identifierExpr loc n) := by
  intro path inBranch cg δ r _ hr
  rcases hv : cg.signalValues n with _ | v
  · simp only [emitExpr, hv] at hr
    cases hr
  · simp only [emitExpr, hv] at hr
    have hvalue : ∀ {A : Set Name} {s : Frame D σ}, X.Running cg A δ s →
        ∃ x, X.value (refPlan X.scheduleEnv n) path = some x ∧ v.Holds cg s x := by
      intro A s h
      obtain ⟨p, x, hp, hx, hold⟩ := h.signals hv
      refine ⟨x, ?_, hold⟩
      rw [refPlan, show X.scheduleEnv.refs n = some p from hp]
      exact hx
    refine ⟨.reuse hr, fun h _ _ _ => ?_, fun _ _ h _ => ?_⟩
    · obtain ⟨x, hx, hold⟩ := hvalue h
      change X.Runs cg _ δ r _ _ (X.value (refPlan X.scheduleEnv n) path)
      rw [hx]
      exact .reuse h hold hr
    · obtain ⟨x, hx, -⟩ := hvalue h
      change X.value (refPlan X.scheduleEnv n) path ≠ none
      rw [hx]
      exact Option.some_ne_none x

theorem emitsSchedule_parameterExpr (loc : SourceLoc) (name : String) (i : Int) :
    X.EmitsSchedule (.parameterExpr loc name i) := by
  intro path inBranch cg δ r _ hr
  rw [emitExpr] at hr
  split at hr
  · cases hr
  · refine ⟨.build hr, fun h _ _ _ => .build h hr (fun _ => rfl) ?_, fun _ hb _ hreads => ?_⟩
    · change (paramValue _ i).map _ = _
      rw [h.ctxParams]
      rfl
    · refine hreads i ?_
      rw [Expr.paramsIn, if_pos hb]
      exact List.mem_singleton_self i

/-! ### Operators of expressions -/

/-- One operand, and an instruction. -/
theorem Follows.map {path : Path D} {inBranch : Bool} {ids : List Int}
    {r₁ r₂ : Emitted D (Operand D)} {v : Option D} {f : D → D}
    (h : X.Follows cg δ δ' sites path inBranch ids r₁ Operand.Holds v) (hc : Caches r₁.cg [] r₂)
    (hf : ∀ {A s x}, X.Running r₁.cg A δ' s → r₁.value.Holds r₁.cg s x →
      X.Runs r₁.cg A δ' r₂ Operand.Holds s (some (f x))) :
    X.Follows cg δ δ' sites path inBranch ids ⟨r₂.value, r₁.code.append r₂.code, r₂.cg⟩
      Operand.Holds (v.map f) := by
  refine ⟨?_, fun hrun hscope hreached hreads => ?_, fun hv hb hrun hreads hnone => ?_⟩
  · have := h.caches.append (v := r₂.value) (c := r₁.code.append r₂.code) hc
    rwa [List.append_nil] at this
  · rw [Option.map_eq_bind]
    exact (h.runs hrun hscope.append.1 hreached hreads).append h.caches.grows.nextReg
      fun x s' _ hreach hx => hf hreach.running hx
  · exact h.total hv hb hrun hreads (Option.map_eq_none_iff.mp hnone)

theorem emitsSchedule_unaryOp {loc : SourceLoc} {kind : UnaryOpKind} {e : Expr D}
    (ih : X.EmitsSchedule e) : X.EmitsSchedule (.unaryOp loc kind e) := by
  intro path inBranch cg δ r h hr
  rw [emitExpr] at hr
  obtain ⟨r₁, r₂, hr₁, hr₂, rfl⟩ := EmitM.bind_ok.mp hr
  have he := ih path inBranch h hr₁
  have hvalue : X.value (schedule X.scheduleEnv path (.unaryOp loc kind e) δ).plan path =
      (X.value (schedule X.scheduleEnv path e δ).plan path).map kind.apply := Semantics.val_map ..
  rw [hvalue]
  cases kind with
  | plus =>
    cases EmitM.pure_ok.mp hr₂
    exact he.map (.pure _ _ _) fun hrun hx => .pure hrun hx
  | minus =>
    refine he.map (.build hr₂) fun hrun hx => .build hrun hr₂ (fun _ => rfl) ?_
    rw [← hx.2]
    rfl

theorem emitsSchedule_binaryOp (hpos : ∀ {n S}, X.sites n = some S → 0 < n) {loc : SourceLoc}
    {kind : BinaryOpKind} {a b : Expr D} (iha : X.EmitsSchedule a) (ihb : X.EmitsSchedule b) :
    X.EmitsSchedule (.binaryOp loc kind a b) := by
  intro path inBranch cg δ r h hr
  rw [emitExpr] at hr
  obtain ⟨r₁, _, hr₁, hrest, rfl⟩ := EmitM.bind_ok.mp hr
  obtain ⟨r₂, r₃, hr₂, hr₃, rfl⟩ := EmitM.bind_ok.mp hrest
  have hxa := schedule_extends X.scheduleEnv a path δ h.left.nodup
  have ha := iha path inBranch h.left hr₁
  have hb := ihb path inBranch (h.right hpos ha.caches hxa) hr₂
  have hvalue : X.value (schedule X.scheduleEnv path (.binaryOp loc kind a b) δ).plan path =
      (X.value (schedule X.scheduleEnv path a δ).plan path).bind fun x =>
        (X.value (schedule X.scheduleEnv path b (schedule X.scheduleEnv path a δ).dict).plan path).bind
          fun y => some (kind.apply x y) := by
    refine (Semantics.val_zip ..).trans ?_
    simp only [Option.map_eq_bind]
    rfl
  rw [hvalue]
  refine ⟨?_, fun hrun hscope hreached hreads => ?_, fun hv hb' hrun hreads => ?_⟩
  · have hbuild : Caches r₂.cg ([] : List (Int × Site D)) r₃ := .build hr₃
    have hall := ha.caches.append (v := r₃.value) (c := r₁.code.append (r₂.code.append r₃.code))
      (hb.caches.append (v := r₃.value) (c := r₂.code.append r₃.code) hbuild)
    rwa [List.append_nil] at hall
  · obtain ⟨hsa, hsb⟩ := hscope.append
    refine (ha.runs hrun hsa (fun hne => hreached fun hnil => hne (List.append_eq_nil_iff.mp hnil).1)
      fun hv => (hreads hv).append.1).append ha.caches.grows.nextReg fun x s₁ _ hreach hx => ?_
    refine (hb.runs hreach.running hsb.append.1
      (fun hne => hreached fun hnil => hne (List.append_eq_nil_iff.mp hnil).2)
      fun hv => (hreads hv).append.2).append hb.caches.grows.nextReg fun y s₂ _ hreach' hy => ?_
    exact .binary hreach'.running kind (hx.later hb.caches.grows.nextReg hreach'.kept) hy hr₃
  · have hnil := h.left.sites_nil hv hb' hxa
    obtain ⟨x, hx⟩ := Option.ne_none_iff_exists'.mp (ha.total hv hb' hrun hreads.append.1)
    obtain ⟨y, hy⟩ := Option.ne_none_iff_exists'.mp
      (hb.total hv hb' (hrun.pass ha.caches hnil hxa) hreads.append.2)
    rw [hx, hy]
    exact Option.some_ne_none _

/-! ### Conditionals -/

/-- A branch steps nothing at every tick. -/
theorem dict_of_branch {cb : Plan D × Bool} {path : Path D} {cs : List (Call D)}
    (hx : Extends X.scheduleEnv (cb :: path) cs δ δ' sites) :
    ∀ {n p}, δ' n = some p → δ n = some p := by
  intro n p hp
  refine (hx.source hp).resolve_right ?_
  rintro ⟨S, hS, hpath, -⟩
  have hsuffix := hx.suffix hS
  rw [hpath] at hsuffix
  exact absurd (List.suffix_nil.mp hsuffix) (List.cons_ne_nil _ _)

/-- A branch that is not taken, on the way to code that is run. -/
theorem Running.untaken {cb : Plan D × Bool} {path : Path D} {cs : List (Call D)}
    {r : Emitted D γ} (h : X.Running cg A δ s) (hc : Caches cg sites r)
    (hx : Extends X.scheduleEnv (cb :: path) cs δ₁ δ' sites)
    (htable : ∀ x ∈ sites, X.sites x.1 = some x.2) (hδ : ∀ {n p}, δ' n = some p → δ n = some p)
    (hnot : sites ≠ [] → X.reached (cb :: path) X.time ≠ true) : X.Running r.cg A δ' s := by
  refine (h.skip hc htable fun x hx' hreached => ?_).restrict hδ
  refine hnot ?_ (Semantics.along_of_suffix _ _ (hx.suffix hx') hreached)
  rintro rfl
  exact List.not_mem_nil hx'

/-- **A conditional**, of which the code of `r₁` is run. -/
theorem Runs.join {cg₁ : CodegenContext D} {r₁ r₂ : Emitted D (Operand D)} {cond a b : Operand D}
    {c e : Code (Instr D)} (taken : Bool) {v : Option D} (hcode : (if taken then c else e) = r₁.code)
    (hval : (if taken then a else b) = r₁.value) (htake : truthy (cond.eval s.regs) = taken)
    (hnext : cg.nextReg ≤ cg₁.nextReg) (hle : cg₁.nextReg ≤ r₂.cg.nextReg)
    (h : X.Runs cg₁ A δ₁ r₁ Operand.Holds s v)
    (hend : ∀ s', X.Reaches cg₁ A δ₁ r₁ s s' → X.Running r₂.cg A δ₂ s') :
    X.Runs cg A δ₂ ⟨.reg r₂.cg.nextReg,
      .branch (.condBr cond) c e (.phi r₂.cg.nextReg a b) .done,
      { r₂.cg with nextReg := r₂.cg.nextReg + 1 }⟩ Operand.Holds s v := by
  have hrun : X.machine.run (.branch (.condBr cond) c e (.phi r₂.cg.nextReg a b) .done) s =
      (X.machine.run r₁.code s).map fun s' =>
        s'.setReg r₂.cg.nextReg (r₁.value.eval s'.regs) := by
    have htakes : X.machine.takes (.condBr cond) s = taken := htake
    rw [Machine.run_branch, htakes, hcode, ← hval]
    exact Option.map_eq_bind.symm
  cases v with
  | none =>
    rw [show X.machine.run r₁.code s = none from h] at hrun
    exact hrun
  | some x =>
    obtain ⟨s', hrun', hreach, hx⟩ := h
    rw [hrun'] at hrun
    refine ⟨_, hrun, ⟨?_, fun n hn => ?_, hreach.outputs⟩, ?_, ?_⟩
    · have hscope : (Code.branch (.condBr cond) c e (.phi r₂.cg.nextReg a b) .done :
          Code (Instr D)).scope A = {.reg r₂.cg.nextReg} ∪ A := by
        ext x
        simp [Code.scope, Code.topNames, Instr.names, Instr.defs]
      change X.Running _ ((Code.branch _ c e _ .done).scope A) δ₂ _
      rw [hscope]
      exact (hend s' hreach).result _
    · rw [Frame.setReg_regs_ne _ _ (Nat.ne_of_lt (hn.trans_le (hnext.trans hle)))]
      exact hreach.kept n (hn.trans_le hnext)
    · intro n hn
      cases hn
      exact Nat.lt_succ_self _
    · exact (Frame.setReg_regs_self _ _ _).trans hx.2

section Conditional

variable {path : Path D} {inBranch : Bool} {cs csa csb : List (Call D)} {c : Plan D}
  {sitesa sitesb : List (Int × Site D)} {δc δa δb : Dict D} {ids idsa idsb : List Int}
  {rc : Emitted D (Operand D)} {va vb : Option D}

/-- **A fork**: one branch is run, the other one is skipped. -/
theorem Follows.branch (hscalar : X.env.vectorized = false) {mt me : EmitM D (Operand D)}
    (hc : X.Follows cg δ δc sites path inBranch ids rc Operand.Holds (X.value c path))
    (ha : ∀ {ra}, mt rc.cg = .ok ra →
      X.Follows rc.cg δc δa sitesa ((c, true) :: path) true idsa ra Operand.Holds va)
    (hb : ∀ {ra rb}, mt rc.cg = .ok ra → me ra.cg = .ok rb →
      X.Follows ra.cg δa δb sitesb ((c, false) :: path) true idsb rb Operand.Holds vb)
    (hxa : Extends X.scheduleEnv ((c, true) :: path) csa δc δa sitesa)
    (hxb : Extends X.scheduleEnv ((c, false) :: path) csb δa δb sitesb)
    (htable : ∀ x ∈ sites ++ sitesa ++ sitesb, X.sites x.1 = some x.2) {r : Emitted D (Operand D)}
    (hr : EmitM.branch rc.value mt me rc.cg = .ok r) :
    X.Follows cg δ δb (sites ++ sitesa ++ sitesb) path inBranch (ids ++ (idsa ++ idsb))
      ⟨r.value, rc.code.append r.code, r.cg⟩ Operand.Holds
      ((X.value c path).bind fun v => if truthy v then va else vb) := by
  obtain ⟨ra, rb, hra, hrb, rfl⟩ := EmitM.branch_ok.mp hr
  have ha := ha hra
  have hb := hb hra hrb
  refine ⟨?_, fun {A s} hrun hscope hreached hreads => ?_, fun hv => ?_⟩
  · have hphi : Caches rb.cg ([] : List (Int × Site D)) (⟨.reg rb.cg.nextReg, .done,
        { rb.cg with nextReg := rb.cg.nextReg + 1 }⟩ : Emitted D (Operand D)) :=
      .of_grows (.result rb.cg 1) rfl rfl
    have hall := ((hc.caches.append (v := rc.value) (c := .done) ha.caches).append (v := rb.value)
      (c := .done) hb.caches).append (v := .reg rb.cg.nextReg) (c := rc.code.append
        (.branch (.condBr rc.value) ra.code rb.code (.phi rb.cg.nextReg ra.value rb.value) .done))
      hphi
    rwa [List.append_nil] at hall
  · obtain ⟨hsc, hsbranch⟩ := hscope.append
    have hsplit : ra.code.Scoped Instr.names (rc.code.scope A) ∧
        rb.code.Scoped Instr.names (rc.code.scope A) := by
      simpa [Code.Scoped, Instr.names, Instr.defs, Instr.reuses] using hsbranch hscalar
    have hnot : X.env.vectorized ≠ true := fun hv => by
      rw [hscalar] at hv
      exact Bool.false_ne_true hv
    -- when there are sites, the conditional is reached, and its condition picks a branch
    have hpick : ∀ {v}, X.value c path = some v → ∀ b, sitesa ≠ [] ∨ sitesb ≠ [] →
        X.reached ((c, b) :: path) X.time = (truthy v == b) := by
      intro v hv b hne
      refine Semantics.along_branch _ _ (hreached fun hnil => ?_) hv b
      rw [List.append_eq_nil_iff, List.append_eq_nil_iff] at hnil
      exact hne.elim (fun h => h hnil.1.2) fun h => h hnil.2
    refine (hc.runs hrun hsc (fun hne => hreached fun hnil => hne ?_)
      fun hv => absurd hv hnot).append hc.caches.grows.nextReg fun v s₁ hv hreach hcond => ?_
    · rw [List.append_eq_nil_iff, List.append_eq_nil_iff] at hnil
      exact hnil.1.1
    by_cases htrue : truthy v = true
    · rw [if_pos htrue]
      refine Runs.join true rfl rfl (by rw [hcond.2, htrue]) le_rfl
        (ha.caches.grows.nextReg.trans hb.caches.grows.nextReg)
        (ha.runs hreach.running (fun _ => hsplit.1) (fun hne => ?_) fun hv => absurd hv hnot)
        fun s' hreach' => ?_
      · rw [hpick hv true (.inl hne), htrue]
        rfl
      · refine (hreach'.running.untaken hb.caches hxb (fun x hx => htable x ?_)
          (dict_of_branch hxb) fun hne => ?_).shrink (Code.subset_scope _)
        · exact List.mem_append_right _ hx
        · rw [hpick hv false (.inr hne), htrue]
          exact Bool.false_ne_true
    · rw [if_neg htrue]
      rw [Bool.not_eq_true] at htrue
      have hskip := hreach.running.untaken ha.caches hxa
        (fun x hx => htable x (List.mem_append_left _ (List.mem_append_right _ hx)))
        (dict_of_branch hxa) fun hne => by
          rw [hpick hv true (.inl hne), htrue]
          exact Bool.false_ne_true
      refine Runs.join false rfl rfl (by rw [hcond.2, htrue]) ha.caches.grows.nextReg
        hb.caches.grows.nextReg
        (hb.runs hskip (fun _ => hsplit.2) (fun hne => ?_) fun hv => absurd hv hnot)
        fun s' hreach' => hreach'.running.shrink (Code.subset_scope _)
      rw [hpick hv false (.inr hne), htrue]
      rfl
  · rw [hscalar] at hv
    exact absurd hv Bool.false_ne_true

/-- **A select**: both branches are run, and step nothing. -/
theorem Follows.select (hvec : X.env.vectorized = true) {mt me : EmitM D (Operand D)}
    (hc : X.Follows cg δ δc sites path inBranch ids rc Operand.Holds (X.value c path))
    (ha : ∀ {ra}, mt rc.cg = .ok ra →
      X.Follows rc.cg δc δa [] ((c, true) :: path) true idsa ra Operand.Holds va)
    (hb : ∀ {ra rb}, mt rc.cg = .ok ra → me ra.cg = .ok rb →
      X.Follows ra.cg δa δb [] ((c, false) :: path) true idsb rb Operand.Holds vb)
    (hxc : Extends X.scheduleEnv path cs δ δc sites) (hnil : inBranch = true → sites = [])
    (hxa : Extends X.scheduleEnv ((c, true) :: path) csa δc δa []) {r : Emitted D (Operand D)}
    (hr : (mt >>= fun t => me >>= fun e => EmitM.build fun dst => .select dst rc.value t e) rc.cg =
      .ok r) :
    X.Follows cg δ δb sites path inBranch (ids ++ (idsa ++ idsb))
      ⟨r.value, rc.code.append r.code, r.cg⟩ Operand.Holds
      ((X.value c path).bind fun v => if truthy v then va else vb) := by
  obtain ⟨ra, _, hra, hrest, rfl⟩ := EmitM.bind_ok.mp hr
  obtain ⟨rb, rs, hrb, hselect, rfl⟩ := EmitM.bind_ok.mp hrest
  have ha := ha hra
  have hb := hb hra hrb
  have hscope : ∀ {c : Code (Instr D)} {A}, X.InScope c A := by
    intro c A hv
    rw [hvec] at hv
    cases hv
  refine ⟨?_, fun hrun _ hreached hreads => ?_, fun hv hb' hrun hreads => ?_⟩
  · have hbuild : Caches rb.cg ([] : List (Int × Site D)) rs := .build hselect
    have hall := hc.caches.append (v := rs.value)
      (c := rc.code.append (ra.code.append (rb.code.append rs.code)))
      (ha.caches.append (v := rs.value) (c := .done)
        (hb.caches.append (v := rs.value) (c := .done) hbuild))
    rwa [List.append_nil, List.append_nil, List.append_nil] at hall
  · obtain ⟨hids, hidsab⟩ := (hreads hvec).append
    refine (hc.runs hrun hscope hreached fun _ => hids).append hc.caches.grows.nextReg
      fun v s₁ _ hreach hcond => ?_
    -- both values are there
    obtain ⟨x, rfl⟩ := Option.ne_none_iff_exists'.mp
      (ha.total hvec rfl hreach.running hidsab.append.1)
    obtain ⟨y, rfl⟩ := Option.ne_none_iff_exists'.mp
      (hb.total hvec rfl (hreach.running.pass ha.caches rfl hxa) hidsab.append.2)
    have hvalue : (if truthy v then some x else some y) =
        (some x).bind fun x => (some y).bind fun y => some (if truthy v then x else y) := by
      rw [Option.bind_some, Option.bind_some]
      split <;> rfl
    rw [hvalue]
    refine (ha.runs hreach.running hscope (fun hne => absurd rfl hne)
      fun _ => hidsab.append.1).append ha.caches.grows.nextReg fun x s₂ _ hreach₂ hx => ?_
    refine (hb.runs hreach₂.running hscope (fun hne => absurd rfl hne)
      fun _ => hidsab.append.2).append hb.caches.grows.nextReg fun y s₃ _ hreach₃ hy => ?_
    have hnext := hb.caches.grows.nextReg
    have hcond' := (hcond.later ha.caches.grows.nextReg hreach₂.kept).later hnext hreach₃.kept
    refine .build hreach₃.running hselect (fun _ => rfl) ?_
    rw [← hcond'.2, ← (hx.later hnext hreach₃.kept).2, ← hy.2, ← apply_ite (Operand.eval s₃.regs)]
    rfl
  · obtain ⟨hids, hidsab⟩ := hreads.append
    obtain ⟨v, hval⟩ := Option.ne_none_iff_exists'.mp (hc.total hv hb' hrun hids)
    have hrunc := hrun.pass hc.caches (hnil hb') hxc
    rw [hval, Option.bind_some]
    split
    · exact ha.total hv rfl hrunc hidsab.append.1
    · exact hb.total hv rfl (hrunc.pass ha.caches rfl hxa) hidsab.append.2

end Conditional

theorem emitsSchedule_conditional (hpos : ∀ {n S}, X.sites n = some S → 0 < n) {loc : SourceLoc}
    {c a b : Expr D} (ihc : X.EmitsSchedule c) (iha : X.EmitsSchedule a)
    (ihb : X.EmitsSchedule b) : X.EmitsSchedule (.conditional loc c a b) := by
  intro path inBranch cg δ r h hr
  rw [emitExpr] at hr
  obtain ⟨rc, r', hrc, hbranch, rfl⟩ := EmitM.bind_ok.mp hr
  have h : X.Ready cg δ path inBranch (c.calls ++ a.calls ++ b.calls)
    ((schedule X.scheduleEnv path c δ).sites ++ _ ++ _) := h
  have hxc := schedule_extends X.scheduleEnv c path δ h.left.left.nodup
  have hc := ihc path inBranch h.left.left hrc
  have hra := (h.left.right hpos hc.caches hxc).branch
    ((schedule X.scheduleEnv path c δ).plan, true)
  have hxa := schedule_extends X.scheduleEnv a _ _ hra.nodup
  have hrb : ∀ {ra}, emitExpr X.env true a rc.cg = .ok ra → X.Ready ra.cg _ _ true b.calls _ :=
    fun {ra} hra' => (h.right hpos (r := ⟨ra.value, .done, ra.cg⟩)
      (hc.caches.append (iha _ true hra hra').caches) (hxc.append hxa.branch)).branch
      ((schedule X.scheduleEnv path c δ).plan, false)
  have hvalue : X.value (schedule X.scheduleEnv path (.conditional loc c a b) δ).plan path = _ :=
    Semantics.val_cond ..
  rw [hvalue]
  by_cases hv : X.env.vectorized = true
  · rw [if_pos hv] at hbranch
    have hnila := hra.sites_nil hv rfl hxa
    have hnil : ∀ {ra}, emitExpr X.env true a rc.cg = .ok ra → _ = [] := fun hra' =>
      (hrb hra').sites_nil hv rfl (schedule_extends X.scheduleEnv b _ _ (hrb hra').nodup)
    obtain ⟨ra, _, hra', -, -⟩ := EmitM.bind_ok.mp hbranch
    have hsites : (schedule X.scheduleEnv path (.conditional loc c a b) δ).sites =
        (schedule X.scheduleEnv path c δ).sites := by
      change _ ++ _ ++ _ = _
      rw [hnila, hnil hra', List.append_nil, List.append_nil]
    rw [hsites]
    refine Follows.select hv hc (fun hra' => hnila ▸ iha _ true hra hra')
      (fun hra' hrb' => hnil hra' ▸ ihb _ true (hrb hra') hrb') hxc
      (fun hb => h.left.left.sites_nil hv hb hxc) (hnila ▸ hxa) hbranch
  · rw [Bool.not_eq_true] at hv
    rw [hv, if_neg Bool.false_ne_true] at hbranch
    obtain ⟨ra, -, hra', -, -⟩ := EmitM.branch_ok.mp hbranch
    exact Follows.branch hv hc (fun hra' => iha _ true hra hra')
      (fun hra' hrb' => ihb _ true (hrb hra') hrb') hxa
      (schedule_extends X.scheduleEnv b _ _ (hrb hra').nodup) h.table hbranch

/-! ### Calls -/

/-- **Operands** from left to right. -/
theorem emitAll_follows (hpos : ∀ {n S}, X.sites n = some S → 0 < n) (path : Path D)
    (inBranch : Bool) (as : List (Expr D)) (has : ∀ a ∈ as, X.EmitsSchedule a)
    {r : Emitted D (List (Operand D))} (h : X.Ready cg δ path inBranch (Expr.callsArgs as)
      (scheduleArgs X.scheduleEnv path as δ).sites)
    (hr : emitAll (as.map (emitExpr X.env inBranch)) cg = .ok r) :
    X.Follows cg δ (scheduleArgs X.scheduleEnv path as δ).dict
      (scheduleArgs X.scheduleEnv path as δ).sites path inBranch (Expr.paramsInArgs inBranch as) r
      Operand.HoldAll (X.values (scheduleArgs X.scheduleEnv path as δ).plans path) := by
  induction as generalizing cg δ r with
  | nil =>
    cases EmitM.pure_ok.mp hr
    have hvalue : X.values (scheduleArgs X.scheduleEnv path [] δ).plans path = some [] :=
      Semantics.vals_nil ..
    rw [hvalue]
    exact ⟨.pure cg _ _, fun hrun _ _ _ => .pure hrun .nil, fun _ _ _ _ => Option.some_ne_none _⟩
  | cons a as ih =>
    obtain ⟨r₁, _, hr₁, hrest, rfl⟩ := EmitM.bind_ok.mp hr
    obtain ⟨r₂, r₃, hr₂, hpure, rfl⟩ := EmitM.bind_ok.mp hrest
    cases EmitM.pure_ok.mp hpure
    have h : X.Ready cg δ path inBranch (a.calls ++ Expr.callsArgs as)
      ((schedule X.scheduleEnv path a δ).sites ++ _) := h
    have hxa := schedule_extends X.scheduleEnv a path δ h.left.nodup
    have ha := has a List.mem_cons_self path inBranch h.left hr₁
    have has := ih (fun b hb => has b (List.mem_cons_of_mem _ hb)) (h.right hpos ha.caches hxa) hr₂
    have hvalue : X.values (scheduleArgs X.scheduleEnv path (a :: as) δ).plans path =
        (X.value (schedule X.scheduleEnv path a δ).plan path).bind fun x =>
          (X.values (scheduleArgs X.scheduleEnv path as
            (schedule X.scheduleEnv path a δ).dict).plans path).bind fun xs => some (x :: xs) := by
      refine (Semantics.vals_cons ..).trans ?_
      simp only [Option.map_eq_bind]
      rfl
    rw [hvalue]
    refine ⟨?_, fun hrun hscope hreached hreads => ?_, fun hv hb hrun hreads => ?_⟩
    · have hall := ha.caches.append (v := r₁.value :: r₂.value)
        (c := r₁.code.append (r₂.code.append .done)) (has.caches.append (v := r₁.value :: r₂.value)
          (c := r₂.code.append .done) (.pure r₂.cg (r₁.value :: r₂.value) .done))
      rwa [List.append_nil] at hall
    · obtain ⟨hsa, hsas⟩ := hscope.append
      refine (ha.runs hrun hsa (fun hne => hreached fun hnil => hne (List.append_eq_nil_iff.mp hnil).1)
        fun hv => (hreads hv).append.1).append ha.caches.grows.nextReg fun x s₁ _ hreach hx => ?_
      refine (has.runs hreach.running hsas.append.1
        (fun hne => hreached fun hnil => hne (List.append_eq_nil_iff.mp hnil).2)
        fun hv => (hreads hv).append.2).append has.caches.grows.nextReg fun xs s₂ _ hreach' hxs => ?_
      exact .pure hreach'.running
        (.cons (hx.later has.caches.grows.nextReg hreach'.kept) hxs)
    · obtain ⟨x, hx⟩ := Option.ne_none_iff_exists'.mp (ha.total hv hb hrun hreads.append.1)
      obtain ⟨xs, hxs⟩ := Option.ne_none_iff_exists'.mp (has.total hv hb
        (hrun.pass ha.caches (h.left.sites_nil hv hb hxa) hxa) hreads.append.2)
      rw [hx, hxs]
      exact Option.some_ne_none _

omit [Fp D] in
theorem Caches.vwapLoads {env : EmitEnv} {symbol : Nat} {r : Emitted D (List (Operand D))}
    (hr : emitVwapLoads env symbol cg = .ok r) : Caches cg [] r := by
  rw [emitVwapLoads] at hr
  split at hr
  · refine .bind hr .build fun _ hr => .bind hr .build fun _ hr => .bind hr .build fun _ hr => ?_
    cases EmitM.pure_ok.mp hr
    exact .pure _ _ _
  · refine .bind hr .fieldLoad fun _ hr => .bind hr .fieldLoad fun _ hr =>
      .bind hr .fieldLoad fun _ hr => ?_
    cases EmitM.pure_ok.mp hr
    exact .pure _ _ _

variable (X) in
/-- The load puts `x` in a register. -/
def Loads (δ : Dict D) (m : EmitM D (Operand D)) (x : D) : Prop :=
  ∀ {cg : CodegenContext D} {A : Set Name} {s : Frame D σ} {r : Emitted D (Operand D)},
    X.Running cg A δ s → m cg = .ok r → X.InScope r.code A →
    cg.nextReg ≤ r.cg.nextReg ∧ X.Runs cg A δ r Operand.Holds s (some x)

/-- Three loads. -/
theorem Runs.loads {mb ma mv : EmitM D (Operand D)} {b a v : D} (hb : X.Loads δ mb b)
    (ha : X.Loads δ ma a) (hv : X.Loads δ mv v) (h : X.Running cg A δ s)
    {r : Emitted D (List (Operand D))}
    (hr : (mb >>= fun b => ma >>= fun a => mv >>= fun v => Pure.pure [b, a, v]) cg = .ok r)
    (hscope : X.InScope r.code A) : X.Runs cg A δ r Operand.HoldAll s (some [b, a, v]) := by
  obtain ⟨r₁, _, hr₁, hrest, rfl⟩ := EmitM.bind_ok.mp hr
  obtain ⟨r₂, _, hr₂, hrest', rfl⟩ := EmitM.bind_ok.mp hrest
  obtain ⟨r₃, r₄, hr₃, hpure, rfl⟩ := EmitM.bind_ok.mp hrest'
  cases EmitM.pure_ok.mp hpure
  obtain ⟨hs₁, hs⟩ := hscope.append
  obtain ⟨hs₂, hs⟩ := hs.append
  have hvalue : some [b, a, v] =
      (some b).bind fun b => (some a).bind fun a => (some v).bind fun v => some [b, a, v] := rfl
  obtain ⟨hnext₁, hload₁⟩ := hb h hr₁ hs₁
  rw [hvalue]
  refine hload₁.append hnext₁ fun b s₁ _ hreach₁ hb => ?_
  obtain ⟨hnext₂, hload₂⟩ := ha hreach₁.running hr₂ hs₂
  refine hload₂.append hnext₂ fun a s₂ _ hreach₂ ha => ?_
  obtain ⟨hnext₃, hload₃⟩ := hv hreach₂.running hr₃ hs.append.1
  refine hload₃.append hnext₃ fun v s₃ _ hreach₃ hv => ?_
  have hb := (hb.later hnext₂ hreach₂.kept).later hnext₃ hreach₃.kept
  exact .pure hreach₃.running (.cons hb (.cons (ha.later hnext₃ hreach₃.kept) (.cons hv .nil)))

/-- The fields a lowered `vwap` works on. -/
theorem Runs.vwapLoads (h : X.Running cg A δ s) {symbol : Nat} (hs : X.tickers symbol)
    {r : Emitted D (List (Operand D))} (hr : emitVwapLoads X.env symbol cg = .ok r)
    (hscope : X.InScope r.code A) :
    X.Runs cg A δ r Operand.HoldAll s (some [(X.ticks X.time symbol).bid,
      (X.ticks X.time symbol).ask, (X.ticks X.time symbol).volume]) := by
  rw [emitVwapLoads] at hr
  by_cases hv : X.env.vectorized = true
  · have hload : ∀ field, X.Loads δ (EmitM.build fun dst => .loadField dst symbol field)
        ((X.ticks X.time symbol).field field) := fun field {cg A s r} h hr _ =>
      ⟨(Caches.build hr).grows.nextReg, .build h hr (fun _ => rfl) rfl⟩
    rw [if_pos hv] at hr
    exact Runs.loads (hload .bid) (hload .ask) (hload .volume) h hr hscope
  · have hquote : ∀ field, field ≠ .volume → X.Loads δ (emitMarketFieldLoad symbol field)
        ((X.ticks X.time symbol).field field) := fun field hf {cg A s r} h hr _ =>
      ⟨(Caches.fieldLoad hr).grows.nextReg, .quote h hs hf hr⟩
    have hvolume : X.Loads δ (emitMarketFieldLoad symbol .volume)
        ((X.ticks X.time symbol).field .volume) := fun {cg A s r} h hr hscope =>
      ⟨(Caches.fieldLoad hr).grows.nextReg, .volume h hr (hscope (Bool.not_eq_true _ ▸ hv))⟩
    rw [if_neg hv] at hr
    exact Runs.loads (hquote .bid (by decide)) (hquote .ask (by decide)) hvolume h hr hscope

/-- **What an operator works on.** -/
theorem emitOperands_follows (hpos : ∀ {n S}, X.sites n = some S → 0 < n) (path : Path D)
    (inBranch : Bool) (op : StatefulOp D) (as : List (Expr D)) (has : ∀ a ∈ as, X.EmitsSchedule a)
    (hvwap : op.fn = .vwap → as = [] ∧ X.tickers op.symbol) {r : Emitted D (List (Operand D))}
    (h : X.Ready cg δ path inBranch (Expr.callsArgs as)
      (scheduleArgs X.scheduleEnv path as δ).sites)
    (hr : emitOperands X.env op (as.map (emitExpr X.env inBranch)) cg = .ok r) :
    X.Follows cg δ (scheduleArgs X.scheduleEnv path as δ).dict
      (scheduleArgs X.scheduleEnv path as δ).sites path inBranch (Expr.paramsInArgs inBranch as) r
      Operand.HoldAll ((X.values (scheduleArgs X.scheduleEnv path as δ).plans path).map
        (op.inputs (X.ticks X.time))) := by
  by_cases hfn : op.fn = .vwap
  · obtain ⟨rfl, hs⟩ := hvwap hfn
    have hvalue : X.values (scheduleArgs X.scheduleEnv path [] δ).plans path = some [] :=
      Semantics.vals_nil ..
    have hnone : ∀ {cg : CodegenContext D} {r : Emitted D (List (Operand D))},
        (Pure.pure [] : EmitM D (List (Operand D))) cg = .ok r →
        X.Follows cg δ δ [] path inBranch [] r Operand.HoldAll (some []) := by
      intro cg r hr
      cases EmitM.pure_ok.mp hr
      exact ⟨.pure cg _ _, fun hrun _ _ _ => .pure hrun .nil, fun _ _ _ _ => Option.some_ne_none _⟩
    rw [hvalue, Option.map_some]
    unfold emitOperands at hr
    unfold StatefulOp.inputs
    rw [hfn] at hr ⊢
    rcases himpl : op.impl with _ | _ | _ <;> rw [himpl] at hr
    · exact hnone hr
    · exact ⟨.vwapLoads hr, fun hrun hscope _ _ => .vwapLoads hrun hs hr hscope,
        fun _ _ _ _ => Option.some_ne_none _⟩
    · exact hnone hr
  · have hinputs : op.inputs (X.ticks X.time) = id := by
      funext vs
      unfold StatefulOp.inputs
      split
      · rename_i hv _
        exact absurd hv hfn
      · rfl
    rw [emitOperands_of_ne hfn] at hr
    rw [hinputs, Option.map_id]
    exact emitAll_follows hpos path inBranch as has h hr

/-- **An operator** after its operands. -/
theorem Follows.operator (hcold : X.env.assumeWarm = false)
    (hpos : ∀ {n S}, X.sites n = some S → 0 < n) {n : Int} {S : Site D} {op : StatefulOp D}
    {plans : List (Plan D)} (hS : X.sites n = some S) (hplan : S.plan = .call op plans)
    (hnew : cg.statefulEmitCache n = none) (hnot : n ∉ siteIds sites) {inBranch : Bool}
    {ids ids' : List Int} {r₁ : Emitted D (List (Operand D))}
    (h : X.Follows cg δ δ₁ sites S.path inBranch ids r₁ Operand.HoldAll
      ((X.values plans S.path).map (op.inputs (X.ticks X.time))))
    (hδ : ∀ {m p}, δ' m = some p → m = n ∧ S.path = [] ∧ p = S.plan ∨ δ₁ m = some p)
    (hflat : X.env.vectorized = true → inBranch ≠ true)
    (hids : X.env.vectorized = true → X.Reads ids' → X.Reads ids) {r₂ : Emitted D (Operand D)}
    (hr : emitOperator X.env op inBranch n r₁.value r₁.cg = .ok r₂) :
    X.Follows cg δ δ' ((n, S) :: sites) S.path inBranch ids'
      ⟨r₂.value, r₁.code.append r₂.code, r₂.cg⟩ Operand.Holds (X.value S.plan S.path) := by
  have hnew' : r₁.cg.statefulEmitCache n = none := by
    by_contra hne
    exact ((h.caches.ids n).mp hne).elim (fun hold => hold hnew) hnot
  have hvalue : X.value S.plan S.path =
      ((X.values plans S.path).map (op.inputs (X.ticks X.time))).bind
        fun _ => X.value S.plan S.path := by
    rcases hvs : X.values plans S.path with _ | vs
    · rw [hplan]
      change X.semantics.val _ _ _ _ = _
      rw [Semantics.val_call, Semantics.output, show X.semantics.vals _ _ _ _ = _ from hvs]
      rfl
    · rfl
  refine ⟨?_, fun hrun hscope hreached hreads => ?_, fun hv hb => absurd hb (hflat hv)⟩
  · have hall := h.caches.append (v := r₂.value) (c := r₁.code.append r₂.code)
      (Caches.operator X.env (hpos hS) hnew' S hr)
    refine ⟨hall.grows, hall.loads, fun m => (hall.ids m).trans (or_congr_right ?_)⟩
    simp only [siteIds, List.map_append, List.map_cons, List.map_nil, List.mem_append,
      List.mem_cons, List.not_mem_nil, or_false]
    exact or_comm
  · rw [hvalue]
    refine (h.runs hrun hscope.append.1 (fun _ => hreached (List.cons_ne_nil _ _))
      fun hv => hids hv (hreads hv)).append h.caches.grows.nextReg fun ys s₁ hys hreach hargs => ?_
    obtain ⟨vs, hvs, rfl⟩ := Option.map_eq_some_iff.mp hys
    exact .operator hreach.running hcold hpos hS hplan hnew' (hreached (List.cons_ne_nil _ _)) hvs
      hargs hδ hr

/-- **The dispatch of a call** that has no id yet in the dictionary. -/
theorem emitDispatch_follows (hcold : X.env.assumeWarm = false)
    (hpos : ∀ {n S}, X.sites n = some S → 0 < n) (path : Path D) (inBranch : Bool) {c : Call D}
    (hargs : ∀ a ∈ c.args, X.EmitsSchedule a)
    (h : X.Ready cg δ path inBranch (c :: Expr.callsArgs c.args)
      (scheduleCall X.scheduleEnv path c.name c.args c.nodeId δ
        (scheduleArgs X.scheduleEnv path c.args δ)).sites) {r : Emitted D (Operand D)}
    (hr : emitDispatch X.env inBranch
      ⟨c.name, emitArgs X.env inBranch c.args, c.nodeId, c.symbolId⟩ cg = .ok r) :
    let s := scheduleCall X.scheduleEnv path c.name c.args c.nodeId δ
      (scheduleArgs X.scheduleEnv path c.args δ)
    X.Follows cg δ s.dict s.sites path inBranch
      (if inBranch && isStatefulOp c.name then [] else Expr.paramsInArgs inBranch c.args) r
      Operand.Holds (X.value s.plan path) := by
  have hc := h.emittable c List.mem_cons_self
  have hspec := @emitDispatch_spec D _ X.env inBranch
    ⟨c.name, emitArgs X.env inBranch c.args, c.nodeId, c.symbolId⟩
    (by rw [map_expr_emitArgs]; exact hc.symbol)
  dsimp only at hspec
  rw [map_expr_emitArgs] at hspec
  -- what is not evaluated leaves no trace in the schedule
  have htake : ∀ shape, X.scheduleEnv.shape c.name c.args = shape → shape ≠ .invalid →
      scheduleArgs X.scheduleEnv path (c.args.take shape.arity) δ =
        ⟨(scheduleArgs X.scheduleEnv path c.args δ).plans.take shape.arity,
          (scheduleArgs X.scheduleEnv path c.args δ).dict,
          (scheduleArgs X.scheduleEnv path c.args δ).sites⟩ :=
    fun shape hshape hvalid => scheduleArgs_take _ path (calls_of_rest hshape hvalid) δ
  unfold scheduleCall at h ⊢
  rcases hshape : decodeCall X.env.impl X.env.symbols c.name c.args (-1) with
    _ | ⟨fn, symbol⟩ | fn | op <;> rw [hshape] at hspec
  · obtain ⟨e, he⟩ := hspec
    rw [he] at hr
    cases hr
  · -- a market read has no operands
    have hargs := htake _ hshape (by rintro ⟨⟩)
    rw [CallShape.arity, List.take_zero, List.take_zero] at hargs
    have hdict := congrArg ScheduledArgs.dict hargs
    have hsites := congrArg ScheduledArgs.sites hargs
    have hst := stateless_of_shape hshape (by rintro _ ⟨⟩) (by rintro ⟨⟩)
    rw [show X.scheduleEnv.shape c.name c.args = _ from hshape, hst, Bool.and_false,
      if_neg Bool.false_ne_true, if_neg Bool.false_ne_true]
    dsimp only at hdict hsites ⊢
    rw [← hdict, ← hsites]
    rw [show _ = _ from hspec] at hr
    exact ⟨.marketValue hr, fun hrun _ _ _ => .marketValue hrun fn (hc.market hshape) hr,
      fun _ _ _ _ => Option.some_ne_none _⟩
  · -- a function of one operand
    obtain ⟨arg, harg, heq⟩ := hspec
    rw [emitArgs_eq_map] at harg
    obtain ⟨a, ha, rfl⟩ := List.map_eq_singleton_iff.mp harg
    have hst := stateless_of_shape hshape (by rintro _ ⟨⟩) (by rintro ⟨⟩)
    rw [show X.scheduleEnv.shape c.name c.args = _ from hshape, hst,
      if_neg Bool.false_ne_true] at h ⊢
    rw [Bool.and_false, if_neg Bool.false_ne_true]
    rw [ha] at h hargs ⊢
    rw [heq] at hr
    obtain ⟨r₁, r₂, hr₁, hr₂, rfl⟩ := EmitM.bind_ok.mp hr
    have ha := hargs a List.mem_cons_self path inBranch (h.sub (fun d hd => List.mem_cons_of_mem _
      (List.mem_append_left _ hd)) (List.sublist_append_left _ _)) hr₁
    have hsites : (scheduleArgs X.scheduleEnv path [a] δ).sites =
        (schedule X.scheduleEnv path a δ).sites := List.append_nil _
    have hids : Expr.paramsInArgs inBranch [a] = a.paramsIn inBranch := List.append_nil _
    have hvalue : X.value (callPlan (.math fn) (scheduleArgs X.scheduleEnv path [a] δ).plans) path =
        (X.value (schedule X.scheduleEnv path a δ).plan path).map fn.apply := Semantics.val_map ..
    dsimp only
    rw [hsites, hids, hvalue]
    refine ha.map (.build hr₂) fun hrun hx => .build hrun hr₂ (fun _ => rfl) ?_
    rw [← hx.2]
    rfl
  · -- a stateful operator
    have hst : isStatefulOp c.name = true := by
      cases hst : isStatefulOp c.name with
      | true => rfl
      | false => exact absurd hshape (decodeCall_stateless (-1) hst op)
    have hargs' := htake _ hshape (by rintro ⟨⟩)
    rw [show X.scheduleEnv.shape c.name c.args = _ from hshape, hst, if_pos rfl] at h ⊢
    change _ = emitOperands X.env op _ >>= _ at hspec
    rw [emitArgs_eq_map, ← List.map_take, List.map_map] at hspec
    rw [emitArgs_eq_map, hspec] at hr
    obtain ⟨r₁, r₂, hr₁, hr₂, rfl⟩ := EmitM.bind_ok.mp hr
    have hnd := h.nodup
    rw [siteIds, List.map_cons, List.nodup_cons] at hnd
    have hready : X.Ready cg δ path inBranch (Expr.callsArgs (c.args.take op.fn.arity))
        (scheduleArgs X.scheduleEnv path (c.args.take op.fn.arity) δ).sites := by
      rw [show scheduleArgs X.scheduleEnv path (c.args.take op.fn.arity) δ = _ from hargs']
      refine h.sub (fun d hd => ?_) (List.sublist_cons_self _ _)
      obtain ⟨a, ha, hd⟩ := Expr.mem_callsArgs.mp hd
      exact List.mem_cons_of_mem _ (Expr.mem_callsArgs.mpr ⟨a, List.mem_of_mem_take ha, hd⟩)
    have hops := emitOperands_follows hpos path inBranch op (c.args.take op.fn.arity)
      (fun a ha => hargs a (List.mem_of_mem_take ha))
      (fun hfn => ⟨by rw [hfn]; rfl, hc.vwap hshape hfn⟩) hready hr₁
    rw [show scheduleArgs X.scheduleEnv path (c.args.take op.fn.arity) δ = _ from hargs'] at hops
    have hflat : X.env.vectorized = true → inBranch ≠ true := fun hv hb =>
      h.inBranch hb (h.flat hv _ List.mem_cons_self)
    refine Follows.operator hcold hpos (h.table _ List.mem_cons_self) rfl
      (h.new _ List.mem_cons_self) hnd.1 hops (fun {m p} hp => ?_) hflat (fun hv hreads => ?_) hr₂
    · dsimp only at hp
      split at hp
      · rename_i hpath
        by_cases hm : m = c.nodeId
        · rw [hm, Dict.insert_self, Option.some.injEq] at hp
          exact .inl ⟨hm, List.isEmpty_iff.mp hpath, hp.symm⟩
        · exact .inr ((Dict.insert_ne _ _ hm).symm.trans hp)
      · exact .inr hp
    · rw [Bool.eq_false_iff.mpr (hflat hv), Bool.false_and, if_neg Bool.false_ne_true] at hreads
      intro i hi
      obtain ⟨a, ha, hia⟩ := Expr.mem_paramsInArgs.mp hi
      exact hreads i (Expr.mem_paramsInArgs.mpr
        ⟨a, List.mem_of_mem_take ha, Bool.eq_false_iff.mpr (hflat hv) ▸ hia⟩)

/-- **The code of every expression follows its schedule.** -/
theorem emitExpr_follows (hcold : X.env.assumeWarm = false)
    (hpos : ∀ {n S}, X.sites n = some S → 0 < n) (e : Expr D) : X.EmitsSchedule e := by
  induction e using Expr.induct with
  | numberLiteral loc v => exact emitsSchedule_numberLiteral loc v
  | identifierExpr loc n => exact emitsSchedule_identifierExpr loc n
  | parameterExpr loc n i => exact emitsSchedule_parameterExpr loc n i
  | unaryOp loc k e ih => exact emitsSchedule_unaryOp ih
  | binaryOp loc k a b iha ihb => exact emitsSchedule_binaryOp hpos iha ihb
  | conditional loc c a b ihc iha ihb => exact emitsSchedule_conditional hpos ihc iha ihb
  | functionCall loc n args nid sid ih =>
    intro path inBranch cg δ r h hr
    have hc : Emittable X.env X.tickers ⟨n, args, nid, sid⟩ :=
      h.emittable _ List.mem_cons_self
    rw [emitExpr] at hr
    rcases hδ : δ nid with _ | p
    · -- the call is new
      rw [schedule_fresh X.scheduleEnv hδ] at h ⊢
      have hmiss : 0 < nid → cg.statefulEmitCache nid = none := by
        intro hpos
        refine h.new nid ?_
        have hst : isStatefulOp n = true := by
          by_contra hst
          exact absurd (hc.stateless (Bool.not_eq_true _ ▸ hst)) (Int.not_le.mpr hpos)
        unfold scheduleCall
        rw [if_pos hst, siteIds, List.map_cons]
        exact List.mem_cons_self
      rw [emitCall_miss hmiss] at hr
      exact emitDispatch_follows hcold hpos path inBranch ih h hr
    · -- the call is stepped at every tick, and its value is cached
      obtain ⟨hnid, hcached⟩ := h.known hδ
      obtain ⟨v, hv⟩ := Option.ne_none_iff_exists'.mp hcached
      rw [schedule_alias X.scheduleEnv hδ]
      rw [emitCall_hit hnid hv] at hr
      have hvalue : ∀ {A : Set Name} {s : Frame D σ}, X.Running cg A δ s →
          ∃ x, X.value (.now p) path = some x ∧ v.Holds cg s x := by
        intro A s hrun
        obtain ⟨w, x, hw, hx, hold⟩ := hrun.stepped hδ
        cases hv.symm.trans hw
        exact ⟨x, hx, hold⟩
      refine ⟨.reuse hr, fun hrun _ _ _ => ?_, fun _ _ hrun _ => ?_⟩
      · obtain ⟨x, hx, hold⟩ := hvalue hrun
        dsimp only
        rw [hx]
        exact .reuse hrun hold hr
      · obtain ⟨x, hx, -⟩ := hvalue hrun
        dsimp only
        rw [hx]
        exact Option.some_ne_none x

end EmittedTick

end JitSignalEngine
