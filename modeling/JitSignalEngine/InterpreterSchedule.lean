import JitSignalEngine.Schedule

/-!
# The interpreter follows the schedule

One `Evaluate` call, started in slots that are in the state the schedule of the body
says, returns the value of the plan and leaves the slots in the state the schedule
says for the next tick. This holds in the middle of a tick as well, where some ids
have been stepped and are cached and others have not (`MidTick`).

The interpreter visits `q` and `r` of a `kalman1d` before `x`, while ids are handed out
in the order of the arguments. A call in `q` may therefore share its id with a call in
`x` that has not been visited; it is then the one that gets evaluated. `KalmanOrdered`
asks that the two agree in the ids inside, so that it makes no difference which one is.

* `Computes` — what a computation of the interpreter returns and leaves behind, with
  rules for sequencing.
* `visit_computes` — the visitor on every expression.
* `resultAt_eq` — the run: up to the first tick that throws, `Evaluate` returns the
  value of the plan.
-/

namespace JitSignalEngine

open Fp Widen Dataflow Interpreter

variable {D L : Type} [Fp D] [Fp L] [Widen D L]

/-- The schedules of the interpreter: runtime operators, and no references. -/
def interpEnv (symbols : SymbolTable) : ScheduleEnv D := ⟨symbols, runtimeImpl, fun _ => none⟩

/-! ## Conditions on the calls of a body -/

/-- What evaluation relies on in every call: symbol ids are bound, ids are there exactly
for the stateful calls, and no call occurs inside another one of the same id. -/
structure CallOk (symbols : SymbolTable) (c : Call D) : Prop where
  /-- the symbol id agrees with the table -/
  symbol : c.SymbolOk symbols
  /-- stateful calls have ids -/
  stateful : isStatefulOp c.name = true → 0 < c.nodeId
  /-- other calls have none -/
  stateless : isStatefulOp c.name = false → c.nodeId < 0
  /-- the ids inside a call are different from its own -/
  acyclic : isStatefulOp c.name = true → ∀ d ∈ Expr.callsArgs c.args, d.nodeId ≠ c.nodeId

/-- A call looks like the site of its id: in particular it has the same ids inside. -/
def LooksLike (c : Call D) (S : Site D) : Prop :=
  c.name = S.name ∧ c.args.map Expr.outline = S.args

/-- A call in the noise arguments of a `kalman1d` that shares its id with a site in the
measurement looks like it. -/
def KalmanOrdered (env : ScheduleEnv D) (Γ : SiteTable D) : Prop :=
  ∀ n S, Γ n = some S → Builtin.ofName S.name = some (.stateful .kalman1d) →
    ∀ x q r, S.args = [x, q, r] → ∀ a ∈ q.calls ++ r.calls, ∀ T,
      (a.nodeId, T) ∈ (schedule env S.path x S.dict).sites → LooksLike a T

/-! ## In the middle of a tick -/

section Tick

variable (Γ : SiteTable D) (params : List D) (ticks : Nat → MarketState D) (t : Nat)

variable (L) in
/-- When a position is reached, along a run of the interpreter. -/
abbrev reached (path : Path D) : Nat → Bool := (interpSemantics L params).along ticks path

variable (L) in
/-- The slot of an operator before a tick. -/
abbrev slotAt (path : Path D) (op : StatefulOp D) (args : List (Plan D)) (t : Nat) :
    NodeSlot D L :=
  (interpSemantics L params).stateAt ticks op (reached L params ticks path)
    ((interpSemantics L params).vals ticks args (reached L params ticks path)) t

variable (L) in
/-- The value of a plan at a position. -/
abbrev valueAt (plan : Plan D) (path : Path D) (t : Nat) : Option D :=
  (interpSemantics L params).val ticks plan (reached L params ticks path) t

/-- The id of a site has been stepped, if the site is reached at all. -/
def Settled (x : Int × Site D) (s : EvalState D L) : Prop :=
  reached L params ticks x.2.path t = true → s.cache x.1 ≠ none

/-- The state of an `Evaluate` call at tick `t`: an id that is not cached has the slot
from before the tick, a cached one the slot from after it, and with it all ids inside
have been stepped. -/
structure MidTick (env : ScheduleEnv D) (s : EvalState D L) : Prop where
  /-- parameters do not change -/
  ctxParams : s.ctx.params = params
  /-- ids that have not been stepped -/
  idle : ∀ {n S op args}, Γ n = some S → S.plan = .call op args → s.cache n = none →
    s.ctx.slots n.toNat = slotAt L params ticks S.path op args t
  /-- ids that have been stepped -/
  stepped : ∀ {n S op args v}, Γ n = some S → S.plan = .call op args → s.cache n = some v →
    s.ctx.slots n.toNat = slotAt L params ticks S.path op args (t + 1)
  /-- cached values are those of the plan -/
  value : ∀ {n S v}, Γ n = some S → s.cache n = some v →
    reached L params ticks S.path t = true ∧ valueAt L params ticks S.plan S.path t = some v
  /-- nothing is left to step inside a cached call -/
  closed : ∀ {n S v}, Γ n = some S → s.cache n = some v →
    ∀ x ∈ (scheduleArgs env S.path S.args S.dict).sites, Settled params ticks t x s

/-- What code that contains `calls` leaves behind, given the sites it goes through. -/
structure After (env : ScheduleEnv D) (calls : List (Call D)) (sites : List (Int × Site D))
    (s s' : EvalState D L) : Prop where
  /-- the slots are as the schedule says -/
  mid : MidTick Γ params ticks t env s'
  /-- nothing leaves the cache -/
  grows : ∀ {n}, s.cache n ≠ none → s'.cache n ≠ none
  /-- only the ids of the calls are stepped -/
  frame : ∀ {n}, (∀ c ∈ calls, c.nodeId ≠ n) → s'.cache n = s.cache n
  /-- every site that is reached has been stepped -/
  settled : ∀ x ∈ sites, Settled params ticks t x s'

/-- What a computation returns, as a value of the plan semantics, and, unless it throws,
what it leaves behind. -/
def Computes {α : Type} (env : ScheduleEnv D) (calls : List (Call D))
    (sites : List (Int × Site D)) (m : EvalM D L α) (s : EvalState D L) (v : Option α) : Prop :=
  (m s).1.toOption = v ∧ (v ≠ none → After Γ params ticks t env calls sites s (m s).2)

variable {Γ params ticks t} {env : ScheduleEnv D} {s s' s'' : EvalState D L}
  {cs cs' : List (Call D)} {sites sites' : List (Int × Site D)}

omit [Fp L] [Widen D L] in
theorem toOption_eq_some {α : Type} {r : Except String α} {a : α} (h : r.toOption = some a) :
    r = .ok a := by
  cases r with
  | error e => cases h
  | ok b => exact congrArg _ (Option.some.inj h)

theorem Settled.mono {x : Int × Site D} (h : Settled params ticks t x s)
    (hg : ∀ {n}, s.cache n ≠ none → s'.cache n ≠ none) : Settled params ticks t x s' :=
  fun hx => hg (h hx)

namespace After

theorem refl (h : MidTick Γ params ticks t env s) :
    After Γ params ticks t env cs [] s s :=
  ⟨h, fun h => h, fun _ => rfl, fun _ hx => absurd hx List.not_mem_nil⟩

theorem trans (h : After Γ params ticks t env cs sites s s')
    (h' : After Γ params ticks t env cs' sites' s' s'') :
    After Γ params ticks t env (cs ++ cs') (sites ++ sites') s s'' where
  mid := h'.mid
  grows hn := h'.grows (h.grows hn)
  frame hn := (h'.frame fun c hc => hn c (List.mem_append_right _ hc)).trans
    (h.frame fun c hc => hn c (List.mem_append_left _ hc))
  settled x hx := (List.mem_append.mp hx).elim (fun hx => (h.settled x hx).mono h'.grows)
    (h'.settled x)

/-- Forget some sites, allow more calls. -/
theorem weaken (h : After Γ params ticks t env cs sites s s') (hc : ∀ c ∈ cs, c ∈ cs')
    (hs : ∀ x ∈ sites', x ∈ sites) : After Γ params ticks t env cs' sites' s s' :=
  ⟨h.mid, h.grows, fun hn => h.frame fun c hcs => hn c (hc c hcs),
    fun x hx => h.settled x (hs x hx)⟩

end After

namespace Computes

variable {α β : Type}

theorem pure (h : MidTick Γ params ticks t env s) (a : α) :
    Computes Γ params ticks t env cs [] (Pure.pure a : EvalM D L α) s (some a) :=
  ⟨rfl, fun _ => .refl h⟩

theorem throw (e : String) :
    Computes Γ params ticks t env cs sites (EvalM.throw e : EvalM D L α) s none :=
  ⟨rfl, fun h => absurd rfl h⟩

/-- A computation that returns. -/
theorem ok {m : EvalM D L α} {a : α} (h : Computes Γ params ticks t env cs sites m s (some a)) :
    m s = (.ok a, (m s).2) ∧ After Γ params ticks t env cs sites s (m s).2 :=
  ⟨Prod.ext (toOption_eq_some h.1) rfl, h.2 (Option.some_ne_none a)⟩

/-- A computation that throws. -/
theorem error {m : EvalM D L α} (h : Computes Γ params ticks t env cs sites m s none) :
    ∃ e s', m s = (.error e, s') := by
  rcases hm : m s with ⟨e | a, s'⟩
  · exact ⟨e, s', rfl⟩
  · have h := h.1
    rw [hm] at h
    cases h

/-- Sequencing. -/
theorem bind (cs' : List (Call D)) (sites' : List (Int × Site D)) {m : EvalM D L α}
    {f : α → EvalM D L β} {v : Option α} {g : α → Option β}
    (hm : Computes Γ params ticks t env cs sites m s v)
    (hf : ∀ a s', v = some a → After Γ params ticks t env cs sites s s' →
      Computes Γ params ticks t env cs' sites' (f a) s' (g a)) :
    Computes Γ params ticks t env (cs ++ cs') (sites ++ sites') (m >>= f) s (v.bind g) := by
  cases v with
  | none =>
    obtain ⟨e, s', he⟩ := hm.error
    refine ⟨?_, fun h => absurd rfl h⟩
    rw [EvalM.bind_error he]
    rfl
  | some a =>
    obtain ⟨heq, hafter⟩ := hm.ok
    have hf := hf a _ rfl hafter
    refine ⟨?_, fun h => ?_⟩
    · rw [EvalM.bind_ok heq]
      exact hf.1
    · rw [EvalM.bind_ok heq]
      exact hafter.trans (hf.2 h)

/-- Sequencing with a pure function. -/
theorem map {m : EvalM D L α} {f : α → β} {v : Option α}
    (hm : Computes Γ params ticks t env cs sites m s v) :
    Computes Γ params ticks t env cs sites (m >>= fun a => Pure.pure (f a)) s (v.map f) := by
  have h := hm.bind [] [] (f := fun a => (Pure.pure (f a) : EvalM D L β))
    (g := fun a => some (f a)) fun a s' _ hs => .pure hs.mid (f a)
  rw [List.append_nil, List.append_nil] at h
  cases v <;> exact h

theorem weaken {m : EvalM D L α} {v : Option α}
    (h : Computes Γ params ticks t env cs sites m s v) (hc : ∀ c ∈ cs, c ∈ cs')
    (hs : ∀ x ∈ sites', x ∈ sites) : Computes Γ params ticks t env cs' sites' m s v :=
  ⟨h.1, fun hv => (h.2 hv).weaken hc hs⟩

end Computes

/-! ## Before a visit -/

variable (Γ params ticks t) in
/-- What must hold before code with the given calls and sites is visited at the position
`path`. The ids of the dictionary have been stepped, except those `pend` allows; a call
with such an id has to look like the site of the id. -/
structure Ready (env : ScheduleEnv D) (path : Path D) (δ : Dict D) (pend : Int → Prop)
    (calls : List (Call D)) (sites : List (Int × Site D)) (s : EvalState D L) : Prop where
  /-- the sites are those of the table -/
  table : ∀ x ∈ sites, Γ x.1 = some x.2
  /-- no id has two of them -/
  nodup : (siteIds sites).Nodup
  /-- the dictionary is one of unconditional sites -/
  dict : DictOk Γ δ
  /-- the calls are well formed -/
  callOk : ∀ c ∈ calls, CallOk env.symbols c
  /-- calls that may come before their site look like it -/
  safe : ∀ c ∈ calls, pend c.nodeId → ∀ S, Γ c.nodeId = some S → LooksLike c S
  /-- the ids of the dictionary -/
  known : ∀ {n p}, δ n = some p → s.cache n ≠ none ∨ pend n
  /-- the position is reached -/
  active : reached L params ticks path t = true
  /-- the slots are as the schedule says -/
  mid : MidTick Γ params ticks t env s

namespace Ready

variable {path : Path D} {δ δ₁ : Dict D} {pend : Int → Prop}

/-- Before the first of two pieces of code. -/
theorem left (h : Ready Γ params ticks t env path δ pend (cs ++ cs') (sites ++ sites') s) :
    Ready Γ params ticks t env path δ pend cs sites s :=
  { h with
    table := fun x hx => h.table x (List.mem_append_left _ hx)
    nodup := by
      have := h.nodup
      rw [siteIds, List.map_append] at this
      exact this.of_append_left
    callOk := fun c hc => h.callOk c (List.mem_append_left _ hc)
    safe := fun c hc => h.safe c (List.mem_append_left _ hc) }

/-- Before the second, when the first has been passed over. -/
theorem drop (h : Ready Γ params ticks t env path δ pend (cs ++ cs') (sites ++ sites') s) :
    Ready Γ params ticks t env path δ pend cs' sites' s :=
  { h with
    table := fun x hx => h.table x (List.mem_append_right _ hx)
    nodup := by
      have := h.nodup
      rw [siteIds, List.map_append] at this
      exact this.of_append_right
    callOk := fun c hc => h.callOk c (List.mem_append_right _ hc)
    safe := fun c hc => h.safe c (List.mem_append_right _ hc) }

/-- Before the second, when the first has been visited. -/
theorem right (h : Ready Γ params ticks t env path δ pend (cs ++ cs') (sites ++ sites') s)
    (hx : Extends env path cs δ δ₁ sites)
    (ha : After Γ params ticks t env cs sites s s') :
    Ready Γ params ticks t env path δ₁ pend cs' sites' s' :=
  { h.drop with
    dict := h.dict.extend hx h.left.table
    mid := ha.mid
    known := fun hn => by
      rcases hx.source hn with hn | ⟨S, hS, hpath, _⟩
      · exact (h.known hn).imp_left ha.grows
      · refine .inl (ha.settled _ hS ?_)
        rw [hpath]
        rfl }

/-- Before a branch that is taken. -/
theorem branch {cb : Plan D × Bool} (h : Ready Γ params ticks t env path δ pend cs sites s)
    (hact : reached L params ticks (cb :: path) t = true) :
    Ready Γ params ticks t env (cb :: path) δ pend cs sites s :=
  { h with active := hact }

/-- After a branch that was not taken. -/
theorem skip {cb : Plan D × Bool}
    (h : Ready Γ params ticks t env path δ pend (cs ++ cs') (sites ++ sites') s)
    (hx : Extends env (cb :: path) cs δ δ₁ sites) :
    Ready Γ params ticks t env path δ₁ pend cs' sites' s :=
  { h.drop with
    dict := h.dict.extend hx h.left.table
    known := fun hn => by
      rcases hx.source hn with hn | ⟨S, hS, hpath, _⟩
      · exact h.known hn
      · have hsuf := hx.suffix hS
        rw [hpath] at hsuf
        exact absurd (List.suffix_nil.mp hsuf) (List.cons_ne_nil _ _) }

/-- The same code, later in the tick. -/
theorem later (h : Ready Γ params ticks t env path δ pend cs sites s)
    (ha : After Γ params ticks t env cs' sites' s s') :
    Ready Γ params ticks t env path δ pend cs sites s' :=
  { h with
    known := fun hn => (h.known hn).imp_left ha.grows
    mid := ha.mid }

/-- Before the second of two pieces of code, when the first is yet to be visited. -/
theorem ahead (h : Ready Γ params ticks t env path δ pend (cs ++ cs') (sites ++ sites') s)
    (hx : Extends env path cs δ δ₁ sites)
    (hlook : ∀ c ∈ cs', ∀ T, (c.nodeId, T) ∈ sites → LooksLike c T) :
    Ready Γ params ticks t env path δ₁ (fun n => pend n ∨ ∃ T, (n, T) ∈ sites) cs' sites' s :=
  { h.drop with
    dict := h.dict.extend hx h.left.table
    safe := fun c hc hp S hS => by
      rcases hp with hp | ⟨T, hT⟩
      · exact h.drop.safe c hc hp S hS
      · rw [Option.some.inj (hS.symm.trans (h.left.table _ hT))]
        exact hlook c hc T hT
    known := fun hn => by
      rcases hx.source hn with hn | ⟨S, hS, _⟩
      · exact (h.known hn).imp_right .inl
      · exact .inr (.inr ⟨S, hS⟩) }

end Ready

/-- Sites in a branch that is not taken need no stepping. -/
theorem After.skipped {path : Path D} {c : Plan D} {b : Bool} {v : D} {δ₁ δ₂ : Dict D}
    (hx : Extends env ((c, b) :: path) cs' δ₁ δ₂ sites')
    (hact : reached L params ticks path t = true)
    (hc : valueAt L params ticks c path t = some v) (hv : truthy v ≠ b) :
    ∀ x ∈ sites', Settled params ticks t x s := by
  intro x hmem hreach
  have h := (interpSemantics L params).along_of_suffix ticks (hx.suffix hmem) hreach
  rw [(interpSemantics L params).along_branch ticks hact hc b, beq_iff_eq] at h
  exact absurd h hv

/-! ## The visitor, constructor by constructor -/

variable {symbols : SymbolTable}

variable (Γ params ticks t symbols) in
/-- The interpreter follows the schedule of `e` in tick `t`. -/
def Follows (L : Type) [Fp L] [Widen D L] (e : Expr D) : Prop :=
  ∀ (path : Path D) (δ : Dict D) (pend : Int → Prop) (s : EvalState D L),
    Ready Γ params ticks t (interpEnv symbols) path δ pend e.calls
      (schedule (interpEnv symbols) path e δ).sites s →
    Computes Γ params ticks t (interpEnv symbols) e.calls
      (schedule (interpEnv symbols) path e δ).sites (visit symbols (ticks t) e) s
      (valueAt L params ticks (schedule (interpEnv symbols) path e δ).plan path t)

theorem follows_numberLiteral (loc : SourceLoc) (v : D) :
    Follows Γ params ticks t symbols L (.numberLiteral loc v) := by
  intro path δ pend s h
  have hval : valueAt L params ticks (.leaf (.number v)) path t = some v := by
    rw [valueAt, Semantics.val_leaf]; rfl
  rw [schedule, hval]
  exact .pure h.mid v

theorem follows_identifierExpr (loc : SourceLoc) (n : String) :
    Follows Γ params ticks t symbols L (.identifierExpr loc n) := by
  intro path δ pend s _
  have hval : valueAt L params ticks (.leaf .fail) path t = none := by
    rw [valueAt, Semantics.val_leaf]; rfl
  rw [schedule, refPlan, interpEnv]
  dsimp only
  rw [hval]
  exact .throw _

omit [Fp D] [Fp L] [Widen D L] in
/-- Parameter access. -/
theorem visitParameter_spec (name : String) (id : Int) (s : EvalState D L) :
    (visitParameter name id s).1.toOption = paramValue s.ctx.params id ∧
      (visitParameter name id s).2 = s := by
  unfold visitParameter paramValue
  rcases s.ctx.params with _ | ⟨p, ps⟩
  · simp [Except.toOption]
  · by_cases hid : id < 0
    · simp [hid, Except.toOption]
    · rcases hp : (p :: ps)[id.toNat]? with _ | v <;> simp [hid, hp, Except.toOption]

theorem follows_parameterExpr (loc : SourceLoc) (name : String) (id : Int) :
    Follows Γ params ticks t symbols L (.parameterExpr loc name id) := by
  intro path δ pend s h
  have hval : valueAt L params ticks (.leaf (.param id)) path t = paramValue params id := by
    rw [valueAt, Semantics.val_leaf]; rfl
  obtain ⟨hv, hs⟩ := visitParameter_spec name id s
  rw [schedule, hval, visit]
  refine ⟨by rw [hv, h.mid.ctxParams], fun _ => ?_⟩
  rw [hs]
  exact .refl h.mid

theorem follows_unaryOp {loc : SourceLoc} {kind : UnaryOpKind} {e : Expr D}
    (ih : Follows Γ params ticks t symbols L e) :
    Follows Γ params ticks t symbols L (.unaryOp loc kind e) := by
  intro path δ pend s h
  rw [schedule, valueAt, Semantics.val_map, visit]
  exact (ih path δ pend s h).map

theorem follows_binaryOp {loc : SourceLoc} {kind : BinaryOpKind} {a b : Expr D}
    (iha : Follows Γ params ticks t symbols L a) (ihb : Follows Γ params ticks t symbols L b) :
    Follows Γ params ticks t symbols L (.binaryOp loc kind a b) := by
  intro path δ pend s h
  have h : Ready Γ params ticks t (interpEnv symbols) path δ pend (a.calls ++ b.calls)
    ((schedule (interpEnv symbols) path a δ).sites ++ _) s := h
  rw [schedule, valueAt, Semantics.val_zip, visit]
  refine (iha path δ pend s h.left).bind _ _ fun v s' _ hs' => ?_
  exact (ihb path _ pend s'
    (h.right (schedule_extends _ a path δ h.left.nodup) hs')).map

theorem follows_conditional {loc : SourceLoc} {c a b : Expr D}
    (ihc : Follows Γ params ticks t symbols L c) (iha : Follows Γ params ticks t symbols L a)
    (ihb : Follows Γ params ticks t symbols L b) :
    Follows Γ params ticks t symbols L (.conditional loc c a b) := by
  intro path δ pend s h
  rw [schedule] at h ⊢
  dsimp only at h ⊢
  rw [Expr.calls, List.append_assoc, List.append_assoc] at h
  rw [valueAt, Semantics.val_cond, visit, Expr.calls, List.append_assoc, List.append_assoc]
  have hxc := schedule_extends _ c path δ h.left.nodup
  refine (ihc path δ pend s h.left).bind _ _ fun v s' hv hs' => ?_
  have h' := h.right hxc hs'
  have hxa := schedule_extends _ a _ _ h'.left.nodup
  have hxb := schedule_extends _ b _ _ h'.drop.nodup
  have htaken := (interpSemantics L params).along_branch ticks h.active hv
  by_cases htr : truthy v = true
  · have hcomp := iha _ _ pend s' (h'.left.branch ((htaken true).trans (beq_iff_eq.mpr htr)))
    rw [if_pos htr, if_pos (show (interpSemantics L params).truthy v = true from htr)]
    refine ⟨hcomp.1, fun hok => ?_⟩
    have hskip := After.skipped (s := (visit symbols (ticks t) a s').2) hxb h.active hv
      (by rw [htr]; decide)
    exact (hcomp.2 hok).trans
      ⟨(hcomp.2 hok).mid, fun hn => hn, fun _ => rfl, hskip⟩
  · have hskip := After.skipped (s := s') hxa h.active hv htr
    have hcomp := ihb _ _ pend s' ((h'.skip hxa).branch
      ((htaken false).trans (beq_iff_eq.mpr (Bool.not_eq_true _ ▸ htr))))
    rw [if_neg htr, if_neg (show ¬ (interpSemantics L params).truthy v = true from htr)]
    refine ⟨hcomp.1, fun hok => ?_⟩
    exact After.trans ⟨h'.mid, fun hn => hn, fun _ => rfl, hskip⟩ (hcomp.2 hok)

/-- Operands, from left to right. -/
theorem follows_args (args : List (Expr D))
    (ih : ∀ a ∈ args, Follows Γ params ticks t symbols L a) (path : Path D) (δ : Dict D)
    (pend : Int → Prop) (s : EvalState D L)
    (h : Ready Γ params ticks t (interpEnv symbols) path δ pend (Expr.callsArgs args)
      (scheduleArgs (interpEnv symbols) path args δ).sites s) :
    Computes Γ params ticks t (interpEnv symbols) (Expr.callsArgs args)
      (scheduleArgs (interpEnv symbols) path args δ).sites
      (evalAll (args.map (visit symbols (ticks t)))) s
      ((interpSemantics L params).vals ticks
        (scheduleArgs (interpEnv symbols) path args δ).plans (reached L params ticks path) t) := by
  induction args generalizing δ s with
  | nil =>
    rw [scheduleArgs, Semantics.vals_nil]
    exact .pure h.mid []
  | cons a as iha =>
    have h : Ready Γ params ticks t (interpEnv symbols) path δ pend
      (a.calls ++ Expr.callsArgs as) ((schedule (interpEnv symbols) path a δ).sites ++ _) s := h
    rw [scheduleArgs, Semantics.vals_cons, List.map_cons, evalAll]
    refine (ih a List.mem_cons_self path δ pend s h.left).bind _ _ fun v s' _ hs' => ?_
    exact (iha (fun b hb => ih b (List.mem_cons_of_mem _ hb)) _ s'
      (h.right (schedule_extends _ a path δ h.left.nodup) hs')).map

/-! ### Calls -/

/-- The trace plays no role. -/
theorem MidTick.of_eq (h : MidTick Γ params ticks t env s) (hctx : s'.ctx = s.ctx)
    (hcache : s'.cache = s.cache) : MidTick Γ params ticks t env s' where
  ctxParams := hctx ▸ h.ctxParams
  idle hS hp hn := hctx ▸ h.idle hS hp (hcache ▸ hn)
  stepped hS hp hn := hctx ▸ h.stepped hS hp (hcache ▸ hn)
  value hS hn := h.value hS (hcache ▸ hn)
  closed hS hn x hx hr := by
    rw [hcache]
    exact h.closed hS (hcache ▸ hn) x hx hr

omit [Fp D] [Fp L] [Widen D L] in
/-- Updating a slot. -/
theorem updateSlot_spec (fn : StatefulFn) (n : Int)
    (step : NodeSlot D L → Except String (D × NodeSlot D L)) (s : EvalState D L) :
    (∃ e, step (s.ctx.slots n.toNat) = .error e ∧ updateSlot fn n step s = (.error e, s)) ∨
    ∃ v slot trace, step (s.ctx.slots n.toNat) = .ok (v, slot) ∧
      updateSlot fn n step s = (.ok v, ⟨s.ctx.setSlot n.toNat slot, s.cache, trace⟩) := by
  unfold updateSlot
  rcases h : step (s.ctx.slots n.toNat) with e | ⟨v, slot⟩
  · exact .inl ⟨e, rfl, rfl⟩
  · exact .inr ⟨v, slot, _, rfl, rfl⟩

omit [Fp D] [Fp L] [Widen D L] in
/-- Caching a value. -/
theorem cacheAndReturn_spec {n : Int} (hn : 0 < n) (v : D) (s : EvalState D L) :
    ∃ trace, cacheAndReturn n v s =
      (.ok v, ⟨s.ctx, fun j => if j = n then some v else s.cache j, trace⟩) := by
  unfold cacheAndReturn noteReturn
  rw [if_pos hn]
  exact ⟨_, rfl⟩

/-- **Stepping a slot whose operands have been evaluated.** -/
theorem computes_step (hΓ : Coherent env Γ) {c : Call D} {S : Site D} {op : StatefulOp D}
    {args : List (Plan D)} {vs : List D} (hS : Γ c.nodeId = some S)
    (hplan : S.plan = .call op args) (hidle : s.cache c.nodeId = none)
    (hact : reached L params ticks S.path t = true)
    (hinner : ∀ x ∈ (scheduleArgs env S.path S.args S.dict).sites, Settled params ticks t x s)
    (hvs : (interpSemantics L params).vals ticks args (reached L params ticks S.path) t = some vs)
    (hmid : MidTick Γ params ticks t env s) :
    Computes Γ params ticks t env [c] [(c.nodeId, S)]
      (updateSlot op.fn c.nodeId (operatorStep op (ticks t) vs) >>= cacheAndReturn c.nodeId) s
      (valueAt L params ticks S.plan S.path t) := by
  have hpos := hΓ.pos hS
  have hslot := hmid.idle hS hplan hidle
  have hval : valueAt L params ticks S.plan S.path t =
      ((operatorStep op (ticks t) vs (s.ctx.slots c.nodeId.toNat)).toOption).map Prod.fst := by
    rw [valueAt, hplan, Semantics.val_call, Semantics.output, hvs, hslot]
    rfl
  rcases updateSlot_spec op.fn c.nodeId (operatorStep op (ticks t) vs) s with
    ⟨e, hstep, hupd⟩ | ⟨v, slot, trace, hstep, hupd⟩
  · rw [hstep] at hval
    rw [hval]
    refine ⟨?_, fun h => absurd rfl h⟩
    rw [EvalM.bind_error hupd]
    rfl
  · rw [hstep] at hval
    obtain ⟨trace', hcache⟩ := cacheAndReturn_spec hpos v
      (⟨s.ctx.setSlot c.nodeId.toNat slot, s.cache, trace⟩ : EvalState D L)
    have hrun := (EvalM.bind_ok hupd (f := cacheAndReturn c.nodeId)).trans hcache
    -- the slot is the next one of the schedule
    have hnext : slotAt L params ticks S.path op args (t + 1) = slot := by
      rw [slotAt, Semantics.stateAt, if_pos hact]
      refine Semantics.next_eq _ hvs (v := v) ?_
      have hstep' := hslot ▸ hstep
      exact congrArg Except.toOption hstep'
    have hgrows : ∀ {n}, s.cache n ≠ none →
        (fun j => if j = c.nodeId then some v else s.cache j) n ≠ none := by
      intro n hn
      dsimp only
      split
      · exact Option.some_ne_none v
      · exact hn
    have hother : ∀ {n T}, Γ n = some T → n ≠ c.nodeId →
        (s.ctx.setSlot c.nodeId.toNat slot).slots n.toNat = s.ctx.slots n.toNat := by
      intro n T hT hne
      have := hΓ.pos hT
      exact SignalContext.setSlot_slots_ne _ _ (by omega)
    rw [hval]
    refine ⟨by rw [hrun]; rfl, fun _ => ?_⟩
    rw [hrun]
    refine ⟨⟨hmid.ctxParams, ?_, ?_, ?_, ?_⟩, hgrows, ?_, ?_⟩
    · intro n T op' args' hT hp hn
      dsimp only at hn
      by_cases hne : n = c.nodeId
      · rw [if_pos hne] at hn; cases hn
      · rw [if_neg hne] at hn
        rw [hother hT hne]
        exact hmid.idle hT hp hn
    · intro n T op' args' w hT hp hn
      dsimp only at hn
      by_cases hne : n = c.nodeId
      · subst hne
        obtain rfl := Option.some.inj (hS.symm.trans hT)
        obtain ⟨rfl, rfl⟩ := Term.call.inj (hplan.symm.trans hp)
        rw [hnext]
        exact SignalContext.setSlot_slots_self _ _ _
      · rw [if_neg hne] at hn
        rw [hother hT hne]
        exact hmid.stepped hT hp hn
    · intro n T w hT hn
      dsimp only at hn
      by_cases hne : n = c.nodeId
      · subst hne
        obtain rfl := Option.some.inj (hS.symm.trans hT)
        rw [if_pos rfl] at hn
        exact ⟨hact, hval.trans hn⟩
      · rw [if_neg hne] at hn
        exact hmid.value hT hn
    · intro n T w hT hn x hx
      dsimp only at hn
      by_cases hne : n = c.nodeId
      · subst hne
        obtain rfl := Option.some.inj (hS.symm.trans hT)
        exact (hinner x hx).mono hgrows
      · rw [if_neg hne] at hn
        exact (hmid.closed hT hn x hx).mono hgrows
    · intro n hn
      exact if_neg fun h => hn c List.mem_cons_self h.symm
    · intro x hx _
      rw [List.mem_singleton] at hx
      subst hx
      dsimp only
      rw [if_pos rfl]
      exact Option.some_ne_none v

/-- The operators other than `kalman1d` evaluate their operands in order. -/
theorem evalOperator_of_ne {op : StatefulOp D} (h : op.fn ≠ .kalman1d) (market : MarketState D)
    (n : Int) (ms : List (EvalM D L D)) :
    evalOperator op market n ms =
      evalAll ms >>= fun vs => updateSlot op.fn n (operatorStep op market vs) := by
  obtain ⟨fn, literal, symbol, impl⟩ := op
  cases fn <;> first | rfl | exact absurd rfl h

omit [Fp D] [Fp L] [Widen D L] in
theorem callsArgs_take {args : List (Expr D)} {k : Nat} (h : ∀ a ∈ args.drop k, a.calls = []) :
    Expr.callsArgs (args.take k) = Expr.callsArgs args := by
  induction args generalizing k with
  | nil => rw [List.take_nil]
  | cons a as ih =>
    cases k with
    | zero =>
      rw [List.drop_zero] at h
      rw [List.take_zero, Expr.callsArgs, Expr.callsArgs, h a List.mem_cons_self, List.nil_append]
      have := ih (k := 0) fun b hb => h b (List.mem_cons_of_mem _ hb)
      rwa [List.take_zero, Expr.callsArgs] at this
    | succ k => rw [List.take_succ_cons, Expr.callsArgs, Expr.callsArgs, ih h]

theorem visitArgs_eq_map (market : MarketState D) (args : List (Expr D)) :
    visitArgs symbols market args =
      args.map fun a => (⟨a, visit symbols market a⟩ : CallArg D L) := by
  induction args with
  | nil => rfl
  | cons a as ih => rw [visitArgs, ih, List.map_cons]

/-- An operator that evaluates its operands from left to right. -/
theorem computes_operator (hΓ : Coherent (interpEnv symbols) Γ) {c : Call D} {S : Site D}
    {op : StatefulOp D} {pend : Int → Prop} (hS : Γ c.nodeId = some S)
    (hargs : c.args.map Expr.outline = S.args)
    (hplan : S.plan = .call op ((scheduleArgs (interpEnv symbols) S.path c.args S.dict).plans.take
      op.fn.arity))
    (hne : op.fn ≠ .kalman1d) (hrest : ∀ a ∈ c.args.drop op.fn.arity, a.calls = [])
    (hacyclic : ∀ d ∈ Expr.callsArgs c.args, d.nodeId ≠ c.nodeId)
    (hidle : s.cache c.nodeId = none) (ih : ∀ a ∈ c.args, Follows Γ params ticks t symbols L a)
    (hr : Ready Γ params ticks t (interpEnv symbols) S.path S.dict pend (Expr.callsArgs c.args)
      (scheduleArgs (interpEnv symbols) S.path c.args S.dict).sites s) :
    Computes Γ params ticks t (interpEnv symbols) (c :: Expr.callsArgs c.args)
      ((c.nodeId, S) :: (scheduleArgs (interpEnv symbols) S.path c.args S.dict).sites)
      (evalOperator op (ticks t) c.nodeId
        ((c.args.take op.fn.arity).map (visit symbols (ticks t))) >>= cacheAndReturn c.nodeId) s
      (valueAt L params ticks S.plan S.path t) := by
  have htake := scheduleArgs_take (interpEnv symbols) S.path hrest S.dict
  have hcalls := callsArgs_take hrest
  have hargsC := follows_args (c.args.take op.fn.arity)
    (fun a ha => ih a (List.mem_of_mem_take ha)) S.path S.dict pend s (by rw [hcalls, htake]; exact hr)
  rw [hcalls, htake] at hargsC
  dsimp only at hargsC
  have hval : valueAt L params ticks S.plan S.path t =
      ((interpSemantics L params).vals ticks
        ((scheduleArgs (interpEnv symbols) S.path c.args S.dict).plans.take op.fn.arity)
        (reached L params ticks S.path) t).bind
        fun _ => valueAt L params ticks S.plan S.path t := by
    rcases hvs : (interpSemantics L params).vals ticks
        ((scheduleArgs (interpEnv symbols) S.path c.args S.dict).plans.take op.fn.arity)
        (reached L params ticks S.path) t with _ | vs
    · rw [valueAt, hplan, Semantics.val_call, Semantics.output, hvs]
      rfl
    · rfl
  rw [hval, evalOperator_of_ne hne, EvalM.bind_assoc]
  refine (hargsC.bind [c] [(c.nodeId, S)] fun vs s' hvs hs' => ?_).weaken
    ?_ ?_
  · have hidle' : s'.cache c.nodeId = none := by rw [hs'.frame hacyclic, hidle]
    refine computes_step hΓ hS hplan hidle' hr.active ?_ hvs hs'.mid
    rw [← hargs, scheduleArgs_outline]
    exact hs'.settled
  · intro d hd
    rcases List.mem_append.mp hd with hd | hd
    · exact List.mem_cons_of_mem _ hd
    · exact List.mem_singleton.mp hd ▸ List.mem_cons_self
  · intro x hx
    rcases List.mem_cons.mp hx with rfl | hx
    · exact List.mem_append_right _ List.mem_cons_self
    · exact List.mem_append_left _ hx

/-- The value of `kalman1d`, in the order of evaluation. -/
theorem valueAt_kalman1d {op : StatefulOp D} (hop : op.fn = .kalman1d) (px pq pr : Plan D)
    (path : Path D) :
    valueAt L params ticks (.call op [px, pq, pr]) path t =
      (valueAt L params ticks pq path t).bind fun vq =>
        (valueAt L params ticks pr path t).bind fun vr =>
          if lt vq (ofNat 0) || le vr (ofNat 0) then none
          else (valueAt L params ticks px path t).bind fun _ =>
            valueAt L params ticks (.call op [px, pq, pr]) path t := by
  have hout : valueAt L params ticks (.call op [px, pq, pr]) path t =
      (valueAt L params ticks px path t).bind fun vx =>
        (valueAt L params ticks pq path t).bind fun vq =>
          (valueAt L params ticks pr path t).bind fun vr =>
            ((operatorStep op (ticks t) [vx, vq, vr]
              (slotAt L params ticks path op [px, pq, pr] t)).toOption).map Prod.fst := by
    unfold valueAt
    rw [Semantics.val_call, Semantics.output, Semantics.vals_cons, Semantics.vals_cons,
      Semantics.vals_cons, Semantics.vals_nil]
    rcases (interpSemantics L params).val ticks px (reached L params ticks path) t with _ | vx
    · rfl
    rcases (interpSemantics L params).val ticks pq (reached L params ticks path) t with _ | vq
    · rfl
    rcases (interpSemantics L params).val ticks pr (reached L params ticks path) t with _ | vr
    · rfl
    rfl
  rw [hout]
  rcases valueAt L params ticks px path t with _ | vx <;>
    rcases valueAt L params ticks pq path t with _ | vq <;>
    rcases valueAt L params ticks pr path t with _ | vr <;>
    simp only [Option.bind_none, Option.bind_some, ite_self]
  by_cases hchk : (lt vq (ofNat 0) || le vr (ofNat 0)) = true
  · obtain ⟨fn, literal, symbol, impl⟩ := op
    obtain rfl : fn = .kalman1d := hop
    simp only [operatorStep, if_pos hchk]
    rfl
  · rw [if_neg hchk]

/-- `evalOperator` of `kalman1d`. -/
theorem evalOperator_kalman1d {op : StatefulOp D} (hop : op.fn = .kalman1d)
    (market : MarketState D) (n : Int) (mx mq mr : EvalM D L D) :
    evalOperator op market n [mx, mq, mr] >>= cacheAndReturn n =
      mq >>= fun vq => mr >>= fun vr =>
        if lt vq (ofNat 0) || le vr (ofNat 0) then
          EvalM.throw "kalman1d() requires q >= 0 and r > 0"
        else mx >>= fun vx => updateSlot .kalman1d n (kalmanStep vx vq vr) >>= cacheAndReturn n := by
  obtain ⟨fn, literal, symbol, impl⟩ := op
  obtain rfl : fn = .kalman1d := hop
  simp only [evalOperator, EvalM.bind_assoc]
  congr
  funext vq
  congr
  funext vr
  split
  · rw [EvalM.throw_bind]
  · rw [EvalM.bind_assoc]

/-- `kalman1d`, which evaluates `q` and `r` before `x`. -/
theorem computes_kalman1d (hΓ : Coherent (interpEnv symbols) Γ)
    (hK : KalmanOrdered (interpEnv symbols) Γ) {c : Call D} {S : Site D} {op : StatefulOp D}
    {x q r : Expr D} {pend : Int → Prop} (hS : Γ c.nodeId = some S) (hop : op.fn = .kalman1d)
    (hname : Builtin.ofName S.name = some (.stateful .kalman1d)) (hxqr : c.args = [x, q, r])
    (hargs : c.args.map Expr.outline = S.args)
    (hplan : S.plan = .call op (scheduleArgs (interpEnv symbols) S.path c.args S.dict).plans)
    (hacyclic : ∀ d ∈ Expr.callsArgs c.args, d.nodeId ≠ c.nodeId)
    (hidle : s.cache c.nodeId = none) (ih : ∀ a ∈ c.args, Follows Γ params ticks t symbols L a)
    (hr : Ready Γ params ticks t (interpEnv symbols) S.path S.dict pend (Expr.callsArgs c.args)
      (scheduleArgs (interpEnv symbols) S.path c.args S.dict).sites s) :
    Computes Γ params ticks t (interpEnv symbols) (c :: Expr.callsArgs c.args)
      ((c.nodeId, S) :: (scheduleArgs (interpEnv symbols) S.path c.args S.dict).sites)
      (evalOperator op (ticks t) c.nodeId (c.args.map (visit symbols (ticks t))) >>=
        cacheAndReturn c.nodeId) s (valueAt L params ticks S.plan S.path t) := by
  obtain ⟨fn, literal, symbol, impl⟩ := op
  obtain rfl : fn = .kalman1d := hop
  rw [hxqr] at hplan hargs hacyclic ih hr ⊢
  simp only [scheduleArgs, Expr.callsArgs] at hplan hacyclic hr ⊢
  -- the three schedules, in the order of the arguments
  set rx := schedule (interpEnv symbols) S.path x S.dict with hrx
  set rq := schedule (interpEnv symbols) S.path q rx.dict with hrq
  set rr := schedule (interpEnv symbols) S.path r rq.dict with hrr
  have hxx : Extends (interpEnv symbols) S.path x.calls S.dict rx.dict rx.sites :=
    schedule_extends _ x S.path S.dict hr.left.nodup
  have hxq : Extends (interpEnv symbols) S.path q.calls rx.dict rq.dict rq.sites :=
    schedule_extends _ q S.path rx.dict hr.drop.left.nodup
  have hlook : ∀ d ∈ q.calls ++ (r.calls ++ []), ∀ T, (d.nodeId, T) ∈ rx.sites →
      LooksLike d T := by
    intro d hd T hT
    rw [List.append_nil] at hd
    have hmem : d.outline ∈ q.outline.calls ++ r.outline.calls := by
      rw [Expr.calls_outline, Expr.calls_outline, ← List.map_append]
      exact List.mem_map_of_mem hd
    obtain ⟨hn, ha⟩ := hK _ S hS hname _ _ _ hargs.symm d.outline hmem T
      (by rw [schedule_outline]; exact hT)
    refine ⟨hn, ?_⟩
    rw [← ha, Call.outline, List.map_map]
    exact List.map_congr_left fun a _ => a.outline_outline.symm
  have hready := hr.ahead hxx hlook
  rw [hplan, valueAt_kalman1d rfl, ← hplan, List.map_cons, List.map_cons, List.map_cons,
    List.map_nil, evalOperator_kalman1d rfl]
  refine ((ih q (by simp) S.path _ _ s hready.left).bind
    (r.calls ++ (x.calls ++ [c])) (rr.sites ++ (rx.sites ++ [(c.nodeId, S)]))
    fun vq s₁ hvq hs₁ => ?_).weaken ?_ ?_
  · have hready₁ := hready.right hxq hs₁
    refine (ih r (by simp) S.path _ _ s₁ hready₁.left).bind _ _ fun vr s₂ hvr hs₂ => ?_
    by_cases hchk : (lt vq (ofNat 0) || le vr (ofNat 0)) = true
    · rw [if_pos hchk, if_pos hchk]
      exact .throw _
    · rw [if_neg hchk, if_neg hchk]
      refine (ih x (by simp) S.path _ _ s₂ ((hr.left.later hs₁).later hs₂)).bind _ _
        fun vx s₃ hvx hs₃ => ?_
      have hidle' : s₃.cache c.nodeId = none := by
        rw [hs₃.frame fun d hd => hacyclic d (List.mem_append_left _ hd),
          hs₂.frame fun d hd => hacyclic d (List.mem_append_right _ (List.mem_append_right _
            (List.mem_append_left _ hd))),
          hs₁.frame fun d hd => hacyclic d (List.mem_append_right _ (List.mem_append_left _ hd)),
          hidle]
      have hvs : (interpSemantics L params).vals ticks [rx.plan, rq.plan, rr.plan]
          (reached L params ticks S.path) t = some [vx, vq, vr] := by
        rw [Semantics.vals_cons, Semantics.vals_cons, Semantics.vals_cons, Semantics.vals_nil]
        rw [valueAt, ← hrx] at hvx
        rw [valueAt, ← hrq] at hvq
        rw [valueAt, ← hrr] at hvr
        simp only [hvx, hvq, hvr, Option.bind_some, Option.map_some]
      have hstep := computes_step hΓ hS hplan hidle' hr.active ?_ hvs hs₃.mid
      · have hop : operatorStep (⟨.kalman1d, literal, symbol, impl⟩ : StatefulOp D) (ticks t)
            [vx, vq, vr] = (kalmanStep vx vq vr : NodeSlot D L → _) := by
          funext slot
          simp only [operatorStep, if_neg hchk]
        rw [hop] at hstep
        exact hstep
      · intro y hy
        rw [← hargs, scheduleArgs_outline] at hy
        simp only [scheduleArgs, List.append_nil] at hy
        rcases List.mem_append.mp hy with hy | hy
        · exact hs₃.settled y hy
        rcases List.mem_append.mp hy with hy | hy
        · exact ((hs₁.settled y hy).mono hs₂.grows).mono hs₃.grows
        · exact (hs₂.settled y hy).mono hs₃.grows
  · intro d hd
    simp only [List.mem_append, List.mem_cons, List.not_mem_nil, or_false] at hd ⊢
    tauto
  · intro y hy
    simp only [List.mem_append, List.mem_cons, List.not_mem_nil, or_false] at hy ⊢
    tauto

/-- **A stateful call that has not been stepped.** -/
theorem computes_dispatch (hΓ : Coherent (interpEnv symbols) Γ)
    (hK : KalmanOrdered (interpEnv symbols) Γ) {c : Call D} {S : Site D} (pend : Int → Prop)
    (hS : Γ c.nodeId = some S) (hlook : LooksLike c S) (hok : CallOk symbols c)
    (hidle : s.cache c.nodeId = none) (ih : ∀ a ∈ c.args, Follows Γ params ticks t symbols L a)
    (hr : Ready Γ params ticks t (interpEnv symbols) S.path S.dict pend (Expr.callsArgs c.args)
      (scheduleArgs (interpEnv symbols) S.path c.args S.dict).sites s) :
    Computes Γ params ticks t (interpEnv symbols) (c :: Expr.callsArgs c.args)
      ((c.nodeId, S) :: (scheduleArgs (interpEnv symbols) S.path c.args S.dict).sites)
      (dispatch symbols (ticks t) c.name
        ⟨visitArgs symbols (ticks t) c.args, c.nodeId, c.symbolId⟩) s
      (valueAt L params ticks S.plan S.path t) := by
  obtain ⟨hname, hargs⟩ := hlook
  have hstateful : isStatefulOp c.name = true := hname ▸ hΓ.stateful hS
  have hpos := hok.stateful hstateful
  obtain ⟨fn, hfn⟩ := isStatefulOp_iff.mp hstateful
  have hview : (visitArgs symbols (ticks t) c.args : List (CallArg D L)).map CallArg.expr = c.args := by
    rw [visitArgs_eq_map, List.map_map]
    exact List.map_id _
  have hspec := dispatch_spec symbols (ticks t) c.name
    ⟨(visitArgs symbols (ticks t) c.args : List (CallArg D L)), c.nodeId, c.symbolId⟩
    fun _ => Int.not_lt.mpr (Int.le_of_lt hpos)
  rw [hview, decodeCall_symbolOk runtimeImpl hok.symbol] at hspec
  have hplan := hΓ.plan hS
  rw [ScheduleEnv.shape, ← hargs, ← hname, decodeCall_outline, scheduleArgs_outline] at hplan
  change S.plan = callPlan (decodeCall runtimeImpl symbols c.name c.args (-1)) _ at hplan
  rcases decodeCall_stateful runtimeImpl symbols c.args hfn with
    hinv | ⟨op, hshape, hdec⟩
  · rw [hinv] at hspec hplan
    obtain ⟨e, he⟩ := hspec
    have hval : valueAt L params ticks S.plan S.path t = none := by
      rw [valueAt, hplan, callPlan, Semantics.val_leaf]
      rfl
    rw [he, hval]
    exact .throw e
  · rw [hshape] at hspec hplan
    rw [Dispatches] at hspec
    have hmap : (((visitArgs symbols (ticks t) c.args : List (CallArg D L)).take op.fn.arity).map
        CallArg.eval) = (c.args.take op.fn.arity).map (visit symbols (ticks t)) := by
      rw [visitArgs_eq_map, ← List.map_take, List.map_map]
      rfl
    rw [hspec, hmap]
    have hacyclic := hok.acyclic hstateful
    by_cases hk : op.fn = .kalman1d
    · have hlen := hdec.kalman (hdec.fn_eq.symm.trans hk)
      have hfull : c.args.take op.fn.arity = c.args := by
        rw [hk]
        exact List.take_of_length_le (Nat.le_of_eq hlen)
      have hplans : (scheduleArgs (interpEnv symbols) S.path c.args S.dict).plans.take op.fn.arity
          = (scheduleArgs (interpEnv symbols) S.path c.args S.dict).plans := by
        rw [hk]
        exact List.take_of_length_le (Nat.le_of_eq ((scheduleArgs_length ..).trans hlen))
      rw [callPlan, hplans] at hplan
      rw [hfull]
      obtain ⟨x, q, r, hxqr⟩ := List.length_eq_three.mp hlen
      refine computes_kalman1d hΓ hK hS hk ?_ hxqr hargs hplan hacyclic hidle ih hr
      rw [← hname, hfn, ← hdec.fn_eq, hk]
    · exact computes_operator hΓ hS hargs hplan hk (hdec.fn_eq ▸ hdec.rest) hacyclic hidle ih hr

/-- A call of a function without state. -/
theorem computes_stateless {c : Call D} {path : Path D} {δ : Dict D} {pend : Int → Prop}
    (hst : isStatefulOp c.name = false) (hok : CallOk symbols c)
    (ih : ∀ a ∈ c.args, Follows Γ params ticks t symbols L a)
    (hr : Ready Γ params ticks t (interpEnv symbols) path δ pend (Expr.callsArgs c.args)
      (scheduleArgs (interpEnv symbols) path c.args δ).sites s) :
    Computes Γ params ticks t (interpEnv symbols) (c :: Expr.callsArgs c.args)
      (scheduleArgs (interpEnv symbols) path c.args δ).sites
      (dispatch symbols (ticks t) c.name
        ⟨visitArgs symbols (ticks t) c.args, c.nodeId, c.symbolId⟩) s
      (valueAt L params ticks (callPlan ((interpEnv symbols).shape c.name c.args)
        (scheduleArgs (interpEnv symbols) path c.args δ).plans) path t) := by
  have hview : (visitArgs symbols (ticks t) c.args : List (CallArg D L)).map CallArg.expr
      = c.args := by
    rw [visitArgs_eq_map, List.map_map]
    exact List.map_id _
  have hspec := dispatch_spec symbols (ticks t) c.name
    ⟨(visitArgs symbols (ticks t) c.args : List (CallArg D L)), c.nodeId, c.symbolId⟩
    fun h => absurd (hst.symm.trans h) Bool.false_ne_true
  rw [hview, decodeCall_symbolOk runtimeImpl hok.symbol] at hspec
  change Dispatches _ _ _ ((interpEnv symbols).shape c.name c.args) at hspec
  rcases hshape : (interpEnv symbols).shape c.name c.args with _ | ⟨fn, sym⟩ | fn | op
  · rw [hshape] at hspec
    obtain ⟨e, he⟩ := hspec
    have hval : valueAt L params ticks (.leaf .fail) path t = none := by
      rw [valueAt, Semantics.val_leaf]; rfl
    rw [he, callPlan, hval]
    exact .throw e
  · rw [hshape] at hspec
    rw [Dispatches] at hspec
    obtain ⟨a, harg⟩ := args_of_market hshape
    have hval : valueAt L params ticks (.leaf (.market fn sym)) path t
        = some ((ticks t sym).read fn) := by
      rw [valueAt, Semantics.val_leaf]; rfl
    rw [hspec, callPlan, hval, harg.1, scheduleArgs, scheduleArgs,
      (schedule_of_calls_nil _ a harg.2 path δ).2]
    exact .pure hr.mid _
  · rw [hshape] at hspec
    obtain ⟨⟨_, m⟩, harg, heval⟩ := hspec
    rw [visitArgs_eq_map] at harg
    obtain ⟨a, hargs, harg⟩ := List.map_eq_singleton_iff.mp harg
    obtain ⟨rfl, rfl⟩ := CallArg.mk.inj harg
    rw [hargs] at hr ih
    simp only [scheduleArgs, Expr.callsArgs, List.append_nil] at hr
    have hcomp := (ih a List.mem_cons_self path δ pend s hr).map (f := fn.apply)
    have hval : ∀ p : Plan D, valueAt L params ticks (.map (.math fn) p) path t =
        (valueAt L params ticks p path t).map fn.apply := by
      intro p
      rw [valueAt, Semantics.val_map]; rfl
    rw [heval, hargs, scheduleArgs, scheduleArgs, callPlan, hval]
    simp only [Expr.callsArgs, List.append_nil]
    exact hcomp.weaken (fun d hd => List.mem_cons_of_mem _ hd) fun x hx => hx
  · exact absurd hshape (decodeCall_stateless (-1) hst op)

/-- A cached call. -/
theorem visitCall_hit {market : MarketState D} {name : String} {call : CallView D L} {v : D}
    (hpos : 0 < call.nodeId) (hv : s.cache call.nodeId = some v) :
    visitCall symbols market name call s = noteReturn call.nodeId v s := by
  unfold visitCall
  rw [if_pos hpos, hv]

/-- A call that is not cached. -/
theorem visitCall_miss {market : MarketState D} {name : String} {call : CallView D L}
    (h : 0 < call.nodeId → s.cache call.nodeId = none) :
    visitCall symbols market name call s = dispatch symbols market name call s := by
  unfold visitCall
  by_cases hpos : 0 < call.nodeId
  · rw [if_pos hpos, h hpos]
  · rw [if_neg hpos]

/-- Looking a call up in the cache first. -/
theorem computes_visitCall {name : String} {call : CallView D L} {v : Option D}
    (hhit : ∀ w, 0 < call.nodeId → s.cache call.nodeId = some w →
      v = some w ∧ ∀ x ∈ sites, Settled params ticks t x s)
    (hmid : MidTick Γ params ticks t env s)
    (hmiss : (0 < call.nodeId → s.cache call.nodeId = none) →
      Computes Γ params ticks t env cs sites (dispatch symbols (ticks t) name call) s v) :
    Computes Γ params ticks t env cs sites (visitCall symbols (ticks t) name call) s v := by
  by_cases h : 0 < call.nodeId → s.cache call.nodeId = none
  · have hcomp := hmiss h
    unfold Computes at hcomp ⊢
    rw [visitCall_miss h]
    exact hcomp
  · obtain ⟨hpos, hw⟩ := Classical.not_imp.mp h
    obtain ⟨w, hw⟩ := Option.ne_none_iff_exists'.mp hw
    obtain ⟨rfl, hsettled⟩ := hhit w hpos hw
    unfold Computes
    rw [visitCall_hit hpos hw, noteReturn]
    exact ⟨rfl, fun _ => ⟨hmid.of_eq rfl rfl, fun h => h, fun _ => rfl, hsettled⟩⟩

/-- **A call**: cached, met for the first time, or standing in for a site that comes
later. -/
theorem follows_functionCall (hΓ : Coherent (interpEnv symbols) Γ)
    (hK : KalmanOrdered (interpEnv symbols) Γ) {loc : SourceLoc} {name : String}
    {args : List (Expr D)} {nid sid : Int}
    (ih : ∀ a ∈ args, Follows Γ params ticks t symbols L a) :
    Follows Γ params ticks t symbols L (.functionCall loc name args nid sid) := by
  intro path δ pend s hr
  have hok := hr.callOk _ List.mem_cons_self
  rw [visit]
  rcases hδ : δ nid with _ | p
  · -- the first call with this id
    rw [schedule_fresh _ hδ] at hr ⊢
    unfold scheduleCall at hr ⊢
    cases hst : isStatefulOp name with
    | false =>
      rw [hst] at hr
      simp only [Bool.false_eq_true, if_false] at hr ⊢
      refine computes_visitCall (fun w hpos _ => ?_) hr.mid fun _ => ?_
      · have hneg := hok.stateless hst
        exact absurd hneg (Int.not_lt.mpr (Int.le_of_lt hpos))
      · exact computes_stateless hst hok ih
          { hr with
            callOk := fun d hd => hr.callOk d (List.mem_cons_of_mem _ hd)
            safe := fun d hd => hr.safe d (List.mem_cons_of_mem _ hd) }
    | true =>
      rw [hst] at hr
      simp only [if_true] at hr ⊢
      have hS := hr.table _ List.mem_cons_self
      have hnodup := hr.nodup
      rw [siteIds, List.map_cons, List.nodup_cons] at hnodup
      refine computes_visitCall (fun w hpos hw => ?_) hr.mid fun hmiss => ?_
      · refine ⟨(hr.mid.value hS hw).2, fun x hx => ?_⟩
        rcases List.mem_cons.mp hx with rfl | hx
        · exact fun _ => hw ▸ Option.some_ne_none w
        · refine hr.mid.closed hS hw x ?_
          rw [scheduleArgs_outline]
          exact hx
      · exact computes_dispatch hΓ hK pend (c := ⟨name, args, nid, sid⟩) hS ⟨rfl, rfl⟩ hok
          (hmiss (hok.stateful hst)) ih
          { hr with
            table := fun x hx => hr.table x (List.mem_cons_of_mem _ hx)
            nodup := hnodup.2
            callOk := fun d hd => hr.callOk d (List.mem_cons_of_mem _ hd)
            safe := fun d hd => hr.safe d (List.mem_cons_of_mem _ hd) }
  · -- another call with this id
    obtain ⟨S, hS, hpath, rfl, hle⟩ := hr.dict nid p hδ
    rw [schedule_alias _ hδ] at hr ⊢
    dsimp only at hr ⊢
    have hval : valueAt L params ticks (.now S.plan) path t
        = valueAt L params ticks S.plan S.path t := by
      rw [valueAt, Semantics.val_now, hpath]
      rfl
    rw [hval]
    refine computes_visitCall (fun w hpos hw =>
      ⟨(hr.mid.value hS hw).2, fun x hx => absurd hx List.not_mem_nil⟩) hr.mid fun hmiss => ?_
    have hpos := hΓ.pos hS
    have hlook := hr.safe _ List.mem_cons_self
      ((hr.known hδ).resolve_left fun h => h (hmiss hpos)) S hS
    refine (computes_dispatch hΓ hK pend (c := ⟨name, args, nid, sid⟩) hS hlook hok (hmiss hpos)
      ih ?_).weaken (fun d hd => hd) fun x hx => absurd hx List.not_mem_nil
    have hargs := scheduleArgs_outline (interpEnv symbols) S.path args S.dict
    rw [show args.map Expr.outline = S.args from hlook.2] at hargs
    exact
      { table := by rw [← hargs]; exact hΓ.inner hS
        nodup := by rw [← hargs]; exact hΓ.nodup hS
        dict := hΓ.dict hS
        callOk := fun d hd => hr.callOk d (List.mem_cons_of_mem _ hd)
        safe := fun d hd => hr.safe d (List.mem_cons_of_mem _ hd)
        known := fun hn => hr.known (hle _ _ hn)
        active := by rw [hpath]; rfl
        mid := hr.mid }

/-- **The interpreter follows the schedule** of every expression. -/
theorem visit_follows (params : List D) (ticks : Nat → MarketState D) (t : Nat)
    (hΓ : Coherent (interpEnv symbols) Γ) (hK : KalmanOrdered (interpEnv symbols) Γ) (e : Expr D) :
    Follows Γ params ticks t symbols L e := by
  induction e using Expr.induct with
  | numberLiteral loc v => exact follows_numberLiteral loc v
  | identifierExpr loc n => exact follows_identifierExpr loc n
  | parameterExpr loc n i => exact follows_parameterExpr loc n i
  | unaryOp loc k e ih => exact follows_unaryOp ih
  | binaryOp loc k a b iha ihb => exact follows_binaryOp iha ihb
  | conditional loc c a b ihc iha ihb => exact follows_conditional ihc iha ihb
  | functionCall loc n args nid sid ih => exact follows_functionCall hΓ hK ih

end Tick

/-! ## Runs -/

/-- A body whose ids can be followed: every call is well formed, no id has two sites,
and the order in which `kalman1d` visits its operands makes no difference. -/
structure WellNumbered (symbols : SymbolTable) (body : Expr D) : Prop where
  /-- every call is well formed -/
  callOk : ∀ c ∈ body.calls, CallOk symbols c
  /-- no id has two sites -/
  nodup : (siteIds (schedule (interpEnv symbols) [] body .empty).sites).Nodup
  /-- the noise arguments of a `kalman1d` agree with its measurement -/
  kalman : KalmanOrdered (interpEnv symbols)
    (siteTable (schedule (interpEnv symbols) [] body .empty).sites)

namespace WellNumbered

variable {symbols : SymbolTable} {body : Expr D}

/-- The sites of the body, by id. -/
abbrev table (_ : WellNumbered symbols body) : SiteTable D :=
  siteTable (schedule (interpEnv symbols) [] body .empty).sites

theorem coherent (h : WellNumbered symbols body) : Coherent (interpEnv symbols) h.table := by
  refine coherent_siteTable _ h.nodup fun n hn => ?_
  obtain ⟨⟨m, S⟩, hS, rfl⟩ := List.mem_map.mp hn
  obtain ⟨hst, c, hc, rfl, hname, _⟩ := (schedule_extends _ body [] .empty h.nodup).call hS
  exact (h.callOk c hc).stateful (hname ▸ hst)

end WellNumbered

section Runs

variable (params : List D) (ticks : Nat → MarketState D)

/-- A context between two ticks: every slot is as the schedule says. -/
structure BetweenTicks (Γ : SiteTable D) (t : Nat) (ctx : SignalContext D (NodeSlot D L)) :
    Prop where
  /-- the parameters -/
  ctxParams : ctx.params = params
  /-- the slots -/
  slots : ∀ {n S op args}, Γ n = some S → S.plan = .call op args →
    ctx.slots n.toNat = slotAt L params ticks S.path op args t

variable {params ticks} {symbols : SymbolTable} {body : Expr D}

/-- **One `Evaluate` call** returns the value of the plan, and if it returns normally the
slots are ready for the next tick. -/
theorem evaluate_spec (h : WellNumbered symbols body) {t : Nat}
    {ctx : SignalContext D (NodeSlot D L)} (hctx : BetweenTicks params ticks h.table t ctx) :
    (evaluate symbols body (ticks t) ctx).1.toOption =
        valueAt L params ticks (planOf (interpEnv symbols) body) [] t ∧
      (valueAt L params ticks (planOf (interpEnv symbols) body) [] t ≠ none →
        BetweenTicks params ticks h.table (t + 1) (evaluate symbols body (ticks t) ctx).2) := by
  have hstart : MidTick h.table params ticks t (interpEnv symbols)
      (⟨ctx, fun _ => none, []⟩ : EvalState D L) :=
    ⟨hctx.ctxParams, fun hS hp _ => hctx.slots hS hp, fun _ _ hn => (nomatch hn),
      fun _ hn => (nomatch hn), fun _ hn => (nomatch hn)⟩
  have hcomp := visit_follows params ticks t h.coherent h.kalman body
    [] .empty (fun _ => False) (⟨ctx, fun _ => none, []⟩ : EvalState D L)
    { table := fun x hx => (siteTable_eq_some h.nodup).mpr hx
      nodup := h.nodup
      dict := .empty _
      callOk := h.callOk
      safe := fun _ _ hf => hf.elim
      known := fun hn => nomatch hn
      active := rfl
      mid := hstart }
  refine ⟨hcomp.1, fun hok => ?_⟩
  have hafter := hcomp.2 hok
  refine ⟨hafter.mid.ctxParams, fun {n S op args} hS hp => ?_⟩
  rcases hn : (visit symbols (ticks t) body ⟨ctx, fun _ => none, []⟩).2.cache n with _ | v
  · -- an id that was not stepped was not reached
    have hidle : reached L params ticks S.path t ≠ true := fun hr =>
      hafter.settled (n, S) ((siteTable_eq_some h.nodup).mp hS) hr hn
    rw [slotAt, Semantics.stateAt, if_neg hidle]
    exact hafter.mid.idle hS hp hn
  · exact hafter.mid.stepped hS hp hn

/-- The context of a run is as the schedule says, until a tick throws. -/
theorem contextAt_spec (h : WellNumbered symbols body) {ctx : SignalContext D (NodeSlot D L)}
    (hctx : BetweenTicks params ticks h.table 0 ctx) (t : Nat)
    (hok : ∀ s < t, valueAt L params ticks (planOf (interpEnv symbols) body) [] s ≠ none) :
    BetweenTicks params ticks h.table t (contextAt symbols body ticks ctx t) := by
  induction t with
  | zero => exact hctx
  | succ t ih =>
    exact (evaluate_spec h (ih fun s hs => hok s (Nat.lt_succ_of_lt hs))).2
      (hok t (Nat.lt_succ_self t))

/-- **A run of the interpreter is a run of the plan**: up to and including the first tick
that throws, `Evaluate` returns the value of the plan. -/
theorem resultAt_eq (h : WellNumbered symbols body) {ctx : SignalContext D (NodeSlot D L)}
    (hctx : BetweenTicks params ticks h.table 0 ctx) (t : Nat)
    (hok : ∀ s < t, valueAt L params ticks (planOf (interpEnv symbols) body) [] s ≠ none) :
    (resultAt symbols body ticks ctx t).toOption =
      valueAt L params ticks (planOf (interpEnv symbols) body) [] t :=
  (evaluate_spec h (contextAt_spec h hctx t hok)).1

/-- The ticks before `t` return normally if and only if the plan has values there. -/
theorem returns_iff (h : WellNumbered symbols body) {ctx : SignalContext D (NodeSlot D L)}
    (hctx : BetweenTicks params ticks h.table 0 ctx) (t : Nat) :
    (∀ s < t, (resultAt symbols body ticks ctx s).toOption ≠ none) ↔
      ∀ s < t, valueAt L params ticks (planOf (interpEnv symbols) body) [] s ≠ none := by
  induction t with
  | zero =>
    exact ⟨fun _ s hs => absurd hs (Nat.not_lt_zero s),
      fun _ s hs => absurd hs (Nat.not_lt_zero s)⟩
  | succ t ih =>
    constructor
    · intro hr
      have hprev := ih.mp fun s hs => hr s (Nat.lt_succ_of_lt hs)
      intro s hs
      rcases Nat.lt_succ_iff_lt_or_eq.mp hs with hs | rfl
      · exact hprev s hs
      · rw [← resultAt_eq h hctx s hprev]
        exact hr s (Nat.lt_succ_self s)
    · intro hv
      have hprev := fun s hs => hv s (Nat.lt_succ_of_lt hs)
      intro s hs
      rcases Nat.lt_succ_iff_lt_or_eq.mp hs with hs | rfl
      · exact ih.mpr hprev s hs
      · rw [resultAt_eq h hctx s hprev]
        exact hv s (Nat.lt_succ_self s)

end Runs

end JitSignalEngine
