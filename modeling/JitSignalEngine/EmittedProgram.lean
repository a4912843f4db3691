import JitSignalEngine.EmittedExpr
import JitSignalEngine.Restart

/-!
# Emitted programs follow their schedules

A compiled function loads bid and ask of all tickers, and computes the signals one after the
other. A call of it, on a context whose slots are those of the schedule before the tick, writes
the values of the plans and leaves the slots of the next tick.

* `programPlans`, `programSites` — the schedules of the signals, each under references to the
  signals before.
* `EmittedTick.Ticked` — a context between two ticks, or at a point in between.
* `EmittedTick.emitProgram_follows` — one call of the function.
* `EmittedTick.compiledContextAt_ticked`, `compiledOutputsAt_eq` — a run.
-/

namespace JitSignalEngine

open Fp Dataflow EmitM

variable {D σ : Type}

/-! ## The schedule of a program -/

/-- A signal can be referred to. -/
def ScheduleEnv.addRef (env : ScheduleEnv D) (name : String) (p : Plan D) : ScheduleEnv D :=
  { env with refs := fun n => if n = name then some p else env.refs n }

section Schedules

variable [Fp D]

/-- The plans of the signals. -/
def programPlans (env : ScheduleEnv D) : List (SignalDef D) → List (Plan D)
  | [] => []
  | s :: rest =>
    planOf env s.body :: programPlans (env.addRef s.name (planOf env s.body)) rest

/-- The sites of the signals. -/
def programSites (env : ScheduleEnv D) : List (SignalDef D) → List (Int × Site D)
  | [] => []
  | s :: rest => (schedule env [] s.body .empty).sites ++
    programSites (env.addRef s.name (planOf env s.body)) rest

end Schedules

section Sites

variable [Fp D]

/-- The sites of a program are those of its signals. -/
theorem programSites_extends (env : ScheduleEnv D) {signals : List (SignalDef D)}
    (h : (siteIds (programSites env signals)).Nodup) {x : Int × Site D}
    (hx : x ∈ programSites env signals) : ∃ s ∈ signals, ∃ refs : String → Option (Plan D),
      x ∈ (schedule { env with refs := refs } [] s.body .empty).sites ∧
      Extends { env with refs := refs } [] s.body.calls .empty
        (schedule { env with refs := refs } [] s.body .empty).dict
        (schedule { env with refs := refs } [] s.body .empty).sites := by
  induction signals generalizing env with
  | nil => exact absurd hx List.not_mem_nil
  | cons s rest ih =>
    rw [programSites, siteIds, List.map_append, List.nodup_append] at h
    rcases List.mem_append.mp hx with hx | hx
    · exact ⟨s, List.mem_cons_self, env.refs, hx, schedule_extends env s.body [] .empty h.1⟩
    · obtain ⟨s', hs', hrest⟩ := ih (env.addRef s.name (planOf env s.body)) h.2.1 hx
      exact ⟨s', List.mem_cons_of_mem _ hs', hrest⟩

/-- **The ids of an allocated program** have one site each. -/
theorem programSites_allocated [DecidableEq D] (env : ScheduleEnv D) {signals : List (SignalDef D)}
    (hun : ∀ s ∈ signals, Unallocated s.body.calls) {n : Int} (hn : 0 < n) :
    (siteIds (programSites env (allocateProgramFrom signals n))).Nodup ∧
      ∀ m ∈ siteIds (programSites env (allocateProgramFrom signals n)), n ≤ m := by
  induction signals generalizing env n with
  | nil => exact ⟨.nil, fun _ hm => absurd hm List.not_mem_nil⟩
  | cons s rest ih =>
    have ha := allocateWalk_allocates s.body true ⟨n, []⟩ (AllocState.Ok.init hn)
      (hun s List.mem_cons_self)
    have hs := walk_scheduled env s.body true ⟨n, []⟩ [] .empty (.init hn)
      (hun s List.mem_cons_self) rfl ⟨fun h => (nomatch h), fun _ hs => absurd hs List.not_mem_nil⟩
    obtain ⟨hnd, hge⟩ := ih (env.addRef s.name (planOf env (allocateWalk s.body true ⟨n, []⟩).1))
      (fun t ht => hun t (List.mem_cons_of_mem _ ht)) (Int.lt_of_lt_of_le hn ha.le)
    rw [allocateProgramFrom, programSites, siteIds, List.map_append]
    refine ⟨List.nodup_append.mpr ⟨hs.nodup, hnd, fun m hm k hk hmk => ?_⟩, fun m hm => ?_⟩
    · exact absurd (hge k hk) (Int.not_le.mpr (hmk ▸ (hs.new m hm).2))
    · rcases List.mem_append.mp hm with hm | hm
      · exact (hs.new m hm).1
      · exact ha.le.trans (hge m hm)

end Sites

namespace EmittedTick

/-- The tick with more instruments loaded. -/
def withTickers (X : EmittedTick D σ) (T : Nat → Prop) : EmittedTick D σ := { X with tickers := T }

/-- The tick after one more signal. -/
def withRef (X : EmittedTick D σ) (name : String) (p : Plan D) : EmittedTick D σ :=
  { X with refs := fun n => if n = name then some p else X.refs n }

/-- Another tick of the run. -/
def atTime (X : EmittedTick D σ) (t : Nat) : EmittedTick D σ := { X with time := t }

variable [Fp D] {X : EmittedTick D σ} {cg : CodegenContext D} {A : Set Name} {δ : Dict D}
  {s : Frame D σ}

variable (X) in
/-- **A context between two ticks**, or where the caches are `cg`. -/
structure Ticked (cg : CodegenContext D) (ctx : SignalContext D σ) : Prop where
  /-- parameters do not change -/
  ctxParams : ctx.params = X.params
  /-- the slots of cached ids are those of the next tick -/
  slots : ∀ {n S op args}, X.sites n = some S → S.plan = .call op args →
    ctx.slots n.toNat = X.slotAt S.path op args
      (if (cg.statefulEmitCache n).isSome then X.time + 1 else X.time)
  /-- no other slot changes -/
  rest : ∀ {k}, (∀ n S, X.sites n = some S → n.toNat ≠ k) → ctx.slots k = X.rest k

theorem Running.ticked (h : X.Running cg A δ s) : X.Ticked cg s.ctx :=
  ⟨h.ctxParams, h.slots, h.rest⟩

/-! ## Loads at the start -/

/-- A first load of bid or ask. -/
theorem Running.firstQuote (h : X.Running cg A δ s) {symbol : Nat} {field : MarketField}
    (hf : field ≠ .volume) (hnone : cg.programMarketFieldCache symbol field = none)
    {r : Emitted D (Operand D)} (hr : emitMarketFieldLoad symbol field cg = .ok r) :
    X.Runs cg A δ r Operand.Holds s (some ((X.ticks X.time symbol).field field)) ∧
      ∀ s f, r.cg.programMarketFieldCache s f =
        if s = symbol ∧ f = field then some r.value else cg.programMarketFieldCache s f := by
  simp only [emitMarketFieldLoad, hnone] at hr
  cases hr
  have hload := h.result ((X.ticks X.time symbol).field field)
  have hkeep : ∀ {s f}, cg.programMarketFieldCache s f ≠ none → ¬ (s = symbol ∧ f = field) := by
    rintro s f hne ⟨rfl, rfl⟩
    exact hne hnone
  refine ⟨⟨_, rfl, ⟨?_, fun n hn => s.setReg_regs_ne _ (Nat.ne_of_lt hn), rfl⟩, ?_,
    s.setReg_regs_self _ _⟩, fun s f => rfl⟩
  · change X.Running (CodegenContext.cacheField { cg with nextReg := cg.nextReg + 1 } symbol
      field (.reg cg.nextReg)) ((Code.instr (.loadField cg.nextReg symbol field) .done).scope A) δ _
    rw [Code.scope_instr rfl]
    refine { hload with quotes := ?_, volumes := ?_ }
    · intro s' hs f hne
      obtain ⟨v, hv, hold⟩ := hload.quotes hs hne
      refine ⟨v, (if_neg (hkeep ?_)).trans hv, hold⟩
      rw [show cg.programMarketFieldCache s' f = some v from hv]
      exact Option.some_ne_none v
    · intro s' v hv
      exact hload.volumes ((if_neg fun hsf => hf hsf.2.symm).symm.trans hv)
  · intro n hn
    cases hn
    exact Nat.lt_succ_self _

omit [Fp D] in
/-- Loads leave the cache of calls alone. -/
theorem fieldLoad_statefulEmitCache {symbol : Nat} {field : MarketField}
    {r : Emitted D (Operand D)} (hr : emitMarketFieldLoad symbol field cg = .ok r) :
    r.cg.statefulEmitCache = cg.statefulEmitCache := by
  rcases hv : cg.programMarketFieldCache symbol field with _ | v
  · simp only [emitMarketFieldLoad, hv] at hr
    cases hr
    rfl
  · simp only [emitMarketFieldLoad, hv] at hr
    cases v <;> cases hr <;> rfl

/-- What the loads at the start lead to. -/
structure Loaded (X : EmittedTick D σ) (T : Nat → Prop) (cg cg' : CodegenContext D) (A : Set Name)
    (δ : Dict D) (s s' : Frame D σ) : Prop where
  /-- the tickers of `T` are loaded -/
  running : (X.withTickers T).Running cg' A δ s'
  /-- and no others -/
  unloaded : ∀ symbol, ¬ T symbol → ∀ f, f ≠ .volume → cg'.programMarketFieldCache symbol f = none
  /-- no calls are cached -/
  calls : cg'.statefulEmitCache = cg.statefulEmitCache
  /-- nothing is written -/
  outputs : s'.outputs = s.outputs

/-- Bid and ask of a ticker. -/
theorem Loaded.quotes {T : Nat → Prop} {cg₀ : CodegenContext D} {s₀ : Frame D σ}
    (h : Loaded X T cg₀ cg A δ s₀ s) {symbol : Nat} {r₁ r₂ : Emitted D (Operand D)}
    (hbid : emitMarketFieldLoad symbol .bid cg = .ok r₁)
    (hask : emitMarketFieldLoad symbol .ask r₁.cg = .ok r₂) :
    ∃ s', X.machine.run (r₁.code.append r₂.code) s = some s' ∧
      Loaded X (fun n => T n ∨ n = symbol) cg₀ r₂.cg ((r₁.code.append r₂.code).scope A) δ s₀ s' := by
  have hcalls : r₂.cg.statefulEmitCache = cg₀.statefulEmitCache :=
    (fieldLoad_statefulEmitCache hask).trans ((fieldLoad_statefulEmitCache hbid).trans h.calls)
  rw [Code.scope_append]
  by_cases hs : T symbol
  · have hsame : ∀ {cg : CodegenContext D} {A : Set Name} {s : Frame D σ} {field : MarketField}
        {r : Emitted D (Operand D)}, (X.withTickers T).Running cg A δ s → field ≠ .volume →
        emitMarketFieldLoad symbol field cg = .ok r → r.cg = cg := by
      intro cg A s field r hrun hf hr
      obtain ⟨v, hv, -⟩ := hrun.quotes hs hf
      simp only [emitMarketFieldLoad, hv] at hr
      cases v <;> cases hr <;> rfl
    obtain ⟨s₁, hrun₁, hreach₁, -⟩ := Runs.quote h.running hs (by decide) hbid
    obtain ⟨s₂, hrun₂, hreach₂, -⟩ := Runs.quote hreach₁.running hs (by decide) hask
    refine ⟨s₂, ?_, ?_, ?_, hcalls, hreach₂.outputs.trans (hreach₁.outputs.trans h.outputs)⟩
    · rw [Machine.run_append, show X.machine.run r₁.code s = some s₁ from hrun₁]
      exact hrun₂
    · refine { hreach₂.running with quotes := ?_ }
      rintro n (hn | rfl) f hf
      · exact hreach₂.running.quotes hn hf
      · exact hreach₂.running.quotes hs hf
    · intro n hn f hf
      rw [hsame hreach₁.running (by decide) hask, hsame h.running (by decide) hbid]
      exact h.unloaded n (fun hT => hn (.inl hT)) f hf
  · obtain ⟨⟨s₁, hrun₁, hreach₁, hx₁⟩, hcache₁⟩ :=
      h.running.firstQuote (by decide) (h.unloaded symbol hs .bid (by decide)) hbid
    have hnone : r₁.cg.programMarketFieldCache symbol .ask = none := by
      rw [hcache₁, if_neg (by simp)]
      exact h.unloaded symbol hs .ask (by decide)
    obtain ⟨⟨s₂, hrun₂, hreach₂, hx₂⟩, hcache₂⟩ :=
      hreach₁.running.firstQuote (by decide) hnone hask
    refine ⟨s₂, ?_, ?_, ?_, hcalls, hreach₂.outputs.trans (hreach₁.outputs.trans h.outputs)⟩
    · rw [Machine.run_append, show X.machine.run r₁.code s = some s₁ from hrun₁]
      exact hrun₂
    · refine { hreach₂.running with quotes := ?_ }
      rintro n (hn | rfl) f hf
      · exact hreach₂.running.quotes hn hf
      · cases f with
        | bid =>
          refine ⟨r₁.value, ?_, hx₁.later (Caches.fieldLoad hask).grows.nextReg hreach₂.kept⟩
          rw [hcache₂, if_neg (by simp), hcache₁, if_pos ⟨rfl, rfl⟩]
        | ask => exact ⟨r₂.value, by rw [hcache₂, if_pos ⟨rfl, rfl⟩], hx₂⟩
        | volume => exact absurd rfl hf
    · intro n hn f hf
      rw [not_or] at hn
      rw [hcache₂, if_neg fun h => hn.2 h.1, hcache₁, if_neg fun h => hn.2 h.1]
      exact h.unloaded n hn.1 f hf

/-- **The loads at the start** cover the tickers. -/
theorem prewarm_loaded (tickers : List String) {T : Nat → Prop} {cg₀ : CodegenContext D}
    {s₀ : Frame D σ} (h : Loaded X T cg₀ cg A δ s₀ s) {r : Emitted D Unit}
    (hr : prewarmProgramMarketLoads X.env tickers cg = .ok r) :
    ∃ s', X.machine.run r.code s = some s' ∧
      Loaded X (fun n => T n ∨ ∃ t ∈ tickers, X.env.symbols.lookupId t = .ok n) cg₀ r.cg
        (r.code.scope A) δ s₀ s' := by
  induction tickers generalizing T cg A s r with
  | nil =>
    cases EmitM.pure_ok.mp hr
    refine ⟨s, rfl, ?_⟩
    rw [Code.scope_done]
    have hT : (fun n => T n ∨ ∃ t ∈ ([] : List String), X.env.symbols.lookupId t = .ok n) = T := by
      funext n
      simp
    rw [hT]
    exact h
  | cons t rest ih =>
    rw [prewarmProgramMarketLoads] at hr
    obtain ⟨r₀, r', hlook, hloads, rfl⟩ := EmitM.bind_ok.mp hr
    obtain ⟨symbol, hsymbol, rfl⟩ := EmitM.lift_ok.mp hlook
    obtain ⟨r₁, _, hbid, hrest, rfl⟩ := EmitM.bind_ok.mp hloads
    obtain ⟨r₂, r₃, hask, hrest', rfl⟩ := EmitM.bind_ok.mp hrest
    obtain ⟨s₁, hrun₁, h₁⟩ := h.quotes hbid hask
    obtain ⟨s₂, hrun₂, h₂⟩ := ih h₁ hrest'
    have hT : (fun n => (T n ∨ n = symbol) ∨
        ∃ t ∈ rest, X.env.symbols.lookupId t = .ok n) =
        fun n => T n ∨ ∃ t' ∈ t :: rest, X.env.symbols.lookupId t' = .ok n := by
      funext n
      rw [List.exists_mem_cons_iff, hsymbol, or_assoc]
      simp only [Except.ok.injEq, eq_comm]
    have hcode : Code.append (.done : Code (Instr D)) (r₁.code.append (r₂.code.append r₃.code)) =
        (r₁.code.append r₂.code).append r₃.code := by
      rw [Code.done_append, Code.append_assoc]
    refine ⟨s₂, ?_, ?_⟩
    · change X.machine.run (Code.append .done (r₁.code.append (r₂.code.append r₃.code))) s = _
      rw [hcode, Machine.run_append, hrun₁]
      exact hrun₂
    · change Loaded X _ cg₀ r₃.cg ((Code.append .done
        (r₁.code.append (r₂.code.append r₃.code))).scope A) δ s₀ s₂
      rw [hcode, Code.scope_append, ← hT]
      exact h₂

/-! ## Signals -/

/-- Every signal starts with an empty dictionary. -/
theorem Running.forget (h : X.Running cg A δ s) : X.Running cg A .empty s :=
  h.restrict fun hn => (nomatch hn)

/-- The value of a signal. -/
theorem Running.setSignalValue (h : X.Running cg A δ s) {name : String} {p : Plan D} {x : D}
    {v : Operand D} (hv : v.Holds cg s x) (hx : X.value p [] = some x) :
    (X.withRef name p).Running (cg.setSignalValue name v) A δ s := by
  refine { h with signals := ?_ }
  intro n w hw
  change (if n = name then some v else cg.signalValues n) = some w at hw
  by_cases hn : n = name
  · rw [if_pos hn] at hw
    cases hw
    exact ⟨p, x, if_pos hn, hx, hv⟩
  · rw [if_neg hn] at hw
    obtain ⟨q, y, hq, hy, hold⟩ := h.signals hw
    exact ⟨q, y, (if_neg hn).trans hq, hy, hold⟩

/-- An output is written. -/
theorem Running.store (h : X.Running cg A δ s) (i : Nat) (x : D) : X.Running cg A δ (s.store i x) :=
  { h with }

variable (X) in
/-- What a call of the function does after the loads, from signal `i` on. -/
def Writes (r : Emitted D Unit) (s : Frame D σ) (i : Nat) : Option (List D) → Prop
  | none => X.machine.run r.code s = none
  | some xs => ∃ s', X.machine.run r.code s = some s' ∧ X.Ticked r.cg s'.ctx ∧
      ∀ k, s'.outputs k = if k < i then s.outputs k else xs[k - i]?.or (s.outputs k)

/-- What is known after a signal. -/
theorem Ready.next {d : SignalDef D} {rest : List (SignalDef D)} {r : Emitted D (Operand D)}
    (hpos : ∀ {n S}, X.sites n = some S → 0 < n)
    (h : X.Ready cg .empty [] false ((d :: rest).flatMap fun s => s.body.calls)
      (programSites X.scheduleEnv (d :: rest)))
    (hc : Caches cg (schedule X.scheduleEnv [] d.body .empty).sites r) (v : Operand D) :
    (X.withRef d.name (planOf X.scheduleEnv d.body)).Ready (r.cg.setSignalValue d.name v) .empty []
      false (rest.flatMap fun s => s.body.calls)
      (programSites (X.scheduleEnv.addRef d.name (planOf X.scheduleEnv d.body)) rest) := by
  have h : X.Ready cg .empty [] false (d.body.calls ++ rest.flatMap fun s => s.body.calls)
    ((schedule X.scheduleEnv [] d.body .empty).sites ++ _) := h
  exact { h.right hpos hc (schedule_extends X.scheduleEnv d.body [] .empty h.left.nodup) with
    known := fun hn => (nomatch hn) }

/-- All ids of a program are cached at the end. -/
theorem emitSignals_ids (hcold : X.env.assumeWarm = false)
    (hpos : ∀ {n S}, X.sites n = some S → 0 < n) (signals : List (SignalDef D)) (i : Nat)
    (h : X.Ready cg .empty [] false (signals.flatMap fun s => s.body.calls)
      (programSites X.scheduleEnv signals)) {r : Emitted D Unit}
    (hr : emitSignals X.env signals i cg = .ok r) (n : Int) :
    r.cg.statefulEmitCache n ≠ none ↔ cg.statefulEmitCache n ≠ none ∨
      n ∈ siteIds (programSites X.scheduleEnv signals) := by
  induction signals generalizing X cg i r with
  | nil =>
    cases EmitM.pure_ok.mp hr
    exact (or_iff_left List.not_mem_nil).symm
  | cons d rest ih =>
    rw [emitSignals] at hr
    obtain ⟨r₁, _, hbody, hrest, rfl⟩ := EmitM.bind_ok.mp hr
    obtain ⟨r₂, _, hset, hrest', rfl⟩ := EmitM.bind_ok.mp hrest
    obtain ⟨r₃, r₄, hstore, hrest'', rfl⟩ := EmitM.bind_ok.mp hrest'
    cases EmitM.modify_ok.mp hset
    cases EmitM.emit_ok.mp hstore
    have hc := (emitExpr_follows hcold hpos d.body [] false
      (h.sub (fun c => List.mem_append_left _) (List.sublist_append_left _ _)) hbody).caches
    have hids := ih (X := X.withRef d.name (planOf X.scheduleEnv d.body)) hcold hpos (i + 1)
      (h.next hpos hc r₁.value) hrest''
    change r₄.cg.statefulEmitCache n ≠ none ↔ _
    refine hids.trans ?_
    change r₁.cg.statefulEmitCache n ≠ none ∨ _ ↔ _
    rw [hc.ids n, programSites, siteIds, siteIds, siteIds, List.map_append, List.mem_append,
      or_assoc]
    rfl

/-- **The signals of a program**, one after the other. -/
theorem emitSignals_follows (hcold : X.env.assumeWarm = false)
    (hpos : ∀ {n S}, X.sites n = some S → 0 < n) (signals : List (SignalDef D)) (i : Nat)
    (h : X.Ready cg .empty [] false (signals.flatMap fun s => s.body.calls)
      (programSites X.scheduleEnv signals)) (hrun : X.Running cg A .empty s)
    (hreads : X.env.vectorized = true → ∀ s ∈ signals, X.Reads (s.body.paramsIn false))
    {r : Emitted D Unit} (hr : emitSignals X.env signals i cg = .ok r)
    (hscope : X.InScope r.code A) :
    X.Writes r s i (X.values (programPlans X.scheduleEnv signals) []) := by
  induction signals generalizing X cg A s i r with
  | nil =>
    cases EmitM.pure_ok.mp hr
    have hvalue : X.values (programPlans X.scheduleEnv []) [] = some [] := Semantics.vals_nil ..
    rw [hvalue]
    refine ⟨s, rfl, hrun.ticked, fun k => ?_⟩
    split <;> rfl
  | cons d rest ih =>
    rw [emitSignals] at hr
    obtain ⟨r₁, _, hbody, hrest, rfl⟩ := EmitM.bind_ok.mp hr
    obtain ⟨r₂, _, hset, hrest', rfl⟩ := EmitM.bind_ok.mp hrest
    obtain ⟨r₃, r₄, hstore, hrest'', rfl⟩ := EmitM.bind_ok.mp hrest'
    cases EmitM.modify_ok.mp hset
    cases EmitM.emit_ok.mp hstore
    have hb := emitExpr_follows hcold hpos d.body [] false
      (h.sub (fun c => List.mem_append_left _) (List.sublist_append_left _ _)) hbody
    have hvalue : X.values (programPlans X.scheduleEnv (d :: rest)) [] =
        (X.value (planOf X.scheduleEnv d.body) []).bind fun x =>
          ((X.withRef d.name (planOf X.scheduleEnv d.body)).values (programPlans
            (X.withRef d.name (planOf X.scheduleEnv d.body)).scheduleEnv rest) []).map (x :: ·) :=
      Semantics.vals_cons ..
    have hcode : ∀ s, X.machine.run (r₁.code.append (Code.append .done
        (Code.append (.instr (.store i r₁.value) .done) r₄.code))) s =
        (X.machine.run r₁.code s).bind fun s => X.machine.run r₄.code
          (s.store i (r₁.value.eval s.regs)) := by
      intro s
      rw [Machine.run_append]
      rfl
    obtain ⟨hs₁, hs⟩ := hscope.append
    have hs₄ := (hs.append.2).append.2
    have hrun₁ := hb.runs hrun hs₁ (fun _ => rfl) fun hv => hreads hv d List.mem_cons_self
    change X.Runs cg A _ r₁ Operand.Holds s (X.value (planOf X.scheduleEnv d.body) []) at hrun₁
    rw [hvalue]
    rcases hx : X.value (planOf X.scheduleEnv d.body) [] with _ | x
    · rw [hx] at hrun₁
      change X.machine.run _ s = none
      rw [hcode, show X.machine.run r₁.code s = none from hrun₁]
      rfl
    · rw [hx] at hrun₁
      obtain ⟨s₁, hrun₁, hreach, hold⟩ := hrun₁
      have hnext : (X.withRef d.name (planOf X.scheduleEnv d.body)).Running
          (r₁.cg.setSignalValue d.name r₁.value) (r₁.code.scope A) .empty (s₁.store i x) :=
        (hreach.running.forget.setSignalValue hold hx).store i x
      rw [Code.scope_done, Code.scope_silent rfl] at hs₄
      have hrec := ih (X := X.withRef d.name (planOf X.scheduleEnv d.body)) hcold hpos (i + 1)
        (h.next hpos hb.caches r₁.value) hnext
        (fun hv s hs => hreads hv s (List.mem_cons_of_mem _ hs)) hrest'' hs₄
      rw [Option.bind_some]
      have hrun := hcode s
      rw [show X.machine.run r₁.code s = some s₁ from hrun₁, Option.bind_some, hold.2] at hrun
      rcases hxs : (X.withRef d.name (planOf X.scheduleEnv d.body)).values (programPlans
        (X.withRef d.name (planOf X.scheduleEnv d.body)).scheduleEnv rest) [] with _ | xs
      · rw [hxs] at hrec
        exact hrun.trans hrec
      · rw [hxs] at hrec
        obtain ⟨s', hrun', hticked, hout⟩ := hrec
        refine ⟨s', hrun.trans hrun', { hticked with }, fun k => ?_⟩
        rw [hout k]
        have hstored : (s₁.store i x).outputs k = if k = i then some x else s.outputs k := by
          rw [← hreach.outputs]
          rfl
        rw [hstored]
        rcases Nat.lt_trichotomy k i with hk | rfl | hk
        · rw [if_pos (Nat.lt_succ_of_lt hk), if_neg (Nat.ne_of_lt hk), if_pos hk]
        · rw [if_pos (Nat.lt_succ_self k), if_pos rfl, if_neg (Nat.lt_irrefl k), Nat.sub_self]
          rfl
        · rw [if_neg (Nat.not_lt.mpr hk), if_neg (Nat.ne_of_gt hk), if_neg (Nat.lt_asymm hk)]
          have hsub : k - i = k - (i + 1) + 1 := by omega
          rw [hsub, List.getElem?_cons_succ]

/-! ## One call -/

omit [Fp D] in
/-- The loads of bases do nothing here. -/
theorem run_hoistedCode (M : Machine (Instr D) (Frame D σ)) (bases : List LoweringFlag)
    (hM : ∀ f s, M.step (.loadBase f) s = some s) (s : Frame D σ) :
    M.run (hoistedCode bases) s = some s := by
  induction bases with
  | nil => rfl
  | cons f rest ih => rw [hoistedCode, Machine.run_instr, hM, Option.bind_some, ih]

variable (X) in
/-- **A program that was compiled**: its ids can be followed, and its code was emitted. -/
structure Compiled (signals : List (SignalDef D)) (code : Code (Instr D)) : Prop where
  /-- states are not assumed to be filled -/
  cold : X.env.assumeWarm = false
  /-- ids are positive -/
  pos : ∀ {n S}, X.sites n = some S → 0 < n
  /-- the tickers are those of the program -/
  tickers : X.tickers = fun n => ∃ t ∈ signals.flatMap fun s => collectTickerSymbols s.body,
    X.env.symbols.lookupId t = .ok n
  /-- the sites are those of the program -/
  sites : ∀ {n S}, X.sites n = some S → n ∈ siteIds (programSites X.scheduleEnv signals)
  /-- the signals can be emitted -/
  ready : X.Ready .init .empty [] false (signals.flatMap fun s => s.body.calls)
    (programSites X.scheduleEnv signals)
  /-- vector code finds the parameters it reads -/
  reads : X.env.vectorized = true → ∀ s ∈ signals, X.Reads (s.body.paramsIn false)
  /-- the code -/
  emitted : emitProgram X.env signals = .ok code
  /-- cached values are used in scope -/
  inScope : X.InScope code ∅

/-- **One call of the function**, on a context between two ticks. -/
theorem emitProgram_follows {signals : List (SignalDef D)} {code : Code (Instr D)}
    (h : X.Compiled signals code) {ctx : SignalContext D σ} (hctx : X.Ticked .init ctx)
    (regs : Nat → D) :
    match X.values (programPlans X.scheduleEnv signals) [] with
    | none => X.machine.run code ⟨regs, ctx, fun _ => none⟩ = none
    | some xs => ∃ s', X.machine.run code ⟨regs, ctx, fun _ => none⟩ = some s' ∧
        (X.atTime (X.time + 1)).Ticked .init s'.ctx ∧ s'.outputs = fun k => xs[k]? := by
  obtain ⟨hcold, hpos, htickers, hsites, h, hreads, hr, hscope⟩ := h
  unfold emitProgram at hr
  split at hr
  · cases hr
  rename_i r hr'
  cases hr
  obtain ⟨r₁, r₂, hr₁, hr₂, rfl⟩ := EmitM.bind_ok.mp hr'
  set A : Set Name := (hoistedCode r₂.cg.bases : Code (Instr D)).scope ∅ with hA
  have hregs : ∀ {n}, .reg n ∈ A → n < (CodegenContext.init : CodegenContext D).nextReg := by
    intro n hn
    rw [hA, Code.scope, (hoistedCode_spec r₂.cg.bases ∅).2.1, Set.union_empty] at hn
    obtain ⟨f, -, hf⟩ := List.mem_map.mp hn
    cases hf
  have hscope' : X.InScope (r₁.code.append r₂.code) A := by
    intro hv
    have hcode := hscope hv
    rw [Code.Scoped, Code.scoped_append] at hcode
    have hbody := hcode.2.2
    rw [show Instr.names.defs (.symbolCtx : Instr D) = [] from rfl] at hbody
    simpa [Code.scope, hA] using hbody
  have hrun : X.machine.run (.instr .symbolCtx ((hoistedCode r₂.cg.bases).append
      (r₁.code.append r₂.code))) ⟨regs, ctx, fun _ => none⟩ =
      (X.machine.run r₁.code ⟨regs, ctx, fun _ => none⟩).bind (X.machine.run r₂.code) := by
    rw [Machine.run_instr]
    change X.machine.run _ _ = _
    rw [Machine.run_append, run_hoistedCode _ _ (fun _ _ => rfl), Option.bind_some,
      Machine.run_append]
  -- the loads
  have hstart : Loaded X (fun _ => False) .init .init A .empty ⟨regs, ctx, fun _ => none⟩
      ⟨regs, ctx, fun _ => none⟩ :=
    { running :=
        { ctxParams := hctx.ctxParams
          defined := hregs
          stepped := fun hn => by cases hn
          quotes := fun hs => hs.elim
          volumes := fun hv => by cases hv
          signals := fun hv => by cases hv
          slots := hctx.slots
          rest := hctx.rest }
      unloaded := fun _ _ _ _ => rfl
      calls := rfl
      outputs := rfl }
  obtain ⟨s₁, hrun₁, hloaded⟩ := prewarm_loaded _ hstart hr₁
  rw [hrun₁, Option.bind_some] at hrun
  have hrunning : X.Running r₁.cg (r₁.code.scope A) .empty s₁ :=
    { hloaded.running with
      quotes := fun hs => hloaded.running.quotes (.inr (by rwa [htickers] at hs)) }
  have hready : X.Ready r₁.cg .empty [] false (signals.flatMap fun s => s.body.calls)
      (programSites X.scheduleEnv signals) :=
    { h with
      new := fun n hn => by rw [hloaded.calls]; exact h.new n hn
      known := fun hn => by cases hn }
  -- the signals
  have hsignals := emitSignals_follows hcold hpos signals 0 hready hrunning hreads hr₂
    hscope'.append.2
  have hids := emitSignals_ids hcold hpos signals 0 hready hr₂
  rcases hxs : X.values (programPlans X.scheduleEnv signals) [] with _ | xs
  · rw [hxs] at hsignals
    exact hrun.trans hsignals
  · rw [hxs] at hsignals
    obtain ⟨s', hrun', hticked, hout⟩ := hsignals
    refine ⟨s', hrun.trans hrun', ⟨hticked.ctxParams, fun {n S op args} hS hplan => ?_,
      hticked.rest⟩, funext fun k => ?_⟩
    · have hcached : (r₂.cg.statefulEmitCache n).isSome :=
        Option.isSome_iff_ne_none.mpr ((hids n).mpr (.inr (hsites hS)))
      have hslot := hticked.slots hS hplan
      rw [if_pos hcached] at hslot
      exact hslot
    · rw [hout k, hloaded.outputs, if_neg (Nat.not_lt_zero k), Nat.sub_zero, Option.or_none]

/-! ## Runs -/

/-- What a program writes at a tick, by its schedule. -/
def outputsAt (X : EmittedTick D σ) (signals : List (SignalDef D)) (t : Nat) : Option (List D) :=
  X.semantics.vals X.ticks (programPlans X.scheduleEnv signals) always t

section Runs

variable {L : Type} [Fp L] [Widen D L] {Y : EmittedTick D (NodeStates D L)}
  {signals : List (SignalDef D)} {code : Code (Instr D)} {ctx : SignalContext D (NodeStates D L)}

omit [Fp L] [Widen D L] in
theorem Compiled.atTime (h : Y.Compiled signals code) (t : Nat) :
    (Y.atTime t).Compiled signals code :=
  { h with ready := { h.ready with } }

/-- **The contexts of a run** are those of the schedule. -/
theorem Compiled.contextAt (h : Y.Compiled signals code) (hstep : Y.step = emittedStep)
    (hctx : (Y.atTime 0).Ticked .init ctx) (t : Nat)
    (hok : ∀ s < t, Y.outputsAt signals s ≠ none) :
    ∃ ctx', compiledContextAt (fun _ => code) Y.ticks ctx t = some ctx' ∧
      (Y.atTime t).Ticked .init ctx' := by
  induction t with
  | zero => exact ⟨ctx, rfl, hctx⟩
  | succ t ih =>
    obtain ⟨ctx', hrun, hticked⟩ := ih fun s hs => hok s (Nat.lt_succ_of_lt hs)
    have hcall := emitProgram_follows (h.atTime t) hticked fun _ => nan
    obtain ⟨xs, hxs⟩ := Option.ne_none_iff_exists'.mp (hok t (Nat.lt_succ_self t))
    rw [show (Y.atTime t).values (programPlans (Y.atTime t).scheduleEnv signals) [] = some xs
      from hxs] at hcall
    obtain ⟨s', hrun', hticked', -⟩ := hcall
    have hprogram : runProgram code (Y.ticks t) ctx' = some s' := by
      rw [runProgram, ← hstep]
      exact hrun'
    refine ⟨s'.ctx, ?_, hticked'⟩
    rw [compiledContextAt, hrun, Option.bind_some, hprogram, Option.map_some]

/-- **The outputs of a run** are those of the schedule. -/
theorem Compiled.outputsAt_eq (h : Y.Compiled signals code) (hstep : Y.step = emittedStep)
    (hctx : (Y.atTime 0).Ticked .init ctx) (t : Nat)
    (hok : ∀ s < t, Y.outputsAt signals s ≠ none) :
    compiledOutputsAt (fun _ => code) Y.ticks ctx t =
      (Y.outputsAt signals t).map fun xs k => xs[k]? := by
  obtain ⟨ctx', hrun, hticked⟩ := h.contextAt hstep hctx t hok
  have hcall := emitProgram_follows (h.atTime t) hticked fun _ => nan
  have hprogram : runProgram code (Y.ticks t) ctx' =
      (Y.atTime t).machine.run code ⟨fun _ => nan, ctx', fun _ => none⟩ := by
    rw [runProgram, ← hstep]
    rfl
  rw [compiledOutputsAt, hrun, Option.bind_some, hprogram]
  rcases hxs : Y.outputsAt signals t with _ | xs
  · rw [show (Y.atTime t).values (programPlans (Y.atTime t).scheduleEnv signals) [] = none
      from hxs] at hcall
    rw [hcall]
    rfl
  · rw [show (Y.atTime t).values (programPlans (Y.atTime t).scheduleEnv signals) [] = some xs
      from hxs] at hcall
    obtain ⟨s', hrun', -, hout⟩ := hcall
    rw [hrun', Option.map_some, hout, Option.map_some]

end Runs

/-! ## Fresh contexts -/

section Fresh

variable {L : Type} [Fp L] [Widen D L]

/-- The state of an operator after the prewarm. -/
def freshStates (op : StatefulOp D) : NodeStates D L :=
  NodeStates.empty.prewarm op.fn op.literal

omit [Widen D L] in
theorem freshStates_eq {impl : Impl} {fn : StatefulFn} {args : List (Expr D)} {op : StatefulOp D}
    (h : DecodedAs impl fn args op) :
    (freshStates op : NodeStates D L) = NodeStates.empty.prewarm fn (periodLiteral fn args) := by
  rw [freshStates, h.fn_eq]
  rcases h.literal with hlit | hlit
  · rcases h.windowless hlit with rfl | rfl | rfl | rfl <;> rfl
  · rw [hlit]

omit [Widen D L] in
/-- **What the prewarm of a program leaves in a slot.** -/
theorem prewarmProgramContext_slots {signals : List (SignalDef D)} {m : Nat} {fn : StatefulFn}
    {literal : Option D} (ctx : SignalContext D (NodeStates D L))
    (h : OwnedBy m fn literal (signals.flatMap fun s => s.body.calls)) :
    (prewarmProgramContext ctx signals).slots m =
      if owns m (signals.flatMap fun s => s.body.calls) then (ctx.slots m).prewarm fn literal
      else ctx.slots m := by
  have hP : ∀ s : NodeStates D L, (s.prewarm fn literal).prewarm fn literal = s.prewarm fn literal :=
    fun s => s.prewarm_prewarm fn literal
  induction signals generalizing ctx with
  | nil => rfl
  | cons s rest ih =>
    have h : OwnedBy m fn literal (s.body.calls ++ rest.flatMap fun s => s.body.calls) := h
    rw [prewarmProgramContext, List.foldl_cons]
    change (prewarmProgramContext _ rest).slots m = _
    rw [ih _ h.right, prewarmExpr_slots hP s.body ctx h.left, prewarm_both hP, ← owns_append]
    rfl

/-- A run of a program from a prewarmed context. -/
def compiledRun (env : EmitEnv) (signals : List (SignalDef D)) (params : List D)
    (ticks : Nat → MarketState D) : EmittedTick D (NodeStates D L) where
  env := env
  refs _ := none
  tickers n := ∃ t ∈ signals.flatMap fun s => collectTickerSymbols s.body,
    env.symbols.lookupId t = .ok n
  sites := siteTable (programSites env.toSchedule signals)
  params := params
  init := freshStates
  step := emittedStep
  ticks := ticks
  time := 0
  rest := (prewarmProgramContext (newContext params) signals).slots

variable [DecidableEq D]

omit [Widen D L] [Fp D] [DecidableEq D] in
theorem prewarmProgramContext_params [Fp D] (signals : List (SignalDef D))
    (ctx : SignalContext D (NodeStates D L)) :
    (prewarmProgramContext ctx signals).params = ctx.params := by
  induction signals generalizing ctx with
  | nil => rfl
  | cons s rest ih => exact (ih _).trans (prewarmExpr_params s.body ctx)

omit [Widen D L] [DecidableEq D] in
/-- What a prewarmed context holds for the id of a stateful call. -/
theorem prewarmedProgram_slots {signals : List (SignalDef D)}
    (hids : ConsistentIds (signals.flatMap fun s => s.body.calls)) (params : List D) {c : Call D}
    (hc : c ∈ signals.flatMap fun s => s.body.calls) {fn : StatefulFn}
    (hfn : Builtin.ofName c.name = some (.stateful fn)) :
    (prewarmProgramContext (newContext params) signals : SignalContext D (NodeStates D L)).slots
        c.nodeId.toNat = NodeStates.empty.prewarm fn (periodLiteral fn c.args) := by
  have hst := isStatefulOp_iff.mpr ⟨fn, hfn⟩
  have hpos := hids.stateful c hc hst
  have howns : owns c.nodeId.toNat (signals.flatMap fun s => s.body.calls) = true := by
    refine List.any_eq_true.mpr ⟨c, hc, ?_⟩
    rw [hst, decide_eq_true (Int.le_of_lt hpos), decide_eq_true rfl]
    rfl
  have hslot := prewarmProgramContext_slots (L := L) (newContext params)
    (hids.ownedBy hc hpos hfn)
  rw [if_pos howns] at hslot
  exact hslot

/-- **A prewarmed context is where the schedule starts.** -/
theorem compiledRun_ticked (env : EmitEnv) {program : List (SignalDef D)}
    (hun : ∀ s ∈ program, Unallocated s.body.calls) (params : List D)
    (ticks : Nat → MarketState D) :
    (compiledRun (L := L) env (allocateProgramNodeIds program) params ticks).Ticked .init
      (prewarmProgramContext (newContext params) (allocateProgramNodeIds program)) := by
  have hnd := (programSites_allocated env.toSchedule hun Int.zero_lt_one).1
  refine ⟨prewarmProgramContext_params _ _, fun {n S op args} hS hplan => ?_, fun _ => rfl⟩
  obtain ⟨s, hs, refs, hmem, hx⟩ :=
    programSites_extends _ hnd ((siteTable_eq_some hnd).mp hS)
  obtain ⟨hst, c, hc, rfl, hname, hargs⟩ := hx.call hmem
  obtain ⟨fn, hfn⟩ := isStatefulOp_iff.mp hst
  have hdec := (hx.decodedAs hmem hplan hfn).2
  have hfaces : SameFaces S.args c.args := hargs ▸ sameFaces_outline c.args
  change _ = (freshStates op : NodeStates D L)
  rw [freshStates_eq hdec, periodLiteral_congr fn hfaces]
  exact prewarmedProgram_slots (consistentIds_allocateProgramNodeIds hun) params
    (List.mem_flatMap.mpr ⟨s, hs, hc⟩) (hname ▸ hfn)

/-- **An allocated program is compiled**, when its code uses cached values in scope and vector
code steps nothing in a branch. -/
theorem compiled_allocated {env : EmitEnv} (hcold : env.assumeWarm = false)
    {program : List (SignalDef D)} (hun : ∀ s ∈ program, Unallocated s.body.calls)
    (hsym : ∀ s ∈ allocateProgramNodeIds program, ∀ c ∈ s.body.calls, c.SymbolOk env.symbols)
    {params : List D} {ticks : Nat → MarketState D} {code : Code (Instr D)}
    (hemit : emitProgram env (allocateProgramNodeIds program) = .ok code)
    (hscope : env.vectorized = false → code.Scoped Instr.names ∅)
    (hflat : env.vectorized = true →
      ∀ x ∈ programSites env.toSchedule (allocateProgramNodeIds program), x.2.path = [])
    (hreads : env.vectorized = true → ∀ s ∈ allocateProgramNodeIds program,
      ∀ i ∈ s.body.paramsIn false, paramValue params i ≠ none) :
    (compiledRun (L := L) env (allocateProgramNodeIds program) params ticks).Compiled
      (allocateProgramNodeIds program) code := by
  obtain ⟨hnd, hge⟩ := programSites_allocated env.toSchedule hun Int.zero_lt_one
  have hmem : ∀ {n S}, siteTable (programSites env.toSchedule (allocateProgramNodeIds program)) n =
      some S → n ∈ siteIds (programSites env.toSchedule (allocateProgramNodeIds program)) :=
    fun hS => List.mem_map_of_mem ((siteTable_eq_some hnd).mp hS)
  refine ⟨hcold, fun hS => hge _ (hmem hS), rfl, hmem, ?_, hreads, hemit, hscope⟩
  refine ⟨hnd, fun _ _ => rfl, fun x hx => (siteTable_eq_some hnd).mpr hx, fun hn => (nomatch hn),
    fun c hc => ?_, fun hb => absurd hb Bool.false_ne_true, hflat⟩
  obtain ⟨s, hs, hc⟩ := List.mem_flatMap.mp hc
  exact emittable_allocateProgramNodeIds hun hsym s hs c hc

end Fresh

end EmittedTick

end JitSignalEngine
