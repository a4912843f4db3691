import JitSignalEngine.EmissionScope
import JitSignalEngine.Execution

/-!
# Running emitted code in step with a schedule

Emitted code keeps one slot per id, and caches values by id. This module says how a run of it
goes together with a schedule. Where the caches of emission stand, the slots of the cached ids
are those of the next tick, the others those of this tick. A branch that is not taken leaves its
entries in the caches all the same. Its ids are not met again, and its slots are those of the
next tick already.

* `EmittedTick` — one tick of a compiled program, in a run.
* `EmittedTick.Caches` — what emission does to the caches, whether the code is run or not.
* `EmittedTick.Running` — a frame at a point of the code: cached values are those of the
  schedule, and the slots of the cached ids are those of the next tick.
* `EmittedTick.Runs` — what a run of a piece of code has to do with a value of the schedule,
  with rules for sequencing.
* `Runs.marketValue`, `Runs.operator` — market reads and stateful operators.
-/

namespace JitSignalEngine

open Fp Dataflow EmitM

variable {D σ α β : Type}

/-! ## One tick -/

/-- What an operator of emitted code is given: a lowered `vwap` the fields of the instrument,
the others their operands. -/
def StatefulOp.inputs (op : StatefulOp D) (market : MarketState D) (vs : List D) : List D :=
  match op.fn, op.impl with
  | .vwap, .lowered =>
    [(market op.symbol).bid, (market op.symbol).ask, (market op.symbol).volume]
  | _, _ => vs

/-- One tick of a compiled program: what it was emitted with, and the run it belongs to. -/
structure EmittedTick (D σ : Type) where
  /-- how the program was emitted -/
  env : EmitEnv
  /-- the plans of the signals before -/
  refs : String → Option (Plan D)
  /-- the instruments whose quotes are loaded at the start -/
  tickers : Nat → Prop
  /-- the sites of the program, by id -/
  sites : SiteTable D
  /-- the parameters -/
  params : List D
  /-- the state an operator starts in -/
  init : StatefulOp D → σ
  /-- what an operator does -/
  step : StatefulOp D → Bool → MarketState D → List D → σ → Option (D × σ)
  /-- the markets of the run -/
  ticks : Nat → MarketState D
  /-- the tick -/
  time : Nat
  /-- the slots no site owns -/
  rest : Nat → σ

/-- The operand is defined and has the value `x`. -/
def Operand.Holds (cg : CodegenContext D) (s : Frame D σ) (v : Operand D) (x : D) : Prop :=
  (∀ n, v = .reg n → n < cg.nextReg) ∧ v.eval s.regs = x

/-- The values of a list of operands. -/
def Operand.HoldAll (cg : CodegenContext D) (s : Frame D σ) (vs : List (Operand D)) (xs : List D) :
    Prop :=
  List.Forall₂ (Operand.Holds cg s) vs xs

section Values

variable {cg cg' : CodegenContext D} {s s' : Frame D σ}

/-- What holds goes on holding. -/
theorem Operand.Holds.later {v : Operand D} {x : D} (h : v.Holds cg s x)
    (hnext : cg.nextReg ≤ cg'.nextReg) (hkept : ∀ n < cg.nextReg, s'.regs n = s.regs n) :
    v.Holds cg' s' x := by
  refine ⟨fun n hn => (h.1 n hn).trans_le hnext, ?_⟩
  rw [← h.2]
  cases v with
  | const w => rfl
  | reg n => exact hkept n (h.1 n rfl)

theorem Operand.HoldAll.later {vs : List (Operand D)} {xs : List D} (h : HoldAll cg s vs xs)
    (hnext : cg.nextReg ≤ cg'.nextReg) (hkept : ∀ n < cg.nextReg, s'.regs n = s.regs n) :
    HoldAll cg' s' vs xs :=
  List.Forall₂.imp (fun _ _ hv => hv.later hnext hkept) h

theorem Operand.HoldAll.eval {vs : List (Operand D)} {xs : List D} (h : HoldAll cg s vs xs) :
    vs.map (Operand.eval s.regs) = xs := by
  induction h with
  | nil => rfl
  | cons hv _ ih => rw [List.map_cons, hv.2, ih]

end Values

namespace EmittedTick

variable [Fp D] (X : EmittedTick D σ)

/-- The schedule the program follows. -/
def scheduleEnv : ScheduleEnv D := ⟨X.env.symbols, X.env.impl, X.refs⟩

/-- The meaning emitted code gives to plans. -/
def semantics :
    Semantics (Leaf D) UnaryFn BinaryOpKind (StatefulOp D) (MarketState D) D σ :=
  planSemantics X.params X.init fun op market vs slot =>
    X.step op false market (op.inputs market vs) slot

/-- When a position is reached. -/
abbrev reached (path : Path D) : Nat → Bool := X.semantics.along X.ticks path

/-- The value of a plan at a position. -/
abbrev value (plan : Plan D) (path : Path D) : Option D :=
  X.semantics.val X.ticks plan (X.reached path) X.time

/-- The values of operands at a position. -/
abbrev values (plans : List (Plan D)) (path : Path D) : Option (List D) :=
  X.semantics.vals X.ticks plans (X.reached path) X.time

/-- The slot of an operator before a tick. -/
abbrev slotAt (path : Path D) (op : StatefulOp D) (args : List (Plan D)) (t : Nat) : σ :=
  X.semantics.stateAt X.ticks op (X.reached path)
    (X.semantics.vals X.ticks args (X.reached path)) t

/-- The machine of the tick. -/
abbrev machine : Machine (Instr D) (Frame D σ) := instrMachine X.step (X.ticks X.time)

/-! ## The caches -/

omit [Fp D] in
/-- **What emission does to the caches.** Entries stay; new loads have new numbers; the ids that
enter the cache of calls are those of the sites. -/
structure Caches (cg : CodegenContext D) (sites : List (Int × Site D)) (r : Emitted D α) : Prop where
  /-- entries stay -/
  grows : cg.Grows r.cg
  /-- loads are results -/
  loads : ∀ {s f v}, cg.programMarketFieldCache s f = none →
    r.cg.programMarketFieldCache s f = some v → ∃ n, v = .reg n ∧ n < r.cg.nextReg
  /-- the ids -/
  ids : ∀ n, r.cg.statefulEmitCache n ≠ none ↔ cg.statefulEmitCache n ≠ none ∨ n ∈ siteIds sites

namespace Caches

variable {cg : CodegenContext D} {sites sites' : List (Int × Site D)}

omit [Fp D] in
theorem of_grows {r : Emitted D α} (h : cg.Grows r.cg)
    (hf : r.cg.programMarketFieldCache = cg.programMarketFieldCache)
    (hids : r.cg.statefulEmitCache = cg.statefulEmitCache) : Caches cg [] r where
  grows := h
  loads hnone hsome := by
    rw [hf, hnone] at hsome
    cases hsome
  ids n := by
    rw [hids]
    exact (or_iff_left List.not_mem_nil).symm

omit [Fp D] in
/-- One piece of emission after another. -/
theorem append {r₁ : Emitted D α} {r₂ : Emitted D β} {v : β} {c : Code (Instr D)}
    (h : Caches cg sites r₁) (h' : Caches r₁.cg sites' r₂) :
    Caches cg (sites ++ sites') (⟨v, c, r₂.cg⟩ : Emitted D β) where
  grows := h.grows.trans h'.grows
  loads {s f v} hnone hsome := by
    rcases hmid : r₁.cg.programMarketFieldCache s f with _ | w
    · exact h'.loads hmid hsome
    · cases (h'.grows.fields hmid).symm.trans hsome
      obtain ⟨n, hn, hlt⟩ := h.loads hnone hmid
      exact ⟨n, hn, hlt.trans_le h'.grows.nextReg⟩
  ids n := by
    rw [h'.ids n, h.ids n, siteIds, siteIds, siteIds, List.map_append, List.mem_append, or_assoc]

end Caches

/-! ## Running code -/

/-- **A frame at a point of the code.** `cg` are the caches of emission there, `A` the names in
scope, `δ` the ids that are stepped at every tick. -/
structure Running (cg : CodegenContext D) (A : Set Name) (δ : Dict D) (s : Frame D σ) : Prop where
  /-- parameters do not change -/
  ctxParams : s.ctx.params = X.params
  /-- names in scope are defined -/
  defined : ∀ {n}, .reg n ∈ A → n < cg.nextReg
  /-- the ids that are stepped at every tick have the values of their plans -/
  stepped : ∀ {n p}, δ n = some p → ∃ v x, cg.statefulEmitCache n = some v ∧
    X.value p [] = some x ∧ v.Holds cg s x
  /-- bid and ask of the tickers are loaded -/
  quotes : ∀ {symbol}, X.tickers symbol → ∀ {f}, f ≠ .volume → ∃ v,
    cg.programMarketFieldCache symbol f = some v ∧ v.Holds cg s ((X.ticks X.time symbol).field f)
  /-- a volume whose load is in scope is loaded -/
  volumes : ∀ {symbol v}, cg.programMarketFieldCache symbol .volume = some v →
    ∃ n, v = .reg n ∧ n < cg.nextReg ∧
      (.reg n ∈ A → v.eval s.regs = (X.ticks X.time symbol).field .volume)
  /-- the values of the signals before are those of their plans -/
  signals : ∀ {n v}, cg.signalValues n = some v → ∃ p x, X.refs n = some p ∧
    X.value p [] = some x ∧ v.Holds cg s x
  /-- the slots of cached ids are those of the next tick -/
  slots : ∀ {n S op args}, X.sites n = some S → S.plan = .call op args →
    s.ctx.slots n.toNat = X.slotAt S.path op args
      (if (cg.statefulEmitCache n).isSome then X.time + 1 else X.time)
  /-- no other slot changes -/
  rest : ∀ {k}, (∀ n S, X.sites n = some S → n.toNat ≠ k) → s.ctx.slots k = X.rest k

/-- What running the code of `r` leaves behind. -/
structure Reaches (cg : CodegenContext D) (A : Set Name) (δ : Dict D) (r : Emitted D α)
    (s s' : Frame D σ) : Prop where
  /-- the state afterwards -/
  running : X.Running r.cg (r.code.scope A) δ s'
  /-- results are not redefined -/
  kept : ∀ n < cg.nextReg, s'.regs n = s.regs n
  /-- outputs are written elsewhere -/
  outputs : s'.outputs = s.outputs

/-- **What a run of the code has to do with the value `v` of the schedule.** `P` is what is
known about the result. -/
def Runs (cg : CodegenContext D) (A : Set Name) (δ : Dict D) (r : Emitted D α)
    (P : CodegenContext D → Frame D σ → α → β → Prop) (s : Frame D σ) (v : Option β) : Prop :=
  match v with
  | none => X.machine.run r.code s = none
  | some x => ∃ s', X.machine.run r.code s = some s' ∧ X.Reaches cg A δ r s s' ∧ P r.cg s' r.value x

section Rules

variable {X} {cg cg' : CodegenContext D} {A B : Set Name} {δ δ' δ₁ δ₂ : Dict D}
  {s s' : Frame D σ} {sites sites' : List (Int × Site D)} {γ : Type}

namespace Running

/-- Fewer ids are stepped at every tick. -/
theorem restrict (h : X.Running cg A δ s) (hδ : ∀ {n p}, δ' n = some p → δ n = some p) :
    X.Running cg A δ' s :=
  { h with stepped := fun hn => h.stepped (hδ hn) }

/-- Names go out of scope. -/
theorem shrink (h : X.Running cg A δ s) (hB : B ⊆ A) : X.Running cg B δ s where
  __ := h
  defined hn := h.defined (hB hn)
  volumes hv := by
    obtain ⟨n, hn, hlt, hval⟩ := h.volumes hv
    exact ⟨n, hn, hlt, fun hB' => hval (hB hB')⟩

/-- **Code that is not run** leaves its entries in the caches. Its sites are not reached, so
their slots are those of the next tick already. -/
theorem skip {r : Emitted D γ} (h : X.Running cg A δ s) (hc : Caches cg sites r)
    (htable : ∀ x ∈ sites, X.sites x.1 = some x.2)
    (hidle : ∀ x ∈ sites, X.reached x.2.path X.time ≠ true) : X.Running r.cg A δ s where
  ctxParams := h.ctxParams
  defined hn := (h.defined hn).trans_le hc.grows.nextReg
  stepped hn := by
    obtain ⟨v, x, hv, hx, hold⟩ := h.stepped hn
    exact ⟨v, x, hc.grows.stateful hv, hx, hold.later hc.grows.nextReg fun _ _ => rfl⟩
  quotes hs f hf := by
    obtain ⟨v, hv, hold⟩ := h.quotes hs hf
    exact ⟨v, hc.grows.fields hv, hold.later hc.grows.nextReg fun _ _ => rfl⟩
  volumes {symbol v} hv := by
    rcases hold : cg.programMarketFieldCache symbol .volume with _ | w
    · obtain ⟨n, rfl, hlt⟩ := hc.loads hold hv
      exact ⟨n, rfl, hlt, fun hA => absurd (h.defined hA)
        (Nat.not_lt.mpr (hc.grows.loads hold hv))⟩
    · cases (hc.grows.fields hold).symm.trans hv
      obtain ⟨n, hn, hlt, hval⟩ := h.volumes hold
      exact ⟨n, hn, hlt.trans_le hc.grows.nextReg, hval⟩
  signals {n v} hv := by
    rw [hc.grows.signals] at hv
    obtain ⟨p, x, hp, hx, hold⟩ := h.signals hv
    exact ⟨p, x, hp, hx, hold.later hc.grows.nextReg fun _ _ => rfl⟩
  slots {n S op args} hS hplan := by
    rw [h.slots hS hplan]
    by_cases hold : cg.statefulEmitCache n ≠ none
    · rw [if_pos (Option.isSome_iff_ne_none.mpr hold),
        if_pos (Option.isSome_iff_ne_none.mpr ((hc.ids n).mpr (.inl hold)))]
    · rw [if_neg (fun hsome => hold (Option.isSome_iff_ne_none.mp hsome))]
      by_cases hsite : n ∈ siteIds sites
      · -- an id of the code that is not run
        rw [if_pos (Option.isSome_iff_ne_none.mpr ((hc.ids n).mpr (.inr hsite)))]
        obtain ⟨x, hx, rfl⟩ := List.mem_map.mp hsite
        cases (htable x hx).symm.trans hS
        exact (if_neg (hidle x hx)).symm
      · rw [if_neg fun hsome =>
          ((hc.ids n).mp (Option.isSome_iff_ne_none.mp hsome)).elim hold hsite]
  rest := h.rest

/-- A new result. -/
theorem result (h : X.Running cg A δ s) (x : D) :
    X.Running { cg with nextReg := cg.nextReg + 1 } ({.reg cg.nextReg} ∪ A) δ
      (s.setReg cg.nextReg x) := by
  have hkept : ∀ n < cg.nextReg, (s.setReg cg.nextReg x).regs n = s.regs n :=
    fun n hn => s.setReg_regs_ne x (Nat.ne_of_lt hn)
  have hlater : ∀ {v : Operand D} {y : D}, v.Holds cg s y →
      v.Holds { cg with nextReg := cg.nextReg + 1 } (s.setReg cg.nextReg x) y :=
    fun hold => hold.later (Nat.le_succ _) hkept
  refine ⟨h.ctxParams, ?_, ?_, ?_, ?_, ?_, h.slots, h.rest⟩
  · rintro n (hn | hn)
    · cases hn
      exact Nat.lt_succ_self _
    · exact Nat.lt_succ_of_lt (h.defined hn)
  · intro n p hn
    obtain ⟨v, y, hv, hy, hold⟩ := h.stepped hn
    exact ⟨v, y, hv, hy, hlater hold⟩
  · intro symbol hs f hf
    obtain ⟨v, hv, hold⟩ := h.quotes hs hf
    exact ⟨v, hv, hlater hold⟩
  · intro symbol v hv
    obtain ⟨n, rfl, hlt, hval⟩ := h.volumes hv
    refine ⟨n, rfl, Nat.lt_succ_of_lt hlt, ?_⟩
    rintro (hn | hn)
    · cases hn
      exact absurd hlt (Nat.lt_irrefl _)
    · exact (hkept n hlt).trans (hval hn)
  · intro n v hv
    obtain ⟨p, y, hp, hy, hold⟩ := h.signals hv
    exact ⟨p, y, hp, hy, hlater hold⟩

end Running

variable {P : CodegenContext D → Frame D σ → α → β → Prop}

namespace Runs

/-- No code. -/
theorem pure (h : X.Running cg A δ s) {a : α} {x : β} (hP : P cg s a x) :
    X.Runs cg A δ ⟨a, .done, cg⟩ P s (some x) := by
  refine ⟨s, rfl, ⟨?_, fun _ _ => rfl, rfl⟩, hP⟩
  rw [Code.scope_done]
  exact h

/-- One piece of code after another. -/
theorem append {α' β' : Type} {Q : CodegenContext D → Frame D σ → α' → β' → Prop}
    {r₁ : Emitted D α} {r₂ : Emitted D α'} {v : Option β} {g : β → Option β'}
    (hnext : cg.nextReg ≤ r₁.cg.nextReg) (h : X.Runs cg A δ₁ r₁ P s v)
    (h' : ∀ x s', v = some x → X.Reaches cg A δ₁ r₁ s s' → P r₁.cg s' r₁.value x →
      X.Runs r₁.cg (r₁.code.scope A) δ₂ r₂ Q s' (g x)) :
    X.Runs cg A δ₂ ⟨r₂.value, r₁.code.append r₂.code, r₂.cg⟩ Q s (v.bind g) := by
  cases v with
  | none =>
    rw [Option.bind_none]
    change X.machine.run (r₁.code.append r₂.code) s = none
    rw [Machine.run_append, show X.machine.run r₁.code s = none from h, Option.bind_none]
  | some x =>
    obtain ⟨s₁, hrun₁, hreach₁, hP⟩ := h
    have h₂ := h' x s₁ rfl hreach₁ hP
    rw [Option.bind_some]
    rcases hg : g x with _ | y
    · rw [hg] at h₂
      change X.machine.run (r₁.code.append r₂.code) s = none
      rw [Machine.run_append, hrun₁, Option.bind_some]
      exact h₂
    · rw [hg] at h₂
      obtain ⟨s₂, hrun₂, hreach₂, hQ⟩ := h₂
      refine ⟨s₂, ?_, ⟨?_, fun n hn => ?_, hreach₂.outputs.trans hreach₁.outputs⟩, hQ⟩
      · rw [Machine.run_append, hrun₁, Option.bind_some]
        exact hrun₂
      · rw [Code.scope_append]
        exact hreach₂.running
      · rw [hreach₂.kept n (hn.trans_le hnext), hreach₁.kept n hn]

/-- `append` for a `bind` that went through. -/
theorem bind {α' β' : Type} {Q : CodegenContext D → Frame D σ → α' → β' → Prop}
    {m : EmitM D α} {f : α → EmitM D α'} {r : Emitted D α'} {v : Option β} {g : β → Option β'}
    (hr : (m >>= f) cg = .ok r) (hc : ∀ {r₁}, m cg = .ok r₁ → cg.nextReg ≤ r₁.cg.nextReg)
    (h : ∀ {r₁}, m cg = .ok r₁ → X.Runs cg A δ₁ r₁ P s v)
    (h' : ∀ {r₁ r₂ x s'}, m cg = .ok r₁ → f r₁.value r₁.cg = .ok r₂ → v = some x →
      X.Reaches cg A δ₁ r₁ s s' → P r₁.cg s' r₁.value x →
      X.Runs r₁.cg (r₁.code.scope A) δ₂ r₂ Q s' (g x)) :
    X.Runs cg A δ₂ r Q s (v.bind g) := by
  obtain ⟨r₁, r₂, hr₁, hr₂, rfl⟩ := EmitM.bind_ok.mp hr
  exact (h hr₁).append (hc hr₁) fun x s' hv hreach hP => h' hr₁ hr₂ hv hreach hP

/-- What is known about the result is changed. -/
theorem imp {α' : Type} {Q : CodegenContext D → Frame D σ → α' → β → Prop} {r : Emitted D α}
    {a : α'} {v : Option β} (h : X.Runs cg A δ r P s v)
    (hPQ : ∀ x s', P r.cg s' r.value x → Q r.cg s' a x) :
    X.Runs cg A δ ⟨a, r.code, r.cg⟩ Q s v := by
  cases v with
  | none => exact h
  | some x =>
    obtain ⟨s', hrun, ⟨hrunning, hkept, hout⟩, hP⟩ := h
    exact ⟨s', hrun, ⟨hrunning, hkept, hout⟩, hPQ x s' hP⟩

/-- An instruction with a result. -/
theorem build (h : X.Running cg A δ s) {i : Nat → Instr D} {r : Emitted D (Operand D)}
    (hr : EmitM.build i cg = .ok r) (hdefs : ∀ n, (i n).defs = [.reg n]) {v : Option D}
    (hexec : X.machine.step (i cg.nextReg) s = v.map (s.setReg cg.nextReg)) :
    X.Runs cg A δ r Operand.Holds s v := by
  cases EmitM.build_ok.mp hr
  have hrun : X.machine.run (.instr (i cg.nextReg) .done) s = v.map (s.setReg cg.nextReg) := by
    rw [Machine.run_instr, hexec]
    cases v <;> rfl
  cases v with
  | none => exact hrun
  | some x =>
    refine ⟨_, hrun, ⟨?_, fun n hn => s.setReg_regs_ne x (Nat.ne_of_lt hn), rfl⟩, ?_, ?_⟩
    · rw [Code.scope_instr (hdefs _)]
      exact h.result x
    · intro n hn
      cases hn
      exact Nat.lt_succ_self _
    · exact s.setReg_regs_self cg.nextReg x

/-- A cached value. -/
theorem reuse (h : X.Running cg A δ s) {v : Operand D} {x : D} (hv : v.Holds cg s x)
    {r : Emitted D (Operand D)} (hr : EmitM.reuse v cg = .ok r) :
    X.Runs cg A δ r Operand.Holds s (some x) := by
  cases v with
  | const w =>
    cases EmitM.pure_ok.mp hr
    exact .pure h hv
  | reg n =>
    cases hr
    refine ⟨s, rfl, ⟨?_, fun _ _ => rfl, rfl⟩, hv⟩
    change X.Running cg ((Code.instr (.reuse (.reg n)) .done).scope A) δ s
    rw [Code.scope_silent rfl]
    exact h

end Runs

namespace Caches

omit [Fp D] in
theorem pure (cg : CodegenContext D) (a : α) (c : Code (Instr D)) :
    Caches cg [] (⟨a, c, cg⟩ : Emitted D α) := .of_grows (.refl cg) rfl rfl

omit [Fp D] in
theorem build {i : Nat → Instr D} {r : Emitted D (Operand D)} (hr : EmitM.build i cg = .ok r) :
    Caches cg [] r := by
  cases EmitM.build_ok.mp hr
  exact .of_grows (.result cg 1) rfl rfl

omit [Fp D] in
theorem reuse {v : Operand D} {r : Emitted D (Operand D)} (hr : EmitM.reuse v cg = .ok r) :
    Caches cg [] r := by
  cases v with
  | const w =>
    cases EmitM.pure_ok.mp hr
    exact .pure cg _ _
  | reg n =>
    cases hr
    exact .pure cg _ _

omit [Fp D] in
/-- `append` for a `bind` that went through. -/
theorem bind {m : EmitM D α} {f : α → EmitM D β} {r : Emitted D β} (hr : (m >>= f) cg = .ok r)
    (hm : ∀ {r₁}, m cg = .ok r₁ → Caches cg sites r₁)
    (hf : ∀ {r₁ r₂}, m cg = .ok r₁ → f r₁.value r₁.cg = .ok r₂ → Caches r₁.cg sites' r₂) :
    Caches cg (sites ++ sites') r := by
  obtain ⟨r₁, r₂, hr₁, hr₂, rfl⟩ := EmitM.bind_ok.mp hr
  exact (hm hr₁).append (hf hr₁ hr₂)

end Caches

/-! ### Loads -/

omit [Fp D] in
theorem Caches.fieldLoad {symbol : Nat} {field : MarketField} {r : Emitted D (Operand D)}
    (hr : emitMarketFieldLoad symbol field cg = .ok r) : Caches cg [] r := by
  rcases hnone : cg.programMarketFieldCache symbol field with _ | v
  · simp only [emitMarketFieldLoad, hnone] at hr
    cases hr
    have hnew : ∀ {s f v}, cg.programMarketFieldCache s f = none →
        (if s = symbol ∧ f = field then some (.reg cg.nextReg)
          else cg.programMarketFieldCache s f) = some v → v = .reg cg.nextReg := by
      intro s f v hold hsome
      split at hsome
      · exact (Option.some.inj hsome).symm
      · rw [hold] at hsome
        cases hsome
    refine ⟨{ CodegenContext.Grows.result cg 1 with fields := ?_, loads := ?_ },
      fun hold hsome => ⟨cg.nextReg, hnew hold hsome, Nat.lt_succ_self _⟩,
      fun n => (or_iff_left List.not_mem_nil).symm⟩
    · intro s f v hv
      refine (if_neg ?_).trans hv
      rintro ⟨rfl, rfl⟩
      rw [hnone] at hv
      cases hv
    · intro s f n hold hsome
      cases hnew hold hsome
      exact le_rfl
  · simp only [emitMarketFieldLoad, hnone] at hr
    exact .reuse hr

/-- Bid and ask of a ticker. -/
theorem Runs.quote (h : X.Running cg A δ s) {symbol : Nat} (hs : X.tickers symbol)
    {field : MarketField} (hf : field ≠ .volume) {r : Emitted D (Operand D)}
    (hr : emitMarketFieldLoad symbol field cg = .ok r) :
    X.Runs cg A δ r Operand.Holds s (some ((X.ticks X.time symbol).field field)) := by
  obtain ⟨v, hv, hold⟩ := h.quotes hs hf
  simp only [emitMarketFieldLoad, hv] at hr
  exact .reuse h hold hr

/-- A volume that was loaded enters the cache. -/
theorem Running.cacheVolume {symbol : Nat} {x : D} (h : X.Running
      { cg with nextReg := cg.nextReg + 1 } ({.reg cg.nextReg} ∪ A) δ (s.setReg cg.nextReg x))
    (hx : x = (X.ticks X.time symbol).field .volume) :
    X.Running (CodegenContext.cacheField { cg with nextReg := cg.nextReg + 1 } symbol .volume
      (.reg cg.nextReg)) ({.reg cg.nextReg} ∪ A) δ (s.setReg cg.nextReg x) := by
  refine { h with quotes := ?_, volumes := ?_ }
  · intro s' hs f hf
    obtain ⟨v, hv, hold⟩ := h.quotes hs hf
    exact ⟨v, (if_neg fun hsf => hf hsf.2).trans hv, hold⟩
  · intro s' v hv
    change (if s' = symbol ∧ MarketField.volume = .volume then _ else _) = some v at hv
    by_cases hss : s' = symbol
    · rw [if_pos ⟨hss, rfl⟩] at hv
      cases hv
      exact ⟨cg.nextReg, rfl, Nat.lt_succ_self _, fun _ =>
        (s.setReg_regs_self cg.nextReg x).trans (hss ▸ hx)⟩
    · rw [if_neg fun hsf => hss hsf.1] at hv
      exact h.volumes hv

/-- **The volume of a ticker**, where a cached load is in scope. -/
theorem Runs.volume (h : X.Running cg A δ s) {symbol : Nat} {r : Emitted D (Operand D)}
    (hr : emitMarketFieldLoad symbol .volume cg = .ok r)
    (hscoped : r.code.Scoped Instr.names A) :
    X.Runs cg A δ r Operand.Holds s (some ((X.ticks X.time symbol).field .volume)) := by
  rcases hnone : cg.programMarketFieldCache symbol .volume with _ | v
  · simp only [emitMarketFieldLoad, hnone] at hr
    cases hr
    have hload := h.result ((X.ticks X.time symbol).field .volume)
    refine ⟨_, rfl, ⟨?_, fun n hn => s.setReg_regs_ne _ (Nat.ne_of_lt hn), rfl⟩, ?_,
      s.setReg_regs_self _ _⟩
    · change X.Running (CodegenContext.cacheField { cg with nextReg := cg.nextReg + 1 } symbol
        .volume (.reg cg.nextReg)) ((Code.instr (.loadField cg.nextReg symbol .volume) .done).scope
          A) δ _
      rw [Code.scope_instr rfl]
      exact hload.cacheVolume rfl
    · intro n hn
      cases hn
      exact Nat.lt_succ_self _
  · simp only [emitMarketFieldLoad, hnone] at hr
    obtain ⟨n, rfl, hlt, hval⟩ := h.volumes hnone
    have hin : .reg n ∈ A := by
      cases hr
      exact Code.scoped_instr.mp hscoped (.reg n) (List.mem_singleton_self _)
    refine .reuse h ⟨fun m hm => ?_, hval hin⟩ hr
    cases hm
    exact hlt

theorem Caches.marketValue {fn : MarketFn} {symbol : Nat} {r : Emitted D (Operand D)}
    (hr : emitMarketValue fn symbol cg = .ok r) : Caches cg [] r := by
  cases fn with
  | bid => exact .fieldLoad hr
  | ask => exact .fieldLoad hr
  | mid =>
    exact .bind hr .fieldLoad fun _ hr => .bind hr .fieldLoad fun _ hr =>
      .bind hr .build fun _ hr => .build hr
  | spread => exact .bind hr .fieldLoad fun _ hr => .bind hr .fieldLoad fun _ hr => .build hr

/-- A binary operator on two values. -/
theorem Runs.binary (h : X.Running cg A δ s) (kind : BinaryOpKind) {a b : Operand D} {x y : D}
    (ha : a.Holds cg s x) (hb : b.Holds cg s y) {r : Emitted D (Operand D)}
    (hr : EmitM.build (fun dst => .binary dst kind a b) cg = .ok r) :
    X.Runs cg A δ r Operand.Holds s (some (kind.apply x y)) := by
  refine .build h hr (fun _ => rfl) ?_
  rw [← ha.2, ← hb.2]
  rfl

/-- `mid`, `bid`, `ask` and `spread`. -/
theorem Runs.marketValue (h : X.Running cg A δ s) (fn : MarketFn) {symbol : Nat}
    (hs : X.tickers symbol) {r : Emitted D (Operand D)}
    (hr : emitMarketValue fn symbol cg = .ok r) :
    X.Runs cg A δ r Operand.Holds s (some ((X.ticks X.time symbol).read fn)) := by
  have hnext : ∀ {field : MarketField} {cg : CodegenContext D} {r : Emitted D (Operand D)},
      emitMarketFieldLoad symbol field cg = .ok r → cg.nextReg ≤ r.cg.nextReg :=
    fun hr => (Caches.fieldLoad hr).grows.nextReg
  -- the loads of bid and ask, and what follows them
  have hquotes : ∀ {f : Operand D → Operand D → EmitM D (Operand D)} {v : D},
      (emitMarketFieldLoad symbol .bid >>= fun bid =>
        emitMarketFieldLoad symbol .ask >>= fun ask => f bid ask) cg = .ok r →
      (∀ {cg' : CodegenContext D} {B : Set Name} {s' : Frame D σ} {bid ask : Operand D}
        {r' : Emitted D (Operand D)}, X.Running cg' B δ s' →
        bid.Holds cg' s' (X.ticks X.time symbol).bid → ask.Holds cg' s' (X.ticks X.time symbol).ask →
        f bid ask cg' = .ok r' → X.Runs cg' B δ r' Operand.Holds s' (some v)) →
      X.Runs cg A δ r Operand.Holds s (some v) := by
    intro f v hr hf
    refine Runs.bind (g := fun _ => some v) hr hnext (Runs.quote h hs (by decide)) ?_
    intro r₁ r₂ x s₁ _ hr hx hreach hbid
    cases hx
    refine Runs.bind (g := fun _ => some v) hr hnext
      (Runs.quote hreach.running hs (by decide)) ?_
    intro r₁' r₂' y s₂ hload hr hy hreach' hask
    cases hy
    exact hf hreach'.running (hbid.later (hnext hload) hreach'.kept) hask hr
  cases fn with
  | bid => exact .quote h hs (by decide) hr
  | ask => exact .quote h hs (by decide) hr
  | mid =>
    refine hquotes hr fun hrun hbid hask hr => ?_
    refine Runs.bind (g := fun sum => some (BinaryOpKind.mul.apply sum (ofRat (1 / 2)))) hr
      (fun hr => (Caches.build hr).grows.nextReg) (Runs.binary hrun .add hbid hask) ?_
    intro r₁ r₂ x s' _ hr hx hreach hsum
    cases hx
    exact .binary hreach.running .mul hsum ⟨by rintro n ⟨⟩, rfl⟩ hr
  | spread => exact hquotes hr fun hrun hbid hask hr => .binary hrun .sub hask hbid hr

/-! ### Operators -/

omit [Fp D] in
/-- The base of an operator is no instruction here: its load stands at the top. -/
theorem emitBase_cases (env : EmitEnv) (op : StatefulOp D) {r : Emitted D Unit}
    (hr : emitBase env op cg = .ok r) :
    ∃ (c : Code (Instr D)) (bases : List LoweringFlag), r = ⟨(), c, { cg with bases := bases }⟩ ∧
      (∀ f ∈ cg.bases, f ∈ bases) ∧ (c = .done ∨ ∃ f, c = .instr (.reuse (.base f)) .done) := by
  rcases emitBase_eq env op with heq | ⟨flag, heq⟩
  · rw [heq] at hr
    cases EmitM.pure_ok.mp hr
    exact ⟨_, cg.bases, rfl, fun _ h => h, .inl rfl⟩
  · rw [heq] at hr
    unfold loadLoweredBaseField at hr
    split at hr
    · cases hr
      exact ⟨_, cg.bases, rfl, fun _ h => h, .inr ⟨flag, rfl⟩⟩
    · cases hr
      exact ⟨_, flag :: cg.bases, rfl, fun _ h => List.mem_cons_of_mem _ h, .inl rfl⟩

omit [Fp D] in
/-- What `emitOperator` amounts to: perhaps the use of a base, then the instruction. -/
theorem emitOperator_cases (env : EmitEnv) {op : StatefulOp D} {inBranch : Bool} {nodeId : Int}
    (hpos : 0 < nodeId) {args : List (Operand D)} {r : Emitted D (Operand D)}
    (hr : emitOperator env op inBranch nodeId args cg = .ok r) :
    ∃ (c : Code (Instr D)) (bases : List LoweringFlag), r = ⟨.reg cg.nextReg,
        c.append (.instr (.operator cg.nextReg op (env.warm op inBranch) nodeId args) .done),
        ({ cg with bases := bases, nextReg := cg.nextReg + 1 } : CodegenContext D).cacheStateful
          nodeId (.reg cg.nextReg)⟩ ∧ (∀ f ∈ cg.bases, f ∈ bases) ∧
      (c = .done ∨ ∃ f, c = .instr (.reuse (.base f)) .done) := by
  have hget : (getNodeId nodeId : EmitM D Int) = Pure.pure nodeId := by
    funext cg
    exact if_pos hpos
  unfold emitOperator at hr
  rw [hget, EmitM.pure_bind] at hr
  obtain ⟨r₁, _, hbase, hrest, rfl⟩ := EmitM.bind_ok.mp hr
  obtain ⟨r₃, r₄, hbuild, hcache, rfl⟩ := EmitM.bind_ok.mp hrest
  obtain ⟨c, bases, rfl, hbases, hc⟩ := emitBase_cases env op hbase
  cases EmitM.build_ok.mp hbuild
  cases hcache
  exact ⟨c, bases, rfl, hbases, hc⟩

omit [Fp D] in
theorem Caches.operator (env : EmitEnv) {op : StatefulOp D} {inBranch : Bool} {nodeId : Int}
    (hpos : 0 < nodeId) (hnew : cg.statefulEmitCache nodeId = none) (S : Site D)
    {args : List (Operand D)} {r : Emitted D (Operand D)}
    (hr : emitOperator env op inBranch nodeId args cg = .ok r) : Caches cg [(nodeId, S)] r := by
  obtain ⟨c, bases, rfl, hbases, -⟩ := emitOperator_cases env hpos hr
  refine ⟨⟨Nat.le_succ _, hbases, ?_, fun h => h, ?_, rfl⟩, ?_, fun n => ?_⟩
  · intro n v hv
    refine (if_neg ?_).trans hv
    rintro rfl
    rw [hnew] at hv
    cases hv
  · intro s f n hnone hsome
    cases hnone.symm.trans hsome
  · intro s f v hnone hsome
    cases hnone.symm.trans hsome
  · change (if n = nodeId then some _ else cg.statefulEmitCache n) ≠ none ↔ _
    rw [siteIds, List.map_singleton, List.mem_singleton]
    by_cases hn : n = nodeId
    · rw [if_pos hn]
      exact ⟨fun _ => .inr hn, fun _ => Option.some_ne_none _⟩
    · rw [if_neg hn]
      exact ⟨.inl, fun h => h.resolve_right hn⟩

/-- **An operator is stepped**: its id enters the cache, and its slot is that of the next
tick. -/
theorem Running.stepSlot (h : X.Running cg A δ s) (hpos : ∀ {n S}, X.sites n = some S → 0 < n)
    {n : Int} {S : Site D} {op : StatefulOp D} {plans : List (Plan D)} {v : Operand D} {x : D}
    {slot : σ} (hS : X.sites n = some S) (hplan : S.plan = .call op plans)
    (hnew : cg.statefulEmitCache n = none) (hv : v.Holds cg s x)
    (hvalue : X.value S.plan S.path = some x)
    (hslot : slot = X.slotAt S.path op plans (X.time + 1))
    (hδ : ∀ {m p}, δ' m = some p → m = n ∧ S.path = [] ∧ p = S.plan ∨ δ m = some p) :
    X.Running (cg.cacheStateful n v) A δ' { s with ctx := s.ctx.setSlot n.toNat slot } := by
  have hcache : ∀ m, m ≠ n → (cg.cacheStateful n v).statefulEmitCache m = cg.statefulEmitCache m :=
    fun m hm => if_neg hm
  refine ⟨h.ctxParams, h.defined, ?_, h.quotes, h.volumes, h.signals, ?_, ?_⟩
  · intro m p hm
    rcases hδ hm with ⟨rfl, hpath, rfl⟩ | hm
    · rw [hpath] at hvalue
      exact ⟨v, x, if_pos rfl, hvalue, hv⟩
    · obtain ⟨w, y, hw, hy, hold⟩ := h.stepped hm
      have hne : m ≠ n := by
        rintro rfl
        rw [hnew] at hw
        cases hw
      exact ⟨w, y, (hcache m hne).trans hw, hy, hold⟩
  · intro m T op' plans' hT hplan'
    by_cases hm : m = n
    · subst hm
      cases hS.symm.trans hT
      cases hplan.symm.trans hplan'
      rw [if_pos (by simp [CodegenContext.cacheStateful]), SignalContext.setSlot_slots_self]
      exact hslot
    · have hne : m.toNat ≠ n.toNat := by
        have := hpos hT
        have := hpos hS
        omega
      rw [SignalContext.setSlot_slots_ne _ _ hne, hcache m hm]
      exact h.slots hT hplan'
  · intro k hk
    rw [SignalContext.setSlot_slots_ne _ _ (hk n S hS).symm]
    exact h.rest hk

/-- **A stateful operator** whose id is new, on operands with the values of the plan. -/
theorem Runs.operator (h : X.Running cg A δ s) (hcold : X.env.assumeWarm = false)
    (hpos : ∀ {n S}, X.sites n = some S → 0 < n) {n : Int} {S : Site D} {op : StatefulOp D}
    {plans : List (Plan D)} (hS : X.sites n = some S) (hplan : S.plan = .call op plans)
    (hnew : cg.statefulEmitCache n = none) (hreached : X.reached S.path X.time = true)
    {args : List (Operand D)} {vs : List D} (hvs : X.values plans S.path = some vs)
    (hargs : Operand.HoldAll cg s args (op.inputs (X.ticks X.time) vs)) {inBranch : Bool}
    (hδ : ∀ {m p}, δ' m = some p → m = n ∧ S.path = [] ∧ p = S.plan ∨ δ m = some p)
    {r : Emitted D (Operand D)} (hr : emitOperator X.env op inBranch n args cg = .ok r) :
    X.Runs cg A δ' r Operand.Holds s (X.value S.plan S.path) := by
  obtain ⟨c, bases, rfl, -, hc⟩ := emitOperator_cases X.env (hpos hS) hr
  have hslot := h.slots hS hplan
  rw [hnew, Option.isSome_none, if_neg Bool.false_ne_true] at hslot
  have hwarm : X.env.warm op inBranch = false := by rw [EmitEnv.warm, hcold]; rfl
  -- the operator in the code and in the schedule
  have hexec : X.machine.run (c.append
      (.instr (.operator cg.nextReg op (X.env.warm op inBranch) n args) .done)) s =
      (X.step op false (X.ticks X.time) (op.inputs (X.ticks X.time) vs)
        (s.ctx.slots n.toNat)).map fun out =>
          ({ s with ctx := s.ctx.setSlot n.toNat out.2 } : Frame D σ).setReg cg.nextReg out.1 := by
    have hskip : X.machine.run c s = some s := by rcases hc with rfl | ⟨f, rfl⟩ <;> rfl
    rw [Machine.run_append, hskip, Option.bind_some, Machine.run_instr, hwarm, ← hargs.eval]
    exact Option.bind_fun_some _
  have hvalue : X.value S.plan S.path =
      (X.step op false (X.ticks X.time) (op.inputs (X.ticks X.time) vs)
        (s.ctx.slots n.toNat)).map Prod.fst := by
    rw [hplan, hslot]
    change X.semantics.val _ _ _ _ = _
    rw [Semantics.val_call, Semantics.output, show X.semantics.vals _ _ _ _ = _ from hvs]
    rfl
  rcases hstep : X.step op false (X.ticks X.time) (op.inputs (X.ticks X.time) vs)
    (s.ctx.slots n.toNat) with _ | ⟨x, slot⟩
  · rw [hstep] at hexec hvalue
    rw [hvalue]
    exact hexec
  · rw [hstep] at hexec hvalue
    rw [hvalue]
    have hnext : slot = X.slotAt S.path op plans (X.time + 1) := by
      rw [slotAt, Semantics.stateAt, if_pos hreached, Semantics.next_eq _ hvs]
      rw [← show _ = X.semantics.stateAt _ _ _ _ _ from hslot]
      exact hstep
    have hresult : X.Running { cg with bases := bases, nextReg := cg.nextReg + 1 }
        ({.reg cg.nextReg} ∪ A) δ (s.setReg cg.nextReg x) := { h.result x with }
    refine ⟨_, hexec, ⟨?_, fun m hm => s.setReg_regs_ne x (Nat.ne_of_lt hm), rfl⟩, ?_,
      s.setReg_regs_self _ _⟩
    · have hscope : (c.append (.instr (.operator cg.nextReg op (X.env.warm op inBranch) n args)
          .done)).scope A = {.reg cg.nextReg} ∪ A := by
        rw [Code.scope_append, Code.scope_instr rfl]
        rcases hc with rfl | ⟨f, rfl⟩
        · rw [Code.scope_done]
        · rw [Code.scope_silent rfl]
      change X.Running _ (Code.scope _ A) δ' _
      rw [hscope]
      refine hresult.stepSlot hpos hS hplan hnew ⟨?_, s.setReg_regs_self _ _⟩ hvalue hnext hδ
      intro m hm
      cases hm
      exact Nat.lt_succ_self _
    · intro m hm
      cases hm
      exact Nat.lt_succ_self _

end Rules

end EmittedTick

end JitSignalEngine
