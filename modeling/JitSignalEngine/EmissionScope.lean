import JitSignalEngine.Emission
import JitSignalEngine.Exact

/-!
# What the emission caches hand out

The four caches of emission are filled at different points of the function. Where their
entries are used, their definitions are in scope, with one exception: the load of a volume
that a lowered `vwap` left inside a branch.

* `VolumeScope` — a pass over the bodies in the order of their emission: the volumes that
  were loaded, and those loaded where the load can still be used.
* `EmissionScope` — the caches and the names in scope at one point of emission. Ids that
  are stepped at every tick are in the cache with a value in scope. The other cached ids
  are not met again.
* `Scoping` — what emission does to them. `Scoping.append` and `Scoping.branch` put the
  parts of an expression together.
* `emission_respects_dominance` — all cached values are used where their definitions
  dominate the use exactly when no volume is read outside the scope of its load.
-/

namespace JitSignalEngine

open EmitM

variable {D : Type}

/-! ## Volumes in the order of emission -/

/-- What a pass over the bodies knows about the loads of volumes. -/
structure VolumeScope where
  /-- the node ids that were emitted -/
  seen : List Int
  /-- the symbols with a load -/
  loaded : List Nat
  /-- those whose load is in the same branch or around it -/
  visible : List Nat
  /-- no load was used anywhere else -/
  ok : Bool

namespace VolumeScope

/-- Before the first signal. -/
def init : VolumeScope := ⟨[], [], [], true⟩

/-- A lowered `vwap` reads the volume of a symbol. -/
def load (sc : VolumeScope) (symbol : Nat) : VolumeScope :=
  if symbol ∈ sc.loaded then { sc with ok := sc.ok && decide (symbol ∈ sc.visible) }
  else { sc with loaded := symbol :: sc.loaded, visible := symbol :: sc.visible }

/-- A stateful operator looks at its operands. -/
def reads (sc : VolumeScope) (op : StatefulOp D) : VolumeScope :=
  match op.fn, op.impl with
  | .vwap, .lowered => sc.load op.symbol
  | _, _ => sc

/-- A stateful operator is emitted. -/
def operator (sc : VolumeScope) (op : StatefulOp D) (nodeId : Int) : VolumeScope :=
  let sc := sc.reads op
  { sc with seen := nodeId :: sc.seen }

/-- A call is emitted, after its operands. -/
def call (sc : VolumeScope) (shape : CallShape D) (nodeId : Int) : VolumeScope :=
  match shape with
  | .stateful op => sc.operator op nodeId
  | _ => sc

/-- A branch is left. -/
def leave (sc : VolumeScope) (visible : List Nat) : VolumeScope := { sc with visible := visible }

end VolumeScope

section Volumes

variable [Fp D] (env : EmitEnv)

mutual

/-- The volumes after an expression. A call whose id was emitted is not emitted again. -/
def Expr.volumeScope : Expr D → VolumeScope → VolumeScope
  | .numberLiteral _ _, sc => sc
  | .identifierExpr _ _, sc => sc
  | .parameterExpr _ _ _, sc => sc
  | .unaryOp _ _ e, sc => e.volumeScope sc
  | .binaryOp _ _ l r, sc => r.volumeScope (l.volumeScope sc)
  | .conditional _ c t e, sc =>
    let sc := c.volumeScope sc
    let st := (t.volumeScope sc).leave sc.visible
    (e.volumeScope st).leave sc.visible
  | .functionCall _ n args nid _, sc =>
    if 0 < nid ∧ nid ∈ sc.seen then sc
    else
      let shape := decodeCall env.impl env.symbols n args (-1)
      (Expr.volumeScopeArgs shape.arity args sc).call shape nid

/-- The volumes after the first arguments of a call. -/
def Expr.volumeScopeArgs : Nat → List (Expr D) → VolumeScope → VolumeScope
  | _, [], sc => sc
  | 0, _ :: _, sc => sc
  | k + 1, a :: as, sc => Expr.volumeScopeArgs k as (a.volumeScope sc)

end

/-- **The condition on a program**: read in the order of emission, leaving out repeated
ids, every lowered `vwap` is the first on its ticker, or stands in the branch in which the
first one stands. -/
def volumeScoped (signals : List (SignalDef D)) : Bool :=
  (signals.foldl (fun (sc : VolumeScope) s => s.body.volumeScope env sc) .init).ok

theorem Expr.volumeScopeArgs_eq_foldl (k : Nat) (as : List (Expr D)) (sc : VolumeScope) :
    Expr.volumeScopeArgs env k as sc =
      (as.take k).foldl (fun sc a => a.volumeScope env sc) sc := by
  induction as generalizing k sc with
  | nil => rw [List.take_nil, List.foldl_nil, Expr.volumeScopeArgs]
  | cons a as ih =>
    cases k with
    | zero => rfl
    | succ k => rw [Expr.volumeScopeArgs, ih, List.take_succ_cons, List.foldl_cons]

end Volumes

/-! ## Names in scope -/

/-- The names in scope after a piece of code. -/
def Code.scope (c : Code (Instr D)) (A : Set Name) : Set Name :=
  {x | x ∈ c.topNames Instr.names} ∪ A

/-- The value may be used where the names of `A` are in scope. -/
def Operand.In (A : Set Name) : Operand D → Prop
  | .const _ => True
  | .reg n => .reg n ∈ A

section Scope

variable {A B : Set Name}

theorem Operand.In.mono {v : Operand D} (h : v.In A) (hAB : A ⊆ B) : v.In B := by
  cases v with
  | const v => trivial
  | reg n => exact hAB h

@[simp] theorem Code.scope_done : (Code.done : Code (Instr D)).scope A = A := by
  ext x
  simp [Code.scope, Code.topNames]

theorem Code.scope_append (c d : Code (Instr D)) :
    (c.append d).scope A = d.scope (c.scope A) := by
  ext x
  simp only [Code.scope, Code.topNames_append, Set.mem_union, Set.mem_ofPred_eq, List.mem_append]
  tauto

theorem Code.subset_scope (c : Code (Instr D)) : A ⊆ c.scope A := Set.subset_union_right

/-- Results have consecutive numbers. -/
structure Numbered (c : Code (Instr D)) (m n : Nat) : Prop where
  /-- no name is defined twice -/
  nodup : (c.names Instr.names).Nodup
  /-- the names are those of results -/
  range : ∀ x ∈ c.names Instr.names, ∃ k, x = .reg k ∧ m ≤ k ∧ k < n

theorem Numbered.done (n : Nat) : Numbered (Code.done : Code (Instr D)) n n :=
  ⟨.nil, fun _ h => absurd h List.not_mem_nil⟩

theorem Numbered.append {c d : Code (Instr D)} {l m n : Nat} (hc : Numbered c l m)
    (hd : Numbered d m n) (hlm : l ≤ m) (hmn : m ≤ n) : Numbered (c.append d) l n := by
  constructor
  · rw [Code.names_append, List.nodup_append]
    refine ⟨hc.nodup, hd.nodup, fun x hx y hy hxy => ?_⟩
    obtain ⟨k, rfl, -, hk⟩ := hc.range x hx
    obtain ⟨k', hk', hle, -⟩ := hd.range y hy
    rw [← hxy, Name.reg.injEq] at hk'
    omega
  · intro x hx
    rw [Code.names_append, List.mem_append] at hx
    rcases hx with hx | hx
    · obtain ⟨k, rfl, hle, hlt⟩ := hc.range x hx
      exact ⟨k, rfl, hle, by omega⟩
    · obtain ⟨k, rfl, hle, hlt⟩ := hd.range x hx
      exact ⟨k, rfl, by omega, hlt⟩

end Scope

/-! ## The caches -/

/-- What emission does to the context: entries stay, and new loads have new numbers. -/
structure CodegenContext.Grows (cg cg' : CodegenContext D) : Prop where
  /-- numbers go up -/
  nextReg : cg.nextReg ≤ cg'.nextReg
  /-- bases stay -/
  bases : ∀ f ∈ cg.bases, f ∈ cg'.bases
  /-- cached calls stay -/
  stateful : ∀ {n v}, cg.statefulEmitCache n = some v → cg'.statefulEmitCache n = some v
  /-- cached loads stay -/
  fields : ∀ {s f v}, cg.programMarketFieldCache s f = some v →
    cg'.programMarketFieldCache s f = some v
  /-- new loads have new numbers -/
  loads : ∀ {s f n}, cg.programMarketFieldCache s f = none →
    cg'.programMarketFieldCache s f = some (.reg n) → cg.nextReg ≤ n
  /-- the signals before have the same values -/
  signals : cg'.signalValues = cg.signalValues

namespace CodegenContext.Grows

variable {cg cg₁ cg₂ : CodegenContext D}

theorem refl (cg : CodegenContext D) : cg.Grows cg where
  nextReg := le_rfl
  bases _ h := h
  stateful h := h
  fields h := h
  loads h h' := by
    rw [h] at h'
    cases h'
  signals := rfl

theorem trans (h : cg.Grows cg₁) (h' : cg₁.Grows cg₂) : cg.Grows cg₂ where
  nextReg := h.nextReg.trans h'.nextReg
  bases f hf := h'.bases f (h.bases f hf)
  stateful hn := h'.stateful (h.stateful hn)
  fields hs := h'.fields (h.fields hs)
  loads {s f n} hnone hsome := by
    rcases hmid : cg₁.programMarketFieldCache s f with _ | v
    · exact h.nextReg.trans (h'.loads hmid hsome)
    · rw [h'.fields hmid] at hsome
      cases hsome
      exact h.loads hnone hmid
  signals := h'.signals.trans h.signals

/-- A new result. -/
theorem result (cg : CodegenContext D) (k : Nat) :
    cg.Grows { cg with nextReg := cg.nextReg + k } :=
  { refl cg with nextReg := Nat.le_add_right _ _ }

end CodegenContext.Grows

/-- **The caches at one point of emission.** `T` are the symbols whose bid and ask were
loaded at the start, `A` the names in scope, `δ` the ids that are stepped at every tick. -/
structure EmissionScope (T : Nat → Prop) (cg : CodegenContext D) (A : Set Name) (δ : Dict D)
    (sc : VolumeScope) : Prop where
  /-- names in scope have been defined -/
  fresh : ∀ {n}, .reg n ∈ A → n < cg.nextReg
  /-- bases are loaded once -/
  bases : cg.bases.Nodup
  /-- cached ids were emitted -/
  cached : ∀ {n}, cg.statefulEmitCache n ≠ none → n ∈ sc.seen
  /-- ids that are stepped at every tick are cached, with a value in scope -/
  stepped : ∀ {n p}, δ n = some p → 0 < n ∧ ∃ v, cg.statefulEmitCache n = some v ∧ v.In A
  /-- bid and ask of the tickers are cached and in scope -/
  quotes : ∀ {s}, T s → ∀ {f}, f ≠ .volume →
    ∃ v, cg.programMarketFieldCache s f = some v ∧ v.In A
  /-- volumes that were not loaded are not cached -/
  unloaded : ∀ {s}, s ∉ sc.loaded → cg.programMarketFieldCache s .volume = none
  /-- loaded volumes are cached, and in scope when they are visible -/
  loaded : ∀ {s}, s ∈ sc.loaded → ∃ n, cg.programMarketFieldCache s .volume = some (.reg n) ∧
    n < cg.nextReg ∧ (.reg n ∈ A ↔ s ∈ sc.visible)
  /-- visible volumes were loaded -/
  visible : ∀ {s}, s ∈ sc.visible → s ∈ sc.loaded
  /-- the values of signals are in scope -/
  signals : ∀ {n v}, cg.signalValues n = some v → v.In A

/-- What a piece of emission does to the caches, from a point with `cg`, `A` and `sc` to one
with `δ` and `sc'`. -/
structure Scoping {α : Type} (T : Nat → Prop) (cg : CodegenContext D) (A : Set Name) (δ : Dict D)
    (sc sc' : VolumeScope) (r : Emitted D α) (P : α → Set Name → Prop) : Prop where
  /-- entries stay -/
  grows : cg.Grows r.cg
  /-- results have new numbers -/
  numbered : Numbered r.code cg.nextReg r.cg.nextReg
  /-- the caches afterwards -/
  after : EmissionScope T r.cg (r.code.scope A) δ sc'
  /-- cached values are used in scope, apart from volumes -/
  inScope : (∀ f ∈ r.cg.bases, .base f ∈ A) →
    (sc.ok = true ∧ r.code.Scoped Instr.names A ↔ sc'.ok = true)
  /-- what is known about the result -/
  value : P r.value (r.code.scope A)

section Rules

variable {T : Nat → Prop} {cg : CodegenContext D} {A : Set Name} {δ δ₁ δ₂ : Dict D}
  {sc sc₁ sc₂ : VolumeScope}

namespace EmissionScope

/-- A new result comes into scope. -/
theorem result (h : EmissionScope T cg A δ sc) :
    EmissionScope T { cg with nextReg := cg.nextReg + 1 } ({.reg cg.nextReg} ∪ A) δ sc where
  fresh {n} hn := by
    rcases hn with hn | hn
    · cases hn
      exact Nat.lt_succ_self _
    · exact Nat.lt_succ_of_lt (h.fresh hn)
  bases := h.bases
  cached := h.cached
  stepped hn := by
    obtain ⟨hpos, v, hv, hin⟩ := h.stepped hn
    exact ⟨hpos, v, hv, hin.mono Set.subset_union_right⟩
  quotes hs f hf := by
    obtain ⟨v, hv, hin⟩ := h.quotes hs hf
    exact ⟨v, hv, hin.mono Set.subset_union_right⟩
  unloaded := h.unloaded
  loaded hs := by
    obtain ⟨n, hn, hlt, hiff⟩ := h.loaded hs
    refine ⟨n, hn, Nat.lt_succ_of_lt hlt, ?_⟩
    rw [← hiff, Set.mem_union, Set.mem_singleton_iff, Name.reg.injEq]
    exact or_iff_right (Nat.ne_of_lt hlt)
  visible := h.visible
  signals hv := (h.signals hv).mono Set.subset_union_right

end EmissionScope

theorem Code.scope_instr {i : Instr D} {x : Name} (h : i.defs = [x]) :
    (Code.instr i .done).scope A = {x} ∪ A := by
  ext y
  simp [Code.scope, Code.topNames, Instr.names, h]

theorem Code.scope_silent {i : Instr D} (h : i.defs = []) :
    (Code.instr i .done).scope A = A := by
  ext y
  simp [Code.scope, Code.topNames, Instr.names, h]

theorem Code.scoped_instr {i : Instr D} :
    (Code.instr i .done).Scoped Instr.names A ↔ ∀ x ∈ i.reuses, x ∈ A := by
  simp only [Code.Scoped, and_true]
  rfl

theorem Numbered.instr {i : Instr D} {n : Nat} (h : i.defs = [.reg n]) :
    Numbered (.instr i .done) n (n + 1) := by
  constructor
  · simp [Code.names, Instr.names, h]
  · intro x hx
    simp only [Code.names, Instr.names, h, List.append_nil, List.mem_singleton] at hx
    exact ⟨n, hx, le_rfl, Nat.lt_succ_self n⟩

theorem Numbered.silent {i : Instr D} (h : i.defs = []) (n : Nat) :
    Numbered (.instr i .done) n n := by
  constructor
  · simp [Code.names, Instr.names, h]
  · intro x hx
    simp [Code.names, Instr.names, h] at hx

namespace Scoping

variable {α β : Type} {P : α → Set Name → Prop} {Q : β → Set Name → Prop}

/-- No code. -/
theorem pure (h : EmissionScope T cg A δ sc) {a : α} (ha : P a A) :
    Scoping T cg A δ sc sc ⟨a, .done, cg⟩ P where
  grows := .refl cg
  numbered := .done _
  after := by rwa [Code.scope_done]
  inScope _ := and_iff_left trivial
  value := by rwa [Code.scope_done]

/-- One piece of emission after another. -/
theorem append {T₁ : Nat → Prop} {r₁ : Emitted D α} {r₂ : Emitted D β}
    (h : Scoping T₁ cg A δ₁ sc sc₁ r₁ P)
    (h' : Scoping T r₁.cg (r₁.code.scope A) δ₂ sc₁ sc₂ r₂ Q) :
    Scoping T cg A δ₂ sc sc₂ ⟨r₂.value, r₁.code.append r₂.code, r₂.cg⟩ Q where
  grows := h.grows.trans h'.grows
  numbered := h.numbered.append h'.numbered h.grows.nextReg h'.grows.nextReg
  after := by
    rw [Code.scope_append]
    exact h'.after
  inScope hbases := by
    have hsplit : (r₁.code.append r₂.code).Scoped Instr.names A ↔ r₁.code.Scoped Instr.names A ∧
        r₂.code.Scoped Instr.names (r₁.code.scope A) := Code.scoped_append _ _ _ _
    rw [hsplit, ← and_assoc, h.inScope fun f hf => hbases f (h'.grows.bases f hf)]
    exact h'.inScope fun f hf => Code.subset_scope _ (hbases f hf)
  value := by
    rw [Code.scope_append]
    exact h'.value

/-- `append` for a `bind` that went through. -/
theorem bind {m : EmitM D α} {f : α → EmitM D β} {r : Emitted D β}
    (hr : (m >>= f) cg = .ok r) (hm : ∀ {r₁}, m cg = .ok r₁ → Scoping T cg A δ₁ sc sc₁ r₁ P)
    (hf : ∀ {r₁ r₂}, Scoping T cg A δ₁ sc sc₁ r₁ P → f r₁.value r₁.cg = .ok r₂ →
      Scoping T r₁.cg (r₁.code.scope A) δ₂ sc₁ sc₂ r₂ Q) :
    Scoping T cg A δ₂ sc sc₂ r Q := by
  obtain ⟨r₁, r₂, hr₁, hr₂, rfl⟩ := EmitM.bind_ok.mp hr
  exact (hm hr₁).append (hf (hm hr₁) hr₂)

/-- An instruction with a result. -/
theorem build (h : EmissionScope T cg A δ sc) {i : Nat → Instr D} {r : Emitted D (Operand D)}
    (hr : EmitM.build i cg = .ok r) (hdefs : ∀ n, (i n).defs = [.reg n])
    (huses : ∀ n, (i n).reuses = []) : Scoping T cg A δ sc sc r fun v A => v.In A := by
  rw [EmitM.build_ok] at hr
  subst hr
  refine ⟨.result cg 1, .instr (hdefs _), ?_, fun _ => ?_, ?_⟩
  · rw [Code.scope_instr (hdefs _)]
    exact h.result
  · rw [Code.scoped_instr, huses]
    exact and_iff_left fun _ hx => absurd hx List.not_mem_nil
  · rw [Code.scope_instr (hdefs _)]
    exact .inl rfl

/-- An instruction without result. -/
theorem emit (h : EmissionScope T cg A δ sc) {i : Instr D} (hdefs : i.defs = [])
    (huses : i.reuses = []) :
    Scoping T cg A δ sc sc (⟨(), .instr i .done, cg⟩ : Emitted D Unit) fun _ _ => True where
  grows := .refl cg
  numbered := .silent hdefs _
  after := by rwa [Code.scope_silent hdefs]
  inScope _ := by
    rw [Code.scoped_instr, huses]
    exact and_iff_left fun _ hx => absurd hx List.not_mem_nil
  value := trivial

/-- A cached value that is in scope. -/
theorem reuse (h : EmissionScope T cg A δ sc) {v : Operand D} (hv : v.In A)
    {r : Emitted D (Operand D)} (hr : EmitM.reuse v cg = .ok r) :
    Scoping T cg A δ sc sc r fun v A => v.In A := by
  cases v with
  | const v =>
    cases EmitM.pure_ok.mp hr
    exact .pure h trivial
  | reg n =>
    cases hr
    have hscope : (Code.instr (.reuse (.reg n)) .done : Code (Instr D)).scope A = A :=
      Code.scope_silent rfl
    refine ⟨.refl cg, .silent rfl _, ?_, fun _ => ?_, ?_⟩
    · change EmissionScope T cg ((Code.instr (.reuse (.reg n)) .done).scope A) δ sc
      rwa [hscope]
    · refine and_iff_left (Code.scoped_instr.mpr fun x hx => ?_)
      rw [List.mem_singleton.mp hx]
      exact hv
    · change Operand.In ((Code.instr (.reuse (.reg n)) .done).scope A) _
      rwa [hscope]

end Scoping

/-! ### Branches -/

/-- **A branch is left**: its results go out of scope, what it cached stays. -/
theorem EmissionScope.leave {cg' : CodegenContext D} {A' : Set Name} {δ' : Dict D}
    (h : EmissionScope T cg A δ sc) (h' : EmissionScope T cg' A' δ' sc₁) (hg : cg.Grows cg')
    (hδ : ∀ {n p}, δ' n = some p → δ n = some p) :
    EmissionScope T cg' A δ' (sc₁.leave sc.visible) where
  fresh hn := (h.fresh hn).trans_le hg.nextReg
  bases := h'.bases
  cached := h'.cached
  stepped hn := by
    obtain ⟨hpos, v, hv, hin⟩ := h.stepped (hδ hn)
    exact ⟨hpos, v, hg.stateful hv, hin⟩
  quotes hs f hf := by
    obtain ⟨v, hv, hin⟩ := h.quotes hs hf
    exact ⟨v, hg.fields hv, hin⟩
  unloaded := h'.unloaded
  loaded {s} hs := by
    obtain ⟨n, hn, hlt, -⟩ := h'.loaded hs
    refine ⟨n, hn, hlt, ?_⟩
    by_cases hold : s ∈ sc.loaded
    · obtain ⟨m, hm, -, hiff⟩ := h.loaded hold
      rw [hg.fields hm] at hn
      cases hn
      exact hiff
    · -- loaded in the branch
      have hge := hg.loads (h.unloaded hold) hn
      exact ⟨fun hA => absurd (h.fresh hA) (Nat.not_lt.mpr hge),
        fun hs => absurd (h.visible hs) hold⟩
  visible {s} hs := by
    by_contra hnot
    obtain ⟨n, hn, -⟩ := h.loaded (h.visible hs)
    have hn' := hg.fields hn
    rw [h'.unloaded hnot] at hn'
    cases hn'
  signals {n v} hv := by
    rw [hg.signals] at hv
    exact h.signals hv

/-- Numbering depends on the names only. -/
theorem Numbered.congr {c d : Code (Instr D)} {m n : Nat} (h : Numbered c m n)
    (hcd : d.names Instr.names = c.names Instr.names) : Numbered d m n :=
  ⟨hcd ▸ h.nodup, hcd ▸ h.range⟩

/-- **A conditional.** -/
theorem Scoping.branch (h : EmissionScope T cg A δ sc) (cond : Operand D)
    {rt re : Emitted D (Operand D)} (ht : Scoping T cg A δ₁ sc sc₁ rt fun v A => v.In A)
    (hδ₁ : ∀ {n p}, δ₁ n = some p → δ n = some p)
    (he : Scoping T rt.cg A δ₂ (sc₁.leave sc.visible) sc₂ re fun v A => v.In A)
    (hδ₂ : ∀ {n p}, δ₂ n = some p → δ₁ n = some p) :
    Scoping T cg A δ₂ sc (sc₂.leave sc.visible)
      (⟨.reg re.cg.nextReg,
        .branch (.condBr cond) rt.code re.code (.phi re.cg.nextReg rt.value re.value) .done,
        { re.cg with nextReg := re.cg.nextReg + 1 }⟩ : Emitted D (Operand D)) fun v A => v.In A := by
  have hscope : ∀ B : Set Name, (Code.branch (.condBr cond) rt.code re.code
      (.phi re.cg.nextReg rt.value re.value) .done).scope B = {.reg re.cg.nextReg} ∪ B := by
    intro B
    ext x
    simp [Code.scope, Code.topNames, Instr.names, Instr.defs]
  have hend := (h.leave he.after (ht.grows.trans he.grows) fun hn => hδ₁ (hδ₂ hn)).result
  refine ⟨(ht.grows.trans he.grows).trans (.result _ 1), ?_, ?_, fun hbases => ?_, ?_⟩
  · have hphi : Numbered (.instr (.phi re.cg.nextReg rt.value re.value) .done : Code (Instr D))
        re.cg.nextReg (re.cg.nextReg + 1) := .instr rfl
    refine (ht.numbered.append (he.numbered.append hphi he.grows.nextReg (Nat.le_succ _))
      ht.grows.nextReg (he.grows.nextReg.trans (Nat.le_succ _))).congr ?_
    simp [Code.names, Code.names_append, Instr.names, Instr.defs]
  · rw [hscope]
    exact hend
  · have hsplit : (Code.branch (.condBr cond) rt.code re.code
        (.phi re.cg.nextReg rt.value re.value) .done).Scoped Instr.names A ↔
        rt.code.Scoped Instr.names A ∧ re.code.Scoped Instr.names A := by
      simp [Code.Scoped, Instr.names, Instr.defs, Instr.reuses]
    rw [hsplit, ← and_assoc, ht.inScope fun f hf => hbases f (he.grows.bases f hf)]
    exact he.inScope hbases
  · rw [hscope]
    exact .inl rfl

/-! ### Loads -/

/-- Bid and ask of a ticker. -/
theorem Scoping.quote (h : EmissionScope T cg A δ sc) {symbol : Nat} (hs : T symbol)
    {field : MarketField} (hf : field ≠ .volume) {r : Emitted D (Operand D)}
    (hr : emitMarketFieldLoad symbol field cg = .ok r) :
    Scoping T cg A δ sc sc r fun v A => v.In A := by
  obtain ⟨v, hv, hin⟩ := h.quotes hs hf
  simp only [emitMarketFieldLoad, hv] at hr
  exact .reuse h hin hr

/-- A volume is cached where its load stands. -/
theorem EmissionScope.cacheVolume {symbol : Nat} (h : EmissionScope T
      { cg with nextReg := cg.nextReg + 1 } ({.reg cg.nextReg} ∪ A) δ sc) :
    EmissionScope T (CodegenContext.cacheField { cg with nextReg := cg.nextReg + 1 } symbol .volume
      (.reg cg.nextReg)) ({.reg cg.nextReg} ∪ A) δ
      { sc with loaded := symbol :: sc.loaded, visible := symbol :: sc.visible } := by
  refine { h with quotes := ?_, unloaded := ?_, loaded := ?_, visible := ?_ }
  · intro s hT f hf
    obtain ⟨v, hv, hin⟩ := h.quotes hT hf
    exact ⟨v, (if_neg fun hsf => hf hsf.2).trans hv, hin⟩
  · intro s hnot
    rw [List.mem_cons, not_or] at hnot
    exact (if_neg fun hsf => hnot.1 hsf.1).trans (h.unloaded hnot.2)
  · intro s hmem
    by_cases hss : s = symbol
    · exact ⟨cg.nextReg, if_pos ⟨hss, rfl⟩, Nat.lt_succ_self _,
        fun _ => hss ▸ List.mem_cons_self, fun _ => .inl rfl⟩
    · obtain ⟨n, hn, hlt, hiff⟩ := h.loaded ((List.mem_cons.mp hmem).resolve_left hss)
      refine ⟨n, (if_neg fun hsf => hss hsf.1).trans hn, hlt, hiff.trans ?_⟩
      rw [List.mem_cons]
      exact (or_iff_right hss).symm
  · intro s hmem
    exact List.mem_cons.mpr ((List.mem_cons.mp hmem).imp_right h.visible)

/-- **The volume of a ticker**, where the cache may hand out a load that is not in scope. -/
theorem Scoping.volume (h : EmissionScope T cg A δ sc) {symbol : Nat} {r : Emitted D (Operand D)}
    (hr : emitMarketFieldLoad symbol .volume cg = .ok r) :
    Scoping T cg A δ sc (sc.load symbol) r fun _ _ => True := by
  by_cases hs : symbol ∈ sc.loaded
  · obtain ⟨n, hn, hlt, hiff⟩ := h.loaded hs
    simp only [emitMarketFieldLoad, hn] at hr
    cases hr
    have hscope : (Code.instr (.reuse (.reg n)) .done : Code (Instr D)).scope A = A :=
      Code.scope_silent rfl
    unfold VolumeScope.load
    rw [if_pos hs]
    refine ⟨.refl cg, .silent rfl _, ?_, fun _ => ?_, trivial⟩
    · change EmissionScope T cg ((Code.instr (.reuse (.reg n)) .done).scope A) δ _
      rw [hscope]
      exact { h with }
    · change _ ∧ (Code.instr (.reuse (.reg n)) .done : Code (Instr D)).Scoped Instr.names A ↔ _
      rw [Code.scoped_instr, Bool.and_eq_true, decide_eq_true_eq, ← hiff]
      simp [Instr.reuses]
  · have hnone := h.unloaded hs
    simp only [emitMarketFieldLoad, hnone] at hr
    cases hr
    have hload := h.result
    unfold VolumeScope.load
    rw [if_neg hs]
    refine ⟨?_, .instr rfl, ?_, fun _ => ?_, trivial⟩
    · refine { CodegenContext.Grows.result cg 1 with fields := ?_, loads := ?_ }
      · intro s f v hv
        change (if s = symbol ∧ f = .volume then _ else cg.programMarketFieldCache s f) = some v
        rw [if_neg, hv]
        rintro ⟨rfl, rfl⟩
        rw [hnone] at hv
        cases hv
      · intro s f n hnew hsome
        change (if s = symbol ∧ f = .volume then _ else cg.programMarketFieldCache s f) = _ at hsome
        split at hsome
        · cases hsome
          exact le_rfl
        · rw [hnew] at hsome
          cases hsome
    · change EmissionScope T (CodegenContext.cacheField { cg with nextReg := cg.nextReg + 1 } symbol
        .volume (.reg cg.nextReg)) ((Code.instr (.loadField cg.nextReg symbol .volume) .done).scope
          A) δ { sc with loaded := symbol :: sc.loaded, visible := symbol :: sc.visible }
      rw [Code.scope_instr rfl]
      exact hload.cacheVolume
    · change _ ∧ (Code.instr (.loadField cg.nextReg symbol .volume) .done :
        Code (Instr D)).Scoped Instr.names A ↔ _
      rw [Code.scoped_instr]
      exact and_iff_left fun _ hx => absurd hx List.not_mem_nil

/-! ### Operators -/

variable [Fp D] {env : EmitEnv}

omit [Fp D] in
/-- A base is looked up, or it is not needed. -/
theorem emitBase_eq (env : EmitEnv) (op : StatefulOp D) :
    emitBase env op = Pure.pure () ∨ ∃ flag, emitBase env op = loadLoweredBaseField flag := by
  unfold emitBase
  split
  · split
    · exact .inl rfl
    · exact .inr ⟨_, rfl⟩
  · exact .inl rfl

omit [Fp D] in
/-- The base of the lowered states, which is loaded at the top of the function. -/
theorem Scoping.base (h : EmissionScope T cg A δ sc) (op : StatefulOp D) {r : Emitted D Unit}
    (hr : emitBase env op cg = .ok r) : Scoping T cg A δ sc sc r fun _ _ => True := by
  have hload : ∀ flag, loadLoweredBaseField flag cg = .ok r →
      Scoping T cg A δ sc sc r fun _ _ => True := by
    intro flag hr
    unfold loadLoweredBaseField at hr
    split at hr
    · rename_i hmem
      cases hr
      refine ⟨.refl cg, .silent rfl _, ?_, fun hbases => ?_, trivial⟩
      · change EmissionScope T cg ((Code.instr (.reuse (.base flag)) .done).scope A) δ sc
        rwa [Code.scope_silent rfl]
      · refine and_iff_left (Code.scoped_instr.mpr fun x hx => ?_)
        rw [List.mem_singleton.mp hx]
        exact hbases flag hmem
    · rename_i hmem
      cases hr
      refine ⟨{ CodegenContext.Grows.refl cg with bases := fun f hf => List.mem_cons_of_mem _ hf },
        .done _, ?_, fun _ => and_iff_left trivial, trivial⟩
      rw [Code.scope_done]
      exact { h with bases := List.nodup_cons.mpr ⟨hmem, h.bases⟩ }
  rcases emitBase_eq env op with heq | ⟨flag, heq⟩
  · rw [heq] at hr
    cases EmitM.pure_ok.mp hr
    exact .pure h trivial
  · rw [heq] at hr
    exact hload flag hr

omit [Fp D] in
/-- A value enters the cache of calls. -/
theorem EmissionScope.cacheStateful (h : EmissionScope T cg A δ sc) {nodeId : Int}
    (hpos : 0 < nodeId) {v : Operand D} (hv : v.In A)
    (hδ : ∀ {n p}, δ₁ n = some p → n = nodeId ∨ δ n = some p) :
    EmissionScope T (cg.cacheStateful nodeId v) A δ₁ { sc with seen := nodeId :: sc.seen } := by
  refine { h with cached := ?_, stepped := ?_ }
  · intro n hn
    by_cases hid : n = nodeId
    · rw [hid]
      exact List.mem_cons_self
    · exact List.mem_cons_of_mem _ (h.cached ((if_neg hid).symm.trans_ne hn))
  · intro n p hp
    by_cases hid : n = nodeId
    · exact ⟨hid ▸ hpos, v, if_pos hid, hv⟩
    · obtain ⟨hn, w, hw, hin⟩ := h.stepped ((hδ hp).resolve_left hid)
      exact ⟨hn, w, (if_neg hid).trans hw, hin⟩

omit [Fp D] in
/-- **An operator** whose id is new. -/
theorem Scoping.operator (h : EmissionScope T cg A δ sc) (op : StatefulOp D) (inBranch : Bool)
    {nodeId : Int} (hpos : 0 < nodeId) (hnew : nodeId ∉ sc.seen) (args : List (Operand D))
    {r : Emitted D (Operand D)} (hr : emitOperator env op inBranch nodeId args cg = .ok r)
    (hδ : ∀ {n p}, δ₁ n = some p → n = nodeId ∨ δ n = some p) :
    Scoping T cg A δ₁ sc { sc with seen := nodeId :: sc.seen } r fun v A => v.In A := by
  have hget : (getNodeId nodeId : EmitM D Int) = Pure.pure nodeId := by
    funext cg
    exact if_pos hpos
  unfold emitOperator at hr
  rw [hget, EmitM.pure_bind] at hr
  obtain ⟨r₁, _, hbase, hrest, rfl⟩ := EmitM.bind_ok.mp hr
  obtain ⟨r₃, r₄, hbuild, hcache, rfl⟩ := EmitM.bind_ok.mp hrest
  cases EmitM.build_ok.mp hbuild
  cases hcache
  have h₁ := Scoping.base h op hbase
  refine h₁.append ?_
  have h₂ := Scoping.build h₁.after hbuild (fun _ => rfl) fun _ => rfl
  refine h₂.append (Q := fun (v : Operand D) A => v.In A) ⟨?_, ?_, ?_, ?_, ?_⟩
  · refine { CodegenContext.Grows.refl _ with stateful := ?_ }
    intro n v hv
    refine (if_neg ?_).trans hv
    rintro rfl
    have hnone : r₁.cg.statefulEmitCache n ≠ none := by
      rw [show r₁.cg.statefulEmitCache n = some v from hv]
      exact Option.some_ne_none v
    exact hnew (h₁.after.cached hnone)
  · exact .done _
  · change EmissionScope T (CodegenContext.cacheStateful _ _ _) ((Code.done : Code (Instr D)).scope
      _) _ _
    rw [Code.scope_done]
    exact h₂.after.cacheStateful hpos h₂.value hδ
  · exact fun _ => and_iff_left trivial
  · change Operand.In ((Code.done : Code (Instr D)).scope _) _
    rw [Code.scope_done]
    exact h₂.value

end Rules

/-! ## Expressions -/

/-- The ids of the sites are different, and were not emitted. -/
structure Apart (sites : List (Int × Site D)) (sc : VolumeScope) : Prop where
  /-- they are different -/
  nodup : (siteIds sites).Nodup
  /-- they are new -/
  new : ∀ n ∈ siteIds sites, n ∉ sc.seen

/-- The ids emitted between two points are those of the sites. -/
def EmitsSites (sites : List (Int × Site D)) (sc sc' : VolumeScope) : Prop :=
  ∀ n, n ∈ sc'.seen ↔ n ∈ sc.seen ∨ n ∈ siteIds sites

section Sites

variable {sites sites' : List (Int × Site D)} {sc sc₁ sc₂ : VolumeScope}

theorem Apart.left (h : Apart (sites ++ sites') sc) : Apart sites sc := by
  have hnd := h.nodup
  rw [siteIds, List.map_append, List.nodup_append] at hnd
  refine ⟨hnd.1, fun n hn => h.new n ?_⟩
  rw [siteIds, List.map_append]
  exact List.mem_append_left _ hn

theorem Apart.right (h : Apart (sites ++ sites') sc) (hs : EmitsSites sites sc sc₁) :
    Apart sites' sc₁ := by
  have hnd := h.nodup
  rw [siteIds, List.map_append, List.nodup_append] at hnd
  refine ⟨hnd.2.1, fun n hn hseen => ?_⟩
  rcases (hs n).mp hseen with hold | hsite
  · refine h.new n ?_ hold
    rw [siteIds, List.map_append]
    exact List.mem_append_right _ hn
  · exact hnd.2.2 n hsite n hn rfl

theorem Apart.cons {n : Int} {S : Site D} (h : Apart ((n, S) :: sites) sc) :
    Apart sites sc ∧ n ∉ sc.seen ∧ n ∉ siteIds sites := by
  have hnd := h.nodup
  rw [siteIds, List.map_cons, List.nodup_cons] at hnd
  exact ⟨⟨hnd.2, fun m hm => h.new m (List.mem_cons_of_mem _ hm)⟩, h.new n List.mem_cons_self,
    hnd.1⟩

theorem EmitsSites.refl (sc : VolumeScope) : EmitsSites ([] : List (Int × Site D)) sc sc :=
  fun _ => ⟨.inl, fun h => h.resolve_right List.not_mem_nil⟩

theorem EmitsSites.append (h : EmitsSites sites sc sc₁) (h' : EmitsSites sites' sc₁ sc₂) :
    EmitsSites (sites ++ sites') sc sc₂ := by
  intro n
  rw [h' n, h n, siteIds, siteIds, siteIds, List.map_append, List.mem_append, or_assoc]

theorem EmitsSites.leave (h : EmitsSites sites sc sc₁) (visible : List Nat) :
    EmitsSites sites sc (sc₁.leave visible) := h

end Sites

section Emission

variable [Fp D] {env : EmitEnv} {T : Nat → Prop}

/-- The schedule emission follows. -/
def EmitEnv.toSchedule (env : EmitEnv) : ScheduleEnv D := ⟨env.symbols, env.impl, fun _ => none⟩

/-- What is known about a call of a program: it is bound, it has an id when it is stateful,
and its ticker is among the symbols `T`. -/
structure Emittable (env : EmitEnv) (T : Nat → Prop) (c : Call D) : Prop where
  /-- its symbol id is that of the ticker -/
  symbol : c.SymbolOk env.symbols
  /-- stateful calls have ids -/
  stateful : isStatefulOp c.name = true → 0 < c.nodeId
  /-- other calls have none -/
  stateless : isStatefulOp c.name = false → c.nodeId ≤ 0
  /-- the ticker of a market call -/
  market : ∀ {fn symbol}, decodeCall env.impl env.symbols c.name c.args (-1) = .market fn symbol →
    T symbol
  /-- the ticker of a `vwap` -/
  vwap : ∀ {op}, decodeCall env.impl env.symbols c.name c.args (-1) = .stateful op →
    op.fn = .vwap → T op.symbol

/-- **Emission of an expression** under the branches `path`. -/
def EmitsInScope (env : EmitEnv) (T : Nat → Prop) (e : Expr D) : Prop :=
  ∀ (path : Path D) (inBranch : Bool) {cg : CodegenContext D} {A : Set Name} {δ : Dict D}
    {sc : VolumeScope} {r : Emitted D (Operand D)}, EmissionScope T cg A δ sc →
    Apart (schedule env.toSchedule path e δ).sites sc → (∀ c ∈ e.calls, Emittable env T c) →
    emitExpr env inBranch e cg = .ok r →
    (Scoping T cg A (schedule env.toSchedule path e δ).dict sc (e.volumeScope env sc) r
      fun v A => v.In A) ∧
    EmitsSites (schedule env.toSchedule path e δ).sites sc (e.volumeScope env sc)

variable {cg : CodegenContext D} {A : Set Name} {δ : Dict D} {sc : VolumeScope}

/-- Operands from left to right. -/
theorem emitAll_inScope (path : Path D) (inBranch : Bool) (as : List (Expr D))
    (has : ∀ a ∈ as, EmitsInScope env T a) {r : Emitted D (List (Operand D))}
    (h : EmissionScope T cg A δ sc) (hap : Apart (scheduleArgs env.toSchedule path as δ).sites sc)
    (hcs : ∀ c ∈ Expr.callsArgs as, Emittable env T c)
    (hr : emitAll (as.map (emitExpr env inBranch)) cg = .ok r) :
    (Scoping T cg A (scheduleArgs env.toSchedule path as δ).dict sc
      (as.foldl (fun sc a => a.volumeScope env sc) sc) r fun _ _ => True) ∧
    EmitsSites (scheduleArgs env.toSchedule path as δ).sites sc
      (as.foldl (fun sc a => a.volumeScope env sc) sc) := by
  induction as generalizing cg A δ sc r with
  | nil =>
    cases EmitM.pure_ok.mp hr
    exact ⟨.pure h trivial, .refl sc⟩
  | cons a as ih =>
    obtain ⟨r₁, _, hr₁, hrest, rfl⟩ := EmitM.bind_ok.mp hr
    obtain ⟨r₂, r₃, hr₂, hpure, rfl⟩ := EmitM.bind_ok.mp hrest
    cases EmitM.pure_ok.mp hpure
    obtain ⟨ha, hsa⟩ := has a List.mem_cons_self path inBranch h hap.left
      (fun c hc => hcs c (List.mem_append_left _ hc)) hr₁
    obtain ⟨has', hsas⟩ := ih (fun b hb => has b (List.mem_cons_of_mem _ hb)) ha.after
      (hap.right hsa) (fun c hc => hcs c (List.mem_append_right _ hc)) hr₂
    exact ⟨ha.append (has'.append (.pure has'.after trivial)), hsa.append hsas⟩

omit [Fp D] in
/-- The loads of a lowered `vwap`. -/
theorem emitVwapLoads_inScope (hscalar : env.vectorized = false) {symbol : Nat} (hs : T symbol)
    (h : EmissionScope T cg A δ sc) {r : Emitted D (List (Operand D))}
    (hr : emitVwapLoads env symbol cg = .ok r) :
    Scoping T cg A δ sc (sc.load symbol) r fun _ _ => True := by
  unfold emitVwapLoads at hr
  rw [hscalar, if_neg Bool.false_ne_true] at hr
  refine .bind hr (Scoping.quote h hs (by decide)) fun h₁ hr => ?_
  refine .bind hr (Scoping.quote h₁.after hs (by decide)) fun h₂ hr => ?_
  refine .bind hr (Scoping.volume h₂.after) fun h₃ hr => ?_
  cases EmitM.pure_ok.mp hr
  exact .pure h₃.after trivial

/-- `mid`, `bid`, `ask` and `spread`. -/
theorem emitMarketValue_inScope (fn : MarketFn) {symbol : Nat} (hs : T symbol)
    (h : EmissionScope T cg A δ sc) {r : Emitted D (Operand D)}
    (hr : emitMarketValue fn symbol cg = .ok r) :
    Scoping T cg A δ sc sc r fun v A => v.In A := by
  cases fn with
  | bid => exact .quote h hs (by decide) hr
  | ask => exact .quote h hs (by decide) hr
  | mid =>
    refine .bind hr (Scoping.quote h hs (by decide)) fun h₁ hr => ?_
    refine .bind hr (Scoping.quote h₁.after hs (by decide)) fun h₂ hr => ?_
    refine .bind hr (Scoping.build h₂.after · (fun _ => rfl) fun _ => rfl) fun h₃ hr => ?_
    exact .build h₃.after hr (fun _ => rfl) fun _ => rfl
  | spread =>
    refine .bind hr (Scoping.quote h hs (by decide)) fun h₁ hr => ?_
    refine .bind hr (Scoping.quote h₁.after hs (by decide)) fun h₂ hr => ?_
    exact .build h₂.after hr (fun _ => rfl) fun _ => rfl

omit [Fp D] in
theorem VolumeScope.reads_seen (sc : VolumeScope) (op : StatefulOp D) :
    (sc.reads op).seen = sc.seen := by
  unfold VolumeScope.reads VolumeScope.load
  split
  · split <;> rfl
  · rfl

/-- The operands of an operator. -/
theorem emitOperands_inScope (hscalar : env.vectorized = false) (path : Path D) (inBranch : Bool)
    (op : StatefulOp D) (as : List (Expr D)) (hvwap : op.fn = .vwap → as = [] ∧ T op.symbol)
    (has : ∀ a ∈ as, EmitsInScope env T a) {r : Emitted D (List (Operand D))}
    (h : EmissionScope T cg A δ sc) (hap : Apart (scheduleArgs env.toSchedule path as δ).sites sc)
    (hcs : ∀ c ∈ Expr.callsArgs as, Emittable env T c)
    (hr : emitOperands env op (as.map (emitExpr env inBranch)) cg = .ok r) :
    (Scoping T cg A (scheduleArgs env.toSchedule path as δ).dict sc
      (VolumeScope.reads (as.foldl (fun sc a => a.volumeScope env sc) sc) op) r fun _ _ => True) ∧
    EmitsSites (scheduleArgs env.toSchedule path as δ).sites sc
      (VolumeScope.reads (as.foldl (fun sc a => a.volumeScope env sc) sc) op) := by
  by_cases hfn : op.fn = .vwap
  · obtain ⟨rfl, hs⟩ := hvwap hfn
    have hids : EmitsSites (scheduleArgs env.toSchedule path [] δ).sites sc (sc.reads op) := by
      intro n
      rw [VolumeScope.reads_seen]
      exact EmitsSites.refl sc n
    refine ⟨?_, hids⟩
    change Scoping T cg A δ sc (sc.reads op) r _
    unfold emitOperands at hr
    unfold VolumeScope.reads
    rw [hfn] at hr ⊢
    rcases himpl : op.impl with _ | _ | _ <;> rw [himpl] at hr
    · cases EmitM.pure_ok.mp hr
      exact .pure h trivial
    · exact emitVwapLoads_inScope hscalar hs h hr
    · cases EmitM.pure_ok.mp hr
      exact .pure h trivial
  · have hreads : ∀ sc : VolumeScope, sc.reads op = sc := by
      intro sc
      unfold VolumeScope.reads
      split
      · rename_i hv _
        exact absurd hv hfn
      · rfl
    rw [hreads]
    rw [emitOperands_of_ne hfn] at hr
    exact emitAll_inScope path inBranch as has h hap hcs hr

/-- What decodes to no operator is no stateful call. -/
theorem stateless_of_shape {impl : StatefulFn → List (Option D) → Impl} {symbols : SymbolTable}
    {name : String} {args : List (Expr D)} {shape : CallShape D}
    (h : decodeCall impl symbols name args (-1) = shape) (hop : ∀ op, shape ≠ .stateful op)
    (hvalid : shape ≠ .invalid) : isStatefulOp name = false := by
  by_contra hst
  rw [Bool.not_eq_false] at hst
  obtain ⟨f, hf⟩ := isStatefulOp_iff.mp hst
  rcases decodeCall_stateful impl symbols args hf with hinv | ⟨op, ho, -⟩
  · exact hvalid (h.symm.trans hinv)
  · exact hop op (h.symm.trans ho)

/-- The dispatch of a call that has no id yet in the dictionary. -/
theorem emitDispatch_inScope (hscalar : env.vectorized = false) (path : Path D) (inBranch : Bool)
    {c : Call D} (hargs : ∀ a ∈ c.args, EmitsInScope env T a) (h : EmissionScope T cg A δ sc)
    (hap : Apart (scheduleCall env.toSchedule path c.name c.args c.nodeId δ
      (scheduleArgs env.toSchedule path c.args δ)).sites sc) (hc : Emittable env T c)
    (hcs : ∀ d ∈ Expr.callsArgs c.args, Emittable env T d) {r : Emitted D (Operand D)}
    (hr : emitDispatch env inBranch ⟨c.name, emitArgs env inBranch c.args, c.nodeId, c.symbolId⟩ cg
      = .ok r) :
    let shape := decodeCall env.impl env.symbols c.name c.args (-1)
    let sc' := (Expr.volumeScopeArgs env shape.arity c.args sc).call shape c.nodeId
    let s := scheduleCall env.toSchedule path c.name c.args c.nodeId δ
      (scheduleArgs env.toSchedule path c.args δ)
    (Scoping T cg A s.dict sc sc' r fun v A => v.In A) ∧ EmitsSites s.sites sc sc' := by
  have hspec := @emitDispatch_spec D _ env inBranch
    ⟨c.name, emitArgs env inBranch c.args, c.nodeId, c.symbolId⟩
    (by rw [map_expr_emitArgs]; exact hc.symbol)
  dsimp only at hspec
  rw [map_expr_emitArgs] at hspec
  -- what is not evaluated leaves no trace in the schedule
  have htake : ∀ shape, decodeCall env.impl env.symbols c.name c.args (-1) = shape →
      shape ≠ .invalid →
      (scheduleArgs env.toSchedule path (c.args.take shape.arity) δ).dict =
        (scheduleArgs env.toSchedule path c.args δ).dict ∧
      (scheduleArgs env.toSchedule path (c.args.take shape.arity) δ).sites =
        (scheduleArgs env.toSchedule path c.args δ).sites := by
    intro shape hshape hvalid
    rw [scheduleArgs_take env.toSchedule path (calls_of_rest hshape hvalid) δ]
    exact ⟨rfl, rfl⟩
  rcases hshape : decodeCall env.impl env.symbols c.name c.args (-1) with
    _ | ⟨fn, symbol⟩ | fn | op <;> rw [hshape] at hspec <;> dsimp only
  · obtain ⟨e, he⟩ := hspec
    rw [he] at hr
    cases hr
  · -- a market read has no operands
    obtain ⟨hdict, hsites⟩ := htake _ hshape (by rintro ⟨⟩)
    rw [CallShape.arity, List.take_zero] at hdict hsites
    unfold scheduleCall at hap ⊢
    rw [if_neg (by rw [stateless_of_shape hshape (by rintro _ ⟨⟩) (by rintro ⟨⟩)]; decide)]
    dsimp only
    rw [← hdict, ← hsites, CallShape.arity, Expr.volumeScopeArgs_eq_foldl]
    rw [show _ = _ from hspec] at hr
    exact ⟨emitMarketValue_inScope fn (hc.market hshape) h hr, .refl sc⟩
  · -- a function of one operand
    obtain ⟨hdict, hsites⟩ := htake _ hshape (by rintro ⟨⟩)
    obtain ⟨arg, harg, heq⟩ := hspec
    rw [emitArgs_eq_map] at harg
    obtain ⟨a, ha, rfl⟩ := List.map_eq_singleton_iff.mp harg
    unfold scheduleCall at hap ⊢
    have hst := stateless_of_shape hshape (by rintro _ ⟨⟩) (by rintro ⟨⟩)
    rw [if_neg (by rw [hst]; decide)] at hap ⊢
    dsimp only at hap ⊢
    rw [← hsites] at hap
    rw [← hdict, ← hsites, Expr.volumeScopeArgs_eq_foldl]
    have hone : c.args.take (CallShape.math fn : CallShape D).arity = [a] := by rw [ha]; rfl
    rw [hone] at hap ⊢
    rw [ha] at hargs hcs
    rw [heq] at hr
    obtain ⟨r₁, r₂, hr₁, hr₂, rfl⟩ := EmitM.bind_ok.mp hr
    have hall : emitAll ([a].map (emitExpr env inBranch)) cg =
        .ok ⟨[r₁.value], r₁.code.append .done, r₁.cg⟩ :=
      EmitM.bind_ok.mpr ⟨r₁, ⟨[r₁.value], .done, r₁.cg⟩, hr₁, rfl, rfl⟩
    obtain ⟨h₁, hids⟩ := emitAll_inScope path inBranch [a] hargs h hap hcs hall
    rw [Code.append_done] at h₁
    have h₂ := Scoping.build h₁.after hr₂ (fun _ => rfl) fun _ => rfl
    exact ⟨h₁.append h₂, hids⟩
  · -- a stateful operator
    obtain ⟨hdict, hsites⟩ := htake _ hshape (by rintro ⟨⟩)
    have hst : isStatefulOp c.name = true := by
      cases hst : isStatefulOp c.name with
      | true => rfl
      | false => exact absurd hshape (decodeCall_stateless (-1) hst op)
    unfold scheduleCall at hap ⊢
    rw [if_pos hst] at hap ⊢
    dsimp only at hap ⊢
    obtain ⟨hap, hnew, hnot⟩ := hap.cons
    rw [← hsites] at hap hnot
    rw [← hdict, ← hsites, Expr.volumeScopeArgs_eq_foldl]
    change _ = emitOperands env op _ >>= _ at hspec
    rw [emitArgs_eq_map, ← List.map_take, List.map_map] at hspec
    rw [emitArgs_eq_map, hspec] at hr
    obtain ⟨r₁, r₂, hr₁, hr₂, rfl⟩ := EmitM.bind_ok.mp hr
    have hsub : ∀ d ∈ Expr.callsArgs (c.args.take op.fn.arity), d ∈ Expr.callsArgs c.args := by
      intro d hd
      obtain ⟨a, ha, hd⟩ := Expr.mem_callsArgs.mp hd
      exact Expr.mem_callsArgs.mpr ⟨a, List.mem_of_mem_take ha, hd⟩
    obtain ⟨h₁, hids⟩ := emitOperands_inScope hscalar path inBranch op (c.args.take op.fn.arity)
      (fun hfn => ⟨by rw [hfn]; rfl, hc.vwap hshape hfn⟩)
      (fun a ha => hargs a (List.mem_of_mem_take ha)) h hap (fun d hd => hcs d (hsub d hd)) hr₁
    have hseen : c.nodeId ∉ (VolumeScope.reads ((c.args.take op.fn.arity).foldl
        (fun sc a => a.volumeScope env sc) sc) op).seen := fun hmem =>
      ((hids c.nodeId).mp hmem).elim hnew hnot
    refine ⟨h₁.append (Scoping.operator h₁.after op inBranch (hc.stateful hst) hseen r₁.value hr₂
      fun {n p} hp => ?_), fun n => ?_⟩
    · split at hp
      · by_cases hn : n = c.nodeId
        · exact .inl hn
        · exact .inr ((Dict.insert_ne _ _ hn).symm.trans hp)
      · exact .inr hp
    · change n ∈ c.nodeId :: (VolumeScope.reads ((c.args.take op.fn.arity).foldl
        (fun sc a => a.volumeScope env sc) sc) op).seen ↔ _
      rw [List.mem_cons, hids n, siteIds, siteIds, List.map_cons, List.mem_cons]
      exact or_left_comm

/-- **Every expression is emitted in scope.** -/
theorem emitExpr_inScope (hscalar : env.vectorized = false) (e : Expr D) :
    EmitsInScope env T e := by
  induction e using Expr.induct with
  | numberLiteral loc v =>
    intro path inBranch cg A δ sc r h _ _ hr
    cases EmitM.pure_ok.mp hr
    exact ⟨.pure h trivial, .refl sc⟩
  | identifierExpr loc n =>
    intro path inBranch cg A δ sc r h _ _ hr
    rcases hv : cg.signalValues n with _ | v
    · simp only [emitExpr, hv] at hr
      cases hr
    · simp only [emitExpr, hv] at hr
      exact ⟨.reuse h (h.signals hv) hr, .refl sc⟩
  | parameterExpr loc n i =>
    intro path inBranch cg A δ sc r h _ _ hr
    rw [emitExpr] at hr
    split at hr
    · cases hr
    · exact ⟨.build h hr (fun _ => rfl) fun _ => rfl, .refl sc⟩
  | unaryOp loc k e ih =>
    intro path inBranch cg A δ sc r h hap hcs hr
    rw [emitExpr] at hr
    obtain ⟨r₁, r₂, hr₁, hr₂, rfl⟩ := EmitM.bind_ok.mp hr
    obtain ⟨he, hids⟩ := ih path inBranch h hap hcs hr₁
    refine ⟨he.append ?_, hids⟩
    cases k with
    | plus =>
      cases EmitM.pure_ok.mp hr₂
      exact .pure he.after he.value
    | minus => exact .build he.after hr₂ (fun _ => rfl) fun _ => rfl
  | binaryOp loc k a b iha ihb =>
    intro path inBranch cg A δ sc r h hap hcs hr
    rw [emitExpr] at hr
    obtain ⟨r₁, _, hr₁, hrest, rfl⟩ := EmitM.bind_ok.mp hr
    obtain ⟨r₂, r₃, hr₂, hr₃, rfl⟩ := EmitM.bind_ok.mp hrest
    obtain ⟨ha, hida⟩ := iha path inBranch h (Apart.left hap)
      (fun c hc => hcs c (List.mem_append_left _ hc)) hr₁
    obtain ⟨hb, hidb⟩ := ihb path inBranch ha.after (Apart.right hap hida)
      (fun c hc => hcs c (List.mem_append_right _ hc)) hr₂
    exact ⟨ha.append (hb.append (.build hb.after hr₃ (fun _ => rfl) fun _ => rfl)),
      hida.append hidb⟩
  | conditional loc c a b ihc iha ihb =>
    intro path inBranch cg A δ sc r h hap hcs hr
    rw [emitExpr, hscalar] at hr
    obtain ⟨rc, r', hrc, hbranch, rfl⟩ := EmitM.bind_ok.mp hr
    rw [if_neg Bool.false_ne_true] at hbranch
    obtain ⟨rt, re, hrt, hre, rfl⟩ := EmitM.branch_ok.mp hbranch
    have hap' : Apart ((schedule env.toSchedule path c δ).sites ++ _ ++ _) sc := hap
    obtain ⟨hc, hidc⟩ := ihc path inBranch h hap'.left.left
      (fun d hd => hcs d (List.mem_append_left _ (List.mem_append_left _ hd))) hrc
    -- a branch steps nothing at every tick
    have hkeep : ∀ (e : Expr D) (cb : Plan D × Bool) (δ : Dict D),
        (siteIds (schedule env.toSchedule (cb :: path) e δ).sites).Nodup → ∀ {n p},
        (schedule env.toSchedule (cb :: path) e δ).dict n = some p → δ n = some p := by
      intro e cb δ hnd n p hp
      have hx := schedule_extends env.toSchedule e (cb :: path) δ hnd
      refine (hx.source hp).resolve_right ?_
      rintro ⟨S, hS, hpath, -⟩
      have := hx.suffix hS
      rw [hpath] at this
      exact absurd (List.suffix_nil.mp this) (List.cons_ne_nil _ _)
    obtain ⟨ht, hidt⟩ := iha _ true hc.after (hap'.left.right hidc)
      (fun d hd => hcs d (List.mem_append_left _ (List.mem_append_right _ hd))) hrt
    have hapb := hap'.right (hidc.append (hidt.leave (c.volumeScope env sc).visible))
    have hkeepa := fun {n p} => hkeep a _ _ (hap'.left.right hidc).nodup (n := n) (p := p)
    obtain ⟨he, hide⟩ := ihb _ true (hc.after.leave ht.after ht.grows hkeepa) hapb
      (fun d hd => hcs d (List.mem_append_right _ hd)) hre
    refine ⟨hc.append (.branch hc.after rc.value ht hkeepa he (hkeep b _ _ hapb.nodup)), ?_⟩
    exact (hidc.append (hidt.leave _)).append (hide.leave _)
  | functionCall loc n args nid sid ih =>
    intro path inBranch cg A δ sc r h hap hcs hr
    have hc : Emittable env T ⟨n, args, nid, sid⟩ := hcs _ List.mem_cons_self
    rw [emitExpr] at hr
    rcases hδ : δ nid with _ | p
    · -- the call is new
      rw [schedule_fresh env.toSchedule hδ] at hap ⊢
      have hnew : 0 < nid → nid ∉ sc.seen := by
        intro hpos
        refine hap.new nid ?_
        have hst : isStatefulOp n = true := by
          by_contra hst
          rw [Bool.not_eq_true] at hst
          exact absurd (hc.stateless hst) (Int.not_le.mpr hpos)
        unfold scheduleCall
        rw [if_pos hst, siteIds, List.map_cons]
        exact List.mem_cons_self
      rw [emitCall_miss fun hpos => not_not.mp fun hne => hnew hpos (h.cached hne)] at hr
      rw [Expr.volumeScope, if_neg fun hseen => hnew hseen.1 hseen.2]
      exact emitDispatch_inScope hscalar path inBranch ih h hap hc
        (fun d hd => hcs d (List.mem_cons_of_mem _ hd)) hr
    · -- the call is stepped at every tick, and its value is in scope
      obtain ⟨hpos, v, hv, hin⟩ := h.stepped hδ
      rw [schedule_alias env.toSchedule hδ]
      have hne : cg.statefulEmitCache nid ≠ none := by
        rw [hv]
        exact Option.some_ne_none v
      rw [emitCall_hit hpos hv] at hr
      rw [Expr.volumeScope, if_pos ⟨hpos, h.cached hne⟩]
      exact ⟨.reuse h hin hr, .refl sc⟩

end Emission

/-! ## Programs -/

section Program

variable [Fp D] {env : EmitEnv} {T : Nat → Prop} {cg : CodegenContext D} {A : Set Name}
  {δ : Dict D} {sc : VolumeScope}

omit [Fp D] in
/-- Every signal starts with an empty dictionary. -/
theorem EmissionScope.forget (h : EmissionScope T cg A δ sc) : EmissionScope T cg A .empty sc :=
  { h with stepped := fun hn => nomatch hn }

omit [Fp D] in
/-- The value of a signal. -/
theorem EmissionScope.setSignalValue (h : EmissionScope T cg A δ sc) (name : String)
    {v : Operand D} (hv : v.In A) : EmissionScope T (cg.setSignalValue name v) A δ sc := by
  refine { h with signals := ?_ }
  intro n w hw
  change (if n = name then some v else cg.signalValues n) = some w at hw
  split at hw
  · cases hw
    exact hv
  · exact h.signals hw

omit [Fp D] in
/-- A first load of bid or ask, at the start of the function. -/
theorem Scoping.firstQuote (h : EmissionScope T cg A δ sc) {symbol : Nat} {field : MarketField}
    (hf : field ≠ .volume) (hnone : cg.programMarketFieldCache symbol field = none)
    {r : Emitted D (Operand D)} (hr : emitMarketFieldLoad symbol field cg = .ok r) :
    (Scoping T cg A δ sc sc r fun v A => v.In A) ∧ ∀ s f, r.cg.programMarketFieldCache s f =
      if s = symbol ∧ f = field then some r.value else cg.programMarketFieldCache s f := by
  simp only [emitMarketFieldLoad, hnone] at hr
  cases hr
  have hload := h.result
  have hkeep : ∀ {s f}, cg.programMarketFieldCache s f ≠ none → ¬ (s = symbol ∧ f = field) := by
    rintro s f hne ⟨rfl, rfl⟩
    exact hne hnone
  refine ⟨⟨?_, .instr rfl, ?_, fun _ => ?_, ?_⟩, fun s f => rfl⟩
  · refine { CodegenContext.Grows.result cg 1 with fields := ?_, loads := ?_ }
    · intro s f v hv
      exact (if_neg (hkeep (by rw [hv]; exact Option.some_ne_none v))).trans hv
    · intro s f n hnew hsome
      change (if s = symbol ∧ f = field then _ else cg.programMarketFieldCache s f) = _ at hsome
      split at hsome
      · cases hsome
        exact le_rfl
      · rw [hnew] at hsome
        cases hsome
  · change EmissionScope T (CodegenContext.cacheField { cg with nextReg := cg.nextReg + 1 } symbol
      field (.reg cg.nextReg)) ((Code.instr (.loadField cg.nextReg symbol field) .done).scope A) δ sc
    rw [Code.scope_instr rfl]
    refine { hload with quotes := ?_, unloaded := ?_, loaded := ?_ }
    · intro s hs f hne
      obtain ⟨v, hv, hin⟩ := hload.quotes hs hne
      exact ⟨v, (if_neg (hkeep (by
        rw [show cg.programMarketFieldCache s f = some v from hv]
        exact Option.some_ne_none v))).trans hv, hin⟩
    · intro s hs
      exact (if_neg fun hsf => hf hsf.2.symm).trans (h.unloaded hs)
    · intro s hs
      obtain ⟨n, hn, hrest⟩ := hload.loaded hs
      exact ⟨n, (if_neg fun hsf => hf hsf.2.symm).trans hn, hrest⟩
  · change _ ∧ (Code.instr (.loadField cg.nextReg symbol field) .done :
      Code (Instr D)).Scoped Instr.names A ↔ _
    rw [Code.scoped_instr]
    exact and_iff_left fun _ hx => absurd hx List.not_mem_nil
  · change Operand.In ((Code.instr (.loadField cg.nextReg symbol field) .done).scope A) _
    rw [Code.scope_instr rfl]
    exact .inl rfl

omit [Fp D] in
/-- The cache answers for a ticker. -/
theorem EmissionScope.quote_cg (h : EmissionScope T cg A δ sc) {symbol : Nat} (hs : T symbol)
    {field : MarketField} (hf : field ≠ .volume) {r : Emitted D (Operand D)}
    (hr : emitMarketFieldLoad symbol field cg = .ok r) : r.cg = cg := by
  obtain ⟨v, hv, -⟩ := h.quotes hs hf
  simp only [emitMarketFieldLoad, hv] at hr
  cases v <;> cases hr <;> rfl

omit [Fp D] in
/-- Fewer symbols are covered. -/
theorem EmissionScope.restrict {T' : Nat → Prop} (h : EmissionScope T cg A δ sc)
    (hT : ∀ {s}, T' s → T s) : EmissionScope T' cg A δ sc :=
  { h with quotes := fun hs => h.quotes (hT hs) }

omit [Fp D] in
/-- **The loads at the start of the function** cover the tickers. -/
theorem prewarm_inScope (tickers : List String) (h : EmissionScope T cg A δ sc)
    (hnone : ∀ s, ¬ T s → ∀ f, f ≠ .volume → cg.programMarketFieldCache s f = none)
    {r : Emitted D Unit} (hr : prewarmProgramMarketLoads env tickers cg = .ok r) :
    Scoping (fun s => T s ∨ ∃ t ∈ tickers, env.symbols.lookupId t = .ok s) cg A δ sc sc r
      fun _ _ => True := by
  induction tickers generalizing T cg A r with
  | nil =>
    cases EmitM.pure_ok.mp hr
    refine .pure ?_ trivial
    refine { h with quotes := ?_ }
    rintro s (hs | ⟨t, ht, -⟩)
    · exact h.quotes hs
    · exact absurd ht List.not_mem_nil
  | cons t rest ih =>
    rw [prewarmProgramMarketLoads] at hr
    obtain ⟨r₀, r', hlook, hloads, rfl⟩ := EmitM.bind_ok.mp hr
    obtain ⟨symbol, hsymbol, rfl⟩ := EmitM.lift_ok.mp hlook
    obtain ⟨r₁, _, hbid, hrest, rfl⟩ := EmitM.bind_ok.mp hloads
    obtain ⟨r₂, r₃, hask, hrest', rfl⟩ := EmitM.bind_ok.mp hrest
    rw [Code.done_append]
    have hweaken : ∀ {s}, (T s ∨ ∃ t' ∈ t :: rest, env.symbols.lookupId t' = .ok s) →
        (T s ∨ s = symbol) ∨ ∃ t' ∈ rest, env.symbols.lookupId t' = .ok s := by
      rintro s (hs | ⟨t', ht', hs⟩)
      · exact .inl (.inl hs)
      · rcases List.mem_cons.mp ht' with rfl | ht'
        · rw [hsymbol] at hs
          cases hs
          exact .inl (.inr rfl)
        · exact .inr ⟨t', ht', hs⟩
    by_cases hs : T symbol
    · have h₁ := Scoping.quote h hs (by decide) hbid
      have h₂ := Scoping.quote h₁.after hs (by decide) hask
      have h₃ := ih h₂.after (fun s hnot f hf => ?_) hrest'
      refine h₁.append (h₂.append { h₃ with after := h₃.after.restrict fun hs' => ?_ })
      · exact (hweaken hs').imp_left fun h => h.elim id fun h => h ▸ hs
      · rw [h₁.after.quote_cg hs (by decide) hask, h.quote_cg hs (by decide) hbid]
        exact hnone s hnot f hf
    · obtain ⟨h₁, hcache₁⟩ := Scoping.firstQuote h (by decide) (hnone symbol hs .bid (by decide)) hbid
      obtain ⟨h₂, hcache₂⟩ := Scoping.firstQuote h₁.after (by decide)
        (by rw [hcache₁, if_neg (by simp)]; exact hnone symbol hs .ask (by decide)) hask
      have hquotes : EmissionScope (fun s => T s ∨ s = symbol) r₂.cg
          (r₂.code.scope (r₁.code.scope A)) δ sc := by
        refine { h₂.after with quotes := ?_ }
        rintro s (hT | rfl) f hf
        · exact h₂.after.quotes hT hf
        · cases f with
          | bid =>
            refine ⟨r₁.value, ?_, h₁.value.mono (Code.subset_scope _)⟩
            rw [hcache₂, if_neg (by simp), hcache₁, if_pos ⟨rfl, rfl⟩]
          | ask => exact ⟨r₂.value, by rw [hcache₂, if_pos ⟨rfl, rfl⟩], h₂.value⟩
          | volume => exact absurd rfl hf
      have h₃ := ih hquotes (fun s hnot f hf => ?_) hrest'
      · exact h₁.append (h₂.append { h₃ with after := h₃.after.restrict hweaken })
      · rw [not_or] at hnot
        rw [hcache₂, if_neg fun h => hnot.2 h.1, hcache₁, if_neg fun h => hnot.2 h.1]
        exact hnone s hnot.1 f hf

/-- What a list of signals does, and what the end of the function needs to know. -/
structure ScopedSignals (cg : CodegenContext D) (A : Set Name) (sc sc' : VolumeScope)
    (r : Emitted D Unit) : Prop where
  /-- numbers go up -/
  nextReg : cg.nextReg ≤ r.cg.nextReg
  /-- bases stay -/
  bases : ∀ f ∈ cg.bases, f ∈ r.cg.bases
  /-- and are loaded once -/
  nodup : r.cg.bases.Nodup
  /-- results have new numbers -/
  numbered : Numbered r.code cg.nextReg r.cg.nextReg
  /-- cached values are used in scope, apart from volumes -/
  inScope : (∀ f ∈ r.cg.bases, .base f ∈ A) →
    (sc.ok = true ∧ r.code.Scoped Instr.names A ↔ sc'.ok = true)

omit [Fp D] in
/-- What comes before the signals. -/
theorem ScopedSignals.after {α : Type} {r₁ : Emitted D α} {r : Emitted D Unit}
    {P : α → Set Name → Prop} {sc₁ sc₂ : VolumeScope} (h : Scoping T cg A δ sc sc₁ r₁ P)
    (h' : ScopedSignals r₁.cg (r₁.code.scope A) sc₁ sc₂ r) :
    ScopedSignals cg A sc sc₂ ⟨r.value, r₁.code.append r.code, r.cg⟩ where
  nextReg := h.grows.nextReg.trans h'.nextReg
  bases f hf := h'.bases f (h.grows.bases f hf)
  nodup := h'.nodup
  numbered := h.numbered.append h'.numbered h.grows.nextReg h'.nextReg
  inScope hbases := by
    have hsplit : (r₁.code.append r.code).Scoped Instr.names A ↔ r₁.code.Scoped Instr.names A ∧
        r.code.Scoped Instr.names (r₁.code.scope A) := Code.scoped_append _ _ _ _
    rw [hsplit, ← and_assoc, h.inScope fun f hf => hbases f (h'.bases f hf)]
    exact h'.inScope fun f hf => Code.subset_scope _ (hbases f hf)

variable [DecidableEq D]

/-- **The signals of a program** are emitted in scope. -/
theorem emitSignals_inScope (hscalar : env.vectorized = false) {signals : List (SignalDef D)}
    (hun : ∀ s ∈ signals, Unallocated s.body.calls) {n : Int} (hn : 0 < n) (i : Nat)
    (hcs : ∀ s ∈ allocateProgramFrom signals n, ∀ c ∈ s.body.calls, Emittable env T c)
    (hseen : ∀ m ∈ sc.seen, m < n) (h : EmissionScope T cg A .empty sc) {r : Emitted D Unit}
    (hr : emitSignals env (allocateProgramFrom signals n) i cg = .ok r) :
    ScopedSignals cg A sc ((allocateProgramFrom signals n).foldl
      (fun (sc : VolumeScope) s => s.body.volumeScope env sc) sc) r := by
  induction signals generalizing n i cg A sc r with
  | nil =>
    cases EmitM.pure_ok.mp hr
    exact ⟨le_rfl, fun _ h => h, h.bases, .done _, fun _ => and_iff_left trivial⟩
  | cons s rest ih =>
    rw [allocateProgramFrom] at hr hcs ⊢
    have ha := allocateWalk_allocates s.body true ⟨n, []⟩ (AllocState.Ok.init hn)
      (hun s List.mem_cons_self)
    have hs := walk_scheduled env.toSchedule s.body true ⟨n, []⟩ [] .empty (.init hn)
      (hun s List.mem_cons_self) rfl ⟨by rintro k p ⟨⟩, fun _ hs => absurd hs List.not_mem_nil⟩
    rw [emitSignals] at hr
    obtain ⟨r₁, _, hbody, hrest, rfl⟩ := EmitM.bind_ok.mp hr
    obtain ⟨r₂, _, hset, hrest', rfl⟩ := EmitM.bind_ok.mp hrest
    obtain ⟨r₃, r₄, hstore, hrest'', rfl⟩ := EmitM.bind_ok.mp hrest'
    cases EmitM.modify_ok.mp hset
    cases EmitM.emit_ok.mp hstore
    have hap : Apart (schedule env.toSchedule [] (allocateWalk s.body true ⟨n, []⟩).1 .empty).sites
        sc := ⟨hs.nodup, fun m hm hmem => absurd (hs.new m hm).1 (Int.not_le.mpr (hseen m hmem))⟩
    obtain ⟨hb, hids⟩ := emitExpr_inScope hscalar _ [] false h hap
      (hcs _ List.mem_cons_self) hbody
    have hseen' : ∀ m ∈ ((allocateWalk s.body true ⟨n, []⟩).1.volumeScope env sc).seen,
        m < (allocateWalk s.body true ⟨n, []⟩).2.nextId := by
      intro m hm
      rcases (hids m).mp hm with hm | hm
      · exact Int.lt_of_lt_of_le (hseen m hm) ha.le
      · exact (hs.new m hm).2
    have hafter := hb.after.forget.setSignalValue s.name hb.value
    have hstored := Scoping.emit hafter (i := .store i r₁.value) rfl rfl
    have hrec := ih (fun t ht => hun t (List.mem_cons_of_mem _ ht)) (Int.lt_of_lt_of_le hn ha.le)
      (i + 1) (fun t ht => hcs t (List.mem_cons_of_mem _ ht)) hseen' hstored.after hrest''
    have hsignals := ScopedSignals.after hstored hrec
    refine .after hb ?_
    rw [Code.done_append]
    exact ⟨hsignals.nextReg, hsignals.bases, hsignals.nodup, hsignals.numbered, hsignals.inScope⟩

omit [DecidableEq D] in
/-- A market read has looked up its ticker. -/
theorem ticker_of_market {impl : StatefulFn → List (Option D) → Impl} {symbols : SymbolTable}
    {name : String} {args : List (Expr D)} {fn : MarketFn} {symbol : Nat}
    (h : decodeCall impl symbols name args (-1) = .market fn symbol) :
    isTickerFirstArgFn name = true ∧
      ∃ fnName, Interpreter.resolveSymbolSlot symbols fnName args (-1) = .ok symbol := by
  rcases hname : Builtin.ofName name with _ | f | f | f
  · rw [decodeCall, hname] at h
    cases h
  · refine ⟨by rw [isTickerFirstArgFn, hname], Interpreter.marketFnName f, ?_⟩
    obtain ⟨a, rfl, -⟩ := args_of_market h
    simp only [decodeCall, hname] at h
    rcases hs : Interpreter.resolveSymbolSlot symbols (Interpreter.marketFnName f) [a] (-1)
      with e | id
    · simp only [hs] at h
      cases h
    · simp only [hs] at h
      cases h
      rfl
  · simp only [decodeCall, hname] at h
    split at h <;> cases h
  · rcases decodeCall_stateful impl symbols args hname with hinv | ⟨op, hop, -⟩
    · rw [hinv] at h
      cases h
    · rw [hop] at h
      cases h

omit [DecidableEq D] in
/-- So has a `vwap`. -/
theorem ticker_of_vwap {impl : StatefulFn → List (Option D) → Impl} {symbols : SymbolTable}
    {name : String} {args : List (Expr D)} {op : StatefulOp D}
    (h : decodeCall impl symbols name args (-1) = .stateful op) (hfn : op.fn = .vwap) :
    isTickerFirstArgFn name = true ∧
      ∃ fnName, Interpreter.resolveSymbolSlot symbols fnName args (-1) = .ok op.symbol := by
  have hst : isStatefulOp name = true := by
    cases hst : isStatefulOp name with
    | true => rfl
    | false => exact absurd h (decodeCall_stateless (-1) hst op)
  obtain ⟨f, hname⟩ := isStatefulOp_iff.mp hst
  rcases decodeCall_stateful impl symbols args hname with hinv | ⟨op', hop, hdec⟩
  · rw [hinv] at h
    cases h
  rw [hop] at h
  cases h
  obtain rfl : f = .vwap := hdec.fn_eq.symm.trans hfn
  refine ⟨by rw [isTickerFirstArgFn, hname], "vwap", ?_⟩
  simp only [decodeCall, hname] at hop
  rcases args with _ | ⟨a, _ | ⟨w, _ | ⟨_, _⟩⟩⟩
  · cases hop
  · cases hop
  · simp only [decodeStateful] at hop
    rcases hw : decodeWindow .vwap w with _ | v
    · simp only [hw] at hop
      cases hop
    · rcases hs : Interpreter.resolveSymbolSlot symbols "vwap" [a, w] (-1) with e | id
      · simp only [hw, hs] at hop
        cases hop
      · simp only [hw, hs] at hop
        cases hop
        rfl
  · cases hop

omit [Fp D] [DecidableEq D] in
/-- The tickers of the calls of a body are collected from it. -/
theorem ticker_collected {e : Expr D} {c : Call D} (hc : c ∈ e.calls)
    (hf : isTickerFirstArgFn c.name = true) {fnName : String} {symbol : Nat}
    (h : Interpreter.resolveSymbolSlot env.symbols fnName c.args (-1) = .ok symbol) :
    ∃ t ∈ collectTickerSymbols e, env.symbols.lookupId t = .ok symbol := by
  rcases hargs : c.args with _ | ⟨a, as⟩
  · rw [hargs] at h
    unfold Interpreter.resolveSymbolSlot at h
    rw [if_neg (show ¬ (0 : Int) ≤ -1 by decide)] at h
    split at h <;> cases h
  · rw [hargs] at h
    obtain ⟨ticker, ht⟩ := ticker_of_resolve h
    refine ⟨ticker, mem_collectTickerSymbols.mpr ⟨c, hc, hf, a, as, hargs, ht⟩, ?_⟩
    unfold Interpreter.resolveSymbolSlot at h
    rw [if_neg (show ¬ (0 : Int) ≤ -1 by decide)] at h
    split at h
    · cases h
    · simpa only [ht] using h

/-- The calls of an allocated program. -/
theorem emittable_allocateProgramNodeIds {program : List (SignalDef D)}
    (hun : ∀ s ∈ program, Unallocated s.body.calls)
    (hsym : ∀ s ∈ allocateProgramNodeIds program, ∀ c ∈ s.body.calls, c.SymbolOk env.symbols) :
    ∀ s ∈ allocateProgramNodeIds program, ∀ c ∈ s.body.calls, Emittable env
      (fun symbol => ∃ t ∈ (allocateProgramNodeIds program).flatMap
        fun s => collectTickerSymbols s.body, env.symbols.lookupId t = .ok symbol) c := by
  have hids := consistentIds_allocateProgramNodeIds hun
  intro s hs c hc
  have hmem : c ∈ (allocateProgramNodeIds program).flatMap fun s => s.body.calls :=
    List.mem_flatMap.mpr ⟨s, hs, hc⟩
  have hlift : ∀ {symbol}, (∃ t ∈ collectTickerSymbols s.body,
      env.symbols.lookupId t = .ok symbol) → ∃ t ∈ (allocateProgramNodeIds program).flatMap
        fun s => collectTickerSymbols s.body, env.symbols.lookupId t = .ok symbol :=
    fun ⟨t, ht, h⟩ => ⟨t, List.mem_flatMap.mpr ⟨s, hs, ht⟩, h⟩
  refine ⟨hsym s hs c hc, hids.stateful c hmem, fun hst => (hids.stateless c hmem hst).le,
    fun hshape => hlift ?_, fun hshape hfn => hlift ?_⟩
  · obtain ⟨hf, fnName, hslot⟩ := ticker_of_market hshape
    exact ticker_collected hc hf hslot
  · obtain ⟨hf, fnName, hslot⟩ := ticker_of_vwap hshape hfn
    exact ticker_collected hc hf hslot

omit [Fp D] [DecidableEq D] in
/-- The loads at the top define the bases. -/
theorem hoistedCode_spec (bases : List LoweringFlag) (B : Set Name) :
    (hoistedCode bases : Code (Instr D)).names Instr.names = bases.map Name.base ∧
    (hoistedCode bases : Code (Instr D)).topNames Instr.names = bases.map Name.base ∧
    (hoistedCode bases : Code (Instr D)).Scoped Instr.names B := by
  induction bases generalizing B with
  | nil => exact ⟨rfl, rfl, trivial⟩
  | cons f rest ih =>
    refine ⟨?_, ?_, fun _ hx => absurd hx List.not_mem_nil, (ih _).2.2⟩
    · rw [hoistedCode, Code.names, (ih ∅).1]
      rfl
    · rw [hoistedCode, Code.topNames, (ih ∅).2.1]
      rfl

/-- **A program is emitted in scope** exactly when its volumes are. -/
theorem emitProgram_inScope (hscalar : env.vectorized = false) {program : List (SignalDef D)}
    (hun : ∀ s ∈ program, Unallocated s.body.calls)
    (hsym : ∀ s ∈ allocateProgramNodeIds program, ∀ c ∈ s.body.calls, c.SymbolOk env.symbols)
    {code : Code (Instr D)} (h : emitProgram env (allocateProgramNodeIds program) = .ok code) :
    (code.names Instr.names).Nodup ∧
      (code.Scoped Instr.names ∅ ↔ volumeScoped env (allocateProgramNodeIds program) = true) := by
  unfold emitProgram at h
  split at h
  · cases h
  rename_i r hr
  cases h
  obtain ⟨r₁, r₂, hr₁, hr₂, rfl⟩ := EmitM.bind_ok.mp hr
  dsimp only
  set B : Set Name := {x | x ∈ r₂.cg.bases.map Name.base} with hB
  have hstart : EmissionScope (fun _ => False) (.init : CodegenContext D) B .empty .init :=
    { fresh := fun hn => by
        obtain ⟨f, -, hf⟩ := List.mem_map.mp hn
        cases hf
      bases := .nil
      cached := fun hn => absurd rfl hn
      stepped := fun hn => nomatch hn
      quotes := fun hs => hs.elim
      unloaded := fun _ => rfl
      loaded := fun hs => absurd hs List.not_mem_nil
      visible := fun hs => absurd hs List.not_mem_nil
      signals := fun hv => nomatch hv }
  have hloads := prewarm_inScope _ hstart (fun _ _ _ _ => rfl) hr₁
  have hcover : EmissionScope (fun symbol => ∃ t ∈ (allocateProgramNodeIds program).flatMap
      fun s => collectTickerSymbols s.body, env.symbols.lookupId t = .ok symbol) r₁.cg
      (r₁.code.scope B) .empty .init := hloads.after.restrict .inr
  have hsignals := ScopedSignals.after hloads (emitSignals_inScope hscalar hun Int.zero_lt_one 0
    (emittable_allocateProgramNodeIds hun hsym) (fun _ hm => absurd hm List.not_mem_nil) hcover hr₂)
  obtain ⟨hnames, htop, -⟩ := hoistedCode_spec (D := D) r₂.cg.bases ∅
  constructor
  · rw [Code.names, Code.names_append, hnames, List.nodup_append]
    refine ⟨.nil, ?_, fun _ hx => absurd hx List.not_mem_nil⟩
    rw [List.nodup_append]
    refine ⟨hsignals.nodup.map fun f g hfg => Name.base.inj hfg, hsignals.numbered.nodup, ?_⟩
    rintro x hx y hy rfl
    obtain ⟨f, -, rfl⟩ := List.mem_map.mp hx
    obtain ⟨k, hk, -⟩ := hsignals.numbered.range _ hy
    cases hk
  · have hbody := hsignals.inScope fun f hf => List.mem_map_of_mem hf
    have hscope : (hoistedCode r₂.cg.bases : Code (Instr D)).scope
        ({x | x ∈ Instr.names.defs (.symbolCtx : Instr D)} ∪ ∅) = B := by
      rw [Code.scope, htop]
      simp [hB, Instr.names, Instr.defs]
    rw [Code.Scoped, Code.scoped_append, volumeScoped, allocateProgramNodeIds, ← hbody]
    change _ ∧ _ ∧ (r₁.code.append r₂.code).Scoped Instr.names (Code.scope _ _) ↔ _
    rw [hscope]
    refine ⟨fun hall => ⟨rfl, hall.2.2⟩, fun hall => ⟨fun _ hx => absurd hx List.not_mem_nil,
      (hoistedCode_spec r₂.cg.bases _).2.2, hall.2⟩⟩

/-- **Emission respects dominance** up to volumes: in the function of a program that was
emitted, every cached value is used where its definition dominates the use, exactly when
every lowered `vwap` is the first on its ticker, or stands in the branch of the first. -/
theorem emission_respects_dominance (hscalar : env.vectorized = false)
    {program : List (SignalDef D)} (hun : ∀ s ∈ program, Unallocated s.body.calls)
    (hsym : ∀ s ∈ allocateProgramNodeIds program, ∀ c ∈ s.body.calls, c.SymbolOk env.symbols)
    {code : Code (Instr D)} (h : emitProgram env (allocateProgramNodeIds program) = .ok code) :
    (∀ x ∈ (layout Instr.names Instr.region code 0 1 fun _ => none).reuses,
        Reused (layout Instr.names Instr.region code 0 1 fun _ => none).edges x) ↔
      volumeScoped env (allocateProgramNodeIds program) = true := by
  obtain ⟨hnd, hscoped⟩ := emitProgram_inScope hscalar hun hsym h
  rw [scoped_iff_dominated Instr.names Instr.region code hnd, hscoped]

end Program

section Branches

open Concrete

/-- `s = vwap(A, 3) + (if mid(A) > 5 then vwap(A, 4) else 0)` -/
def volumeAround : List (SignalDef (Exact ℚ)) :=
  [⟨"s", plus (app "vwap" [ident "A", num 3])
    (ifThenElse (gt (mid "A") (num 5)) (app "vwap" [ident "A", num 4]) (num 0))⟩]

/-- `s = if mid(A) > 5 then vwap(A, 3) else vwap(A, 4)` -/
def volumeBranches : List (SignalDef (Exact ℚ)) :=
  [⟨"s", ifThenElse (gt (mid "A") (num 5)) (app "vwap" [ident "A", num 3])
    (app "vwap" [ident "A", num 4])⟩]

/-- Symbol ids that are not bound yet. -/
theorem symbolOk_of_unset {signals : List (SignalDef (Exact ℚ))} {table : SymbolTable}
    (h : ∀ s ∈ signals, ∀ c ∈ s.body.calls, c.symbolId < 0) :
    ∀ s ∈ signals, ∀ c ∈ s.body.calls, c.SymbolOk table :=
  fun s hs c hc _ hbound => absurd hbound (Int.not_le.mpr (h s hs c hc))

theorem emission_respects_dominance_volumeAround :
    ∃ code, emitProgram (scalarEnv symbols) (allocateProgramNodeIds volumeAround) = .ok code ∧
      ((∀ x ∈ (layout Instr.names Instr.region code 0 1 fun _ => none).reuses,
          Reused (layout Instr.names Instr.region code 0 1 fun _ => none).edges x) ↔
        volumeScoped (scalarEnv symbols) (allocateProgramNodeIds volumeAround) = true) :=
  have hun : ∀ s ∈ volumeAround, ∀ c ∈ s.body.calls, c.nodeId = -1 := by decide +kernel
  have ⟨code, hcode⟩ : ∃ code, emitProgram (scalarEnv symbols)
      (allocateProgramNodeIds volumeAround) = .ok code := exists_emitted (by decide +kernel)
  ⟨code, hcode, emission_respects_dominance rfl hun (symbolOk_of_unset (by decide +kernel)) hcode⟩

/-- **A load of a volume in one branch is used in the other.** -/
theorem volume_used_across_branches :
    ∃ code, emitProgram (scalarEnv symbols) (allocateProgramNodeIds volumeBranches) = .ok code ∧
      ∃ x ∈ (layout Instr.names Instr.region code 0 1 fun _ => none).reuses,
        ¬ Reused (layout Instr.names Instr.region code 0 1 fun _ => none).edges x := by
  have hun : ∀ s ∈ volumeBranches, ∀ c ∈ s.body.calls, c.nodeId = -1 := by decide +kernel
  obtain ⟨code, hcode⟩ : ∃ code, emitProgram (scalarEnv symbols)
      (allocateProgramNodeIds volumeBranches) = .ok code := exists_emitted (by decide +kernel)
  obtain ⟨hnd, hscoped⟩ := emitProgram_inScope rfl hun (symbolOk_of_unset (by decide +kernel)) hcode
  refine ⟨code, hcode, ?_⟩
  by_contra! hall
  rw [scoped_iff_dominated Instr.names Instr.region code hnd, hscoped] at hall
  exact absurd hall (by decide +kernel)

end Branches

end JitSignalEngine
