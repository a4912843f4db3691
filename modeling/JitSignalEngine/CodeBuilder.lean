import JitSignalEngine.StructuredRun

/-!
# Building structured code

Functions that append code, keep a state of their own while they do, and may throw. Nothing here is
about a particular instruction set.

* `Builder` — the monad of such functions. A conditional builds its branches one after the other, so
  what the first one leaves in the state the second one finds there, though at run time only one of
  them is executed.
* `Builder.Moves` — a preorder along which the state moves.
* `Builder.Triple` — pre- and postconditions: what a run of the code that is built does, where its
  names are in scope. `Triple.branch` is the rule for conditionals.
-/

namespace JitSignalEngine

variable {ι κ σ α β : Type}

/-! ## Code over other instructions -/

namespace Code

/-- Replace every item. -/
def map (f : ι → κ) : Code ι → Code κ
  | .done => .done
  | .instr i rest => .instr (f i) (rest.map f)
  | .branch k t e j rest => .branch (f k) (t.map f) (e.map f) (f j) (rest.map f)

@[simp] theorem map_append (f : ι → κ) (c d : Code ι) :
    (c.append d).map f = (c.map f).append (d.map f) := by
  induction c with
  | done => rfl
  | instr i rest ih => rw [append, map, map, append, ih]
  | branch k t e j rest _ _ ih => rw [append, map, map, append, ih]

/-- Whether all uses are in scope, where the names in `xs` are. -/
def scopedIn {ρ : Type} [DecidableEq ρ] (N : Names ι ρ) : Code ι → List ρ → Bool
  | .done, _ => true
  | .instr i rest, xs => (N.uses i).all (fun r => decide (r ∈ xs)) && rest.scopedIn N (N.defs i ++ xs)
  | .branch f t e j rest, xs =>
    (N.uses f).all (fun r => decide (r ∈ xs)) && t.scopedIn N (N.defs f ++ xs) &&
      e.scopedIn N (N.defs f ++ xs) && (N.uses j).all (fun r => decide (r ∈ N.defs f ++ xs)) &&
      rest.scopedIn N (N.defs j ++ (N.defs f ++ xs))

theorem scopedIn_iff {ρ : Type} [DecidableEq ρ] {N : Names ι ρ} {c : Code ι} {xs : List ρ} :
    c.scopedIn N xs = true ↔ c.Scoped N {r | r ∈ xs} := by
  have hset : ∀ ys zs : List ρ, {r | r ∈ ys ++ zs} = {r | r ∈ ys} ∪ {r | r ∈ zs} := fun ys zs => by
    ext r
    exact List.mem_append
  induction c generalizing xs with
  | done => simp only [scopedIn, Scoped]
  | instr i rest ih =>
    simp only [scopedIn, Scoped, Bool.and_eq_true, List.all_eq_true, decide_eq_true_eq, ih, hset]
    exact Iff.rfl
  | branch f t e j rest iht ihe ih =>
    simp only [scopedIn, Scoped, Bool.and_eq_true, List.all_eq_true, decide_eq_true_eq, iht, ihe, ih,
      hset, and_assoc]
    simp only [List.mem_append, Set.mem_union, Set.mem_ofPred_eq]

/-- Scoping can be computed. -/
instance {ρ : Type} [DecidableEq ρ] (N : Names ι ρ) (c : Code ι) : Decidable (c.Scoped N ∅) :=
  decidable_of_iff (c.scopedIn N [] = true) (by rw [scopedIn_iff]; simp)

end Code

/-! ## Builders -/

/-- What a builder produces. -/
structure Built (ι σ α : Type) where
  /-- the result -/
  value : α
  /-- the code -/
  code : Code ι
  /-- the state afterwards -/
  state : σ

/-- A builder of code over `ι`, with the state `σ`. -/
def Builder (ι σ α : Type) : Type := σ → Except String (Built ι σ α)

namespace Builder

/-- No code. -/
protected def pure (a : α) : Builder ι σ α := fun s => .ok ⟨a, .done, s⟩

/-- One after the other. -/
protected def bind (m : Builder ι σ α) (f : α → Builder ι σ β) : Builder ι σ β := fun s =>
  match m s with
  | .error e => .error e
  | .ok r =>
    match f r.value r.state with
    | .error e => .error e
    | .ok r' => .ok ⟨r'.value, r.code.append r'.code, r'.state⟩

instance : Monad (Builder ι σ) where
  pure := Builder.pure
  bind := Builder.bind

/-- Give up. -/
def throw (e : String) : Builder ι σ α := fun _ => .error e

/-- A check that builds nothing. -/
def lift (r : Except String α) : Builder ι σ α := fun s => r.map fun a => ⟨a, .done, s⟩

/-- Change the state. -/
def modify (f : σ → σ) : Builder ι σ Unit := fun s => .ok ⟨(), .done, f s⟩

/-- An instruction, which may depend on the state and change it. -/
def instr (f : σ → α × ι × σ) : Builder ι σ α := fun s =>
  .ok ⟨(f s).1, .instr (f s).2.1 .done, (f s).2.2⟩

/-- A conditional. `merge` is given the results of both branches and the state after both; it
returns the result, the item where the branches meet, and the state there. -/
def branch (fork : ι) (thenCode elseCode : Builder ι σ α) (merge : α → α → σ → α × ι × σ) :
    Builder ι σ α := fun s =>
  match thenCode s with
  | .error e => .error e
  | .ok t =>
    match elseCode t.state with
    | .error e => .error e
    | .ok e =>
      let out := merge t.value e.value e.state
      .ok ⟨out.1, .branch fork t.code e.code out.2.1 .done, out.2.2⟩

variable {s : σ} {r : Built ι σ α}

@[simp] theorem pure_ok {a : α} : (pure a : Builder ι σ α) s = .ok r ↔ r = ⟨a, .done, s⟩ := by
  change Except.ok _ = Except.ok r ↔ _
  rw [Except.ok.injEq, eq_comm]

@[simp] theorem throw_ok {e : String} : (throw e : Builder ι σ α) s = .ok r ↔ False :=
  ⟨fun h => (nomatch h), False.elim⟩

/-- Inversion for `bind`. -/
theorem bind_ok {m : Builder ι σ α} {f : α → Builder ι σ β} {r : Built ι σ β} :
    (m >>= f) s = .ok r ↔ ∃ r₁ r₂, m s = .ok r₁ ∧ f r₁.value r₁.state = .ok r₂ ∧
      r = ⟨r₂.value, r₁.code.append r₂.code, r₂.state⟩ := by
  change Builder.bind m f s = .ok r ↔ _
  simp only [Builder.bind]
  cases h₁ : m s with
  | error e => simp
  | ok r₁ =>
    cases h₂ : f r₁.value r₁.state with
    | error e => simp [h₂]
    | ok r₂ => simp [h₂, eq_comm]

@[simp] theorem pure_bind (a : α) (f : α → Builder ι σ β) : (pure a >>= f) = f a := by
  funext s
  change Builder.bind (Builder.pure a) f s = f a s
  simp only [Builder.bind, Builder.pure, Code.done_append]
  cases f a s <;> rfl

@[simp] theorem throw_bind (e : String) (f : α → Builder ι σ β) : (throw e >>= f) = throw e := rfl

theorem lift_ok {v : Except String α} :
    (lift v : Builder ι σ α) s = .ok r ↔ ∃ a, v = .ok a ∧ r = ⟨a, .done, s⟩ := by
  cases v with
  | error e => simp [lift, Except.map]
  | ok a => simp [lift, Except.map, eq_comm]

@[simp] theorem lift_of_ok (a : α) : (lift (.ok a) : Builder ι σ α) = pure a := rfl

theorem modify_ok {f : σ → σ} {r : Built ι σ Unit} :
    (modify f : Builder ι σ Unit) s = .ok r ↔ r = ⟨(), .done, f s⟩ := by
  rw [modify, Except.ok.injEq, eq_comm]

theorem instr_ok {f : σ → α × ι × σ} :
    instr f s = .ok r ↔ r = ⟨(f s).1, .instr (f s).2.1 .done, (f s).2.2⟩ := by
  rw [instr, Except.ok.injEq, eq_comm]

/-- Inversion for `branch`. -/
theorem branch_ok {fork : ι} {mt me : Builder ι σ α} {merge : α → α → σ → α × ι × σ} :
    branch fork mt me merge s = .ok r ↔ ∃ t e, mt s = .ok t ∧ me t.state = .ok e ∧
      r = ⟨(merge t.value e.value e.state).1,
        .branch fork t.code e.code (merge t.value e.value e.state).2.1 .done,
        (merge t.value e.value e.state).2.2⟩ := by
  simp only [branch]
  cases ht : mt s with
  | error e => simp
  | ok t =>
    cases he : me t.state with
    | error e => simp [he]
    | ok e =>
      simp only [Except.ok.injEq, exists_and_left, exists_eq_left', he]
      exact eq_comm

/-! ## Moving the state -/

section Moves

variable {R : σ → σ → Prop}

/-- The builder moves its state along a relation. -/
def Moves (R : σ → σ → Prop) (m : Builder ι σ α) : Prop := ∀ s r, m s = .ok r → R s r.state

variable (hrefl : ∀ s, R s s) (htrans : ∀ {s₁ s₂ s₃}, R s₁ s₂ → R s₂ s₃ → R s₁ s₃)

namespace Moves

theorem apply {m : Builder ι σ α} {s : σ} {r : Built ι σ α} (h : Moves R m) (hr : m s = .ok r) :
    R s r.state := h s r hr

theorem throw (e : String) : Moves R (Builder.throw e : Builder ι σ α) :=
  fun _ _ h => (throw_ok.mp h).elim

include hrefl in
theorem pure (a : α) : Moves R (Pure.pure a : Builder ι σ α) := by
  intro s r h
  rw [pure_ok.mp h]
  exact hrefl s

include hrefl in
theorem lift (v : Except String α) : Moves R (Builder.lift v : Builder ι σ α) := by
  intro s r h
  obtain ⟨a, -, rfl⟩ := lift_ok.mp h
  exact hrefl s

theorem instr {f : σ → α × ι × σ} (hf : ∀ s, R s (f s).2.2) : Moves R (Builder.instr f) := by
  intro s r h
  rw [instr_ok.mp h]
  exact hf s

include htrans in
theorem bind {m : Builder ι σ α} {f : α → Builder ι σ β} (hm : Moves R m)
    (hf : ∀ a, Moves R (f a)) : Moves R (m >>= f) := by
  intro s r h
  obtain ⟨r₁, r₂, h₁, h₂, rfl⟩ := bind_ok.mp h
  exact htrans (hm s r₁ h₁) (hf r₁.value r₁.state r₂ h₂)

include htrans in
theorem branch {fork : ι} {mt me : Builder ι σ α} {merge : α → α → σ → α × ι × σ}
    (ht : Moves R mt) (he : Moves R me) (hmerge : ∀ a b s, R s (merge a b s).2.2) :
    Moves R (Builder.branch fork mt me merge) := by
  intro s r h
  obtain ⟨t, e, h₁, h₂, rfl⟩ := branch_ok.mp h
  exact htrans (htrans (ht s t h₁) (he t.state e h₂)) (hmerge _ _ _)

end Moves

end Moves

/-! ## Pre- and postconditions -/

section Triple

variable {φ ρ : Type} (M : Machine ι φ) (N : Names ι ρ)

/-- What holds at a point of the code: of the state of the builder, the names in scope, and the
state of the machine that comes there. -/
abbrev Assertion (σ ρ φ : Type) : Type := σ → Set ρ → φ → Prop

/-- **A triple**: code that is built where `P` holds, and uses only names in scope, runs, and then
`Q` holds of the result. -/
def Triple (P : Assertion σ ρ φ) (m : Builder ι σ α) (Q : α → Assertion σ ρ φ) : Prop :=
  ∀ s A f r, m s = .ok r → r.code.Scoped N A → P s A f →
    ∃ f', M.run r.code f = some f' ∧ Q r.value r.state ({n | n ∈ r.code.topNames N} ∪ A) f'

variable {M N} {P P' : Assertion σ ρ φ}

namespace Triple

theorem apply {m : Builder ι σ α} {Q : α → Assertion σ ρ φ} (h : Triple M N P m Q) {s : σ}
    {A : Set ρ} {f : φ} {r : Built ι σ α} (hr : m s = .ok r) (hscope : r.code.Scoped N A)
    (hP : P s A f) :
    ∃ f', M.run r.code f = some f' ∧ Q r.value r.state ({n | n ∈ r.code.topNames N} ∪ A) f' :=
  h s A f r hr hscope hP

/-- The rule of consequence. -/
theorem conseq {m : Builder ι σ α} {Q Q' : α → Assertion σ ρ φ} (h : Triple M N P m Q)
    (hpre : ∀ s A f, P' s A f → P s A f) (hpost : ∀ a s A f, Q a s A f → Q' a s A f) :
    Triple M N P' m Q' := by
  intro s A f r hr hscope hP
  obtain ⟨f', hrun, hQ⟩ := h s A f r hr hscope (hpre s A f hP)
  exact ⟨f', hrun, hpost _ _ _ _ hQ⟩

/-- **The frame rule**: what the moves of the state keep. -/
theorem frame {m : Builder ι σ α} {Q : α → Assertion σ ρ φ} {R : σ → σ → Prop} {K : σ → Prop}
    (h : Triple M N P m Q) (hm : Moves R m) (hK : ∀ s s', R s s' → K s → K s') :
    Triple M N (fun s A f => P s A f ∧ K s) m fun a s A f => Q a s A f ∧ K s := by
  rintro s A f r hr hscope ⟨hP, hs⟩
  obtain ⟨f', hrun, hQ⟩ := h s A f r hr hscope hP
  exact ⟨f', hrun, hQ, hK s r.state (hm s r hr) hs⟩

/-- What the precondition says of nothing that the code changes. -/
theorem assume {m : Builder ι σ α} {Q : α → Assertion σ ρ φ} {p : Prop} (hp : ∀ s A f, P s A f → p)
    (h : p → Triple M N P m Q) : Triple M N P m Q :=
  fun s A f r hr hscope hP => h (hp s A f hP) s A f r hr hscope hP

theorem throw (e : String) (Q : α → Assertion σ ρ φ) :
    Triple M N P (Builder.throw e : Builder ι σ α) Q :=
  fun _ _ _ _ h => (throw_ok.mp h).elim

/-- What builds no code. -/
theorem nothing {m : Builder ι σ α} {Q : α → Assertion σ ρ φ}
    (h : ∀ s A f r, m s = .ok r → P s A f → r.code = .done ∧ Q r.value r.state A f) :
    Triple M N P m Q := by
  intro s A f r hr hscope hP
  obtain ⟨hcode, hQ⟩ := h s A f r hr hP
  refine ⟨f, by rw [hcode, Machine.run_done], ?_⟩
  have hset : {n | n ∈ r.code.topNames N} ∪ A = A := by
    simp [hcode, Code.topNames]
  rw [hset]
  exact hQ

theorem pure (a : α) : Triple M N P (Pure.pure a : Builder ι σ α) fun b s A f => b = a ∧ P s A f :=
  nothing fun s A f r hr hP => by
    rw [pure_ok.mp hr]
    exact ⟨rfl, rfl, hP⟩

theorem lift (v : Except String α) :
    Triple M N P (Builder.lift v : Builder ι σ α) fun a s A f => v = .ok a ∧ P s A f :=
  nothing fun s A f r hr hP => by
    obtain ⟨a, rfl, rfl⟩ := lift_ok.mp hr
    exact ⟨rfl, rfl, hP⟩

theorem modify {g : σ → σ} (h : ∀ s A f, P s A f → P' (g s) A f) :
    Triple M N P (Builder.modify g : Builder ι σ Unit) fun _ => P' :=
  nothing fun s A f r hr hP => by
    rw [modify_ok.mp hr]
    exact ⟨rfl, h s A f hP⟩

/-- An instruction: it is executed, and its definitions come into scope. -/
theorem instr {g : σ → α × ι × σ} {Q : α → Assertion σ ρ φ}
    (h : ∀ s A f, (∀ n ∈ N.uses (g s).2.1, n ∈ A) → P s A f → ∃ f',
      M.step (g s).2.1 f = some f' ∧ Q (g s).1 (g s).2.2 ({n | n ∈ N.defs (g s).2.1} ∪ A) f') :
    Triple M N P (Builder.instr g) Q := by
  intro s A f r hr hscope hP
  rw [instr_ok.mp hr] at hscope ⊢
  obtain ⟨f', hstep, hQ⟩ := h s A f hscope.1 hP
  refine ⟨f', by rw [Machine.run_instr, hstep, Option.bind_some, Machine.run_done], ?_⟩
  rw [Code.topNames, Code.topNames, List.append_nil]
  exact hQ

/-- **Sequencing.** -/
theorem bind {m : Builder ι σ α} {k : α → Builder ι σ β} {Q : α → Assertion σ ρ φ}
    {Q' : β → Assertion σ ρ φ} (h : Triple M N P m Q) (hk : ∀ a, Triple M N (Q a) (k a) Q') :
    Triple M N P (m >>= k) Q' := by
  intro s A f r hr hscope hP
  obtain ⟨r₁, r₂, h₁, h₂, rfl⟩ := bind_ok.mp hr
  rw [Code.scoped_append] at hscope
  obtain ⟨f₁, hrun₁, hQ₁⟩ := h s A f r₁ h₁ hscope.1 hP
  obtain ⟨f₂, hrun₂, hQ₂⟩ := hk r₁.value r₁.state _ f₁ r₂ h₂ hscope.2 hQ₁
  refine ⟨f₂, by rw [Machine.run_append, hrun₁, Option.bind_some, hrun₂], ?_⟩
  have hset : {n | n ∈ (r₁.code.append r₂.code).topNames N} ∪ A =
      {n | n ∈ r₂.code.topNames N} ∪ ({n | n ∈ r₁.code.topNames N} ∪ A) := by
    ext n
    simp only [Code.topNames_append, Set.mem_union, Set.mem_ofPred_eq, List.mem_append]
    tauto
  rw [hset]
  exact hQ₂

/-- **Conditionals.** Whichever branch is executed, the other one has been built as well. `hskip`
says that building code that is not executed keeps the precondition, `hthen` and `helse` what holds
where the branches meet and their names have gone out of scope. -/
theorem branch {fork : ι} {mt me : Builder ι σ α} {merge : α → α → σ → α × ι × σ}
    {R : σ → σ → Prop} {Qt Qe Q : α → Assertion σ ρ φ} (hfork : N.defs fork = [])
    (ht : Triple M N (fun s A f => P s A f ∧ M.takes fork f = true) mt Qt)
    (he : Triple M N (fun s A f => P s A f ∧ M.takes fork f = false) me Qe)
    (hmt : Moves R mt) (hme : Moves R me)
    (hskip : ∀ s s' A f, R s s' → P s A f → P s' A f)
    (hthen : ∀ a b s s' A B f, A ⊆ B → Qt a s B f → R s s' →
      Q (merge a b s').1 (merge a b s').2.2 ({n | n ∈ N.defs (merge a b s').2.1} ∪ A)
        (M.join (merge a b s').2.1 true f))
    (helse : ∀ a b s A B f, A ⊆ B → Qe b s B f →
      Q (merge a b s).1 (merge a b s).2.2 ({n | n ∈ N.defs (merge a b s).2.1} ∪ A)
        (M.join (merge a b s).2.1 false f)) :
    Triple M N P (Builder.branch fork mt me merge) Q := by
  intro s A f r hr hscope hP
  obtain ⟨t, e, h₁, h₂, rfl⟩ := branch_ok.mp hr
  obtain ⟨-, hscopet, hscopee, -⟩ := hscope
  have hA : {n | n ∈ N.defs fork} ∪ A = A := by simp [hfork]
  rw [hA] at hscopet hscopee
  have hset : ∀ j : ι, {n | n ∈ (Code.branch fork t.code e.code j .done).topNames N} ∪ A =
      {n | n ∈ N.defs j} ∪ A := by
    intro j
    rw [Code.topNames, Code.topNames, hfork, List.nil_append, List.append_nil]
  rw [hset, Machine.run_branch]
  cases htakes : M.takes fork f with
  | true =>
    obtain ⟨f₁, hrun, hQ⟩ := ht s A f t h₁ hscopet ⟨hP, htakes⟩
    refine ⟨_, by rw [if_pos rfl, hrun, Option.bind_some, Machine.run_done], ?_⟩
    exact hthen _ _ _ _ _ _ _ Set.subset_union_right hQ (hme t.state e h₂)
  | false =>
    have hP' := hskip s t.state A f (hmt s t h₁) hP
    obtain ⟨f₁, hrun, hQ⟩ := he t.state A f e h₂ hscopee ⟨hP', htakes⟩
    refine ⟨_, by rw [if_neg Bool.false_ne_true, hrun, Option.bind_some, Machine.run_done], ?_⟩
    exact helse _ _ _ _ _ _ Set.subset_union_right hQ

end Triple

end Triple

end Builder

end JitSignalEngine
