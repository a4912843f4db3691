import JitSignalEngine.StructuredCode

/-!
# Runs of structured code

What structured code does on a machine, without blocks and edges: instructions are executed in
order, and a conditional executes one of its branches. A run fails when an instruction does.

* `Machine.run` — the run of a piece of code.
* `Machine.MovesAlong` — a preorder along which the instructions move a state. Then a run does
  (`MovesAlong.run`), and an instruction outside all branches is executed somewhere on the way
  (`MovesAlong.outer`).
* `Machine.run_mapOuter` — the instructions outside all branches can be replaced by others that
  do the same in the states a run goes through.
* `Machine.recorded` — the machine that also lists the instructions it executes.
-/

namespace JitSignalEngine

variable {α σ : Type}

namespace Code

/-- The instructions of a piece of code, those of the branches included. -/
def instrs : Code α → List α
  | .done => []
  | .instr i rest => i :: rest.instrs
  | .branch _ t e _ rest => t.instrs ++ e.instrs ++ rest.instrs

/-- The instructions outside all branches. -/
def outer : Code α → List α
  | .done => []
  | .instr i rest => i :: rest.outer
  | .branch _ _ _ _ rest => rest.outer

/-- Replace the instructions outside all branches. -/
def mapOuter (f : α → α) : Code α → Code α
  | .done => .done
  | .instr i rest => .instr (f i) (rest.mapOuter f)
  | .branch k t e j rest => .branch k t e j (rest.mapOuter f)

@[simp] theorem instrs_append (c d : Code α) : (c.append d).instrs = c.instrs ++ d.instrs := by
  induction c with
  | done => rfl
  | instr i rest ih => rw [append, instrs, instrs, ih, List.cons_append]
  | branch k t e j rest _ _ ih => simp only [append, instrs, ih, List.append_assoc]

@[simp] theorem mapOuter_append (f : α → α) (c d : Code α) :
    (c.append d).mapOuter f = (c.mapOuter f).append (d.mapOuter f) := by
  induction c with
  | done => rfl
  | instr i rest ih => rw [append, mapOuter, mapOuter, ih, append]
  | branch k t e j rest _ _ ih => rw [append, mapOuter, mapOuter, ih, append]

theorem outer_subset (c : Code α) : ∀ i ∈ c.outer, i ∈ c.instrs := by
  induction c with
  | done => exact fun _ h => h
  | instr i rest ih =>
    intro k hk
    rcases List.mem_cons.mp hk with rfl | hk
    · exact List.mem_cons_self
    · exact List.mem_cons_of_mem _ (ih k hk)
  | branch k t e j rest _ _ ih => exact fun i hi => List.mem_append_right _ (ih i hi)

end Code

/-- A machine that executes instructions `α` on states `σ`. -/
structure Machine (α σ : Type) where
  /-- an instruction; `none` when it fails -/
  step : α → σ → Option σ
  /-- whether a fork takes the then-branch -/
  takes : α → σ → Bool
  /-- the end of a branch, at the join -/
  join : α → Bool → σ → σ

namespace Machine

variable (M : Machine α σ)

/-- The run of a piece of code. -/
def run : Code α → σ → Option σ
  | .done, s => some s
  | .instr i rest, s => (M.step i s).bind (run rest)
  | .branch k t e j rest, s =>
    if M.takes k s then (run t s).bind fun s => run rest (M.join j true s)
    else (run e s).bind fun s => run rest (M.join j false s)

@[simp] theorem run_done (s : σ) : M.run .done s = some s := rfl

theorem run_instr (i : α) (rest : Code α) (s : σ) :
    M.run (.instr i rest) s = (M.step i s).bind (M.run rest) := rfl

/-- The branch a fork takes, and what follows the join. -/
theorem run_branch (k j : α) (t e rest : Code α) (s : σ) :
    M.run (.branch k t e j rest) s =
      (M.run (if M.takes k s then t else e) s).bind fun s' =>
        M.run rest (M.join j (M.takes k s) s') := by
  rw [run]
  cases M.takes k s <;> rfl

/-- One piece of code after another. -/
@[simp] theorem run_append (c d : Code α) (s : σ) :
    M.run (c.append d) s = (M.run c s).bind (M.run d) := by
  induction c generalizing s with
  | done => rfl
  | instr i rest ih =>
    rw [Code.append, run_instr, run_instr, Option.bind_assoc]
    exact congrArg _ (funext fun s' => ih s')
  | branch k t e j rest _ _ ih =>
    rw [Code.append, run_branch, run_branch, Option.bind_assoc]
    exact congrArg _ (funext fun s' => ih _)

variable {M} {R : σ → σ → Prop} {P : σ → Prop} {c : Code α} {s s' : σ}

variable (M R c) in
/-- The code moves a state along a preorder. -/
structure MovesAlong : Prop where
  /-- the relation is reflexive -/
  refl : ∀ s, R s s
  /-- and transitive -/
  trans : ∀ {s₁ s₂ s₃}, R s₁ s₂ → R s₂ s₃ → R s₁ s₃
  /-- joins move along it -/
  join : ∀ j b s, R s (M.join j b s)
  /-- and so do the instructions of the code -/
  step : ∀ i ∈ c.instrs, ∀ s s', M.step i s = some s' → R s s'

theorem MovesAlong.of_subset {d : Code α} (h : M.MovesAlong R c)
    (hd : ∀ i ∈ d.instrs, i ∈ c.instrs) : M.MovesAlong R d :=
  ⟨h.refl, h.trans, h.join, fun i hi => h.step i (hd i hi)⟩

/-- **What every instruction does**, a run does. -/
theorem MovesAlong.run (hR : M.MovesAlong R c) (h : M.run c s = some s') : R s s' := by
  induction c generalizing s s' with
  | done =>
    cases h
    exact hR.refl s
  | instr i rest ih =>
    obtain ⟨s₁, hs₁, hrest⟩ := Option.bind_eq_some_iff.mp h
    exact hR.trans (hR.step i List.mem_cons_self s s₁ hs₁)
      (ih (hR.of_subset fun k hk => List.mem_cons_of_mem _ hk) hrest)
  | branch k t e j rest iht ihe ih =>
    rw [run_branch] at h
    obtain ⟨s₁, hs₁, hrest⟩ := Option.bind_eq_some_iff.mp h
    have hbranch : R s s₁ := by
      split at hs₁
      · exact iht (hR.of_subset fun i hi => by simp [Code.instrs, hi]) hs₁
      · exact ihe (hR.of_subset fun i hi => by simp [Code.instrs, hi]) hs₁
    exact hR.trans hbranch (hR.trans (hR.join j _ s₁)
      (ih (hR.of_subset fun i hi => by simp [Code.instrs, hi]) hrest))

/-- **An instruction outside all branches** is executed. -/
theorem MovesAlong.outer (hR : M.MovesAlong R c) {i : α} (hi : i ∈ c.outer)
    (h : M.run c s = some s') : ∃ s₁ s₂, R s s₁ ∧ M.step i s₁ = some s₂ ∧ R s₂ s' := by
  induction c generalizing s with
  | done => exact absurd hi List.not_mem_nil
  | instr k rest ih =>
    obtain ⟨s₁, hs₁, hrest⟩ := Option.bind_eq_some_iff.mp h
    have hR' : M.MovesAlong R rest := hR.of_subset fun i hi => List.mem_cons_of_mem _ hi
    rcases List.mem_cons.mp hi with rfl | hi
    · exact ⟨s, s₁, hR.refl s, hs₁, hR'.run hrest⟩
    · obtain ⟨a, b, ha, hab, hb⟩ := ih hR' hi hrest
      exact ⟨a, b, hR.trans (hR.step k List.mem_cons_self s s₁ hs₁) ha, hab, hb⟩
  | branch k t e j rest _ _ ih =>
    rw [run_branch] at h
    obtain ⟨s₁, hs₁, hrest⟩ := Option.bind_eq_some_iff.mp h
    obtain ⟨a, b, ha, hab, hb⟩ := ih (hR.of_subset fun i hi => by simp [Code.instrs, hi]) hi hrest
    have hbranch : R s s₁ := by
      split at hs₁
      · exact (hR.of_subset (d := t) fun i hi => by simp [Code.instrs, hi]).run hs₁
      · exact (hR.of_subset (d := e) fun i hi => by simp [Code.instrs, hi]).run hs₁
    exact ⟨a, b, hR.trans hbranch (hR.trans (hR.join j _ s₁) ha), hab, hb⟩

/-- **Replacing instructions** by others that do the same where a run comes through. -/
theorem run_mapOuter {f : α → α} (hjoin : ∀ j b s, P s → P (M.join j b s))
    (hstep : ∀ i ∈ c.instrs, ∀ s s', P s → M.step i s = some s' → P s')
    (hsame : ∀ i ∈ c.outer, ∀ s, P s → M.step (f i) s = M.step i s) (hs : P s) :
    M.run (c.mapOuter f) s = M.run c s := by
  induction c generalizing s with
  | done => rfl
  | instr i rest ih =>
    rw [Code.mapOuter, run_instr, run_instr, hsame i List.mem_cons_self s hs]
    refine Option.bind_congr fun s₁ hs₁ => ?_
    exact ih (fun k hk => hstep k (List.mem_cons_of_mem _ hk))
      (fun k hk => hsame k (List.mem_cons_of_mem _ hk))
      (hstep i List.mem_cons_self s s₁ hs hs₁)
  | branch k t e j rest _ _ ih =>
    rw [Code.mapOuter, run_branch, run_branch]
    refine Option.bind_congr fun s₁ hs₁ => ?_
    refine ih (fun i hi => hstep i (by simp [Code.instrs, hi])) hsame (hjoin j _ s₁ ?_)
    have hkeep : ∀ d : Code α, (∀ i ∈ d.instrs, i ∈ (Code.branch k t e j rest).instrs) →
        M.MovesAlong (fun a b => P a → P b) d :=
      fun d hd => ⟨fun _ h => h, fun h h' hp => h' (h hp), hjoin,
        fun i hi a b h hp => hstep i (hd i hi) a b hp h⟩
    split at hs₁
    · exact (hkeep t fun i hi => by simp [Code.instrs, hi]).run hs₁ hs
    · exact (hkeep e fun i hi => by simp [Code.instrs, hi]).run hs₁ hs

/-! ### What is executed -/

/-- The machine that lists the instructions it executes, forks and joins apart. -/
def recorded (M : Machine α σ) : Machine α (σ × List α) where
  step i s := (M.step i s.1).map fun s' => (s', s.2 ++ [i])
  takes k s := M.takes k s.1
  join j b s := (M.join j b s.1, s.2)

/-- **Recording** changes nothing. -/
theorem run_recorded (c : Code α) (s : σ × List α) :
    (M.recorded.run c s).map Prod.fst = M.run c s.1 := by
  induction c generalizing s with
  | done => rfl
  | instr i rest ih =>
    rw [run_instr, run_instr, Option.map_bind]
    cases hstep : M.step i s.1 with
    | none => simp [recorded, hstep]
    | some s' => simpa [recorded, hstep] using ih (s', s.2 ++ [i])
  | branch k t e j rest iht ihe ih =>
    have hbranch : (M.recorded.run (if M.takes k s.1 then t else e) s).map Prod.fst =
        M.run (if M.takes k s.1 then t else e) s.1 := by
      split
      · exact iht s
      · exact ihe s
    rw [run_branch, run_branch, ← hbranch, Option.map_bind, Option.bind_map]
    exact Option.bind_congr fun s' _ => ih (M.join j (M.takes k s.1) s'.1, s'.2)

variable (M R c) in
/-- The code moves a state along a preorder as long as the instructions it executes satisfy `Q`. -/
structure MovesUnder (Q : α → Prop) : Prop where
  /-- the relation is reflexive -/
  refl : ∀ s, R s s
  /-- and transitive -/
  trans : ∀ {s₁ s₂ s₃}, R s₁ s₂ → R s₂ s₃ → R s₁ s₃
  /-- joins move along it -/
  join : ∀ j b s, R s (M.join j b s)
  /-- and so do the instructions of the code that satisfy `Q` -/
  step : ∀ i ∈ c.instrs, Q i → ∀ s s', M.step i s = some s' → R s s'

/-- **A run whose instructions satisfy `Q`** moves along the relation. -/
theorem MovesUnder.run {Q : α → Prop} (h : M.MovesUnder R c Q) {is : List α}
    (hrun : M.recorded.run c (s, []) = some (s', is)) (hQ : ∀ i ∈ is, Q i) : R s s' := by
  have hmoves : M.recorded.MovesAlong
      (fun a b => ∃ is, b.2 = a.2 ++ is ∧ ((∀ i ∈ is, Q i) → R a.1 b.1)) c := by
    refine ⟨fun a => ⟨[], by simp, fun _ => h.refl a.1⟩, ?_, ?_, ?_⟩
    · rintro a₁ a₂ a₃ ⟨is, his, hR⟩ ⟨js, hjs, hR'⟩
      refine ⟨is ++ js, by rw [hjs, his, List.append_assoc], fun hall => ?_⟩
      exact h.trans (hR fun i hi => hall i (List.mem_append_left _ hi))
        (hR' fun i hi => hall i (List.mem_append_right _ hi))
    · exact fun j b a => ⟨[], by simp [recorded], fun _ => h.join j b a.1⟩
    · intro i hi a a' hstep
      obtain ⟨b, hb, rfl⟩ := Option.map_eq_some_iff.mp hstep
      exact ⟨[i], rfl, fun hall => h.step i hi (hall i List.mem_cons_self) a.1 b hb⟩
  obtain ⟨js, hjs, hR⟩ := hmoves.run hrun
  rw [List.nil_append] at hjs
  exact hR (hjs ▸ hQ)

end Machine

end JitSignalEngine
