import Mathlib.Data.List.Nodup
import Mathlib.Data.Set.Insert
import Mathlib.Logic.Relation

/-!
# Structured code and dominance

Code a builder writes by opening the blocks of a conditional, filling them and going on
in the block where they meet. Nothing here is about a particular instruction set.

* `Dominates` — dominance in a control flow graph with entry block `0`.
* `Code` — instructions and conditionals over arbitrary items.
* `Region` — the blocks one instruction opens for itself. They are left again through a
  single exit.
* `layout` — the blocks of a piece of code, and for every use of a name the block of its
  definition.
* `Scoped` — every name is used in the branch of its definition or deeper.
* `scoped_iff_dominated` — a name is used in scope exactly where its definition dominates
  the use.
-/

namespace JitSignalEngine

open Relation

/-! ## Dominance -/

/-- The block can be reached from the entry without going through `a`. -/
inductive Avoids (edges : List (Nat × Nat)) (a : Nat) : Nat → Prop
  /-- the entry, when it is not `a` itself -/
  | entry : a ≠ 0 → Avoids edges a 0
  /-- one edge further -/
  | step {u v : Nat} : Avoids edges a u → (u, v) ∈ edges → a ≠ v → Avoids edges a v

/-- Every way from the entry to `b` goes through `a`. -/
def Dominates (edges : List (Nat × Nat)) (a b : Nat) : Prop := ¬ Avoids edges a b

section Graph

variable {edges : List (Nat × Nat)} {a b : Nat}

theorem Avoids.ne (h : Avoids edges a b) : a ≠ b := by
  cases h with
  | entry h => exact h
  | step _ _ h => exact h

theorem Dominates.refl (edges : List (Nat × Nat)) (a : Nat) : Dominates edges a a :=
  fun h => h.ne rfl

/-- Blocks of a part of the graph that can only be entered from `cur` are not reached
around what dominates `cur`. -/
theorem Avoids.enter {P : Nat → Prop} {cur : Nat} (hentry : ¬ P 0)
    (hpart : ∀ {u v}, (u, v) ∈ edges → P v → u = cur ∨ P u) (h : Avoids edges a b)
    (hb : P b) : Avoids edges a cur := by
  induction h with
  | entry _ => exact absurd hb hentry
  | step hu huv _ ih =>
    rcases hpart huv hb with rfl | hu'
    · exact hu
    · exact ih hu'

end Graph

/-! ## Code -/

/-- Items in sequence, and conditionals: `fork` ends the block before the branches, `join`
starts the block after them. -/
inductive Code (α : Type) : Type where
  /-- no code -/
  | done
  /-- an instruction -/
  | instr (i : α) (rest : Code α)
  /-- a conditional -/
  | branch (fork : α) (thenCode elseCode : Code α) (join : α) (rest : Code α)

/-- The blocks an instruction opens. Block `0` is the one it starts in, the new ones
count from `1`. -/
structure Region where
  /-- how many blocks are new -/
  blocks : Nat
  /-- the edges between them -/
  edges : List (Nat × Nat)
  /-- where code goes on -/
  exit : Nat
  /-- edges lead from the known blocks to new ones -/
  edges_le : ∀ e ∈ edges, e.1 ≤ blocks ∧ 0 < e.2 ∧ e.2 ≤ blocks
  /-- the exit is one of the blocks -/
  exit_le : exit ≤ blocks
  /-- and it can be reached -/
  reaches : ReflTransGen (fun u v => (u, v) ∈ edges) 0 exit

namespace Region

/-- No new blocks. -/
def plain : Region := ⟨0, [], 0, fun _ h => absurd h List.not_mem_nil, le_rfl, .refl⟩

/-- The number in the function of a block of the region. -/
def place (cur next k : Nat) : Nat := if k = 0 then cur else next + (k - 1)

theorem place_zero (cur next : Nat) : place cur next 0 = cur := rfl

/-- New blocks get the next numbers. -/
theorem place_pos {blocks k : Nat} (cur next : Nat) (hk : 0 < k) (hle : k ≤ blocks) :
    next ≤ place cur next k ∧ place cur next k < next + blocks := by
  unfold place
  rw [if_neg (by omega)]
  omega

theorem place_le {blocks k : Nat} (cur next : Nat) (hle : k ≤ blocks) :
    place cur next k = cur ∨ (next ≤ place cur next k ∧ place cur next k < next + blocks) := by
  by_cases hk : k = 0
  · exact .inl (by rw [hk, place_zero])
  · exact .inr (place_pos cur next (by omega) hle)

end Region

section Names

variable {α ρ : Type}

/-- What items define and use. -/
structure Names (α ρ : Type) where
  /-- the names an item defines -/
  defs : α → List ρ
  /-- the names an item uses -/
  uses : α → List ρ

namespace Code

/-- One piece of code after another. -/
def append : Code α → Code α → Code α
  | .done, c => c
  | .instr i rest, c => .instr i (rest.append c)
  | .branch f t e j rest, c => .branch f t e j (rest.append c)

/-- The names a piece of code defines. -/
def names (N : Names α ρ) : Code α → List ρ
  | .done => []
  | .instr i rest => N.defs i ++ rest.names N
  | .branch f t e j rest => N.defs f ++ t.names N ++ e.names N ++ N.defs j ++ rest.names N

/-- The names it defines outside branches. -/
def topNames (N : Names α ρ) : Code α → List ρ
  | .done => []
  | .instr i rest => N.defs i ++ rest.topNames N
  | .branch f _ _ j rest => N.defs f ++ N.defs j ++ rest.topNames N

/-- **Scoping**: what a branch defines is gone after it. -/
def Scoped (N : Names α ρ) : Code α → Set ρ → Prop
  | .done, _ => True
  | .instr i rest, A => (∀ r ∈ N.uses i, r ∈ A) ∧ rest.Scoped N ({r | r ∈ N.defs i} ∪ A)
  | .branch f t e j rest, A =>
    (∀ r ∈ N.uses f, r ∈ A) ∧ t.Scoped N ({r | r ∈ N.defs f} ∪ A) ∧
      e.Scoped N ({r | r ∈ N.defs f} ∪ A) ∧ (∀ r ∈ N.uses j, r ∈ {r | r ∈ N.defs f} ∪ A) ∧
      rest.Scoped N ({r | r ∈ N.defs j} ∪ ({r | r ∈ N.defs f} ∪ A))

@[simp] theorem done_append (c : Code α) : Code.done.append c = c := rfl

@[simp] theorem append_done (c : Code α) : c.append .done = c := by
  induction c with
  | done => rfl
  | instr i rest ih => rw [append, ih]
  | branch f t e j rest _ _ ih => rw [append, ih]

theorem append_assoc (c d e : Code α) : (c.append d).append e = c.append (d.append e) := by
  induction c with
  | done => rfl
  | instr i rest ih => rw [append, append, append, ih]
  | branch f t e j rest _ _ ih => rw [append, append, append, ih]

theorem names_append (N : Names α ρ) (c d : Code α) :
    (c.append d).names N = c.names N ++ d.names N := by
  induction c with
  | done => rfl
  | instr i rest ih => rw [append, names, names, ih, List.append_assoc]
  | branch f t e j rest _ _ ih => simp only [append, names, ih, List.append_assoc]

theorem topNames_append (N : Names α ρ) (c d : Code α) :
    (c.append d).topNames N = c.topNames N ++ d.topNames N := by
  induction c with
  | done => rfl
  | instr i rest ih => rw [append, topNames, topNames, ih, List.append_assoc]
  | branch f t e j rest _ _ ih => simp only [append, topNames, ih, List.append_assoc]

/-- Scoping of one piece of code after another. -/
theorem scoped_append (N : Names α ρ) (c d : Code α) (A : Set ρ) :
    (c.append d).Scoped N A ↔ c.Scoped N A ∧ d.Scoped N ({r | r ∈ c.topNames N} ∪ A) := by
  induction c generalizing A with
  | done =>
    simp only [append, Scoped, topNames, List.not_mem_nil, Set.ofPred_false, Set.empty_union,
      true_and]
  | instr i rest ih =>
    have hset : {r | r ∈ rest.topNames N} ∪ ({r | r ∈ N.defs i} ∪ A) =
        {r | r ∈ N.defs i ++ rest.topNames N} ∪ A := by
      ext r
      simp only [Set.mem_union, Set.mem_ofPred_eq, List.mem_append]
      tauto
    rw [append, Scoped, Scoped, ih, topNames, hset, and_assoc]
  | branch f t e j rest _ _ ih =>
    have hset : {r | r ∈ rest.topNames N} ∪
        ({r | r ∈ N.defs j} ∪ ({r | r ∈ N.defs f} ∪ A)) =
        {r | r ∈ N.defs f ++ N.defs j ++ rest.topNames N} ∪ A := by
      ext r
      simp only [Set.mem_union, Set.mem_ofPred_eq, List.mem_append]
      tauto
    rw [append, Scoped, Scoped, ih, topNames, hset]
    simp only [and_assoc]

end Code

/-! ## Layout -/

/-- Code in its blocks. -/
structure Layout (α ρ : Type) where
  /-- the items, each with the block it ends in -/
  items : List (α × Nat)
  /-- every use of a name: the block of its definition, if it has one, and the block of
  the use -/
  reuses : List (Option Nat × Nat)
  /-- the edges of the graph -/
  edges : List (Nat × Nat)
  /-- the block code goes on in -/
  exit : Nat
  /-- the number of the next new block -/
  next : Nat
  /-- where each name was defined -/
  env : ρ → Option Nat

variable [DecidableEq ρ]

/-- The uses of an item. -/
def reusesOf (N : Names α ρ) (env : ρ → Option Nat) (i : α) (block : Nat) :
    List (Option Nat × Nat) :=
  (N.uses i).map fun r => (env r, block)

/-- The definitions of an item. -/
def define (N : Names α ρ) (env : ρ → Option Nat) (i : α) (block : Nat) : ρ → Option Nat :=
  fun r => if r ∈ N.defs i then some block else env r

/-- The blocks of a piece of code that starts in the block `cur` and opens the blocks from
`next` on. A conditional opens its three blocks first. -/
def layout (N : Names α ρ) (region : α → Region) :
    Code α → (cur next : Nat) → (env : ρ → Option Nat) → Layout α ρ
  | .done, cur, next, env => ⟨[], [], [], cur, next, env⟩
  | .instr i rest, cur, next, env =>
    let exit := Region.place cur next (region i).exit
    let r := layout N region rest exit (next + (region i).blocks) (define N env i exit)
    ⟨(i, exit) :: r.items, reusesOf N env i exit ++ r.reuses,
      (region i).edges.map (fun e => (Region.place cur next e.1, Region.place cur next e.2)) ++
        r.edges, r.exit, r.next, r.env⟩
  | .branch f t e j rest, cur, next, env =>
    let env' := define N env f cur
    let lt := layout N region t next (next + 3) env'
    let le := layout N region e (next + 1) lt.next lt.env
    let r := layout N region rest (next + 2) le.next (define N le.env j (next + 2))
    ⟨(f, cur) :: lt.items ++ le.items ++ (j, next + 2) :: r.items,
      reusesOf N env f cur ++ lt.reuses ++ le.reuses ++ reusesOf N le.env j (next + 2) ++ r.reuses,
      (cur, next) :: (cur, next + 1) :: (lt.exit, next + 2) :: (le.exit, next + 2) ::
        (lt.edges ++ le.edges ++ r.edges), r.exit, r.next, r.env⟩

/-! ### The blocks of a piece of code -/

variable {N : Names α ρ} {region : α → Region}

/-- The blocks a piece of code opens. -/
structure Layout.Opens (l : Layout α ρ) (cur next : Nat) : Prop where
  /-- the new blocks have the next numbers -/
  le : next ≤ l.next
  /-- edges lead to new blocks, from there or from the first block -/
  edges : ∀ {u v}, (u, v) ∈ l.edges →
    (u = cur ∨ (next ≤ u ∧ u < l.next)) ∧ next ≤ v ∧ v < l.next
  /-- code ends where it started or in a new block -/
  exit : l.exit = cur ∨ (next ≤ l.exit ∧ l.exit < l.next)

variable (N region) in
theorem layout_opens (c : Code α) : ∀ (cur next : Nat) (env : ρ → Option Nat),
    (layout N region c cur next env).Opens cur next := by
  induction c with
  | done =>
    intro cur next env
    exact ⟨le_rfl, fun h => absurd h List.not_mem_nil, .inl rfl⟩
  | instr i rest ih =>
    intro cur next env
    have hexit := Region.place_le cur next (region i).exit_le
    obtain ⟨hle, hedges, hex⟩ := ih (Region.place cur next (region i).exit)
      (next + (region i).blocks) (define N env i (Region.place cur next (region i).exit))
    refine ⟨by simp only [layout]; omega, fun {u v} huv => ?_, ?_⟩
    · simp only [layout] at huv ⊢
      rcases List.mem_append.mp huv with huv | huv
      · obtain ⟨⟨x, y⟩, hxy, heq⟩ := List.mem_map.mp huv
        obtain ⟨hx, hy, hy'⟩ := (region i).edges_le _ hxy
        obtain ⟨rfl, rfl⟩ := Prod.mk.inj heq
        have hu := Region.place_le cur next hx
        have hv := Region.place_pos cur next hy hy'
        dsimp only at hu hv ⊢
        omega
      · have := hedges huv
        omega
    · simp only [layout]
      omega
  | branch f t e j rest iht ihe ih =>
    intro cur next env
    obtain ⟨hlet, hedgest, hext⟩ := iht next (next + 3) (define N env f cur)
    obtain ⟨hlee, hedgese, hexe⟩ := ihe (next + 1)
      (layout N region t next (next + 3) (define N env f cur)).next
      (layout N region t next (next + 3) (define N env f cur)).env
    obtain ⟨hle, hedges, hex⟩ := ih (next + 2)
      (layout N region e (next + 1)
        (layout N region t next (next + 3) (define N env f cur)).next
        (layout N region t next (next + 3) (define N env f cur)).env).next
      (define N (layout N region e (next + 1)
        (layout N region t next (next + 3) (define N env f cur)).next
        (layout N region t next (next + 3) (define N env f cur)).env).env j (next + 2))
    refine ⟨by simp only [layout]; omega, fun {u v} huv => ?_, by simp only [layout]; omega⟩
    simp only [layout, List.mem_cons, List.mem_append, Prod.mk.injEq] at huv ⊢
    rcases huv with ⟨rfl, rfl⟩ | ⟨rfl, rfl⟩ | ⟨rfl, rfl⟩ | ⟨rfl, rfl⟩ | (huv | huv) | huv
    · omega
    · omega
    · omega
    · omega
    · have := hedgest huv
      omega
    · have := hedgese huv
      omega
    · have := hedges huv
      omega

/-- What the graph `edges` of a function knows about a piece of code in it. -/
structure Layout.Within (l : Layout α ρ) (edges : List (Nat × Nat)) (next : Nat) : Prop where
  /-- the edges of the code are there -/
  subset : ∀ x ∈ l.edges, x ∈ edges
  /-- and no others lead to its blocks -/
  preds : ∀ {u v}, (u, v) ∈ edges → next ≤ v → v < l.next → (u, v) ∈ l.edges

omit [DecidableEq ρ] in
/-- Inside a piece of code everything is dominated by what dominates its start. -/
theorem Layout.Opens.dominates {l : Layout α ρ} {edges : List (Nat × Nat)} {cur next a b : Nat}
    (h : l.Opens cur next) (hw : l.Within edges next) (hnext : 0 < next)
    (ha : Dominates edges a cur) (hb : next ≤ b ∧ b < l.next) : Dominates edges a b := by
  refine fun hab => ha (hab.enter (P := fun b => next ≤ b ∧ b < l.next) (by omega) ?_ hb)
  intro u v huv hv
  exact (h.edges (hw.preds huv hv.1 hv.2)).1

omit [DecidableEq ρ] in
theorem Layout.Opens.dominates_exit {l : Layout α ρ} {edges : List (Nat × Nat)}
    {cur next a : Nat} (h : l.Opens cur next) (hw : l.Within edges next) (hnext : 0 < next)
    (ha : Dominates edges a cur) : Dominates edges a l.exit := by
  rcases h.exit with hexit | hexit
  · rw [hexit]
    exact ha
  · exact h.dominates hw hnext ha hexit

/-- The parts of a sequence. -/
theorem within_instr {i : α} {rest : Code α} {cur next : Nat} {env : ρ → Option Nat}
    {edges : List (Nat × Nat)}
    (h : (layout N region (.instr i rest) cur next env).Within edges next) :
    (layout N region rest (Region.place cur next (region i).exit) (next + (region i).blocks)
      (define N env i (Region.place cur next (region i).exit))).Within edges
        (next + (region i).blocks) := by
  refine ⟨fun x hx => h.subset x (List.mem_append_right _ hx), fun {u v} huv hle hlt => ?_⟩
  have := h.preds huv (by omega) hlt
  simp only [layout] at this
  rcases List.mem_append.mp this with huv' | huv'
  · obtain ⟨⟨x, y⟩, hxy, heq⟩ := List.mem_map.mp huv'
    obtain ⟨hx, hy, hy'⟩ := (region i).edges_le _ hxy
    obtain ⟨rfl, rfl⟩ := Prod.mk.inj heq
    have hv := Region.place_pos cur next hy hy'
    dsimp only at hv hle
    omega
  · exact huv'

/-- The parts of a conditional. -/
theorem within_branch {f j : α} {t e rest : Code α} {cur next : Nat} {env : ρ → Option Nat}
    {edges : List (Nat × Nat)}
    (h : (layout N region (.branch f t e j rest) cur next env).Within edges next) :
    let lt := layout N region t next (next + 3) (define N env f cur)
    let le := layout N region e (next + 1) lt.next lt.env
    let r := layout N region rest (next + 2) le.next (define N le.env j (next + 2))
    lt.Within edges (next + 3) ∧ le.Within edges lt.next ∧ r.Within edges le.next := by
  intro lt le r
  have ht : lt.Opens next (next + 3) := layout_opens N region t next (next + 3) (define N env f cur)
  have he : le.Opens (next + 1) lt.next := layout_opens N region e (next + 1) lt.next lt.env
  have hr : r.Opens (next + 2) le.next :=
    layout_opens N region rest (next + 2) le.next (define N le.env j (next + 2))
  have := ht.le
  have := he.le
  have := hr.le
  have hpreds : ∀ {u v}, (u, v) ∈ edges → next + 3 ≤ v → v < r.next →
      (u, v) ∈ lt.edges ∨ (u, v) ∈ le.edges ∨ (u, v) ∈ r.edges := by
    intro u v huv hle hlt
    have hmem := h.preds huv (by omega) hlt
    simp only [layout, List.mem_cons, List.mem_append, Prod.mk.injEq] at hmem
    rcases hmem with ⟨-, rfl⟩ | ⟨-, rfl⟩ | ⟨-, rfl⟩ | ⟨-, rfl⟩ | (hmem | hmem) | hmem
    · omega
    · omega
    · omega
    · omega
    · exact .inl hmem
    · exact .inr (.inl hmem)
    · exact .inr (.inr hmem)
  have hsub : ∀ x, x ∈ lt.edges ∨ x ∈ le.edges ∨ x ∈ r.edges → x ∈ edges := by
    intro x hx
    refine h.subset x ?_
    simp only [layout, List.mem_cons, List.mem_append]
    exact .inr (.inr (.inr (.inr (or_assoc.mpr hx))))
  refine ⟨⟨fun x hx => hsub x (.inl hx), fun {u v} huv hle hlt => ?_⟩,
    ⟨fun x hx => hsub x (.inr (.inl hx)), fun {u v} huv hle hlt => ?_⟩,
    ⟨fun x hx => hsub x (.inr (.inr hx)), fun {u v} huv hle hlt => ?_⟩⟩
  all_goals
    rcases hpreds huv (by omega) (by omega) with hmem | hmem | hmem
  · exact hmem
  · have := he.edges hmem
    omega
  · have := hr.edges hmem
    omega
  · have := ht.edges hmem
    omega
  · exact hmem
  · have := hr.edges hmem
    omega
  · have := ht.edges hmem
    omega
  · have := he.edges hmem
    omega
  · exact hmem

/-- The edges of a conditional that lead to its three blocks. -/
theorem within_branch_edges {f j : α} {t e rest : Code α} {cur next : Nat}
    {env : ρ → Option Nat} {edges : List (Nat × Nat)}
    (h : (layout N region (.branch f t e j rest) cur next env).Within edges next) :
    let lt := layout N region t next (next + 3) (define N env f cur)
    let le := layout N region e (next + 1) lt.next lt.env
    (cur, next) ∈ edges ∧ (cur, next + 1) ∈ edges ∧ (lt.exit, next + 2) ∈ edges ∧
      (le.exit, next + 2) ∈ edges := by
  refine ⟨h.subset _ ?_, h.subset _ ?_, h.subset _ ?_, h.subset _ ?_⟩ <;>
    simp only [layout, List.mem_cons, true_or, or_true]

/-- The three parts of a conditional, as pieces of code. -/
theorem branch_opens (N : Names α ρ) (region : α → Region) (f j : α) (t e rest : Code α)
    (cur next : Nat) (env : ρ → Option Nat) :
    let lt := layout N region t next (next + 3) (define N env f cur)
    let le := layout N region e (next + 1) lt.next lt.env
    let r := layout N region rest (next + 2) le.next (define N le.env j (next + 2))
    lt.Opens next (next + 3) ∧ le.Opens (next + 1) lt.next ∧ r.Opens (next + 2) le.next :=
  ⟨layout_opens .., layout_opens .., layout_opens ..⟩

variable (N region) in
/-- **A way around an outside block** leads through every piece of code. -/
theorem avoids_exit {edges : List (Nat × Nat)} {a : Nat} (c : Code α) :
    ∀ (cur next : Nat) (env : ρ → Option Nat),
      (layout N region c cur next env).Within edges next →
      (a < next ∨ (layout N region c cur next env).next ≤ a) → Avoids edges a cur →
      Avoids edges a (layout N region c cur next env).exit := by
  induction c with
  | done =>
    intro cur next env _ _ h
    exact h
  | instr i rest ih =>
    intro cur next env hw ha h
    have hle := (layout_opens N region rest
      (Region.place cur next (region i).exit)
      (next + (region i).blocks) (define N env i (Region.place cur next (region i).exit))).le
    have ha' : a < next ∨ next + (region i).blocks ≤ a := by
      simp only [layout] at ha
      omega
    refine ih _ _ _ (within_instr hw) (by simp only [layout] at ha; omega) ?_
    -- along the edges of the region
    have hreach : ∀ k, ReflTransGen (fun u v => (u, v) ∈ (region i).edges) 0 k →
        Avoids edges a (Region.place cur next k) := by
      intro k hk
      induction hk with
      | refl => exact h
      | @tail u v _ huv ih =>
        obtain ⟨-, hv, hv'⟩ := (region i).edges_le _ huv
        have hplace := Region.place_pos cur next hv hv'
        refine .step ih (hw.subset _ (List.mem_append_left _ ?_)) ?_
        · exact List.mem_map.mpr ⟨(u, v), huv, rfl⟩
        · dsimp only at hplace
          omega
    exact hreach _ (region i).reaches
  | branch f t e j rest iht ihe ih =>
    intro cur next env hw ha h
    obtain ⟨hwt, hwe, hwr⟩ := within_branch hw
    obtain ⟨hct, -, htm, -⟩ := within_branch_edges hw
    obtain ⟨hot, hoe, hor⟩ := branch_opens N region f j t e rest cur next env
    have := hot.le
    have := hoe.le
    have := hor.le
    simp only [layout] at ha
    have ht := iht next (next + 3) _ hwt (by omega) (.step h hct (by omega))
    exact ih _ _ _ hwr (by omega) (.step ht htm (by omega))

variable (N region) in
/-- Where the names of a piece of code are defined. -/
theorem layout_env (c : Code α) : ∀ (cur next : Nat) (env : ρ → Option Nat) (r : ρ),
    (r ∉ c.names N → (layout N region c cur next env).env r = env r) ∧
    (r ∈ c.names N → ∃ b, (layout N region c cur next env).env r = some b ∧
      (b = cur ∨ (next ≤ b ∧ b < (layout N region c cur next env).next))) := by
  induction c with
  | done =>
    intro cur next env r
    exact ⟨fun _ => rfl, fun h => absurd h List.not_mem_nil⟩
  | instr i rest ih =>
    intro cur next env r
    have hexit := Region.place_le cur next (region i).exit_le
    obtain ⟨hout, hin⟩ := ih (Region.place cur next (region i).exit)
      (next + (region i).blocks) (define N env i (Region.place cur next (region i).exit)) r
    have hle := (layout_opens N region rest
      (Region.place cur next (region i).exit)
      (next + (region i).blocks) (define N env i (Region.place cur next (region i).exit))).le
    simp only [Code.names, List.mem_append, layout]
    refine ⟨fun hr => ?_, fun hr => ?_⟩
    · rw [hout fun h => hr (.inr h), define, if_neg fun h => hr (.inl h)]
    · by_cases hrest : r ∈ rest.names N
      · obtain ⟨b, hb, hrange⟩ := hin hrest
        exact ⟨b, hb, by omega⟩
      · refine ⟨_, by rw [hout hrest, define, if_pos (hr.resolve_right hrest)], ?_⟩
        omega
  | branch f t e j rest iht ihe ih =>
    intro cur next env r
    obtain ⟨hot, hoe, hor⟩ := branch_opens N region f j t e rest cur next env
    have := hot.le
    have := hoe.le
    have := hor.le
    obtain ⟨houtt, hint⟩ := iht next (next + 3) (define N env f cur) r
    rw [layout, Code.names]
    dsimp only at this ⊢
    generalize layout N region t next (next + 3) (define N env f cur) = lt at *
    obtain ⟨houte, hine⟩ := ihe (next + 1) lt.next lt.env r
    generalize layout N region e (next + 1) lt.next lt.env = le at *
    obtain ⟨hout, hin⟩ := ih (next + 2) le.next (define N le.env j (next + 2)) r
    generalize layout N region rest (next + 2) le.next (define N le.env j (next + 2)) = lr at *
    simp only [List.mem_append]
    refine ⟨fun hr => ?_, fun hr => ?_⟩
    · simp only [not_or] at hr
      rw [hout hr.2, define, if_neg hr.1.2, houte hr.1.1.2, houtt hr.1.1.1.2, define,
        if_neg hr.1.1.1.1]
    · by_cases hrest : r ∈ rest.names N
      · obtain ⟨b, hb, hrange⟩ := hin hrest
        exact ⟨b, hb, by omega⟩
      · rw [hout hrest]
        by_cases hj : r ∈ N.defs j
        · exact ⟨_, by rw [define, if_pos hj], by omega⟩
        · rw [define, if_neg hj]
          by_cases he : r ∈ e.names N
          · obtain ⟨b, hb, hrange⟩ := hine he
            exact ⟨b, hb, by omega⟩
          · rw [houte he]
            by_cases ht : r ∈ t.names N
            · obtain ⟨b, hb, hrange⟩ := hint ht
              exact ⟨b, hb, by omega⟩
            · have hf : r ∈ N.defs f := by simpa only [hrest, hj, he, ht, or_false] using hr
              exact ⟨cur, by rw [houtt ht, define, if_pos hf], .inl rfl⟩

/-! ### Scoping and dominance -/

/-- A use is dominated by its definition. -/
def Reused (edges : List (Nat × Nat)) (x : Option Nat × Nat) : Prop :=
  ∃ b, x.1 = some b ∧ Dominates edges b x.2

/-- A point in a function: the names of `A` are in scope, the others defined so far are
not. -/
structure Point (edges : List (Nat × Nat)) (A : Set ρ) (env : ρ → Option Nat)
    (cur next : Nat) : Prop where
  /-- there is a block already -/
  cur_lt : cur < next
  /-- definitions are in known blocks -/
  old : ∀ {r b}, env r = some b → b < next
  /-- names in scope dominate the point -/
  visible : ∀ {r}, r ∈ A → ∃ b, env r = some b ∧ Dominates edges b cur
  /-- other names do not -/
  hidden : ∀ {r b}, env r = some b → r ∉ A → Avoids edges b cur
  /-- nor do blocks that are not there yet -/
  fresh : ∀ {a}, next ≤ a → Avoids edges a cur

namespace Point

variable {edges : List (Nat × Nat)} {A : Set ρ} {env : ρ → Option Nat} {cur next : Nat}

omit [DecidableEq ρ] in
/-- What is dominated is what is in scope. -/
theorem reused_iff (h : Point edges A env cur next) (r : ρ) :
    Reused edges (env r, cur) ↔ r ∈ A := by
  constructor
  · rintro ⟨b, hb, hdom⟩
    by_contra hr
    exact hdom (h.hidden hb hr)
  · exact h.visible

/-- A definition. -/
theorem define (h : Point edges A env cur next) (N : Names α ρ) (i : α) :
    Point edges ({r | r ∈ N.defs i} ∪ A) (define N env i cur) cur next where
  cur_lt := h.cur_lt
  old {r b} hb := by
    by_cases hr : r ∈ N.defs i
    · rw [JitSignalEngine.define, if_pos hr] at hb
      cases hb
      exact h.cur_lt
    · rw [JitSignalEngine.define, if_neg hr] at hb
      exact h.old hb
  visible {r} hr := by
    by_cases hi : r ∈ N.defs i
    · exact ⟨cur, by rw [JitSignalEngine.define, if_pos hi], .refl edges cur⟩
    · rw [JitSignalEngine.define, if_neg hi]
      exact h.visible (hr.resolve_left hi)
  hidden {r b} hb hr := by
    have hi : r ∉ N.defs i := fun hi => hr (.inl hi)
    rw [JitSignalEngine.define, if_neg hi] at hb
    exact h.hidden hb fun hA => hr (.inr hA)
  fresh := h.fresh

/-- Past a piece of code, apart from what it defines. -/
theorem move {N : Names α ρ} {region : α → Region} {env' : ρ → Option Nat}
    (h : Point edges A env cur next) (c : Code α)
    (hw : (layout N region c cur next env').Within edges next) :
    Point edges A env (layout N region c cur next env').exit
      (layout N region c cur next env').next := by
  have hopen := layout_opens N region c cur next env'
  have hcur := h.cur_lt
  have hle := hopen.le
  refine ⟨?_, ?_, ?_, ?_, ?_⟩
  · rcases hopen.exit with hexit | hexit
    · rw [hexit]
      omega
    · exact hexit.2
  · intro r b hb
    exact Nat.lt_of_lt_of_le (h.old hb) hle
  · intro r hr
    obtain ⟨b, hb, hdom⟩ := h.visible hr
    exact ⟨b, hb, hopen.dominates_exit hw (by omega) hdom⟩
  · intro r b hb hr
    exact avoids_exit N region c cur next env' hw (.inl (h.old hb)) (h.hidden hb hr)
  · intro a ha
    exact avoids_exit N region c cur next env' hw (.inr ha) (h.fresh (by omega))

end Point

/-- An instruction on its own. -/
theorem within_first {edges : List (Nat × Nat)} {i : α} {rest : Code α} {cur next : Nat}
    {env : ρ → Option Nat}
    (h : (layout N region (.instr i rest) cur next env).Within edges next) :
    (layout N region (.instr i .done) cur next env).Within edges next := by
  have hopen := layout_opens N region rest
    (Region.place cur next (region i).exit) (next + (region i).blocks)
    (define N env i (Region.place cur next (region i).exit))
  refine ⟨fun x hx => h.subset x ?_, fun {u v} huv hle hlt => ?_⟩
  · simp only [layout, List.append_nil] at hx ⊢
    exact List.mem_append_left _ hx
  · simp only [layout, List.append_nil] at hlt ⊢
    have hmem := h.preds huv hle (Nat.lt_of_lt_of_le hlt hopen.le)
    simp only [layout] at hmem
    refine (List.mem_append.mp hmem).resolve_right fun hrest => ?_
    have := hopen.edges hrest
    omega

section Branches

variable {edges : List (Nat × Nat)} {A : Set ρ} {env env' : ρ → Option Nat} {cur next m m' : Nat}

omit [DecidableEq ρ] in
/-- At the start of the then-branch. -/
theorem Point.enterThen (h : Point edges A env cur next) (hedge : (cur, next) ∈ edges)
    (hdom : ∀ {a}, Dominates edges a cur → Dominates edges a next) :
    Point edges A env next (next + 3) where
  cur_lt := by omega
  old hb := Nat.lt_of_lt_of_le (h.old hb) (by omega)
  visible hr := by
    obtain ⟨b, hb, hcur⟩ := h.visible hr
    exact ⟨b, hb, hdom hcur⟩
  hidden hb hr := .step (h.hidden hb hr) hedge (by have := h.old hb; omega)
  fresh ha := .step (h.fresh (by omega)) hedge (by omega)

omit [DecidableEq ρ] in
/-- At the start of the else-branch: what the then-branch defined is not in scope, and the
way through the fork avoids it. -/
theorem Point.enterElse (h : Point edges A env cur next) (hedge : (cur, next + 1) ∈ edges)
    (hdom : ∀ {a}, Dominates edges a cur → Dominates edges a (next + 1)) (hm : next + 3 ≤ m)
    (hkeep : ∀ {r}, r ∈ A → env' r = env r)
    (hnew : ∀ {r b}, env' r = some b →
      env r = some b ∨ b = next ∨ (next + 3 ≤ b ∧ b < m)) :
    Point edges A env' (next + 1) m where
  cur_lt := by omega
  old hb := by
    rcases hnew hb with hb | hb
    · have := h.old hb
      omega
    · omega
  visible hr := by
    obtain ⟨b, hb, hcur⟩ := h.visible hr
    exact ⟨b, (hkeep hr).trans hb, hdom hcur⟩
  hidden hb hr := by
    rcases hnew hb with hb | hb
    · exact .step (h.hidden hb hr) hedge (by have := h.old hb; omega)
    · exact .step (h.fresh (by omega)) hedge (by omega)
  fresh ha := .step (h.fresh (by omega)) hedge (by omega)

omit [DecidableEq ρ] in
/-- Where the branches meet: what one of them defined is avoided by way of the other. -/
theorem Point.leave (h : Point edges A env cur next) (hm : next + 3 ≤ m) (hm' : m ≤ m')
    (hdom : ∀ {a}, Dominates edges a cur → Dominates edges a (next + 2))
    (hthen : ∀ {a}, Avoids edges a cur → a ≠ next → a ≠ next + 2 → a < next + 3 ∨ m ≤ a →
      Avoids edges a (next + 2))
    (helse : ∀ {a}, Avoids edges a cur → a ≠ next + 1 → a ≠ next + 2 → a < m ∨ m' ≤ a →
      Avoids edges a (next + 2))
    (hkeep : ∀ {r}, r ∈ A → env' r = env r)
    (hnew : ∀ {r b}, env' r = some b → env r = some b ∨
      (b = next ∨ (next + 3 ≤ b ∧ b < m)) ∨ (b = next + 1 ∨ (m ≤ b ∧ b < m'))) :
    Point edges A env' (next + 2) m' where
  cur_lt := by omega
  old hb := by
    rcases hnew hb with hb | hb
    · have := h.old hb
      omega
    · omega
  visible hr := by
    obtain ⟨b, hb, hcur⟩ := h.visible hr
    exact ⟨b, (hkeep hr).trans hb, hdom hcur⟩
  hidden hb hr := by
    rcases hnew hb with hb | hb | hb
    · have := h.old hb
      exact hthen (h.hidden hb hr) (by omega) (by omega) (by omega)
    · exact helse (h.fresh (by omega)) (by omega) (by omega) (by omega)
    · exact hthen (h.fresh (by omega)) (by omega) (by omega) (by omega)
  fresh ha := hthen (h.fresh (by omega)) (by omega) (by omega) (by omega)

end Branches

omit [DecidableEq ρ] in
/-- The uses of an item at a point where they are looked up. -/
theorem Point.reuses_iff {edges : List (Nat × Nat)} {A : Set ρ} {env : ρ → Option Nat}
    {cur next : Nat} (h : Point edges A env cur next) (N : Names α ρ) (i : α) :
    (∀ x ∈ reusesOf N env i cur, Reused edges x) ↔ ∀ r ∈ N.uses i, r ∈ A := by
  simp only [reusesOf, List.forall_mem_map, h.reused_iff]

/-- **Scoping and dominance agree** on every piece of code, and at its end again. -/
theorem scoped_layout {edges : List (Nat × Nat)} (c : Code α) :
    ∀ (A : Set ρ) (cur next : Nat) (env : ρ → Option Nat),
      (layout N region c cur next env).Within edges next → Point edges A env cur next →
      (c.names N).Nodup → (∀ r ∈ c.names N, r ∉ A) →
      Point edges ({r | r ∈ c.topNames N} ∪ A) (layout N region c cur next env).env
        (layout N region c cur next env).exit (layout N region c cur next env).next ∧
      ((∀ x ∈ (layout N region c cur next env).reuses, Reused edges x) ↔ c.Scoped N A) := by
  induction c with
  | done =>
    intro A cur next env _ hp _ _
    refine ⟨?_, ⟨fun _ => trivial, fun _ x hx => absurd hx List.not_mem_nil⟩⟩
    simpa only [layout, Code.topNames, List.not_mem_nil, Set.ofPred_false, Set.empty_union] using hp
  | instr i rest ih =>
    intro A cur next env hw hp hnd hA
    rw [Code.names, List.nodup_append] at hnd
    simp only [Code.names, List.mem_append] at hA
    have hexit := hp.move (.instr i .done) (within_first hw)
    obtain ⟨hend, hiff⟩ := ih ({r | r ∈ N.defs i} ∪ A) _ _ _ (within_instr hw)
      (hexit.define N i) hnd.2.1 (fun r hr h => h.elim (fun h => hnd.2.2 r h r hr rfl)
        (hA r (.inr hr)))
    constructor
    · have hset : {r | r ∈ rest.topNames N} ∪ ({r | r ∈ N.defs i} ∪ A) =
          {r | r ∈ (Code.instr i rest).topNames N} ∪ A := by
        ext r
        simp only [Set.mem_union, Set.mem_ofPred_eq, Code.topNames, List.mem_append]
        tauto
      rw [← hset]
      exact hend
    · rw [Code.Scoped, ← hiff, ← hexit.reuses_iff N i]
      simp only [layout, List.forall_mem_append]
  | branch f t e j rest iht ihe ih =>
    intro A cur next env hw hp hnd hA
    have hcur := hp.cur_lt
    obtain ⟨hwt, hwe, hwr⟩ := within_branch hw
    obtain ⟨hct, hce, htm, hem⟩ := within_branch_edges hw
    obtain ⟨hot, hoe, hor⟩ := branch_opens N region f j t e rest cur next env
    have hwhole := layout_opens N region (.branch f t e j rest) cur next env
    -- the names of the five parts are different
    simp only [Code.names, List.nodup_append, List.mem_append] at hnd
    obtain ⟨⟨⟨⟨hndf, hndt, hft⟩, hnde, hfe⟩, hndj, hfj⟩, hndr, hfr⟩ := hnd
    simp only [Code.names, List.mem_append] at hA
    have hpf := hp.define N f
    have hset : {r | r ∈ rest.topNames N} ∪ ({r | r ∈ N.defs j} ∪ ({r | r ∈ N.defs f} ∪ A)) =
        {r | r ∈ (Code.branch f t e j rest).topNames N} ∪ A := by
      ext r
      simp only [Set.mem_union, Set.mem_ofPred_eq, Code.topNames, List.mem_append]
      tauto
    rw [Code.Scoped, ← hset]
    generalize hA' : {r | r ∈ N.defs f} ∪ A = A' at hpf
    have hAt : ∀ r ∈ t.names N, r ∉ A' := by
      rintro r hr hr'
      rw [← hA'] at hr'
      exact hr'.elim (fun h => hft r h r hr rfl) (hA r (.inl (.inl (.inl (.inr hr)))))
    have hAe : ∀ r ∈ e.names N, r ∉ A' := by
      rintro r hr hr'
      rw [← hA'] at hr'
      exact hr'.elim (fun h => hfe r (.inl h) r hr rfl) (hA r (.inl (.inl (.inr hr))))
    have hAr : ∀ r ∈ rest.names N, r ∉ {r | r ∈ N.defs j} ∪ A' := by
      rintro r hr (hr' | hr')
      · exact hfr r (.inr hr') r hr rfl
      · rw [← hA'] at hr'
        exact hr'.elim (fun h => hfr r (.inl (.inl (.inl h))) r hr rfl) (hA r (.inr hr))
    have hdom : ∀ {a b}, next ≤ b → b < next + 3 → Dominates edges a cur →
        Dominates edges a b := by
      intro a b hb hb' ha
      have := hot.le
      have := hoe.le
      have := hor.le
      refine hwhole.dominates hw (by omega) ha ⟨hb, ?_⟩
      simp only [layout]
      omega
    have hviaThen := fun {a : Nat} => avoids_exit N region (a := a)
      t next (next + 3) (define N env f cur) hwt
    have henvt := layout_env N region t next (next + 3) (define N env f cur)
    simp only [layout]
    -- the then-branch
    obtain ⟨-, hifft⟩ := iht A' next (next + 3) _ hwt
      (hpf.enterThen hct (hdom le_rfl (by omega))) hndt hAt
    generalize layout N region t next (next + 3) (define N env f cur) = lt at *
    -- the else-branch
    have hpe : Point edges A' lt.env (next + 1) lt.next := by
      refine hpf.enterElse hce (hdom (by omega) (by omega)) hot.le ?_ ?_
      · intro r hr
        exact (henvt r).1 fun h => hAt r h hr
      · intro r b hb
        by_cases hr : r ∈ t.names N
        · obtain ⟨b', hb', hrange⟩ := (henvt r).2 hr
          rw [hb] at hb'
          cases hb'
          exact .inr hrange
        · exact .inl (((henvt r).1 hr).symm.trans hb)
    obtain ⟨-, hiffe⟩ := ihe A' (next + 1) lt.next lt.env hwe hpe hnde hAe
    have hviaElse := fun {a : Nat} => avoids_exit N region (a := a)
      e (next + 1) lt.next lt.env hwe
    have henve := layout_env N region e (next + 1) lt.next lt.env
    generalize layout N region e (next + 1) lt.next lt.env = le at *
    -- where they meet
    have hpm : Point edges A' le.env (next + 2) le.next := by
      refine hpf.leave hot.le hoe.le (hdom (by omega) (by omega)) ?_ ?_ ?_ ?_
      · intro a ha hne hne' hrange
        exact .step (hviaThen hrange (.step ha hct hne)) htm hne'
      · intro a ha hne hne' hrange
        exact .step (hviaElse hrange (.step ha hce hne)) hem hne'
      · intro r hr
        rw [(henve r).1 fun h => hAe r h hr, (henvt r).1 fun h => hAt r h hr]
      · intro r b hb
        by_cases hr : r ∈ e.names N
        · obtain ⟨b', hb', hrange⟩ := (henve r).2 hr
          rw [hb] at hb'
          cases hb'
          exact .inr (.inr hrange)
        · rw [(henve r).1 hr] at hb
          by_cases hr' : r ∈ t.names N
          · obtain ⟨b', hb', hrange⟩ := (henvt r).2 hr'
            rw [hb] at hb'
            cases hb'
            exact .inr (.inl hrange)
          · exact .inl (((henvt r).1 hr').symm.trans hb)
    obtain ⟨hend, hiff⟩ := ih _ (next + 2) le.next _ hwr (hpm.define N j) hndr hAr
    refine ⟨hend, ?_⟩
    rw [← hifft, ← hiffe, ← hiff, ← hp.reuses_iff N f, ← hpm.reuses_iff N j]
    simp only [List.forall_mem_append, and_assoc]

/-- **Dominance is scoping**: in a function that defines every name once, each use of a
name is dominated by its definition exactly where all uses are in scope. -/
theorem scoped_iff_dominated (N : Names α ρ) (region : α → Region) (c : Code α)
    (hnd : (c.names N).Nodup) :
    (∀ x ∈ (layout N region c 0 1 fun _ => none).reuses,
        Reused (layout N region c 0 1 fun _ => none).edges x) ↔ c.Scoped N ∅ := by
  refine (scoped_layout c ∅ 0 1 (fun _ => none) ⟨fun _ h => h, fun {u v} huv _ _ => huv⟩ ?_ hnd
    fun _ _ h => h).2
  exact ⟨Nat.zero_lt_one, fun h => (nomatch h), fun h => h.elim, fun h => (nomatch h),
    fun ha => .entry (by omega)⟩

end Names

end JitSignalEngine
