import Mathlib.Data.List.Basic

/-!
# Dataflow terms with private state

A small language of stream expressions, for reasoning about evaluators that share
the state of repeated subexpressions. It names no particular operators: leaves,
pure functions and stateful operators are symbols, and a `Semantics` says what they
mean.

* `Term` — an expression in which every `call` owns its state. A call is stepped at
  the ticks at which evaluation reaches it and keeps its state at the others;
  `now a` is the value of `a` when `a` is stepped at *every* tick.
* `Semantics.val` — the value of a term at a tick. The state of a call is not stored
  anywhere: it is a function of the operator and of the history of its operands and
  of its activity (`Semantics.stateAt`), so two terms that are equal have equal
  values, whatever slots an implementation keeps them in.
* `Term.Steady`, `Semantics.Same` — terms with one value at every position, and terms with
  one value where evaluation always passes.
* `Semantics.simplify` — constants folded, `now` dropped where evaluation always
  passes; `val_simplify` says that nothing observable changed.
* `Term.covers` and `val_refines` — when one term, under one semantics, can stand in
  for another one under another semantics on runs that do not fail.

The value of a term is an `Option`: `none` stands for an evaluation that fails, and
once an operand fails so does everything above it.
-/

namespace Dataflow

variable {K U B O I V S S₁ S₂ : Type}

/-! ## Terms -/

/-- Stream expressions over leaves `K`, unary and binary functions `U` and `B`, and
stateful operators `O`. -/
inductive Term (K U B O : Type) : Type where
  /-- read from the input of the tick -/
  | leaf (k : K)
  /-- apply a function of one value -/
  | map (f : U) (a : Term K U B O)
  /-- apply a function of two values -/
  | zip (f : B) (a b : Term K U B O)
  /-- evaluate one of two branches -/
  | cond (c t e : Term K U B O)
  /-- step a machine on the values of its operands -/
  | call (op : O) (args : List (Term K U B O))
  /-- the value of a term that is stepped at every tick -/
  | now (a : Term K U B O)

namespace Term

/-- Induction over terms, with a hypothesis for every operand of a call. -/
@[elab_as_elim]
theorem induct {P : Term K U B O → Prop}
    (leaf : ∀ k, P (.leaf k))
    (map : ∀ f a, P a → P (.map f a))
    (zip : ∀ f a b, P a → P b → P (.zip f a b))
    (cond : ∀ c t e, P c → P t → P e → P (.cond c t e))
    (call : ∀ op args, (∀ a ∈ args, P a) → P (.call op args))
    (now : ∀ a, P a → P (.now a))
    (a : Term K U B O) : P a :=
  Term.rec (motive_1 := P) (motive_2 := fun as => ∀ a ∈ as, P a)
    leaf map zip cond call now
    (fun _ h => absurd h List.not_mem_nil)
    (fun _ _ h ih _ ha => (List.mem_cons.mp ha).elim (fun he => he ▸ h) (ih _))
    a

/-- A term whose calls are all stepped at every tick. -/
def Steady : Term K U B O → Prop
  | .leaf _ => True
  | .map _ a => a.Steady
  | .zip _ a b => a.Steady ∧ b.Steady
  | .cond c a b => c.Steady ∧ a.Steady ∧ b.Steady
  | .call _ _ => False
  | .now _ => True

end Term

/-! ## Semantics -/

/-- The meaning of the symbols: inputs `I`, values `V`, operator states `S`. -/
structure Semantics (K U B O I V S : Type) where
  /-- what a leaf reads off the input of a tick -/
  leaf : K → I → Option V
  /-- unary functions -/
  map : U → V → V
  /-- binary functions -/
  zip : B → V → V → V
  /-- which values choose the then-branch -/
  truthy : V → Bool
  /-- the state an operator starts in -/
  init : O → S
  /-- one step of an operator: its value and its next state -/
  step : O → I → List V → S → Option (V × S)

/-- The activity of a position that evaluation always reaches. -/
def always : Nat → Bool := fun _ => true

namespace Semantics

variable (M : Semantics K U B O I V S) (xs : Nat → I)

/-- The state after a tick at which the operator is reached with operands `ins`. A
step that fails changes nothing. -/
def next (op : O) (x : I) (ins : Option (List V)) (s : S) : S :=
  match ins with
  | none => s
  | some vs =>
    match M.step op x vs s with
    | none => s
    | some (_, s') => s'

/-- The state of an operator before tick `t`, given when it is reached and with
what. -/
def stateAt (op : O) (act : Nat → Bool) (ins : Nat → Option (List V)) : Nat → S
  | 0 => M.init op
  | t + 1 =>
    if act t then M.next op (xs t) (ins t) (stateAt op act ins t) else stateAt op act ins t

/-- Whether a condition that evaluated to `c` takes the branch `b`. -/
def takes (b : Bool) (c : Option V) : Bool :=
  match c with
  | none => false
  | some v => M.truthy v == b

/-- The activity of a branch: the conditional is reached and takes it. -/
def branch (b : Bool) (c : Nat → Option V) (act : Nat → Bool) : Nat → Bool :=
  fun s => act s && M.takes b (c s)

/-- The output of an operator at tick `t`. -/
def output (op : O) (act : Nat → Bool) (ins : Nat → Option (List V)) (t : Nat) : Option V :=
  (ins t).bind fun vs => (M.step op (xs t) vs (M.stateAt xs op act ins t)).map Prod.fst

mutual

/-- The value at tick `t` of a term whose position is reached at the ticks `act`
says. -/
def val : Term K U B O → (Nat → Bool) → Nat → Option V
  | .leaf k, _, t => M.leaf k (xs t)
  | .map f a, act, t => (val a act t).map (M.map f)
  | .zip f a b, act, t => (val a act t).bind fun x => (val b act t).map (M.zip f x)
  | .cond c a b, act, t =>
    (val c act t).bind fun v =>
      if M.truthy v then val a (M.branch true (val c act) act) t
      else val b (M.branch false (val c act) act) t
  | .call op args, act, t => M.output xs op act (vals args act) t
  | .now a, _, t => val a always t

/-- The values of a list of operands. -/
def vals : List (Term K U B O) → (Nat → Bool) → Nat → Option (List V)
  | [], _, _ => some []
  | a :: as, act, t => (val a act t).bind fun v => (vals as act t).map (v :: ·)

end

@[simp] theorem val_leaf (k : K) (act : Nat → Bool) (t : Nat) :
    M.val xs (.leaf k) act t = M.leaf k (xs t) := rfl

@[simp] theorem val_map (f : U) (a : Term K U B O) (act : Nat → Bool) (t : Nat) :
    M.val xs (.map f a) act t = (M.val xs a act t).map (M.map f) := rfl

@[simp] theorem val_zip (f : B) (a b : Term K U B O) (act : Nat → Bool) (t : Nat) :
    M.val xs (.zip f a b) act t =
      (M.val xs a act t).bind fun x => (M.val xs b act t).map (M.zip f x) := rfl

theorem val_cond (c a b : Term K U B O) (act : Nat → Bool) (t : Nat) :
    M.val xs (.cond c a b) act t = (M.val xs c act t).bind fun v =>
      if M.truthy v then M.val xs a (M.branch true (M.val xs c act) act) t
      else M.val xs b (M.branch false (M.val xs c act) act) t := rfl

theorem val_call (op : O) (args : List (Term K U B O)) (act : Nat → Bool) (t : Nat) :
    M.val xs (.call op args) act t = M.output xs op act (M.vals xs args act) t := rfl

@[simp] theorem val_now (a : Term K U B O) (act : Nat → Bool) (t : Nat) :
    M.val xs (.now a) act t = M.val xs a always t := rfl

@[simp] theorem vals_nil (act : Nat → Bool) (t : Nat) :
    M.vals xs ([] : List (Term K U B O)) act t = some [] := rfl

theorem vals_cons (a : Term K U B O) (as : List (Term K U B O)) (act : Nat → Bool) (t : Nat) :
    M.vals xs (a :: as) act t =
      (M.val xs a act t).bind fun v => (M.vals xs as act t).map (v :: ·) := rfl

/-- The values of a list, one by one. -/
theorem vals_getElem? {M : Semantics K U B O I V S} {xs : Nat → I} {act : Nat → Bool} {t : Nat}
    {as : List (Term K U B O)} {vs : List V} (h : M.vals xs as act t = some vs) (i : Nat) :
    vs[i]? = as[i]?.bind fun a => M.val xs a act t := by
  induction as generalizing vs i with
  | nil =>
    cases (M.vals_nil xs act t).symm.trans h
    rfl
  | cons a as ih =>
    rw [vals_cons] at h
    obtain ⟨v, hv, h⟩ := Option.bind_eq_some_iff.mp h
    obtain ⟨us, hus, rfl⟩ := Option.map_eq_some_iff.mp h
    cases i with
    | zero => exact hv.symm
    | succ i => exact ih hus i

theorem vals_ne_none {M : Semantics K U B O I V S} {xs : Nat → I} {act : Nat → Bool} {t : Nat}
    {as : List (Term K U B O)} (h : ∀ a ∈ as, M.val xs a act t ≠ none) :
    M.vals xs as act t ≠ none := by
  induction as with
  | nil => exact fun hnone => Option.some_ne_none _ ((M.vals_nil xs act t).symm.trans hnone)
  | cons a as ih =>
    obtain ⟨v, hv⟩ := Option.ne_none_iff_exists'.mp (h a List.mem_cons_self)
    obtain ⟨vs, hvs⟩ := Option.ne_none_iff_exists'.mp
      (ih fun b hb => h b (List.mem_cons_of_mem _ hb))
    rw [vals_cons, hv, hvs]
    exact Option.some_ne_none _

/-! ### Only the past matters -/

/-- The state before tick `n` depends on the activity and, where active, on the
operands, at the ticks before `n`. -/
theorem stateAt_congr {op : O} {act act' : Nat → Bool} {ins ins' : Nat → Option (List V)}
    {n : Nat} (hact : ∀ s < n, act s = act' s) (hins : ∀ s < n, act s = true → ins s = ins' s) :
    M.stateAt xs op act ins n = M.stateAt xs op act' ins' n := by
  induction n with
  | zero => rfl
  | succ n ih =>
    have hlt : n < n + 1 := Nat.lt_succ_self n
    have hprev := ih (fun s hs => hact s (Nat.lt_succ_of_lt hs))
      (fun s hs => hins s (Nat.lt_succ_of_lt hs))
    rw [stateAt, stateAt, ← hact n hlt, hprev]
    by_cases h : act n = true
    · rw [if_pos h, if_pos h, hins n hlt h]
    · rw [if_neg h, if_neg h]

/-- The value at tick `t` depends on the activity up to tick `t` only. -/
theorem val_congr (a : Term K U B O) : ∀ {act act' : Nat → Bool} {t : Nat},
    (∀ s ≤ t, act s = act' s) → M.val xs a act t = M.val xs a act' t := by
  induction a using Term.induct with
  | leaf k => intro act act' t _; rw [val_leaf, val_leaf]
  | map f a ih => intro act act' t h; rw [val_map, val_map, ih h]
  | zip f a b iha ihb => intro act act' t h; rw [val_zip, val_zip, iha h, ihb h]
  | now a _ => intro act act' t _; rw [val_now, val_now]
  | cond c a b ihc iha ihb =>
    intro act act' t h
    have hc : ∀ s ≤ t, M.val xs c act s = M.val xs c act' s :=
      fun s hs => ihc fun r hr => h r (Nat.le_trans hr hs)
    have hb : ∀ b, ∀ s ≤ t, M.branch b (M.val xs c act) act s
        = M.branch b (M.val xs c act') act' s := by
      intro b s hs
      rw [branch, branch, h s hs, hc s hs]
    rw [val_cond, val_cond, hc t (Nat.le_refl t), iha (hb true), ihb (hb false)]
  | call op args ih =>
    intro act act' t h
    have hargs : ∀ (as : List (Term K U B O)), (∀ a ∈ as, a ∈ args) → ∀ s ≤ t,
        M.vals xs as act s = M.vals xs as act' s := by
      intro as
      induction as with
      | nil => intro _ s _; rw [vals_nil, vals_nil]
      | cons a as iha =>
        intro hmem s hs
        rw [vals_cons, vals_cons,
          ih a (hmem a List.mem_cons_self) fun r hr => h r (Nat.le_trans hr hs),
          iha (fun b hb => hmem b (List.mem_cons_of_mem _ hb)) s hs]
    have hv := hargs args (fun _ ha => ha)
    rw [val_call, val_call, output, output, hv t (Nat.le_refl t),
      M.stateAt_congr xs (fun s hs => h s (Nat.le_of_lt hs))
        (fun s hs _ => hv s (Nat.le_of_lt hs))]

/-! ### Steady terms -/

/-- The value of a steady term is the same at every position. -/
theorem val_of_steady {a : Term K U B O} (h : a.Steady) :
    ∀ (act act' : Nat → Bool) (t : Nat), M.val xs a act t = M.val xs a act' t := by
  induction a using Term.induct with
  | leaf k => intro act act' t; rw [val_leaf, val_leaf]
  | map f a ih => intro act act' t; rw [val_map, val_map, ih h act act']
  | zip f a b iha ihb =>
    intro act act' t
    rw [val_zip, val_zip, iha h.1 act act', ihb h.2 act act']
  | cond c a b ihc iha ihb =>
    intro act act' t
    rw [val_cond, val_cond, ihc h.1 act act', iha h.2.1 _ (M.branch true (M.val xs c act') act'),
      ihb h.2.2 _ (M.branch false (M.val xs c act') act')]
  | call op args => exact h.elim
  | now a => intro act act' t; rw [val_now, val_now]

/-- Two terms with one value, where evaluation always reaches them. -/
def Same (a b : Term K U B O) : Prop := ∀ t, M.val xs a always t = M.val xs b always t

variable {M xs}

theorem Same.refl (a : Term K U B O) : M.Same xs a a := fun _ => rfl

theorem Same.symm {a b : Term K U B O} (h : M.Same xs a b) : M.Same xs b a := fun t => (h t).symm

theorem Same.trans {a b c : Term K U B O} (h : M.Same xs a b) (h' : M.Same xs b c) :
    M.Same xs a c := fun t => (h t).trans (h' t)

theorem Same.map {a b : Term K U B O} (h : M.Same xs a b) (f : U) :
    M.Same xs (.map f a) (.map f b) := by
  intro t
  rw [val_map, val_map, h t]

theorem Same.zip {a b a' b' : Term K U B O} (ha : M.Same xs a a') (hb : M.Same xs b b') (f : B) :
    M.Same xs (.zip f a b) (.zip f a' b') := by
  intro t
  rw [val_zip, val_zip, ha t, hb t]

/-- The branches of a conditional have one value at every position when they are steady. -/
theorem Same.cond {c a b c' a' b' : Term K U B O} (hc : M.Same xs c c') (ha : M.Same xs a a')
    (hb : M.Same xs b b') (hsa : a.Steady) (hsb : b.Steady) (hsa' : a'.Steady) (hsb' : b'.Steady) :
    M.Same xs (.cond c a b) (.cond c' a' b') := by
  intro t
  rw [val_cond, val_cond, hc t, val_of_steady M xs hsa _ always, val_of_steady M xs hsb _ always,
    val_of_steady M xs hsa' _ always, val_of_steady M xs hsb' _ always, ha t, hb t]

theorem vals_of_same {as bs : List (Term K U B O)} (h : List.Forall₂ (M.Same xs) as bs) (t : Nat) :
    M.vals xs as always t = M.vals xs bs always t := by
  induction h with
  | nil => rfl
  | cons hab _ ih => rw [vals_cons, vals_cons, hab t, ih]

theorem Same.call {as bs : List (Term K U B O)} (h : List.Forall₂ (M.Same xs) as bs) (op : O) :
    M.Same xs (.call op as) (.call op bs) := by
  intro t
  rw [val_call, val_call, funext (vals_of_same h)]

theorem same_now (a : Term K U B O) : M.Same xs (.now a) a := fun t => M.val_now xs a always t

variable (M xs)

/-! ### Positions -/

/-- The activity of a position under the branches `path`, innermost first. -/
def along : List (Term K U B O × Bool) → Nat → Bool
  | [] => always
  | (c, b) :: path => M.branch b (M.val xs c (along path)) (along path)

@[simp] theorem along_nil : M.along xs ([] : List (Term K U B O × Bool)) = always := rfl

/-- A position that is reached at a tick is reached through the positions above it. -/
theorem along_of_suffix {path path' : List (Term K U B O × Bool)} {t : Nat}
    (h : path <:+ path') (ht : M.along xs path' t = true) : M.along xs path t = true := by
  obtain ⟨pre, rfl⟩ := h
  induction pre with
  | nil => exact ht
  | cons cb pre ih =>
    refine ih ?_
    rw [List.cons_append, along, branch, Bool.and_eq_true] at ht
    exact ht.1

/-- Of the two branches of a conditional, the one its condition picks is reached. -/
theorem along_branch {path : List (Term K U B O × Bool)} {c : Term K U B O} {v : V} {t : Nat}
    (ht : M.along xs path t = true) (hc : M.val xs c (M.along xs path) t = some v) (b : Bool) :
    M.along xs ((c, b) :: path) t = (M.truthy v == b) := by
  rw [along, branch, ht, hc, takes, Bool.true_and]

/-! ## Simplification -/

/-- Leaves that are constants: how to write one, and how to recognise one. -/
structure Literals (M : Semantics K U B O I V S) where
  /-- the constant `v` -/
  const : V → K
  /-- the constant a leaf is, if it is one -/
  get : K → Option V
  /-- constants are recognised -/
  get_const : ∀ v, get (const v) = some v
  /-- and evaluate to themselves -/
  leaf_of_get : ∀ {k v}, get k = some v → ∀ x, M.leaf k x = some v

section Simplify

variable {M} (lit : M.Literals)

/-- The constant a term is, if it is one. -/
def asLiteral : Term K U B O → Option V
  | .leaf k => lit.get k
  | _ => none

mutual

/-- Fold the functions and conditionals whose operands are constants, and drop `now`
at the positions that are always reached (`reached = true`). -/
def simplify (reached : Bool) : Term K U B O → Term K U B O
  | .leaf k => .leaf k
  | .map f a =>
    let a := simplify reached a
    match asLiteral lit a with
    | some v => .leaf (lit.const (M.map f v))
    | none => .map f a
  | .zip f a b =>
    let a := simplify reached a
    let b := simplify reached b
    match asLiteral lit a, asLiteral lit b with
    | some v, some w => .leaf (lit.const (M.zip f v w))
    | _, _ => .zip f a b
  | .cond c a b =>
    let c := simplify reached c
    match asLiteral lit c with
    | some v => if M.truthy v then simplify reached a else simplify reached b
    | none => .cond c (simplify false a) (simplify false b)
  | .call op args => .call op (simplifyArgs reached args)
  | .now a => if reached then simplify true a else .now (simplify true a)

/-- `simplify` on operands. -/
def simplifyArgs (reached : Bool) : List (Term K U B O) → List (Term K U B O)
  | [] => []
  | a :: as => simplify reached a :: simplifyArgs reached as

end

theorem simplifyArgs_eq_map (reached : Bool) (as : List (Term K U B O)) :
    simplifyArgs lit reached as = as.map (simplify lit reached) := by
  induction as with
  | nil => rfl
  | cons a as ih => rw [simplifyArgs, ih, List.map_cons]

/-- A constant evaluates to itself. -/
theorem val_of_asLiteral {a : Term K U B O} {v : V} (h : asLiteral lit a = some v)
    (act : Nat → Bool) (t : Nat) : M.val xs a act t = some v := by
  cases a with
  | leaf k => rw [val_leaf]; exact lit.leaf_of_get h _
  | _ => cases h

/-- The branch a constant condition takes is reached whenever the conditional is. -/
theorem branch_of_constant {c : Nat → Option V} {v : V} (hc : ∀ s, c s = some v)
    (act : Nat → Bool) : M.branch (M.truthy v) c act = act := by
  funext s
  rw [branch, hc s, takes, beq_self_eq_true, Bool.and_true]

/-- Simplification changes no value. -/
theorem val_simplify (a : Term K U B O) : ∀ (reached : Bool) (act : Nat → Bool),
    (reached = true → act = always) →
    M.val xs (simplify lit reached a) act = M.val xs a act := by
  induction a using Term.induct with
  | leaf k => intro reached act _; rw [simplify]
  | map f a ih =>
    intro reached act h
    funext t
    rw [val_map, ← ih reached act h, simplify]
    rcases hl : asLiteral lit (simplify lit reached a) with _ | v
    · rw [val_map]
    · rw [val_leaf, lit.leaf_of_get (lit.get_const _), val_of_asLiteral xs lit hl, Option.map_some]
  | zip f a b iha ihb =>
    intro reached act h
    funext t
    rw [val_zip, ← iha reached act h, ← ihb reached act h, simplify]
    rcases ha : asLiteral lit (simplify lit reached a) with _ | v
    · rw [val_zip]
    · rcases hb : asLiteral lit (simplify lit reached b) with _ | w
      · rw [val_zip]
      · rw [val_leaf, lit.leaf_of_get (lit.get_const _), val_of_asLiteral xs lit ha,
          val_of_asLiteral xs lit hb, Option.bind_some, Option.map_some]
  | now a ih =>
    intro reached act h
    funext t
    rw [val_now, simplify]
    by_cases hr : reached = true
    · rw [if_pos hr, h hr, ih true always fun _ => rfl]
    · rw [if_neg hr, val_now, ih true always fun _ => rfl]
  | call op args ih =>
    intro reached act h
    have hargs : ∀ as : List (Term K U B O), (∀ a ∈ as, a ∈ args) →
        M.vals xs (simplifyArgs lit reached as) act = M.vals xs as act := by
      intro as
      induction as with
      | nil => intro _; rw [simplifyArgs]
      | cons a as iha =>
        intro hmem
        funext t
        rw [simplifyArgs, vals_cons, vals_cons, ih a (hmem a List.mem_cons_self) reached act h,
          iha fun b hb => hmem b (List.mem_cons_of_mem _ hb)]
    funext t
    rw [simplify, val_call, val_call, hargs args fun _ ha => ha]
  | cond c a b ihc iha ihb =>
    intro reached act h
    funext t
    have hc := ihc reached act h
    rw [simplify]
    rcases hl : asLiteral lit (simplify lit reached c) with _ | v
    · rw [val_cond, val_cond, hc, iha false _ (fun hf => nomatch hf),
        ihb false _ (fun hf => nomatch hf)]
    · -- a constant condition: the branch it takes inherits the activity
      have hv : ∀ s, M.val xs c act s = some v := fun s => by
        rw [← hc]; exact val_of_asLiteral xs lit hl act s
      have hbr := branch_of_constant (M := M) hv act
      rw [val_cond, hv t, Option.bind_some]
      by_cases htr : M.truthy v = true
      · rw [htr] at hbr
        simp only [htr, if_true]
        rw [hbr, iha reached act h]
      · rw [Bool.not_eq_true] at htr
        rw [htr] at hbr
        simp only [htr, Bool.false_eq_true, if_false]
        rw [hbr, ihb reached act h]

end Simplify

/-- Simplification only depends on the pure part of a semantics. -/
theorem simplify_congr {M₁ : Semantics K U B O I V S₁} {M₂ : Semantics K U B O I V S₂}
    (lit₁ : M₁.Literals) (lit₂ : M₂.Literals) (hconst : lit₁.const = lit₂.const)
    (hget : lit₁.get = lit₂.get) (hmap : M₁.map = M₂.map) (hzip : M₁.zip = M₂.zip)
    (htruthy : M₁.truthy = M₂.truthy) (a : Term K U B O) : ∀ reached : Bool,
    simplify lit₁ reached a = simplify lit₂ reached a := by
  have has : ∀ b : Term K U B O, asLiteral lit₁ b = asLiteral lit₂ b := by
    intro b
    cases b with
    | leaf k => exact congrFun hget k
    | _ => rfl
  induction a using Term.induct with
  | leaf k => intro reached; rw [simplify, simplify]
  | map f a ih => intro reached; simp only [simplify, ih, has, hconst, hmap]
  | zip f a b iha ihb => intro reached; simp only [simplify, iha, ihb, has, hconst, hzip]
  | cond c a b ihc iha ihb =>
    intro reached
    simp only [simplify, ihc, iha, ihb, has, htruthy]
  | call op args ih =>
    intro reached
    rw [simplify, simplify, simplifyArgs_eq_map, simplifyArgs_eq_map]
    exact congrArg _ (List.map_congr_left fun a ha => ih a ha reached)
  | now a ih => intro reached; simp only [simplify, ih]

/-! ## Standing in for another term -/

end Semantics

namespace Term

section Covers

variable [DecidableEq K] [DecidableEq U] [DecidableEq B] [DecidableEq O] (wild : K → Bool)

mutual

/-- `covers wild a b`: the terms agree, except that where `a` has a leaf that always
fails (`wild`), `b` may have anything. -/
def covers : Term K U B O → Term K U B O → Bool
  | .leaf k, b => wild k || (match b with
      | .leaf l => k = l
      | _ => false)
  | .map f a, .map g b => f = g && covers a b
  | .zip f a a', .zip g b b' => f = g && covers a b && covers a' b'
  | .cond c a a', .cond d b b' => covers c d && covers a b && covers a' b'
  | .call op args, .call op' args' => op = op' && coversArgs args args'
  | .now a, .now b => covers a b
  | _, _ => false

/-- `covers` on operands, one by one. -/
def coversArgs : List (Term K U B O) → List (Term K U B O) → Bool
  | [], [] => true
  | a :: as, b :: bs => covers a b && coversArgs as bs
  | _, _ => false

end

end Covers

mutual

/-- The term with its operators renamed. -/
def mapOps {O' : Type} (g : O → O') : Term K U B O → Term K U B O'
  | .leaf k => .leaf k
  | .map f a => .map f (mapOps g a)
  | .zip f a b => .zip f (mapOps g a) (mapOps g b)
  | .cond c a b => .cond (mapOps g c) (mapOps g a) (mapOps g b)
  | .call op args => .call (g op) (mapOpsArgs g args)
  | .now a => .now (mapOps g a)

/-- `mapOps` on operands. -/
def mapOpsArgs {O' : Type} (g : O → O') : List (Term K U B O) → List (Term K U B O')
  | [] => []
  | a :: as => mapOps g a :: mapOpsArgs g as

end

@[simp] theorem mapOpsArgs_eq_map {O' : Type} (g : O → O') (as : List (Term K U B O)) :
    mapOpsArgs g as = as.map (mapOps g) := by
  induction as with
  | nil => rfl
  | cons a as ih => rw [mapOpsArgs, ih, List.map_cons]

mutual

/-- The terms that occur under a `now`. -/
def nows : Term K U B O → List (Term K U B O)
  | .leaf _ => []
  | .map _ a => nows a
  | .zip _ a b => nows a ++ nows b
  | .cond c a b => nows c ++ nows a ++ nows b
  | .call _ args => nowsArgs args
  | .now a => a :: nows a

/-- `nows` of operands. -/
def nowsArgs : List (Term K U B O) → List (Term K U B O)
  | [] => []
  | a :: as => nows a ++ nowsArgs as

/-- A property of every call in a term. -/
def AllCalls (P : O → List (Term K U B O) → Prop) : Term K U B O → Prop
  | .leaf _ => True
  | .map _ a => AllCalls P a
  | .zip _ a b => AllCalls P a ∧ AllCalls P b
  | .cond c a b => AllCalls P c ∧ AllCalls P a ∧ AllCalls P b
  | .call op args => P op args ∧ AllCallsArgs P args
  | .now a => AllCalls P a

/-- `AllCalls` of operands. -/
def AllCallsArgs (P : O → List (Term K U B O) → Prop) : List (Term K U B O) → Prop
  | [] => True
  | a :: as => AllCalls P a ∧ AllCallsArgs P as

end

/-- What holds of all calls holds of the calls in a term. -/
theorem AllCalls.of_forall {P : O → List (Term K U B O) → Prop} (h : ∀ op args, P op args)
    (a : Term K U B O) : AllCalls P a := by
  induction a using Term.induct with
  | leaf k => trivial
  | map f a ih => exact ih
  | zip f a b iha ihb => exact ⟨iha, ihb⟩
  | cond c a b ihc iha ihb => exact ⟨ihc, iha, ihb⟩
  | now a ih => exact ih
  | call op args ih =>
    have hargs : ∀ as : List (Term K U B O), (∀ a ∈ as, a ∈ args) → AllCallsArgs P as := by
      intro as
      induction as with
      | nil => intro _; trivial
      | cons a as iha =>
        intro hmem
        exact ⟨ih a (hmem a List.mem_cons_self), iha fun b hb => hmem b (List.mem_cons_of_mem _ hb)⟩
    exact ⟨h op args, hargs args fun _ h => h⟩

end Term

namespace Semantics

/-- The states of an operator correspond under two semantics, on the operands that
`args` can have: what one machine does the other does too. -/
def CallSim (M₁ : Semantics K U B O I V S₁) (M₂ : Semantics K U B O I V S₂) (xs : Nat → I)
    (op : O) (args : List (Term K U B O)) : Prop :=
  ∃ R : S₁ → S₂ → Prop, R (M₁.init op) (M₂.init op) ∧
    ∀ act t vs v s₁ s₁' s₂, M₁.vals xs args act t = some vs → R s₁ s₂ →
      M₁.step op (xs t) vs s₁ = some (v, s₁') →
      ∃ s₂', M₂.step op (xs t) vs s₂ = some (v, s₂') ∧ R s₁' s₂'

/-- The meaning of renamed operators. -/
def comap {O' : Type} (M : Semantics K U B O' I V S) (g : O → O') :
    Semantics K U B O I V S where
  leaf := M.leaf
  map := M.map
  zip := M.zip
  truthy := M.truthy
  init op := M.init (g op)
  step op := M.step (g op)

theorem stateAt_comap {O' : Type} (M : Semantics K U B O' I V S) (g : O → O') (xs : Nat → I)
    (op : O) (act : Nat → Bool) (ins : Nat → Option (List V)) (t : Nat) :
    (M.comap g).stateAt xs op act ins t = M.stateAt xs (g op) act ins t := by
  induction t with
  | zero => rfl
  | succ t ih =>
    rw [stateAt, stateAt, ih]
    rfl

/-- Operators can be renamed in the term or in the semantics. -/
theorem val_mapOps {O' : Type} (M : Semantics K U B O' I V S) (g : O → O') (xs : Nat → I)
    (a : Term K U B O) : ∀ (act : Nat → Bool) (t : Nat),
      M.val xs (a.mapOps g) act t = (M.comap g).val xs a act t := by
  induction a using Term.induct with
  | leaf k =>
    intro act t
    rw [Term.mapOps, val_leaf, val_leaf]
    rfl
  | map f a ih =>
    intro act t
    rw [Term.mapOps, val_map, val_map, ih]
    rfl
  | zip f a b iha ihb =>
    intro act t
    rw [Term.mapOps, val_zip, val_zip, iha, ihb]
    rfl
  | now a ih =>
    intro act t
    rw [Term.mapOps, val_now, val_now, ih]
  | cond c a b ihc iha ihb =>
    intro act t
    have hc : M.val xs (c.mapOps g) act = (M.comap g).val xs c act := funext (ihc act)
    rw [Term.mapOps, val_cond, val_cond, hc, iha, ihb]
    rfl
  | call op args ih =>
    intro act t
    have hargs : ∀ as : List (Term K U B O), (∀ a ∈ as, a ∈ args) →
        M.vals xs (as.map (Term.mapOps g)) act = (M.comap g).vals xs as act := by
      intro as
      induction as with
      | nil =>
        intro _
        funext s
        rw [List.map_nil, vals_nil, vals_nil]
      | cons a as iha =>
        intro hmem
        funext s
        rw [List.map_cons, vals_cons, vals_cons, ih a (hmem a List.mem_cons_self),
          iha fun b hb => hmem b (List.mem_cons_of_mem _ hb)]
    rw [Term.mapOps, Term.mapOpsArgs_eq_map, val_call, val_call, output, output,
      hargs args fun _ ha => ha, stateAt_comap]
    rfl

/-- What stands under a `now` after simplification is what stood there before,
simplified. -/
theorem mem_nows_simplify {M : Semantics K U B O I V S} (lit : M.Literals) (a : Term K U B O) :
    ∀ (reached : Bool), ∀ q ∈ (simplify lit reached a).nows,
      ∃ p ∈ a.nows, q = simplify lit true p := by
  induction a using Term.induct with
  | leaf k => intro reached q hq; exact absurd hq List.not_mem_nil
  | map f a ih =>
    intro reached q hq
    rw [simplify] at hq
    rcases hl : asLiteral lit (simplify lit reached a) with _ | v
    · rw [hl] at hq
      exact ih reached q hq
    · rw [hl] at hq
      exact absurd hq List.not_mem_nil
  | zip f a b iha ihb =>
    intro reached q hq
    have hparts : q ∈ (simplify lit reached a).nows ++ (simplify lit reached b).nows := by
      rw [simplify] at hq
      rcases hl : asLiteral lit (simplify lit reached a) with _ | v
      · rw [hl] at hq
        exact hq
      · rcases hr : asLiteral lit (simplify lit reached b) with _ | w
        · rw [hl, hr] at hq
          exact hq
        · rw [hl, hr] at hq
          exact absurd hq List.not_mem_nil
    rcases List.mem_append.mp hparts with h | h
    · obtain ⟨p, hp, hqp⟩ := iha reached q h
      exact ⟨p, List.mem_append_left _ hp, hqp⟩
    · obtain ⟨p, hp, hqp⟩ := ihb reached q h
      exact ⟨p, List.mem_append_right _ hp, hqp⟩
  | cond c a b ihc iha ihb =>
    intro reached q hq
    rw [Term.nows]
    have hthen : ∀ r, q ∈ (simplify lit r a).nows →
        ∃ p ∈ c.nows ++ a.nows ++ b.nows, q = simplify lit true p := by
      intro r h
      obtain ⟨p, hp, hqp⟩ := iha r q h
      exact ⟨p, List.mem_append_left _ (List.mem_append_right _ hp), hqp⟩
    have helse : ∀ r, q ∈ (simplify lit r b).nows →
        ∃ p ∈ c.nows ++ a.nows ++ b.nows, q = simplify lit true p := by
      intro r h
      obtain ⟨p, hp, hqp⟩ := ihb r q h
      exact ⟨p, List.mem_append_right _ hp, hqp⟩
    rw [simplify] at hq
    rcases hl : asLiteral lit (simplify lit reached c) with _ | v
    · rw [hl] at hq
      rcases List.mem_append.mp hq with h | h
      · rcases List.mem_append.mp h with h | h
        · obtain ⟨p, hp, hqp⟩ := ihc reached q h
          exact ⟨p, List.mem_append_left _ (List.mem_append_left _ hp), hqp⟩
        · exact hthen false h
      · exact helse false h
    · rw [hl] at hq
      dsimp only at hq
      split at hq
      · exact hthen reached hq
      · exact helse reached hq
  | call op args ih =>
    intro reached q hq
    have hargs : ∀ as : List (Term K U B O), (∀ a ∈ as, a ∈ args) →
        q ∈ Term.nowsArgs (simplifyArgs lit reached as) →
        ∃ p ∈ Term.nowsArgs as, q = simplify lit true p := by
      intro as
      induction as with
      | nil => intro _ h; exact absurd h List.not_mem_nil
      | cons a as iha =>
        intro hmem h
        rcases List.mem_append.mp h with h | h
        · obtain ⟨p, hp, hqp⟩ := ih a (hmem a List.mem_cons_self) reached q h
          exact ⟨p, List.mem_append_left _ hp, hqp⟩
        · obtain ⟨p, hp, hqp⟩ := iha (fun b hb => hmem b (List.mem_cons_of_mem _ hb)) h
          exact ⟨p, List.mem_append_right _ hp, hqp⟩
    exact hargs args (fun _ h => h) hq
  | now a ih =>
    intro reached q hq
    have hinner : q ∈ (simplify lit true a).nows → ∃ p ∈ (Term.now a).nows, q = simplify lit true p :=
      fun h =>
        have ⟨p, hp, hqp⟩ := ih true q h
        ⟨p, List.mem_cons_of_mem _ hp, hqp⟩
    rw [simplify] at hq
    by_cases hr : reached = true
    · rw [if_pos hr] at hq
      exact hinner hq
    · rw [if_neg hr] at hq
      rcases List.mem_cons.mp hq with rfl | hq
      · exact ⟨a, List.mem_cons_self, rfl⟩
      · exact hinner hq

/-- A machine corresponds to itself. -/
theorem CallSim.refl (M : Semantics K U B O I V S) (xs : Nat → I) (op : O)
    (args : List (Term K U B O)) : CallSim M M xs op args :=
  ⟨Eq, rfl, fun _ _ _ _ _ s₁' _ _ hR hstep => ⟨s₁', hR ▸ hstep, rfl⟩⟩

/-- The parts of two semantics that do not concern operators agree. -/
structure SamePure (M₁ : Semantics K U B O I V S₁) (M₂ : Semantics K U B O I V S₂) : Prop where
  /-- leaves that evaluate do so to the same value -/
  leaf : ∀ {k x v}, M₁.leaf k x = some v → M₂.leaf k x = some v
  /-- unary functions agree -/
  map : ∀ f, M₁.map f = M₂.map f
  /-- binary functions agree -/
  zip : ∀ f, M₁.zip f = M₂.zip f
  /-- branches agree -/
  truthy : M₁.truthy = M₂.truthy

theorem SamePure.refl (M : Semantics K U B O I V S) : SamePure M M :=
  ⟨fun h => h, fun _ => rfl, fun _ => rfl, rfl⟩

theorem SamePure.takes {M₁ : Semantics K U B O I V S₁} {M₂ : Semantics K U B O I V S₂}
    (h : SamePure M₁ M₂) (b : Bool) (c : Option V) : M₂.takes b c = M₁.takes b c := by
  cases c with
  | none => rfl
  | some v => rw [Semantics.takes, Semantics.takes, h.truthy]

/-- Inversion for a `bind` that does not fail. -/
theorem bind_ne_none {α β : Type} {o : Option α} {f : α → Option β} (h : o.bind f ≠ none) :
    ∃ a, o = some a ∧ f a ≠ none := by
  rcases o with _ | a
  · exact absurd rfl h
  · exact ⟨a, rfl, h⟩

/-- Inversion for a `map` that does not fail. -/
theorem map_ne_none {α β : Type} {o : Option α} {f : α → β} (h : o.map f ≠ none) : o ≠ none := by
  rcases o with _ | a
  · exact absurd rfl h
  · exact Option.some_ne_none a

section Refines

variable {M₁ : Semantics K U B O I V S₁} {M₂ : Semantics K U B O I V S₂} {xs : Nat → I}

/-- The state after a tick at which the operator is reached and steps. -/
theorem next_eq (M : Semantics K U B O I V S) {op : O} {x : I} {ins : Option (List V)}
    {vs : List V} {v : V} {s s' : S} (hi : ins = some vs) (h : M.step op x vs s = some (v, s')) :
    M.next op x ins s = s' := by
  simp only [next, hi, h]

/-- **Step by step, corresponding machines stay in corresponding states** and give the
same output, as long as the first one does not fail while active. -/
theorem output_refines {op : O} {args : List (Term K U B O)} {act : Nat → Bool}
    {ins₂ : Nat → Option (List V)} {N : Nat} (hsim : CallSim M₁ M₂ xs op args)
    (hins : ∀ s ≤ N, act s = true → ins₂ s = M₁.vals xs args act s)
    (hok : ∀ s ≤ N, act s = true → M₁.output xs op act (M₁.vals xs args act) s ≠ none) :
    ∀ s ≤ N, act s = true →
      M₂.output xs op act ins₂ s = M₁.output xs op act (M₁.vals xs args act) s := by
  obtain ⟨R, hinit, hstep⟩ := hsim
  -- what an active tick does to a pair of corresponding states
  have htick : ∀ s ≤ N, act s = true → ∀ s₂, R (M₁.stateAt xs op act (M₁.vals xs args act) s) s₂ →
      ∃ vs v s₁' s₂', M₁.vals xs args act s = some vs ∧ ins₂ s = some vs ∧
        M₁.step op (xs s) vs (M₁.stateAt xs op act (M₁.vals xs args act) s) = some (v, s₁') ∧
        M₂.step op (xs s) vs s₂ = some (v, s₂') ∧ R s₁' s₂' := by
    intro s hs hact s₂ hR
    obtain ⟨vs, hvs, h₁⟩ := bind_ne_none (hok s hs hact)
    obtain ⟨⟨v, s₁'⟩, h₁⟩ := Option.ne_none_iff_exists'.mp (map_ne_none h₁)
    obtain ⟨s₂', h₂, hR'⟩ := hstep act s vs v _ s₁' s₂ hvs hR h₁
    exact ⟨vs, v, s₁', s₂', hvs, (hins s hs hact).trans hvs, h₁, h₂, hR'⟩
  have hstate : ∀ s ≤ N, R (M₁.stateAt xs op act (M₁.vals xs args act) s)
      (M₂.stateAt xs op act ins₂ s) := by
    intro s
    induction s with
    | zero => intro _; exact hinit
    | succ s ih =>
      intro hs
      have hR := ih (Nat.le_of_succ_le hs)
      rw [stateAt, stateAt]
      by_cases hact : act s = true
      · obtain ⟨vs, v, s₁', s₂', hv₁, hv₂, h₁, h₂, hR'⟩ :=
          htick s (Nat.le_of_succ_le hs) hact _ hR
        rw [if_pos hact, if_pos hact, next_eq M₁ hv₁ h₁, next_eq M₂ hv₂ h₂]
        exact hR'
      · rw [if_neg hact, if_neg hact]
        exact hR
  intro s hs hact
  obtain ⟨vs, v, s₁', s₂', hv₁, hv₂, h₁, h₂, _⟩ := htick s hs hact _ (hstate s hs)
  rw [output, output, hv₁, hv₂, Option.bind_some, Option.bind_some, h₁, h₂]
  rfl

variable [DecidableEq K] [DecidableEq U] [DecidableEq B] [DecidableEq O]

/-- **A covering term, under a corresponding semantics, has the same values** at every
tick up to `N` at which it is active, provided the first evaluation never fails there
and the terms under `now` never fail at all. -/
theorem val_refines (hpure : SamePure M₁ M₂) {wild : K → Bool}
    (hwild : ∀ k, wild k = true → ∀ x, M₁.leaf k x = none) {N : Nat} (a : Term K U B O) :
    ∀ (b : Term K U B O) (act : Nat → Bool), Term.covers wild a b = true →
      Term.AllCalls (CallSim M₁ M₂ xs) a →
      (∀ c ∈ a.nows, ∀ s ≤ N, M₁.val xs c always s ≠ none) →
      (∀ s ≤ N, act s = true → M₁.val xs a act s ≠ none) →
      ∀ s ≤ N, act s = true → M₂.val xs b act s = M₁.val xs a act s := by
  induction a using Term.induct with
  | leaf k =>
    intro b act hcov _ _ hok s hs hact
    have hk := hok s hs hact
    rw [val_leaf] at hk
    obtain ⟨v, hv⟩ := Option.ne_none_iff_exists'.mp hk
    have hw : wild k = false := Bool.eq_false_iff.mpr fun hw => hk (hwild k hw (xs s))
    cases b with
    | leaf l =>
      rw [Term.covers, hw, Bool.false_or] at hcov
      obtain rfl : k = l := of_decide_eq_true hcov
      rw [val_leaf, val_leaf, hv, hpure.leaf hv]
    | _ => simp only [Term.covers, hw, Bool.or_self, Bool.false_eq_true] at hcov
  | map f a ih =>
    intro b act hcov hsim hnow hok s hs hact
    cases b with
    | map g b =>
      rw [Term.covers, Bool.and_eq_true] at hcov
      obtain rfl : f = g := of_decide_eq_true hcov.1
      have ha := ih b act hcov.2 hsim hnow
        (fun r hr hract => map_ne_none ((M₁.val_map xs f a act r) ▸ hok r hr hract)) s hs hact
      rw [val_map, val_map, ha, hpure.map]
    | _ => cases hcov
  | zip f a a' iha iha' =>
    intro b act hcov hsim hnow hok s hs hact
    cases b with
    | zip g b b' =>
      rw [Term.covers, Bool.and_eq_true, Bool.and_eq_true] at hcov
      obtain rfl : f = g := of_decide_eq_true hcov.1.1
      have hparts : ∀ r ≤ N, act r = true →
          M₁.val xs a act r ≠ none ∧ M₁.val xs a' act r ≠ none := by
        intro r hr hract
        have h := hok r hr hract
        rw [val_zip] at h
        obtain ⟨v, hv, h'⟩ := bind_ne_none h
        exact ⟨hv ▸ Option.some_ne_none v, map_ne_none h'⟩
      have ha := iha b act hcov.1.2 hsim.1
        (fun c hc => hnow c (List.mem_append_left _ hc)) (fun r hr h => (hparts r hr h).1) s hs hact
      have ha' := iha' b' act hcov.2 hsim.2
        (fun c hc => hnow c (List.mem_append_right _ hc)) (fun r hr h => (hparts r hr h).2) s hs hact
      rw [val_zip, val_zip, ha, ha', hpure.zip]
    | _ => cases hcov
  | now a ih =>
    intro b act hcov hsim hnow _ s hs _
    cases b with
    | now b =>
      rw [Term.covers] at hcov
      rw [val_now, val_now]
      exact ih b always hcov hsim (fun c hc => hnow c (List.mem_cons_of_mem _ hc))
        (fun r hr _ => hnow a List.mem_cons_self r hr) s hs rfl
    | _ => cases hcov
  | cond c a a' ihc iha iha' =>
    intro b act hcov hsim hnow hok s hs hact
    cases b with
    | cond d b b' =>
      rw [Term.covers, Bool.and_eq_true, Bool.and_eq_true] at hcov
      have hc : ∀ r ≤ N, act r = true → M₂.val xs d act r = M₁.val xs c act r := by
        refine ihc d act hcov.1.1 hsim.1
          (fun e he => hnow e (List.mem_append_left _ (List.mem_append_left _ he))) ?_
        intro r hr hract
        have h := hok r hr hract
        rw [val_cond] at h
        obtain ⟨v, hv, _⟩ := bind_ne_none h
        exact hv ▸ Option.some_ne_none v
      -- the two sides take a branch at the same ticks
      have hbr : ∀ (q : Bool), ∀ r ≤ N, M₂.branch q (M₂.val xs d act) act r
          = M₁.branch q (M₁.val xs c act) act r := by
        intro q r hr
        rw [branch, branch]
        by_cases hract : act r = true
        · rw [hc r hr hract, hpure.takes]
        · rw [Bool.not_eq_true] at hract
          rw [hract, Bool.false_and, Bool.false_and]
      have hside : ∀ (q : Bool) r, M₁.branch q (M₁.val xs c act) act r = true →
          act r = true ∧ ∃ v, M₁.val xs c act r = some v ∧ M₁.truthy v = q := by
        intro q r h
        rw [branch, Bool.and_eq_true] at h
        refine ⟨h.1, ?_⟩
        rcases hv : M₁.val xs c act r with _ | v
        · rw [hv] at h; exact absurd h.2 Bool.false_ne_true
        · rw [hv] at h; exact ⟨v, rfl, eq_of_beq h.2⟩
      have ha := iha b (M₁.branch true (M₁.val xs c act) act) hcov.1.2 hsim.2.1
        (fun e he => hnow e (List.mem_append_left _ (List.mem_append_right _ he))) (by
          intro r hr hract
          obtain ⟨hr', v, hv, htr⟩ := hside true r hract
          have h := hok r hr hr'
          rw [val_cond, hv, Option.bind_some, if_pos htr] at h
          exact h)
      have ha' := iha' b' (M₁.branch false (M₁.val xs c act) act) hcov.2 hsim.2.2
        (fun e he => hnow e (List.mem_append_right _ he)) (by
          intro r hr hract
          obtain ⟨hr', v, hv, htr⟩ := hside false r hract
          have h := hok r hr hr'
          rw [val_cond, hv, Option.bind_some, if_neg (by rw [htr]; exact Bool.false_ne_true)] at h
          exact h)
      have h := hok s hs hact
      rw [val_cond] at h
      obtain ⟨v, hv, _⟩ := bind_ne_none h
      have hlive : M₁.branch (M₁.truthy v) (M₁.val xs c act) act s = true := by
        rw [branch, hact, hv, takes, beq_self_eq_true, Bool.and_true]
      rw [val_cond, val_cond, hc s hs hact, hv, Option.bind_some, Option.bind_some,
        ← hpure.truthy,
        M₂.val_congr xs b fun r hr => hbr true r (Nat.le_trans hr hs),
        M₂.val_congr xs b' fun r hr => hbr false r (Nat.le_trans hr hs)]
      by_cases htr : M₁.truthy v = true
      · rw [if_pos htr, if_pos htr]
        exact ha s hs (htr ▸ hlive)
      · rw [if_neg htr, if_neg htr]
        exact ha' s hs (Bool.eq_false_iff.mpr htr ▸ hlive)
    | _ => cases hcov
  | call op args ih =>
    intro b act hcov hsim hnow hok s hs hact
    cases b with
    | call op' args' =>
      rw [Term.covers, Bool.and_eq_true] at hcov
      obtain rfl : op = op' := of_decide_eq_true hcov.1
      have hargs : ∀ (as bs : List (Term K U B O)), (∀ a ∈ as, a ∈ args) →
          Term.coversArgs wild as bs = true → Term.AllCallsArgs (CallSim M₁ M₂ xs) as →
          (∀ c ∈ Term.nowsArgs as, ∀ s ≤ N, M₁.val xs c always s ≠ none) →
          (∀ s ≤ N, act s = true → M₁.vals xs as act s ≠ none) →
          ∀ s ≤ N, act s = true → M₂.vals xs bs act s = M₁.vals xs as act s := by
        intro as
        induction as with
        | nil =>
          intro bs _ hcov _ _ _ s _ _
          cases bs with
          | nil => rw [vals_nil, vals_nil]
          | cons b bs => cases hcov
        | cons a as iha =>
          intro bs hmem hcov hsim hnow hok s hs hact
          cases bs with
          | nil => cases hcov
          | cons b bs =>
            rw [Term.coversArgs, Bool.and_eq_true] at hcov
            have hparts : ∀ r ≤ N, act r = true →
                M₁.val xs a act r ≠ none ∧ M₁.vals xs as act r ≠ none := by
              intro r hr hract
              have h := hok r hr hract
              rw [vals_cons] at h
              obtain ⟨v, hv, h'⟩ := bind_ne_none h
              exact ⟨hv ▸ Option.some_ne_none v, map_ne_none h'⟩
            rw [vals_cons, vals_cons,
              ih a (hmem a List.mem_cons_self) b act hcov.1 hsim.1
                (fun c hc => hnow c (List.mem_append_left _ hc))
                (fun r hr h => (hparts r hr h).1) s hs hact,
              iha bs (fun c hc => hmem c (List.mem_cons_of_mem _ hc)) hcov.2 hsim.2
                (fun c hc => hnow c (List.mem_append_right _ hc))
                (fun r hr h => (hparts r hr h).2) s hs hact]
      have hok' : ∀ s ≤ N, act s = true →
          M₁.output xs op act (M₁.vals xs args act) s ≠ none :=
        fun r hr h => (M₁.val_call xs op args act r) ▸ hok r hr h
      have hins := hargs args args' (fun _ ha => ha) hcov.2 hsim.2 hnow
        fun r hr h => by
          obtain ⟨vs, hvs, _⟩ := bind_ne_none (hok' r hr h)
          exact hvs ▸ Option.some_ne_none vs
      rw [val_call, val_call]
      exact output_refines hsim.1 hins hok' s hs hact
    | _ => cases hcov

end Refines

end Semantics

end Dataflow
