import JitSignalEngine.CallSites
import Mathlib.Data.List.Nodup

/-!
# Schedules

What an evaluator that keeps one state slot per node id computes, without the slots:
a body with its ids is translated into a dataflow term in which every stateful call
owns its state.

* `Plan` — the dataflow terms of the engine, and `interpSemantics`, the meaning the
  interpreter's operators give them.
* `schedule` — the translation. It walks a body in pre-order, the order in which ids
  are handed out, and keeps a dictionary of the ids that are stepped unconditionally;
  a later call with such an id becomes `now`, the value that id has at this tick.
* `Site` — where an id is stepped: the call, the branches around it, and the
  dictionary in force. `schedule` lists the sites of all ids it meets.
-/

namespace JitSignalEngine

open Fp Widen Dataflow

variable {D L : Type}

/-! ## Plans -/

/-- The leaves of a plan. -/
inductive Leaf (D : Type) where
  /-- a literal -/
  | number (v : D)
  /-- a parameter -/
  | param (id : Int)
  /-- a market read -/
  | market (fn : MarketFn) (symbol : Nat)
  /-- an expression that cannot be evaluated -/
  | fail
deriving DecidableEq

/-- The unary functions of a plan. -/
inductive UnaryFn where
  /-- a unary operator -/
  | op (kind : UnaryOpKind)
  /-- a math function -/
  | math (fn : MathFn)
deriving DecidableEq, Repr

/-- The dataflow terms of the engine. -/
abbrev Plan (D : Type) : Type := Term (Leaf D) UnaryFn BinaryOpKind (StatefulOp D)

/-- The branches around a position, innermost first. -/
abbrev Path (D : Type) : Type := List (Plan D × Bool)

/-- `params->at(id)`, when it is there. -/
def paramValue (params : List D) (id : Int) : Option D :=
  if id < 0 then none else params[id.toNat]?

section Semantics

variable [Fp D] [Fp L] [Widen D L]

/-- A unary function on a value. -/
def UnaryFn.apply : UnaryFn → D → D
  | .op kind => kind.apply
  | .math fn => fn.apply

/-- A leaf at a tick. -/
def Leaf.read (params : List D) : Leaf D → MarketState D → Option D
  | .number v, _ => some v
  | .param id, _ => paramValue params id
  | .market fn symbol, tick => some ((tick symbol).read fn)
  | .fail, _ => none

/-- The meaning of plans under operators with the given states and steps. -/
def planSemantics {S : Type} (params : List D) (init : StatefulOp D → S)
    (step : StatefulOp D → MarketState D → List D → S → Option (D × S)) :
    Semantics (Leaf D) UnaryFn BinaryOpKind (StatefulOp D) (MarketState D) D S where
  leaf := Leaf.read params
  map := UnaryFn.apply
  zip := BinaryOpKind.apply
  truthy := truthy
  init := init
  step := step

/-- The prewarmed slot of an operator. -/
def StatefulOp.slot (op : StatefulOp D) : NodeSlot D L := NodeSlot.empty.prewarm op.fn op.literal

/-- The constants of a plan are its literals. -/
def planLiterals {S : Type} (params : List D) (init : StatefulOp D → S)
    (step : StatefulOp D → MarketState D → List D → S → Option (D × S)) :
    (planSemantics params init step).Literals where
  const := .number
  get
    | .number v => some v
    | _ => none
  get_const _ := rfl
  leaf_of_get {k v} h x := by
    cases k with
    | number w => exact h
    | _ => cases h

variable (L) in
/-- The meaning of plans under the operators of the interpreter. -/
def interpSemantics (params : List D) :
    Semantics (Leaf D) UnaryFn BinaryOpKind (StatefulOp D) (MarketState D) D (NodeSlot D L) :=
  planSemantics params StatefulOp.slot fun op market vs slot =>
    (Interpreter.operatorStep op market vs slot).toOption

end Semantics

/-! ## The translation -/

/-- What a schedule depends on besides the body. -/
structure ScheduleEnv (D : Type) where
  /-- the registered tickers -/
  symbols : SymbolTable
  /-- how stateful operators are implemented -/
  impl : StatefulFn → List (Option D) → Impl
  /-- what identifiers stand for: the plan of the signal they refer to -/
  refs : String → Option (Plan D)

/-- The ids that are stepped at every tick, with their plans. -/
abbrev Dict (D : Type) : Type := Int → Option (Plan D)

namespace Dict

/-- No ids. -/
def empty : Dict D := fun _ => none

/-- Add an id. -/
def insert (δ : Dict D) (n : Int) (p : Plan D) : Dict D := fun m => if m = n then some p else δ m

@[simp] theorem insert_self (δ : Dict D) (n : Int) (p : Plan D) : δ.insert n p n = some p := by
  simp [insert]

theorem insert_ne (δ : Dict D) {n m : Int} (p : Plan D) (h : m ≠ n) : δ.insert n p m = δ m := by
  simp [insert, h]

/-- Everything in `δ` is in `δ'`. -/
def Le (δ δ' : Dict D) : Prop := ∀ n p, δ n = some p → δ' n = some p

theorem Le.refl (δ : Dict D) : δ.Le δ := fun _ _ h => h

theorem Le.trans {δ δ' δ'' : Dict D} (h : δ.Le δ') (h' : δ'.Le δ'') : δ.Le δ'' :=
  fun n p hn => h' n p (h n p hn)

theorem Le.insert {δ δ' : Dict D} (h : δ.Le δ') {n : Int} (hn : δ n = none) (p : Plan D) :
    δ.Le (δ'.insert n p) := by
  intro m q hm
  rw [insert_ne]
  · exact h m q hm
  · rintro rfl
    rw [hn] at hm
    cases hm

end Dict

/-- Where an id is stepped. -/
structure Site (D : Type) where
  /-- the function called -/
  name : String
  /-- the outlines of the arguments -/
  args : List (Expr D)
  /-- the branches around the call -/
  path : Path D
  /-- the ids stepped before it -/
  dict : Dict D
  /-- the plan of the call -/
  plan : Plan D

/-- The result of scheduling an expression. -/
structure Scheduled (D : Type) where
  /-- the plan -/
  plan : Plan D
  /-- the ids stepped at every tick by now -/
  dict : Dict D
  /-- the ids met -/
  sites : List (Int × Site D)

/-- The result of scheduling an argument list. -/
structure ScheduledArgs (D : Type) where
  /-- the plans of the arguments -/
  plans : List (Plan D)
  /-- the ids stepped at every tick by now -/
  dict : Dict D
  /-- the ids met -/
  sites : List (Int × Site D)

/-- The plan of a call, given its shape and the plans of its arguments. -/
def callPlan : CallShape D → List (Plan D) → Plan D
  | .invalid, _ => .leaf .fail
  | .market fn symbol, _ => .leaf (.market fn symbol)
  | .math fn, [p] => .map (.math fn) p
  | .math _, _ => .leaf .fail
  | .stateful op, plans => .call op (plans.take op.fn.arity)

section Schedule

variable [Fp D] (env : ScheduleEnv D)

/-- The plan of a reference. -/
def refPlan (n : String) : Plan D :=
  match env.refs n with
  | some p => .now p
  | none => .leaf .fail

/-- The shape of a call whose ticker is looked up by name. -/
def ScheduleEnv.shape (name : String) (args : List (Expr D)) : CallShape D :=
  decodeCall env.impl env.symbols name args (-1)

/-- A call, given its scheduled arguments. Stateful calls leave a site, and an entry in
the dictionary when no branch is around them. -/
def scheduleCall (path : Path D) (name : String) (args : List (Expr D)) (nodeId : Int) (δ : Dict D)
    (r : ScheduledArgs D) : Scheduled D :=
  let plan := callPlan (env.shape name args) r.plans
  if isStatefulOp name then
    ⟨plan, if path.isEmpty then r.dict.insert nodeId plan else r.dict,
      (nodeId, ⟨name, args.map Expr.outline, path, δ, plan⟩) :: r.sites⟩
  else ⟨plan, r.dict, r.sites⟩

mutual

/-- The schedule of an expression under the branches `path`, after the ids of `δ`. -/
def schedule (path : Path D) : Expr D → Dict D → Scheduled D
  | .numberLiteral _ v, δ => ⟨.leaf (.number v), δ, []⟩
  | .identifierExpr _ n, δ => ⟨refPlan env n, δ, []⟩
  | .parameterExpr _ _ i, δ => ⟨.leaf (.param i), δ, []⟩
  | .unaryOp _ k e, δ =>
    let r := schedule path e δ
    ⟨.map (.op k) r.plan, r.dict, r.sites⟩
  | .binaryOp _ k a b, δ =>
    let ra := schedule path a δ
    let rb := schedule path b ra.dict
    ⟨.zip k ra.plan rb.plan, rb.dict, ra.sites ++ rb.sites⟩
  | .conditional _ c a b, δ =>
    let rc := schedule path c δ
    let ra := schedule ((rc.plan, true) :: path) a rc.dict
    let rb := schedule ((rc.plan, false) :: path) b ra.dict
    ⟨.cond rc.plan ra.plan rb.plan, rb.dict, rc.sites ++ ra.sites ++ rb.sites⟩
  | .functionCall _ name args nid _, δ =>
    match δ nid with
    | some p => ⟨.now p, δ, []⟩
    | none => scheduleCall env path name args nid δ (scheduleArgs path args δ)

/-- The schedule of an argument list. -/
def scheduleArgs (path : Path D) : List (Expr D) → Dict D → ScheduledArgs D
  | [], δ => ⟨[], δ, []⟩
  | a :: as, δ =>
    let r := schedule path a δ
    let rs := scheduleArgs path as r.dict
    ⟨r.plan :: rs.plans, rs.dict, r.sites ++ rs.sites⟩

end

/-- The plan of a body. -/
def planOf (body : Expr D) : Plan D := (schedule env [] body .empty).plan

/-! ## What a schedule consists of -/

theorem schedule_alias {path : Path D} {loc : SourceLoc} {name : String} {args : List (Expr D)}
    {nid sid : Int} {δ : Dict D} {p : Plan D} (h : δ nid = some p) :
    schedule env path (.functionCall loc name args nid sid) δ = ⟨.now p, δ, []⟩ := by
  rw [schedule, h]

theorem schedule_fresh {path : Path D} {loc : SourceLoc} {name : String} {args : List (Expr D)}
    {nid sid : Int} {δ : Dict D} (h : δ nid = none) :
    schedule env path (.functionCall loc name args nid sid) δ =
      scheduleCall env path name args nid δ (scheduleArgs env path args δ) := by
  rw [schedule, h]

/-- Only the outline of an expression is scheduled. -/
theorem schedule_outline (e : Expr D) : ∀ (path : Path D) (δ : Dict D),
    schedule env path e.outline δ = schedule env path e δ := by
  induction e using Expr.induct with
  | numberLiteral | identifierExpr | parameterExpr => intro path δ; rfl
  | unaryOp loc k e ih => intro path δ; rw [Expr.outline, schedule, schedule, ih]
  | binaryOp loc k a b iha ihb =>
    intro path δ
    rw [Expr.outline, schedule, schedule, iha, ihb]
  | conditional loc c a b ihc iha ihb =>
    intro path δ
    rw [Expr.outline, schedule, schedule, ihc, iha, ihb]
  | functionCall loc name args nid sid ih =>
    intro path δ
    have hargs : ∀ (as : List (Expr D)), (∀ a ∈ as, a ∈ args) → ∀ δ,
        scheduleArgs env path (as.map Expr.outline) δ = scheduleArgs env path as δ := by
      intro as
      induction as with
      | nil => intro _ δ; rfl
      | cons a as iha =>
        intro hmem δ
        rw [List.map_cons, scheduleArgs, scheduleArgs, ih a (hmem a List.mem_cons_self),
          iha fun b hb => hmem b (List.mem_cons_of_mem _ hb)]
    have hout : args.map (Expr.outline ∘ Expr.outline) = args.map Expr.outline :=
      List.map_congr_left fun a _ => a.outline_outline
    rw [Expr.outline, Expr.outlineArgs_eq_map, schedule, schedule, hargs args fun _ h => h]
    unfold scheduleCall ScheduleEnv.shape
    rw [decodeCall_outline, List.map_map, hout]

theorem scheduleArgs_outline (path : Path D) (args : List (Expr D)) (δ : Dict D) :
    scheduleArgs env path (args.map Expr.outline) δ = scheduleArgs env path args δ := by
  induction args generalizing δ with
  | nil => rfl
  | cons a as ih => rw [List.map_cons, scheduleArgs, scheduleArgs, schedule_outline, ih]

/-- The ids of a list of sites. -/
abbrev siteIds (sites : List (Int × Site D)) : List Int := sites.map Prod.fst

/-- What scheduling code that contains `calls`, under the branches `path`, adds to a
dictionary. -/
structure Extends (path : Path D) (calls : List (Call D)) (δ δ' : Dict D)
    (sites : List (Int × Site D)) : Prop where
  /-- nothing is forgotten -/
  mono : δ.Le δ'
  /-- new entries are unconditional sites -/
  source : ∀ {n p}, δ' n = some p →
    δ n = some p ∨ ∃ S, (n, S) ∈ sites ∧ S.path = [] ∧ S.plan = p
  /-- a site knows at least the branches around the code -/
  suffix : ∀ {n S}, (n, S) ∈ sites → path <:+ S.path
  /-- a site comes after what was in the dictionary -/
  start_le : ∀ {n S}, (n, S) ∈ sites → δ.Le S.dict
  /-- what is stepped before a site is in the dictionary -/
  dict_le : ∀ {n S}, (n, S) ∈ sites → S.dict.Le δ'
  /-- what is stepped before a site was there, or is an earlier unconditional site -/
  earlier : ∀ {n S}, (n, S) ∈ sites → ∀ {m p}, S.dict m = some p → δ m = some p ∨
    ∃ S', (m, S') ∈ sites ∧ S'.path = [] ∧ S'.plan = p ∧ S'.dict.Le S.dict
  /-- the sites inside a site are sites -/
  inner : ∀ {n S}, (n, S) ∈ sites →
    ∀ x ∈ (scheduleArgs env S.path S.args S.dict).sites, x ∈ sites
  /-- no id has two of them -/
  nodup : ∀ {n S}, (n, S) ∈ sites →
    (siteIds (scheduleArgs env S.path S.args S.dict).sites).Nodup
  /-- the plan of a site -/
  plan : ∀ {n S}, (n, S) ∈ sites → S.plan =
    callPlan (env.shape S.name S.args) (scheduleArgs env S.path S.args S.dict).plans
  /-- a site stands for a stateful call of the code -/
  call : ∀ {n S}, (n, S) ∈ sites → isStatefulOp S.name = true ∧
    ∃ c ∈ calls, c.nodeId = n ∧ c.name = S.name ∧ c.args.map Expr.outline = S.args

namespace Extends

variable {env} {path : Path D} {cs cs' : List (Call D)} {δ δ₁ δ₂ : Dict D}
  {sites sites' : List (Int × Site D)}

/-- Code without calls. -/
theorem refl (path : Path D) (δ : Dict D) : Extends env path cs δ δ [] where
  mono := .refl δ
  source h := .inl h
  suffix h := absurd h List.not_mem_nil
  start_le h := absurd h List.not_mem_nil
  dict_le h := absurd h List.not_mem_nil
  earlier h := absurd h List.not_mem_nil
  inner h := absurd h List.not_mem_nil
  nodup h := absurd h List.not_mem_nil
  plan h := absurd h List.not_mem_nil
  call h := absurd h List.not_mem_nil

/-- One piece of code after another. -/
theorem append (h : Extends env path cs δ δ₁ sites) (h' : Extends env path cs' δ₁ δ₂ sites') :
    Extends env path (cs ++ cs') δ δ₂ (sites ++ sites') where
  mono := h.mono.trans h'.mono
  source hn := by
    rcases h'.source hn with hn | ⟨S, hS, hp⟩
    · rcases h.source hn with hn | ⟨S, hS, hp⟩
      · exact .inl hn
      · exact .inr ⟨S, List.mem_append_left _ hS, hp⟩
    · exact .inr ⟨S, List.mem_append_right _ hS, hp⟩
  suffix hS := (List.mem_append.mp hS).elim h.suffix h'.suffix
  start_le hS := (List.mem_append.mp hS).elim h.start_le fun hS => h.mono.trans (h'.start_le hS)
  dict_le hS := (List.mem_append.mp hS).elim (fun hS => (h.dict_le hS).trans h'.mono) h'.dict_le
  earlier hS m p hm := by
    rcases List.mem_append.mp hS with hS | hS
    · rcases h.earlier hS hm with hm | ⟨S', hS', hrest⟩
      · exact .inl hm
      · exact .inr ⟨S', List.mem_append_left _ hS', hrest⟩
    · rcases h'.earlier hS hm with hm | ⟨S', hS', hrest⟩
      · rcases h.source hm with hm | ⟨S', hS', hp, hplan⟩
        · exact .inl hm
        · exact .inr ⟨S', List.mem_append_left _ hS', hp, hplan,
            (h.dict_le hS').trans (h'.start_le hS)⟩
      · exact .inr ⟨S', List.mem_append_right _ hS', hrest⟩
  inner hS x hx := (List.mem_append.mp hS).elim
    (fun hS => List.mem_append_left _ (h.inner hS x hx))
    (fun hS => List.mem_append_right _ (h'.inner hS x hx))
  nodup hS := (List.mem_append.mp hS).elim h.nodup h'.nodup
  plan hS := (List.mem_append.mp hS).elim h.plan h'.plan
  call hS := by
    rcases List.mem_append.mp hS with hS | hS
    · obtain ⟨hf, c, hc, hS⟩ := h.call hS
      exact ⟨hf, c, List.mem_append_left _ hc, hS⟩
    · obtain ⟨hf, c, hc, hS⟩ := h'.call hS
      exact ⟨hf, c, List.mem_append_right _ hc, hS⟩

/-- Code inside a branch, seen from outside. -/
theorem branch {cb : Plan D × Bool} (h : Extends env (cb :: path) cs δ δ₁ sites) :
    Extends env path cs δ δ₁ sites :=
  { h with suffix := fun hS => (List.suffix_cons cb path).trans (h.suffix hS) }

/-- A call, after its arguments. -/
theorem scheduleCall (name : String) {args : List (Expr D)} {nid : Int} (sid : Int)
    (h : Extends env path (Expr.callsArgs args) δ (scheduleArgs env path args δ).dict
      (scheduleArgs env path args δ).sites)
    (hδ : δ nid = none) (hnew : nid ∉ siteIds (scheduleArgs env path args δ).sites)
    (hargs : (siteIds (scheduleArgs env path args δ).sites).Nodup) :
    Extends env path (⟨name, args, nid, sid⟩ :: Expr.callsArgs args) δ
      (scheduleCall env path name args nid δ (scheduleArgs env path args δ)).dict
      (scheduleCall env path name args nid δ (scheduleArgs env path args δ)).sites := by
  unfold JitSignalEngine.scheduleCall
  by_cases hf : isStatefulOp name = true
  · rw [if_pos hf]
    dsimp only
    -- the arguments leave the id of the call alone
    have hr : (scheduleArgs env path args δ).dict nid = none := by
      rcases hr : (scheduleArgs env path args δ).dict nid with _ | p
      · rfl
      · rcases h.source hr with hn | ⟨S, hS, _⟩
        · rw [hδ] at hn; cases hn
        · exact absurd (List.mem_map_of_mem hS) hnew
    have hle : (scheduleArgs env path args δ).dict.Le
        (if path.isEmpty then (scheduleArgs env path args δ).dict.insert nid
          (callPlan (env.shape name args) (scheduleArgs env path args δ).plans)
        else (scheduleArgs env path args δ).dict) := by
      split
      · exact (Dict.Le.refl _).insert hr _
      · exact .refl _
    refine ⟨h.mono.trans hle, ?_, ?_, ?_, ?_, ?_, ?_, ?_, ?_, ?_⟩
    · intro n p hn
      by_cases hp : path.isEmpty
      · rw [if_pos hp] at hn
        by_cases hnid : n = nid
        · subst hnid
          rw [Dict.insert_self, Option.some.injEq] at hn
          exact .inr ⟨_, List.mem_cons_self, List.isEmpty_iff.mp hp, hn⟩
        · rw [Dict.insert_ne _ _ hnid] at hn
          exact (h.source hn).imp_right fun ⟨S, hS, hp⟩ => ⟨S, List.mem_cons_of_mem _ hS, hp⟩
      · rw [if_neg hp] at hn
        exact (h.source hn).imp_right fun ⟨S, hS, hp⟩ => ⟨S, List.mem_cons_of_mem _ hS, hp⟩
    · intro n S hS
      rcases List.mem_cons.mp hS with hS | hS
      · obtain ⟨rfl, rfl⟩ := Prod.mk.inj hS
        exact List.suffix_refl path
      · exact h.suffix hS
    · intro n S hS
      rcases List.mem_cons.mp hS with hS | hS
      · obtain ⟨rfl, rfl⟩ := Prod.mk.inj hS
        exact .refl δ
      · exact h.start_le hS
    · intro n S hS
      rcases List.mem_cons.mp hS with hS | hS
      · obtain ⟨rfl, rfl⟩ := Prod.mk.inj hS
        exact h.mono.trans hle
      · exact (h.dict_le hS).trans hle
    · intro n S hS m p hm
      rcases List.mem_cons.mp hS with hS | hS
      · obtain ⟨rfl, rfl⟩ := Prod.mk.inj hS
        exact .inl hm
      · exact (h.earlier hS hm).imp_right fun ⟨S', hS', hrest⟩ =>
          ⟨S', List.mem_cons_of_mem _ hS', hrest⟩
    · intro n S hS x hx
      rcases List.mem_cons.mp hS with hS | hS
      · obtain ⟨rfl, rfl⟩ := Prod.mk.inj hS
        rw [scheduleArgs_outline] at hx
        exact List.mem_cons_of_mem _ hx
      · exact List.mem_cons_of_mem _ (h.inner hS x hx)
    · intro n S hS
      rcases List.mem_cons.mp hS with hS | hS
      · obtain ⟨rfl, rfl⟩ := Prod.mk.inj hS
        rw [scheduleArgs_outline]
        exact hargs
      · exact h.nodup hS
    · intro n S hS
      rcases List.mem_cons.mp hS with hS | hS
      · obtain ⟨rfl, rfl⟩ := Prod.mk.inj hS
        rw [scheduleArgs_outline]
        exact congrArg (callPlan · _) (decodeCall_outline _ _ _ _ _).symm
      · exact h.plan hS
    · intro n S hS
      rcases List.mem_cons.mp hS with hS | hS
      · obtain ⟨rfl, rfl⟩ := Prod.mk.inj hS
        exact ⟨hf, _, List.mem_cons_self, rfl, rfl, rfl⟩
      · obtain ⟨hf, c, hc, hS⟩ := h.call hS
        exact ⟨hf, c, List.mem_cons_of_mem _ hc, hS⟩
  · rw [if_neg hf]
    refine { h with call := fun hS => ?_ }
    obtain ⟨hf, c, hc, hS⟩ := h.call hS
    exact ⟨hf, c, List.mem_cons_of_mem _ hc, hS⟩

end Extends

/-- **What scheduling an expression adds to a dictionary**, when no id has two sites. -/
theorem schedule_extends (e : Expr D) : ∀ (path : Path D) (δ : Dict D),
    (siteIds (schedule env path e δ).sites).Nodup →
    Extends env path e.calls δ (schedule env path e δ).dict (schedule env path e δ).sites := by
  induction e using Expr.induct with
  | numberLiteral | identifierExpr | parameterExpr => intro path δ _; exact .refl path δ
  | unaryOp loc k e ih => intro path δ h; exact ih path δ h
  | binaryOp loc k a b iha ihb =>
    intro path δ h
    have h : (siteIds ((schedule env path a δ).sites ++ _)).Nodup := h
    rw [siteIds, List.map_append, List.nodup_append] at h
    exact (iha path δ h.1).append (ihb path _ h.2.1)
  | conditional loc c a b ihc iha ihb =>
    intro path δ h
    have h : (siteIds ((schedule env path c δ).sites ++ _ ++ _)).Nodup := h
    rw [siteIds, List.map_append, List.map_append, List.nodup_append, List.nodup_append] at h
    exact ((ihc path δ h.1.1).append (iha _ _ h.1.2.1).branch).append (ihb _ _ h.2.1).branch
  | functionCall loc name args nid sid ih =>
    intro path δ h
    have hargs : ∀ (as : List (Expr D)), (∀ a ∈ as, a ∈ args) → ∀ δ,
        (siteIds (scheduleArgs env path as δ).sites).Nodup →
        Extends env path (Expr.callsArgs as) δ (scheduleArgs env path as δ).dict
          (scheduleArgs env path as δ).sites := by
      intro as
      induction as with
      | nil => intro _ δ _; exact .refl path δ
      | cons a as iha =>
        intro hmem δ h
        have h : (siteIds ((schedule env path a δ).sites ++ _)).Nodup := h
        rw [siteIds, List.map_append, List.nodup_append] at h
        exact (ih a (hmem a List.mem_cons_self) path δ h.1).append
          (iha (fun b hb => hmem b (List.mem_cons_of_mem _ hb)) _ h.2.1)
    rcases hδ : δ nid with _ | p
    · rw [schedule_fresh env hδ] at h ⊢
      unfold scheduleCall at h
      by_cases hf : isStatefulOp name = true
      · rw [if_pos hf, siteIds, List.map_cons, List.nodup_cons] at h
        exact (hargs args (fun _ h => h) δ h.2).scheduleCall name sid hδ h.1 h.2
      · rw [if_neg hf] at h
        have hx := hargs args (fun _ h => h) δ h
        unfold scheduleCall
        rw [if_neg hf]
        refine { hx with call := fun hS => ?_ }
        obtain ⟨hf, c, hc, hS⟩ := hx.call hS
        exact ⟨hf, c, List.mem_cons_of_mem _ hc, hS⟩
    · rw [schedule_alias env hδ]
      exact .refl path δ

/-- `schedule_extends` for an argument list. -/
theorem scheduleArgs_extends (path : Path D) (args : List (Expr D)) (δ : Dict D)
    (h : (siteIds (scheduleArgs env path args δ).sites).Nodup) :
    Extends env path (Expr.callsArgs args) δ (scheduleArgs env path args δ).dict
      (scheduleArgs env path args δ).sites := by
  induction args generalizing δ with
  | nil => exact .refl path δ
  | cons a as ih =>
    have h : (siteIds ((schedule env path a δ).sites ++ _)).Nodup := h
    rw [siteIds, List.map_append, List.nodup_append] at h
    exact (schedule_extends env a path δ h.1).append (ih _ h.2.1)

/-- Code without calls leaves no trace in a schedule. -/
theorem schedule_of_calls_nil (e : Expr D) (h : e.calls = []) : ∀ (path : Path D) (δ : Dict D),
    (schedule env path e δ).dict = δ ∧ (schedule env path e δ).sites = [] := by
  induction e using Expr.induct with
  | numberLiteral | identifierExpr | parameterExpr => intro path δ; exact ⟨rfl, rfl⟩
  | unaryOp loc k e ih => intro path δ; exact ih h path δ
  | binaryOp loc k a b iha ihb =>
    intro path δ
    obtain ⟨ha, hb⟩ := List.append_eq_nil_iff.mp h
    rw [schedule]
    obtain ⟨hda, hsa⟩ := iha ha path δ
    rw [hda, hsa, (ihb hb path δ).1, (ihb hb path δ).2]
    exact ⟨rfl, rfl⟩
  | conditional loc c a b ihc iha ihb =>
    intro path δ
    obtain ⟨hca, hb⟩ := List.append_eq_nil_iff.mp h
    obtain ⟨hc, ha⟩ := List.append_eq_nil_iff.mp hca
    rw [schedule]
    dsimp only
    rw [(ihc hc path δ).1, (ihc hc path δ).2, (iha ha _ δ).1, (iha ha _ δ).2,
      (ihb hb _ δ).1, (ihb hb _ δ).2]
    exact ⟨rfl, rfl⟩
  | functionCall loc name args nid sid ih => cases h

theorem scheduleArgs_length (path : Path D) (args : List (Expr D)) (δ : Dict D) :
    (scheduleArgs env path args δ).plans.length = args.length := by
  induction args generalizing δ with
  | nil => rfl
  | cons a as ih => rw [scheduleArgs, List.length_cons, List.length_cons, ih]

/-- Trailing arguments without calls make no difference. -/
theorem scheduleArgs_take (path : Path D) {args : List (Expr D)} {k : Nat}
    (h : ∀ a ∈ args.drop k, a.calls = []) (δ : Dict D) :
    scheduleArgs env path (args.take k) δ = ⟨(scheduleArgs env path args δ).plans.take k,
      (scheduleArgs env path args δ).dict, (scheduleArgs env path args δ).sites⟩ := by
  induction args generalizing k δ with
  | nil => rw [List.take_nil, scheduleArgs, List.take_nil]
  | cons a as ih =>
    cases k with
    | zero =>
      rw [List.drop_zero] at h
      have ha := schedule_of_calls_nil env a (h a List.mem_cons_self) path δ
      have := ih (k := 0) (fun b hb => h b (List.mem_cons_of_mem _ hb)) δ
      rw [List.take_zero, scheduleArgs, List.take_zero, ScheduledArgs.mk.injEq] at this
      rw [List.take_zero, scheduleArgs, scheduleArgs]
      dsimp only
      rw [ha.1, ha.2, ← this.2.1, ← this.2.2, List.take_zero]
      rfl
    | succ k =>
      rw [List.take_succ_cons, scheduleArgs, scheduleArgs, ih h]
      rfl

/-! ### What stands under `now` -/

section Returns

variable {I V S : Type} (M : Semantics (Leaf D) UnaryFn BinaryOpKind (StatefulOp D) I V S)
  (xs : Nat → I) (t : Nat)

omit [Fp D] in
/-- A plan that is stepped at every tick has a value at tick `t`, and so has everything
its value refers to. -/
def Plan.Returns (p : Plan D) : Prop :=
  M.val xs p always t ≠ none ∧ ∀ q ∈ p.nows, M.val xs q always t ≠ none

omit [Fp D] in
/-- All entries of a dictionary have values at tick `t`. -/
def Dict.Returns (δ : Dict D) : Prop := ∀ n p, δ n = some p → Plan.Returns M xs t p

variable {M xs t}

omit [Fp D] in
theorem vals_take_ne_none {ps : List (Plan D)} {act : Nat → Bool}
    (h : M.vals xs ps act t ≠ none) : ∀ p ∈ ps, M.val xs p act t ≠ none := by
  induction ps with
  | nil => exact fun p hp => absurd hp List.not_mem_nil
  | cons q qs ih =>
    rw [Semantics.vals_cons] at h
    obtain ⟨v, hv, hvs⟩ := Semantics.bind_ne_none h
    intro p hp
    rcases List.mem_cons.mp hp with rfl | hp
    · rw [hv]
      exact Option.some_ne_none v
    · exact ih (Semantics.map_ne_none hvs) p hp

omit [Fp D] in
/-- A call that has a value had operands with values. -/
theorem callPlan_returns (hfail : ∀ x, M.leaf .fail x = none) {shape : CallShape D}
    {plans : List (Plan D)} (h : M.val xs (callPlan shape plans) always t ≠ none) :
    shape ≠ .invalid ∧ (∀ p ∈ plans.take shape.arity, M.val xs p always t ≠ none) ∧
      ∀ q ∈ (callPlan shape plans).nows, q ∈ Term.nowsArgs (plans.take shape.arity) := by
  cases shape with
  | invalid =>
    rw [callPlan, Semantics.val_leaf] at h
    exact absurd (hfail (xs t)) h
  | market fn symbol =>
    exact ⟨by rintro ⟨⟩, fun p hp => absurd hp List.not_mem_nil,
      fun q hq => absurd hq List.not_mem_nil⟩
  | math fn =>
    have hthrows : M.val xs (.leaf .fail) always t = none := (Semantics.val_leaf ..).trans (hfail (xs t))
    rcases plans with _ | ⟨p, _ | ⟨_, _⟩⟩
    · exact absurd hthrows h
    · rw [callPlan, Semantics.val_map] at h
      refine ⟨by rintro ⟨⟩, fun q hq => ?_, fun q hq => List.mem_append_left _ hq⟩
      rw [List.mem_singleton.mp hq]
      exact Semantics.map_ne_none h
    · exact absurd hthrows h
  | stateful op =>
    rw [callPlan, Semantics.val_call, Semantics.output] at h
    obtain ⟨vs, hvs, _⟩ := Semantics.bind_ne_none h
    refine ⟨by rintro ⟨⟩, vals_take_ne_none ?_, fun q hq => hq⟩
    rw [CallShape.arity, hvs]
    exact Option.some_ne_none vs

omit [Fp D] in
theorem nows_callPlan {shape : CallShape D} {plans : List (Plan D)} :
    ∀ q ∈ (callPlan shape plans).nows, q ∈ Term.nowsArgs plans := by
  have htake : ∀ (ps : List (Plan D)) (k : Nat), ∀ q ∈ Term.nowsArgs (ps.take k),
      q ∈ Term.nowsArgs ps := by
    intro ps
    induction ps with
    | nil => intro k q hq; rw [List.take_nil] at hq; exact hq
    | cons p ps ih =>
      intro k q hq
      cases k with
      | zero => exact absurd hq List.not_mem_nil
      | succ k =>
        rcases List.mem_append.mp hq with hq | hq
        · exact List.mem_append_left _ hq
        · exact List.mem_append_right _ (ih k q hq)
  intro q hq
  cases shape with
  | invalid | market => exact absurd hq List.not_mem_nil
  | math fn =>
    match plans with
    | [p] => exact List.mem_append_left _ hq
    | [] | _ :: _ :: _ => exact absurd hq List.not_mem_nil
  | stateful op => exact htake _ _ q hq

/-- **What a schedule refers to has a value** at every tick at which the whole has one. -/
theorem schedule_returns (hfail : ∀ x, M.leaf .fail x = none)
    (hrefs : ∀ n p, env.refs n = some p → Plan.Returns M xs t p) (e : Expr D) :
    ∀ (path : Path D) (δ : Dict D), δ.Returns M xs t →
      (path = [] → M.val xs (schedule env path e δ).plan always t ≠ none) →
      (∀ q ∈ (schedule env path e δ).plan.nows, M.val xs q always t ≠ none) ∧
        (schedule env path e δ).dict.Returns M xs t := by
  induction e using Expr.induct with
  | numberLiteral | parameterExpr =>
    intro path δ hδ _
    exact ⟨fun q hq => absurd hq List.not_mem_nil, hδ⟩
  | identifierExpr loc n =>
    intro path δ hδ _
    refine ⟨fun q hq => ?_, hδ⟩
    rw [schedule, refPlan] at hq
    rcases hn : env.refs n with _ | p
    · rw [hn] at hq
      exact absurd hq List.not_mem_nil
    · rw [hn] at hq
      rcases List.mem_cons.mp hq with rfl | hq
      · exact (hrefs n q hn).1
      · exact (hrefs n p hn).2 q hq
  | unaryOp loc k e ih =>
    intro path δ hδ hv
    refine ih path δ hδ fun hp => ?_
    have hv := hv hp
    rw [schedule, Semantics.val_map] at hv
    exact Semantics.map_ne_none hv
  | binaryOp loc k a b iha ihb =>
    intro path δ hδ hv
    have hparts : path = [] → M.val xs (schedule env path a δ).plan always t ≠ none ∧
        M.val xs (schedule env path b (schedule env path a δ).dict).plan always t ≠ none := by
      intro hp
      have hv := hv hp
      rw [schedule, Semantics.val_zip] at hv
      obtain ⟨v, hv, hw⟩ := Semantics.bind_ne_none hv
      exact ⟨hv ▸ Option.some_ne_none v, Semantics.map_ne_none hw⟩
    obtain ⟨hna, hda⟩ := iha path δ hδ fun hp => (hparts hp).1
    obtain ⟨hnb, hdb⟩ := ihb path _ hda fun hp => (hparts hp).2
    exact ⟨fun q hq => (List.mem_append.mp hq).elim (hna q) (hnb q), hdb⟩
  | conditional loc c a b ihc iha ihb =>
    intro path δ hδ hv
    obtain ⟨hnc, hdc⟩ := ihc path δ hδ fun hp => by
      have hv := hv hp
      rw [schedule, Semantics.val_cond] at hv
      obtain ⟨v, hv, _⟩ := Semantics.bind_ne_none hv
      exact hv ▸ Option.some_ne_none v
    obtain ⟨hna, hda⟩ := iha (((schedule env path c δ).plan, true) :: path) _ hdc
      fun hp => (nomatch hp)
    obtain ⟨hnb, hdb⟩ := ihb (((schedule env path c δ).plan, false) :: path) _ hda
      fun hp => (nomatch hp)
    refine ⟨fun q hq => ?_, hdb⟩
    rcases List.mem_append.mp hq with hq | hq
    · exact (List.mem_append.mp hq).elim (hnc q) (hna q)
    · exact hnb q hq
  | functionCall loc name args nid sid ih =>
    intro path δ hδ hv
    rcases hn : δ nid with _ | p
    · rw [schedule_fresh env hn] at hv ⊢
      have hargs : ∀ (as : List (Expr D)), (∀ a ∈ as, a ∈ args) → ∀ δ : Dict D,
          δ.Returns M xs t →
          (path = [] → ∀ p ∈ (scheduleArgs env path as δ).plans, M.val xs p always t ≠ none) →
          (∀ q ∈ Term.nowsArgs (scheduleArgs env path as δ).plans, M.val xs q always t ≠ none) ∧
            (scheduleArgs env path as δ).dict.Returns M xs t := by
        intro as
        induction as with
        | nil => intro _ δ hδ _; exact ⟨fun q hq => absurd hq List.not_mem_nil, hδ⟩
        | cons a as iha =>
          intro hmem δ hδ hv
          obtain ⟨hna, hda⟩ := ih a (hmem a List.mem_cons_self) path δ hδ
            fun hp => hv hp _ List.mem_cons_self
          obtain ⟨hns, hds⟩ := iha (fun b hb => hmem b (List.mem_cons_of_mem _ hb)) _ hda
            fun hp p hq => hv hp p (List.mem_cons_of_mem _ hq)
          exact ⟨fun q hq => (List.mem_append.mp hq).elim (hna q) (hns q), hds⟩
      have hplan : (scheduleCall env path name args nid δ (scheduleArgs env path args δ)).plan =
          callPlan (env.shape name args) (scheduleArgs env path args δ).plans := by
        unfold scheduleCall
        split <;> rfl
      rw [hplan] at hv ⊢
      have hr : (∀ q ∈ (callPlan (env.shape name args) (scheduleArgs env path args δ).plans).nows,
          M.val xs q always t ≠ none) ∧ (scheduleArgs env path args δ).dict.Returns M xs t := by
        by_cases hp : path = []
        · -- only the operands are known to have values
          obtain ⟨hvalid, hops, hnows⟩ := callPlan_returns hfail (hv hp)
          have htake := scheduleArgs_take env path (calls_of_rest rfl hvalid) δ
          have h := hargs (args.take (env.shape name args).arity)
            (fun a ha => List.mem_of_mem_take ha) δ hδ
          rw [show scheduleArgs env path (args.take (env.shape name args).arity) δ = _ from htake] at h
          obtain ⟨hq, hd⟩ := h fun _ => hops
          exact ⟨fun q hq' => hq q (hnows q hq'), hd⟩
        · obtain ⟨hq, hd⟩ := hargs args (fun _ h => h) δ hδ fun h => absurd h hp
          exact ⟨fun q hq' => hq q (nows_callPlan q hq'), hd⟩
      refine ⟨hr.1, ?_⟩
      unfold scheduleCall
      split
      · dsimp only
        split
        · rename_i hp
          intro m p hm
          by_cases hmn : m = nid
          · rw [hmn, Dict.insert_self, Option.some.injEq] at hm
            rw [← hm]
            exact ⟨hv (List.isEmpty_iff.mp hp), hr.1⟩
          · rw [Dict.insert_ne _ _ hmn] at hm
            exact hr.2 m p hm
        · exact hr.2
      · exact hr.2
    · rw [schedule_alias env hn]
      refine ⟨fun q hq => ?_, hδ⟩
      rcases List.mem_cons.mp hq with rfl | hq
      · exact (hδ nid q hn).1
      · exact (hδ nid p hn).2 q hq

end Returns

/-! ### The sites of a whole body -/

/-- The sites by id. -/
abbrev SiteTable (D : Type) : Type := Int → Option (Site D)

/-- The table a list of sites makes. -/
def siteTable (sites : List (Int × Site D)) : SiteTable D := fun n =>
  (sites.find? fun x => x.1 = n).map Prod.snd

omit [Fp D] in
theorem siteTable_eq_some {sites : List (Int × Site D)} (h : (siteIds sites).Nodup) {n : Int}
    {S : Site D} : siteTable sites n = some S ↔ (n, S) ∈ sites := by
  unfold siteTable
  constructor
  · intro hS
    obtain ⟨⟨m, T⟩, hfind, rfl⟩ := Option.map_eq_some_iff.mp hS
    obtain rfl : m = n := by simpa using List.find?_some hfind
    exact List.mem_of_find?_eq_some hfind
  · intro hS
    rcases hfind : sites.find? fun x => x.1 = n with _ | ⟨m, T⟩
    · exact absurd (decide_eq_true rfl) (List.find?_eq_none.mp hfind _ hS)
    · obtain rfl : m = n := by simpa using List.find?_some hfind
      have heq := List.inj_on_of_nodup_map h (List.mem_of_find?_eq_some hfind) hS rfl
      rw [hfind, Option.map_some, (Prod.mk.inj heq).2]

/-- The entries of a dictionary are unconditional sites, with everything before them. -/
def DictOk (Γ : SiteTable D) (δ : Dict D) : Prop :=
  ∀ n p, δ n = some p → ∃ S, Γ n = some S ∧ S.path = [] ∧ S.plan = p ∧ S.dict.Le δ

omit [Fp D] in
theorem DictOk.empty (Γ : SiteTable D) : DictOk Γ Dict.empty := fun _ _ h => nomatch h

theorem DictOk.extend {env : ScheduleEnv D} {Γ : SiteTable D} {path : Path D}
    {calls : List (Call D)} {δ δ' : Dict D} {sites : List (Int × Site D)} (h : DictOk Γ δ)
    (hx : Extends env path calls δ δ' sites) (hΓ : ∀ x ∈ sites, Γ x.1 = some x.2) :
    DictOk Γ δ' := by
  intro n p hn
  rcases hx.source hn with hn | ⟨S, hS, hpath, hplan⟩
  · obtain ⟨S, hS, hpath, hplan, hle⟩ := h n p hn
    exact ⟨S, hS, hpath, hplan, hle.trans hx.mono⟩
  · exact ⟨S, hΓ _ hS, hpath, hplan, hx.dict_le hS⟩

/-- A table that is closed under going to the sites inside a site. -/
structure Coherent (Γ : SiteTable D) : Prop where
  /-- ids that were handed out are positive -/
  pos : ∀ {n S}, Γ n = some S → 0 < n
  /-- sites inside a site are in the table -/
  inner : ∀ {n S}, Γ n = some S →
    ∀ x ∈ (scheduleArgs env S.path S.args S.dict).sites, Γ x.1 = some x.2
  /-- and have different ids -/
  nodup : ∀ {n S}, Γ n = some S → (siteIds (scheduleArgs env S.path S.args S.dict).sites).Nodup
  /-- what comes before a site is in the table -/
  dict : ∀ {n S}, Γ n = some S → DictOk Γ S.dict
  /-- the plan of a site -/
  plan : ∀ {n S}, Γ n = some S → S.plan =
    callPlan (env.shape S.name S.args) (scheduleArgs env S.path S.args S.dict).plans
  /-- sites stand for stateful calls -/
  stateful : ∀ {n S}, Γ n = some S → isStatefulOp S.name = true

/-- The sites of a body, when no id has two of them. -/
theorem coherent_siteTable {body : Expr D}
    (h : (siteIds (schedule env [] body .empty).sites).Nodup)
    (hpos : ∀ n ∈ siteIds (schedule env [] body .empty).sites, 0 < n) :
    Coherent env (siteTable (schedule env [] body .empty).sites) := by
  have hx := schedule_extends env body [] .empty h
  refine ⟨?_, ?_, ?_, ?_, ?_, ?_⟩ <;> intro n S hS <;> rw [siteTable_eq_some h] at hS
  · exact hpos n (List.mem_map_of_mem hS)
  · intro x hx'
    exact (siteTable_eq_some h).mpr (hx.inner hS x hx')
  · exact hx.nodup hS
  · intro m p hm
    rcases hx.earlier hS hm with hm | ⟨S', hS', hpath, hplan, hle⟩
    · cases hm
    · exact ⟨S', (siteTable_eq_some h).mpr hS', hpath, hplan, hle⟩
  · exact hx.plan hS
  · exact (hx.call hS).1

end Schedule

end JitSignalEngine
