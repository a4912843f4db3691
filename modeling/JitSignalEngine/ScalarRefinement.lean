import JitSignalEngine.ConstantFoldRun
import JitSignalEngine.EmittedProgram
import JitSignalEngine.PreparedOperators

/-!
# Compiled programs refine the interpreter

A fused program, and the interpreter on each of its signals, follow schedules that agree but for
the implementations of operators and for identifiers, which the interpreter cannot evaluate. Where
the operators of the code do what those of the interpreter do, the program writes what the
interpreter returns, unless a `kalman1d` shares a call between its measurement and its noise
arguments whose inner calls are not shared: the interpreter evaluates the noise arguments first.

* `schedule_covers` — references make no difference where they are not read.
* `schedule_allCalls` — what holds of the calls of a body holds in its plan.
* `interp_val_impl` — the interpreter does not look at implementations.
* `code_follows` — a run of a program, given a simulation for each of its calls.
* `runtime_callSim` — the simulation for the operators of the runtime.
* `code_refines_interpreter` — such a run and that of the interpreter.
* `scalar_code_refines_interpreter` — a run of a program without lowered operators.
-/

namespace JitSignalEngine

open Fp Widen Dataflow Interpreter EmittedTick

variable {D L : Type} [Fp D]

/-! ## Decoded operators -/

/-- The literal of a decoded operator is a period. -/
theorem literalPeriod_of_decode {impl : Impl} {symbols : SymbolTable} {fn : StatefulFn}
    {args : List (Expr D)} {op : StatefulOp D} {v : D}
    (h : decodeStateful impl symbols fn args (-1) = .stateful op) (hv : op.literal = some v) :
    literalPeriod v ≠ none := by
  have hw : ∀ {w : Expr D} {u : D}, decodeWindow fn w = some u → literalPeriod u ≠ none := by
    intro w u hu hnone
    have hnum := decodeWindow_eq_some hu
    simp only [decodeWindow, hnum, hnone] at hu
    cases hu
  unfold decodeStateful at h
  split at h
  all_goals first
    | (cases h; done)
    | (cases h; cases hv)
    | (split at h
       · cases h
         cases hv
         exact hw ‹_›
       · cases h)

/-- The window of a decoded operator is long enough. -/
theorem minPeriod_of_decode {impl : Impl} {symbols : SymbolTable} {fn : StatefulFn}
    {args : List (Expr D)} {op : StatefulOp D} {v : D}
    (h : decodeStateful impl symbols fn args (-1) = .stateful op) (hv : op.literal = some v) :
    fn.minPeriod ≤ op.period := by
  have hw : ∀ {w : Expr D} {u : D}, decodeWindow fn w = some u → fn.minPeriod ≤ (toInt u).toNat := by
    intro w u hu
    have hnum := decodeWindow_eq_some hu
    unfold decodeWindow literalPeriod at hu
    rw [hnum] at hu
    dsimp only at hu
    split at hu
    · cases hu
    · rename_i period hperiod
      split at hperiod
      · cases hperiod
      · cases hperiod
        split at hu
        · cases hu
        · exact Nat.not_lt.mp ‹_›
  unfold StatefulOp.period
  rw [hv]
  unfold decodeStateful at h
  split at h
  all_goals first
    | (cases h; done)
    | (cases h; cases hv)
    | (split at h
       · cases h
         cases hv
         exact hw ‹_›
       · cases h)

/-- **The period of a decoded operator** is the one the prewarm reads. -/
theorem sized_of_decode {impl : Impl} {symbols : SymbolTable} {fn : StatefulFn}
    {args : List (Expr D)} {op : StatefulOp D}
    (h : decodeStateful impl symbols fn args (-1) = .stateful op) (hdec : DecodedAs impl fn args op) :
    op.Sized ∧ parsePreparedPeriod op.literal = op.period := by
  unfold StatefulOp.Sized StatefulOp.period
  rcases hlit : op.literal with _ | v
  · refine ⟨?_, rfl⟩
    rw [hdec.fn_eq]
    rcases hdec.windowless hlit with rfl | rfl | rfl | rfl <;> trivial
  · have hperiod := literalPeriod_of_decode h hlit
    unfold literalPeriod at hperiod
    split at hperiod
    · exact absurd rfl hperiod
    rename_i hok
    refine ⟨?_, by rw [parsePreparedPeriod, if_neg hok]⟩
    have hpos : 0 < (toInt v).toNat := by
      rw [Bool.or_eq_true, not_or, decide_eq_true_eq] at hok
      omega
    split <;> trivial

/-! ## References -/

section Covers

variable [DecidableEq D]

/-- The plan `q` can stand in for the plan `p`. -/
def Plan.Covered (p q : Plan D) : Prop := Term.covers Leaf.fails p q = true

/-- The entries of one dictionary can stand in for those of another one. -/
def Dict.Covered (δ δ' : Dict D) : Prop := ∀ n, Option.Rel Plan.Covered (δ n) (δ' n)

omit [Fp D] in
theorem Dict.Covered.insert {δ δ' : Dict D} (h : δ.Covered δ') (n : Int) {p q : Plan D}
    (hpq : p.Covered q) : (δ.insert n p).Covered (δ'.insert n q) := by
  intro m
  unfold Dict.insert
  split
  · exact .some hpq
  · exact h m

omit [Fp D] in
theorem Plan.Covered.refl_leaf (k : Leaf D) : Plan.Covered (.leaf k) (.leaf k) := by
  simp [Plan.Covered, Term.covers]

omit [Fp D] in
theorem covered_callPlan (shape : CallShape D) {ps qs : List (Plan D)}
    (h : Term.coversArgs Leaf.fails ps qs = true) :
    (callPlan shape ps).Covered (callPlan shape qs) := by
  have htake : ∀ (k : Nat) {ps qs : List (Plan D)}, Term.coversArgs Leaf.fails ps qs = true →
      Term.coversArgs Leaf.fails (ps.take k) (qs.take k) = true := by
    intro k
    induction k with
    | zero => intro ps qs _; rfl
    | succ k ih =>
      intro ps qs h
      cases ps with
      | nil => cases qs <;> first | rfl | cases h
      | cons p ps =>
        cases qs with
        | nil => cases h
        | cons q qs =>
          rw [Term.coversArgs, Bool.and_eq_true] at h
          rw [List.take_succ_cons, List.take_succ_cons, Term.coversArgs, h.1, ih h.2]
          rfl
  cases shape with
  | invalid | market => exact .refl_leaf _
  | math fn =>
    rcases ps with _ | ⟨p, _ | ⟨p', ps⟩⟩ <;> rcases qs with _ | ⟨q, _ | ⟨q', qs⟩⟩ <;>
      first | exact .refl_leaf _ | simp_all [Plan.Covered, callPlan, Term.covers, Term.coversArgs]
  | stateful op =>
    unfold Plan.Covered callPlan
    rw [Term.covers, htake _ h]
    simp

/-- **References make no difference** where the first schedule does not read them. -/
theorem schedule_covers (env : ScheduleEnv D) (hnone : ∀ n, env.refs n = none)
    (refs : String → Option (Plan D)) (e : Expr D) : ∀ (path path' : Path D) (δ δ' : Dict D),
    path.isEmpty = path'.isEmpty → δ.Covered δ' →
    (schedule env path e δ).plan.Covered
        (schedule { env with refs := refs } path' e δ').plan ∧
      (schedule env path e δ).dict.Covered
        (schedule { env with refs := refs } path' e δ').dict := by
  induction e using Expr.induct with
  | numberLiteral | parameterExpr =>
    intro path path' δ δ' _ hδ
    exact ⟨.refl_leaf _, hδ⟩
  | identifierExpr loc n =>
    intro path path' δ δ' _ hδ
    refine ⟨?_, hδ⟩
    rw [schedule, refPlan, hnone]
    simp [Plan.Covered, Term.covers, Leaf.fails]
  | unaryOp loc k e ih =>
    intro path path' δ δ' hp hδ
    obtain ⟨he, hd⟩ := ih path path' δ δ' hp hδ
    refine ⟨?_, hd⟩
    unfold Plan.Covered at he ⊢
    rw [schedule, schedule, Term.covers, he]
    simp
  | binaryOp loc k a b iha ihb =>
    intro path path' δ δ' hp hδ
    obtain ⟨ha, hda⟩ := iha path path' δ δ' hp hδ
    obtain ⟨hb, hdb⟩ := ihb path path' _ _ hp hda
    refine ⟨?_, hdb⟩
    unfold Plan.Covered at ha hb ⊢
    rw [schedule, schedule, Term.covers, ha, hb]
    simp
  | conditional loc c a b ihc iha ihb =>
    intro path path' δ δ' hp hδ
    obtain ⟨hc, hdc⟩ := ihc path path' δ δ' hp hδ
    obtain ⟨ha, hda⟩ := iha (_ :: path) (_ :: path') _ _ rfl hdc
    obtain ⟨hb, hdb⟩ := ihb (_ :: path) (_ :: path') _ _ rfl hda
    refine ⟨?_, hdb⟩
    unfold Plan.Covered at ha hb hc ⊢
    rw [schedule, schedule, Term.covers, hc, ha, hb]
    rfl
  | functionCall loc name args nid sid ih =>
    intro path path' δ δ' hp hδ
    have hargs : ∀ (as : List (Expr D)), (∀ a ∈ as, a ∈ args) → ∀ δ δ' : Dict D, δ.Covered δ' →
        Term.coversArgs Leaf.fails (scheduleArgs env path as δ).plans
            (scheduleArgs { env with refs := refs } path' as δ').plans = true ∧
          (scheduleArgs env path as δ).dict.Covered
            (scheduleArgs { env with refs := refs } path' as δ').dict := by
      intro as
      induction as with
      | nil => intro _ δ δ' hδ; exact ⟨rfl, hδ⟩
      | cons a as iha =>
        intro hmem δ δ' hδ
        obtain ⟨ha, hda⟩ := ih a (hmem a List.mem_cons_self) path path' δ δ' hp hδ
        obtain ⟨has, hdas⟩ := iha (fun b hb => hmem b (List.mem_cons_of_mem _ hb)) _ _ hda
        refine ⟨?_, hdas⟩
        unfold Plan.Covered at ha
        rw [scheduleArgs, scheduleArgs, Term.coversArgs, ha, has]
        rfl
    have hrel := hδ nid
    rcases hn : δ nid with _ | p <;> rcases hn' : δ' nid with _ | q <;> rw [hn, hn'] at hrel
    · obtain ⟨hplans, hdict⟩ := hargs args (fun _ h => h) δ δ' hδ
      have hplan := covered_callPlan (env.shape name args) hplans
      rw [schedule_fresh _ hn, schedule_fresh _ hn']
      unfold scheduleCall
      rw [hp]
      by_cases hst : isStatefulOp name = true
      · rw [if_pos hst, if_pos hst]
        refine ⟨hplan, ?_⟩
        dsimp only
        split
        · exact hdict.insert nid hplan
        · exact hdict
      · rw [if_neg hst, if_neg hst]
        exact ⟨hplan, hdict⟩
    · cases hrel
    · cases hrel
    · rw [schedule_alias _ hn, schedule_alias _ hn']
      cases hrel with
      | some hpq => exact ⟨hpq, hδ⟩

end Covers

/-! ## The calls of a plan -/

section Calls

variable {P : StatefulOp D → List (Plan D) → Prop}

omit [Fp D] in
theorem allCalls_callPlan (shape : CallShape D) {plans : List (Plan D)}
    (h : Term.AllCallsArgs P plans)
    (hop : ∀ op, shape = .stateful op → P op (plans.take op.fn.arity)) :
    Term.AllCalls P (callPlan shape plans) := by
  have htake : ∀ (k : Nat) {ps : List (Plan D)}, Term.AllCallsArgs P ps →
      Term.AllCallsArgs P (ps.take k) := by
    intro k
    induction k with
    | zero => intro ps _; trivial
    | succ k ih =>
      intro ps h
      cases ps with
      | nil => trivial
      | cons p ps => exact ⟨h.1, ih h.2⟩
  cases shape with
  | invalid | market => trivial
  | math fn =>
    rcases plans with _ | ⟨p, _ | ⟨_, _⟩⟩
    · trivial
    · exact h.1
    · trivial
  | stateful op => exact ⟨hop op rfl, htake _ h⟩

/-- **What holds of the calls of a body** holds of the calls in its plan. -/
theorem schedule_allCalls (env : ScheduleEnv D) (hnone : ∀ n, env.refs n = none) (e : Expr D)
    (h : ∀ c ∈ e.calls, ∀ op, env.shape c.name c.args = .stateful op → ∀ path δ,
      P op ((scheduleArgs env path c.args δ).plans.take op.fn.arity)) :
    ∀ (path : Path D) (δ : Dict D), (∀ n p, δ n = some p → Term.AllCalls P p) →
      Term.AllCalls P (schedule env path e δ).plan ∧
        ∀ n p, (schedule env path e δ).dict n = some p → Term.AllCalls P p := by
  induction e using Expr.induct with
  | numberLiteral | parameterExpr => intro path δ hδ; exact ⟨trivial, hδ⟩
  | identifierExpr loc n =>
    intro path δ hδ
    refine ⟨?_, hδ⟩
    rw [schedule, refPlan, hnone]
    trivial
  | unaryOp loc k e ih => intro path δ hδ; exact ih h path δ hδ
  | binaryOp loc k a b iha ihb =>
    intro path δ hδ
    obtain ⟨ha, hda⟩ := iha (fun c hc => h c (List.mem_append_left _ hc)) path δ hδ
    obtain ⟨hb, hdb⟩ := ihb (fun c hc => h c (List.mem_append_right _ hc)) path _ hda
    exact ⟨⟨ha, hb⟩, hdb⟩
  | conditional loc c a b ihc iha ihb =>
    intro path δ hδ
    obtain ⟨hc, hdc⟩ := ihc
      (fun d hd => h d (List.mem_append_left _ (List.mem_append_left _ hd))) path δ hδ
    obtain ⟨ha, hda⟩ := iha
      (fun d hd => h d (List.mem_append_left _ (List.mem_append_right _ hd))) _ _ hdc
    obtain ⟨hb, hdb⟩ := ihb (fun d hd => h d (List.mem_append_right _ hd)) _ _ hda
    exact ⟨⟨hc, ha, hb⟩, hdb⟩
  | functionCall loc name args nid sid ih =>
    intro path δ hδ
    have hargs : ∀ (as : List (Expr D)), (∀ a ∈ as, a ∈ args) → ∀ δ : Dict D,
        (∀ n p, δ n = some p → Term.AllCalls P p) →
        Term.AllCallsArgs P (scheduleArgs env path as δ).plans ∧
          ∀ n p, (scheduleArgs env path as δ).dict n = some p → Term.AllCalls P p := by
      intro as
      induction as with
      | nil => intro _ δ hδ; exact ⟨trivial, hδ⟩
      | cons a as iha =>
        intro hmem δ hδ
        obtain ⟨ha, hda⟩ := ih a (hmem a List.mem_cons_self) (fun c hc => h c
          (List.mem_cons_of_mem _ (Expr.mem_callsArgs.mpr ⟨a, hmem a List.mem_cons_self, hc⟩)))
          path δ hδ
        obtain ⟨has, hdas⟩ := iha (fun b hb => hmem b (List.mem_cons_of_mem _ hb)) _ hda
        exact ⟨⟨ha, has⟩, hdas⟩
    rcases hn : δ nid with _ | p
    · obtain ⟨hplans, hdict⟩ := hargs args (fun _ h => h) δ hδ
      have hplan := allCalls_callPlan (env.shape name args) hplans
        fun op hop => h _ List.mem_cons_self op hop path δ
      rw [schedule_fresh _ hn]
      unfold scheduleCall
      split
      · refine ⟨hplan, fun n p hp => ?_⟩
        dsimp only at hp
        split at hp
        · by_cases hnid : n = nid
          · rw [hnid, Dict.insert_self] at hp
            cases hp
            exact hplan
          · exact hdict n p ((Dict.insert_ne _ _ hnid).symm.trans hp)
        · exact hdict n p hp
      · exact ⟨hplan, hdict⟩
    · rw [schedule_alias _ hn]
      exact ⟨hδ nid p hn, hδ⟩

end Calls

/-! ## Implementations -/

/-- The operator as a call of the runtime. -/
def StatefulOp.atRuntime (op : StatefulOp D) : StatefulOp D := { op with impl := .runtime }

/-- The shape of a call, with the operator as a call of the runtime. -/
def CallShape.atRuntime : CallShape D → CallShape D
  | .stateful op => .stateful op.atRuntime
  | shape => shape

theorem decodeCall_runtimeImpl (impl : StatefulFn → List (Option D) → Impl) (symbols : SymbolTable)
    (name : String) (args : List (Expr D)) :
    decodeCall runtimeImpl symbols name args (-1) =
      (decodeCall impl symbols name args (-1)).atRuntime := by
  unfold decodeCall
  split
  · rfl
  · split
    · split <;> rfl
    · rfl
  · split <;> rfl
  · unfold decodeStateful runtimeImpl
    split
    all_goals first | rfl | (split <;> rfl)

omit [Fp D] in
theorem callPlan_atRuntime (shape : CallShape D) (plans : List (Plan D)) :
    callPlan shape.atRuntime (plans.map (Term.mapOps StatefulOp.atRuntime)) =
      (callPlan shape plans).mapOps StatefulOp.atRuntime := by
  cases shape with
  | invalid | market => rfl
  | math fn => rcases plans with _ | ⟨p, _ | ⟨_, _⟩⟩ <;> rfl
  | stateful op =>
    rw [callPlan, Term.mapOps, Term.mapOpsArgs_eq_map, List.map_take]
    rfl

/-- A schedule with other implementations. -/
theorem schedule_atRuntime (impl : StatefulFn → List (Option D) → Impl) (symbols : SymbolTable)
    (e : Expr D) : ∀ (path path' : Path D) (δ δ' : Dict D), path.isEmpty = path'.isEmpty →
      (∀ n, δ' n = (δ n).map (Term.mapOps StatefulOp.atRuntime)) →
      (schedule (interpEnv symbols) path' e δ').plan =
          (schedule ⟨symbols, impl, fun _ => none⟩ path e δ).plan.mapOps StatefulOp.atRuntime ∧
        ∀ n, (schedule (interpEnv symbols) path' e δ').dict n =
          ((schedule ⟨symbols, impl, fun _ => none⟩ path e δ).dict n).map
            (Term.mapOps StatefulOp.atRuntime) := by
  induction e using Expr.induct with
  | numberLiteral | identifierExpr | parameterExpr => exact fun _ _ _ _ _ hδ => ⟨rfl, hδ⟩
  | unaryOp loc k e ih =>
    intro path path' δ δ' hp hδ
    obtain ⟨he, hd⟩ := ih path path' δ δ' hp hδ
    exact ⟨congrArg _ he, hd⟩
  | binaryOp loc k a b iha ihb =>
    intro path path' δ δ' hp hδ
    obtain ⟨ha, hda⟩ := iha path path' δ δ' hp hδ
    obtain ⟨hb, hdb⟩ := ihb path path' _ _ hp hda
    exact ⟨congrArg₂ _ ha hb, hdb⟩
  | conditional loc c a b ihc iha ihb =>
    intro path path' δ δ' hp hδ
    obtain ⟨hc, hdc⟩ := ihc path path' δ δ' hp hδ
    obtain ⟨ha, hda⟩ := iha (_ :: path) (_ :: path') _ _ rfl hdc
    obtain ⟨hb, hdb⟩ := ihb (_ :: path) (_ :: path') _ _ rfl hda
    refine ⟨?_, hdb⟩
    rw [schedule, schedule, Term.mapOps, ← hc, ← ha, ← hb]
  | functionCall loc name args nid sid ih =>
    intro path path' δ δ' hp hδ
    have hargs : ∀ as : List (Expr D), (∀ a ∈ as, a ∈ args) → ∀ δ δ' : Dict D,
        (∀ n, δ' n = (δ n).map (Term.mapOps StatefulOp.atRuntime)) →
        (scheduleArgs (interpEnv symbols) path' as δ').plans =
            (scheduleArgs ⟨symbols, impl, fun _ => none⟩ path as δ).plans.map
              (Term.mapOps StatefulOp.atRuntime) ∧
          ∀ n, (scheduleArgs (interpEnv symbols) path' as δ').dict n =
            ((scheduleArgs ⟨symbols, impl, fun _ => none⟩ path as δ).dict n).map
              (Term.mapOps StatefulOp.atRuntime) := by
      intro as
      induction as with
      | nil => exact fun _ _ _ hδ => ⟨rfl, hδ⟩
      | cons a as iha =>
        intro hmem δ δ' hδ
        obtain ⟨ha, hda⟩ := ih a (hmem a List.mem_cons_self) path path' δ δ' hp hδ
        obtain ⟨has, hdas⟩ := iha (fun b hb => hmem b (List.mem_cons_of_mem _ hb)) _ _ hda
        exact ⟨congrArg₂ _ ha has, hdas⟩
    rcases hn : δ nid with _ | p
    · have hn' : δ' nid = none := by rw [hδ, hn, Option.map_none]
      obtain ⟨hplans, hdict⟩ := hargs args (fun _ h => h) δ δ' hδ
      have hplan : callPlan ((interpEnv symbols).shape name args)
            (scheduleArgs (interpEnv symbols) path' args δ').plans =
          (callPlan ((⟨symbols, impl, fun _ => none⟩ : ScheduleEnv D).shape name args)
            (scheduleArgs ⟨symbols, impl, fun _ => none⟩ path args δ).plans).mapOps
              StatefulOp.atRuntime := by
        rw [hplans, ← callPlan_atRuntime]
        exact congrArg (callPlan · _) (decodeCall_runtimeImpl impl symbols name args)
      rw [schedule_fresh _ hn, schedule_fresh _ hn']
      unfold scheduleCall
      rw [hp]
      by_cases hst : isStatefulOp name = true
      · rw [if_pos hst, if_pos hst]
        refine ⟨hplan, fun n => ?_⟩
        dsimp only
        split
        · by_cases hnid : n = nid
          · rw [hnid, Dict.insert_self, Dict.insert_self, hplan, Option.map_some]
          · rw [Dict.insert_ne _ _ hnid, Dict.insert_ne _ _ hnid, hdict]
        · exact hdict n
      · rw [if_neg hst, if_neg hst]
        exact ⟨hplan, hdict⟩
    · have hn' : δ' nid = some (p.mapOps StatefulOp.atRuntime) := by rw [hδ, hn, Option.map_some]
      rw [schedule_alias _ hn, schedule_alias _ hn']
      exact ⟨rfl, hδ⟩

/-- **The interpreter does not look at implementations.** -/
theorem interp_val_impl [Fp L] [Widen D L] (env : EmitEnv) (params : List D)
    (ticks : Nat → MarketState D) (body : Expr D) (t : Nat) :
    (interpSemantics L params).val ticks (planOf (interpEnv env.symbols) body) always t =
      (interpSemantics L params).val ticks (planOf env.toSchedule body) always t := by
  have hplan := (schedule_atRuntime env.impl env.symbols body [] [] .empty .empty rfl fun _ => rfl).1
  rw [planOf, hplan, Semantics.val_mapOps]
  rfl

/-! ## The values -/

section Values

variable [DecidableEq D] {S S' : Type} {params : List D} {ticks : Nat → MarketState D}
  {init : StatefulOp D → S} {step : StatefulOp D → MarketState D → List D → S → Option (D × S)}
  {init' : StatefulOp D → S'}
  {step' : StatefulOp D → MarketState D → List D → S' → Option (D × S')} {env : ScheduleEnv D}
  {N : Nat}

/-- **Where the plan of a body has values**, it has the same values under operators that simulate
those of the first semantics, whatever references stand for. -/
theorem plan_value (hnone : ∀ n, env.refs n = none) {body : Expr D}
    (hsim : ∀ c ∈ body.calls, ∀ op, env.shape c.name c.args = .stateful op → ∀ path δ,
      Semantics.CallSim (planSemantics params init step) (planSemantics params init' step') ticks op
        ((scheduleArgs env path c.args δ).plans.take op.fn.arity))
    (hok : ∀ t ≤ N, (planSemantics params init step).val ticks (planOf env body) always t ≠ none)
    (refs : String → Option (Plan D)) :
    ∀ t ≤ N, (planSemantics params init' step').val ticks (planOf { env with refs := refs } body)
        always t =
      (planSemantics params init step).val ticks (planOf env body) always t := by
  have hpure : Semantics.SamePure (planSemantics params init step)
      (planSemantics params init' step') := ⟨fun h => h, fun _ => rfl, fun _ => rfl, rfl⟩
  have hwild : ∀ k : Leaf D, Leaf.fails k = true → ∀ m,
      (planSemantics params init step).leaf k m = none := by
    intro k hk m
    cases k <;> first | rfl | cases hk
  have hcovers : (planOf env body).Covered (planOf { env with refs := refs } body) :=
    (schedule_covers env hnone refs body [] [] .empty .empty rfl fun _ => .none).1
  have hcalls : Term.AllCalls (Semantics.CallSim (planSemantics params init step)
      (planSemantics params init' step') ticks) (planOf env body) :=
    (schedule_allCalls env hnone body hsim [] .empty fun _ _ h => (nomatch h)).1
  have hnows : ∀ c ∈ (planOf env body).nows, ∀ t ≤ N,
      (planSemantics params init step).val ticks c always t ≠ none := by
    intro c hc t ht
    refine (schedule_returns env (fun _ => rfl) (fun n p hp => ?_) body [] .empty
      (fun _ _ h => (nomatch h)) fun _ => hok t ht).1 c hc
    rw [hnone] at hp
    cases hp
  exact fun t ht => Semantics.val_refines hpure hwild _ _ always hcovers hcalls hnows
    (fun r hr _ => hok r hr) t ht rfl

/-- The values of a program. -/
theorem programPlans_values (hnone : ∀ n, env.refs n = none) {signals : List (SignalDef D)}
    (hsim : ∀ s ∈ signals, ∀ c ∈ s.body.calls, ∀ op, env.shape c.name c.args = .stateful op →
      ∀ path δ, Semantics.CallSim (planSemantics params init step)
        (planSemantics params init' step') ticks op
        ((scheduleArgs env path c.args δ).plans.take op.fn.arity))
    (hok : ∀ s ∈ signals, ∀ t ≤ N,
      (planSemantics params init step).val ticks (planOf env s.body) always t ≠ none)
    (refs : String → Option (Plan D)) {t : Nat} (ht : t ≤ N) :
    (planSemantics params init' step').vals ticks (programPlans { env with refs := refs } signals)
        always t =
      (planSemantics params init step).vals ticks (signals.map fun s => planOf env s.body)
        always t := by
  induction signals generalizing refs with
  | nil => rw [programPlans, List.map_nil, Semantics.vals_nil, Semantics.vals_nil]
  | cons s rest ih =>
    have hrest := ih (fun s hs => hsim s (List.mem_cons_of_mem _ hs))
      (fun s hs => hok s (List.mem_cons_of_mem _ hs))
    rw [programPlans, List.map_cons, Semantics.vals_cons, Semantics.vals_cons,
      plan_value hnone (hsim s List.mem_cons_self) (hok s List.mem_cons_self) refs t ht]
    exact congrArg _ (funext fun v => congrArg _ (hrest _))

end Values

/-! ## Runs of the code -/

section Code

variable [Fp L] [Widen D L]

variable (L) in
/-- The meaning of plans under the operators of the code, on prewarmed states. -/
def codeSemantics (params : List D) :
    Semantics (Leaf D) UnaryFn BinaryOpKind (StatefulOp D) (MarketState D) D (NodeStates D L) :=
  planSemantics params freshStates fun op market vs states =>
    emittedStep op false market (op.inputs market vs) states

variable [DecidableEq D]

/-- **A run of a program** whose calls are simulated writes the values of the plans. -/
theorem code_follows {env : EmitEnv} (hcold : env.assumeWarm = false)
    (hscalar : env.vectorized = false) {program : List (SignalDef D)}
    (hun : ∀ s ∈ program, Unallocated s.body.calls)
    (hsym : ∀ s ∈ allocateProgramNodeIds program, ∀ c ∈ s.body.calls, c.SymbolOk env.symbols)
    (hvolumes : volumeScoped env (allocateProgramNodeIds program) = true) {code : Code (Instr D)}
    (hemit : emitProgram env (allocateProgramNodeIds program) = .ok code)
    {params : List D} {ticks : Nat → MarketState D} {S : Type} {init : StatefulOp D → S}
    {step : StatefulOp D → MarketState D → List D → S → Option (D × S)}
    (hsim : ∀ s ∈ allocateProgramNodeIds program, ∀ c ∈ s.body.calls, ∀ op,
      (env.toSchedule : ScheduleEnv D).shape c.name c.args = .stateful op → ∀ path δ,
      Semantics.CallSim (planSemantics params init step) (codeSemantics L params) ticks op
        ((scheduleArgs env.toSchedule path c.args δ).plans.take op.fn.arity)) {N : Nat}
    (hok : ∀ s ∈ allocateProgramNodeIds program, ∀ t ≤ N,
      (planSemantics params init step).val ticks (planOf env.toSchedule s.body) always t ≠ none) :
    ∃ outputs, compiledOutputsAt (fun _ => code) ticks (prewarmProgramContext (newContext params)
          (allocateProgramNodeIds program) : SignalContext D (NodeStates D L)) N = some outputs ∧
      ∀ {i s}, (allocateProgramNodeIds program)[i]? = some s → outputs i =
        (planSemantics params init step).val ticks (planOf env.toSchedule s.body) always N := by
  set signals := allocateProgramNodeIds program
  set X : EmittedTick D (NodeStates D L) := compiledRun env signals params ticks
  have hcompiled : X.Compiled signals code :=
    compiled_allocated hcold hun hsym hemit
      (fun _ => (emitProgram_inScope hscalar hun hsym hemit).2.mpr hvolumes)
      (fun h => absurd (hscalar.symm.trans h) Bool.false_ne_true)
      fun h => absurd (hscalar.symm.trans h) Bool.false_ne_true
  have houtputs : ∀ t ≤ N, X.outputsAt signals t = (planSemantics params init step).vals ticks
      (signals.map fun s => planOf env.toSchedule s.body) always t :=
    fun t ht => programPlans_values (fun _ => rfl) hsim hok (fun _ => none) ht
  have hsome : ∀ t ≤ N, X.outputsAt signals t ≠ none := by
    intro t ht
    rw [houtputs t ht]
    refine Semantics.vals_ne_none fun p hp => ?_
    obtain ⟨s, hs, rfl⟩ := List.mem_map.mp hp
    exact hok s hs t ht
  obtain ⟨xs, hxs⟩ := Option.ne_none_iff_exists'.mp (hsome N (Nat.le_refl N))
  have hrun := hcompiled.outputsAt_eq rfl (compiledRun_ticked _ hun params ticks) N
    fun t ht => hsome t (Nat.le_of_lt ht)
  rw [hxs] at hrun
  refine ⟨fun k => xs[k]?, hrun, fun {i s} hs => ?_⟩
  refine (Semantics.vals_getElem? ((houtputs N (Nat.le_refl N)).symm.trans hxs) i).trans ?_
  rw [List.getElem?_map, hs]
  rfl

end Code

/-! ## Volumes -/

section Volumes

variable {env : EmitEnv} (hvwap : ∀ literals : List (Option D), env.impl .vwap literals ≠ .lowered)

include hvwap

/-- Operators that are not lowered read no volumes. -/
theorem VolumeScope.call_ok {name : String} {args : List (Expr D)} (sc : VolumeScope) (nid : Int) :
    (sc.call (decodeCall env.impl env.symbols name args (-1)) nid).ok = sc.ok := by
  rcases hshape : decodeCall env.impl env.symbols name args (-1) with _ | _ | _ | op
  · rfl
  · rfl
  · rfl
  · obtain ⟨fn, hfn⟩ := isStatefulOp_iff.mp (Bool.of_not_eq_false fun hst =>
      decodeCall_stateless (-1) hst op hshape)
    rcases decodeCall_stateful env.impl env.symbols args hfn with hinv | ⟨op', hop, hdec⟩
    · rw [hinv] at hshape
      cases hshape
    · rw [hop] at hshape
      cases hshape
      rw [VolumeScope.call, VolumeScope.operator, VolumeScope.reads]
      split
      · rename_i hvw hlow
        refine absurd ?_ (hvwap (args.map Expr.asNumber))
        rw [← hdec.fn_eq.symm.trans hvw, ← hdec.impl_eq, hlow]
      · rfl

theorem Expr.volumeScope_ok (e : Expr D) : ∀ sc : VolumeScope, (e.volumeScope env sc).ok = sc.ok := by
  induction e using Expr.induct with
  | numberLiteral | identifierExpr | parameterExpr => exact fun _ => rfl
  | unaryOp loc k e ih => exact ih
  | binaryOp loc k l r ihl ihr => exact fun sc => (ihr _).trans (ihl sc)
  | conditional loc c t e ihc iht ihe =>
    exact fun sc => (ihe _).trans ((iht _).trans (ihc sc))
  | functionCall loc n args nid sid ih =>
    intro sc
    rw [Expr.volumeScope]
    split
    · rfl
    · rw [VolumeScope.call_ok hvwap, Expr.volumeScopeArgs_eq_foldl]
      have hargs : ∀ as : List (Expr D), (∀ a ∈ as, a ∈ args) → ∀ sc : VolumeScope,
          (as.foldl (fun sc a => a.volumeScope env sc) sc).ok = sc.ok := by
        intro as
        induction as with
        | nil => exact fun _ _ => rfl
        | cons a as iha =>
          intro hmem sc
          rw [List.foldl_cons, iha fun b hb => hmem b (List.mem_cons_of_mem _ hb)]
          exact ih a (hmem a List.mem_cons_self) sc
      exact hargs _ (fun a ha => List.mem_of_mem_take ha) sc

theorem volumeScoped_of_runtime (signals : List (SignalDef D)) : volumeScoped env signals = true := by
  have hall : ∀ (signals : List (SignalDef D)) (sc : VolumeScope),
      (signals.foldl (fun sc s => s.body.volumeScope env sc) sc).ok = sc.ok := by
    intro signals
    induction signals with
    | nil => exact fun _ => rfl
    | cons s rest ih => exact fun sc => (ih _).trans (s.body.volumeScope_ok hvwap sc)
  exact hall signals .init

end Volumes

/-! ## The interpreter on a program -/

section Interpreter

variable [DecidableEq D]

omit [Fp D] in
/-- The bodies of an allocated program had their ids handed out one after the other. -/
theorem mem_allocateProgramFrom {signals : List (SignalDef D)} {n : Int} (hn : 0 < n)
    (hun : ∀ s ∈ signals, Unallocated s.body.calls) {s : SignalDef D}
    (hs : s ∈ allocateProgramFrom signals n) :
    ∃ r ∈ signals, ∃ m : Int, 0 < m ∧ s.body = (allocateWalk r.body true ⟨m, []⟩).1 := by
  induction signals generalizing n with
  | nil => exact absurd hs List.not_mem_nil
  | cons r rest ih =>
    have ha := allocateWalk_allocates r.body true ⟨n, []⟩ (AllocState.Ok.init hn)
      (hun r List.mem_cons_self)
    rw [allocateProgramFrom] at hs
    rcases List.mem_cons.mp hs with rfl | hs
    · exact ⟨r, List.mem_cons_self, n, hn, rfl⟩
    · obtain ⟨q, hq, m, hm, hbody⟩ := ih (Int.lt_of_lt_of_le hn ha.le)
        (fun t ht => hun t (List.mem_cons_of_mem _ ht)) hs
      exact ⟨q, List.mem_cons_of_mem _ hq, m, hm, hbody⟩

theorem wellNumbered_allocateProgramNodeIds {symbols : SymbolTable} {program : List (SignalDef D)}
    (hun : ∀ s ∈ program, Unallocated s.body.calls) {s : SignalDef D}
    (hs : s ∈ allocateProgramNodeIds program) (hsym : ∀ c ∈ s.body.calls, c.SymbolOk symbols)
    (hsafe : KalmanSafe s.body) : WellNumbered symbols s.body := by
  obtain ⟨r, hr, m, hm, hbody⟩ := mem_allocateProgramFrom Int.one_pos hun hs
  rw [hbody] at hsym hsafe ⊢
  exact wellNumbered_walk (hun r hr) hm hsym hsafe

variable [Fp L] [Widen D L]

omit [DecidableEq D] in
/-- **A context that was prewarmed for a program** is where the schedule of each body starts. -/
theorem betweenTicks_program {symbols : SymbolTable} {signals : List (SignalDef D)}
    (hids : ConsistentIds (signals.flatMap fun s => s.body.calls)) {s : SignalDef D}
    (hs : s ∈ signals) (h : WellNumbered symbols s.body) (params : List D)
    (ticks : Nat → MarketState D) :
    BetweenTicks params ticks h.table 0
      ((prewarmProgramContext (newContext params) signals).map NodeStates.runtime :
        SignalContext D (NodeSlot D L)) where
  ctxParams := prewarmProgramContext_params _ _
  slots := by
    intro n S op args hS hplan
    have hx := schedule_extends _ s.body [] .empty h.nodup
    have hmem := (siteTable_eq_some h.nodup).mp hS
    obtain ⟨hst, c, hc, rfl, hname, hargs⟩ := hx.call hmem
    obtain ⟨fn, hfn⟩ := isStatefulOp_iff.mp hst
    have hdec := (hx.decodedAs hmem hplan hfn).2
    have hfaces : SameFaces S.args c.args := hargs ▸ sameFaces_outline c.args
    have hslot := prewarmedProgram_slots (L := L) hids params (List.mem_flatMap.mpr ⟨s, hs, hc⟩)
      (show Builtin.ofName c.name = some (.stateful fn) from hname ▸ hfn)
    rw [slotAt, Semantics.stateAt]
    change _ = (op.slot : NodeSlot D L)
    rw [StatefulOp.slot_eq hdec, periodLiteral_congr fn hfaces]
    exact congrArg NodeStates.runtime hslot

/-! ## Runs of a program -/

/-- What the interpreter returns or throws for a signal at tick `t` of a run on one context. -/
abbrev interpretedAt (symbols : SymbolTable) (signals : List (SignalDef D))
    (orders : Nat → List Nat) (params : List D) (ticks : Nat → MarketState D) (t i : Nat) :
    Option (Except String D) :=
  programResultAt symbols signals orders ticks
    ((prewarmProgramContext (newContext params) signals : SignalContext D (NodeStates D L)).map
      NodeStates.runtime) t i

section Plan

variable {symbols : SymbolTable} {program : List (SignalDef D)}
  (hun : ∀ s ∈ program, Unallocated s.body.calls)
  (hsym : ∀ s ∈ allocateProgramNodeIds program, ∀ c ∈ s.body.calls, c.SymbolOk symbols)
  (hsafe : ∀ s ∈ allocateProgramNodeIds program, KalmanSafe s.body) {orders : Nat → List Nat}
  (horders : ∀ t, (orders t).Perm (List.range (allocateProgramNodeIds program).length))
  (params : List D) (ticks : Nat → MarketState D) {i : Nat} {s : SignalDef D}
  (hs : (allocateProgramNodeIds program)[i]? = some s)

include hun hsym hsafe horders hs

/-- **The interpreter on an allocated program**, as long as the plan has values. -/
theorem interpretedAt_eq {t : Nat} (hvals : ∀ r < t,
    (interpSemantics L params).val ticks (planOf (interpEnv symbols) s.body) always r ≠ none) :
    ∃ r, interpretedAt (L := L) symbols (allocateProgramNodeIds program) orders params ticks t i =
        some r ∧
      r.toOption = (interpSemantics L params).val ticks (planOf (interpEnv symbols) s.body)
        always t := by
  have hmem := List.mem_of_getElem? hs
  have hwell := wellNumbered_allocateProgramNodeIds hun hmem (hsym s hmem) (hsafe s hmem)
  have hstart := betweenTicks_program (L := L) (consistentIds_allocateProgramNodeIds hun) hmem hwell
    params ticks
  exact ⟨_, programResultAt_alone (separated_allocateProgramNodeIds hun) horders ticks _ hs t,
    resultAt_eq hwell hstart t hvals⟩

theorem interpretedAt_of_val {N : Nat} (hvals : ∀ t ≤ N,
    (interpSemantics L params).val ticks (planOf (interpEnv symbols) s.body) always t ≠ none) :
    ∀ t ≤ N, ∃ v, interpretedAt (L := L) symbols (allocateProgramNodeIds program) orders params
        ticks t i = some (.ok v) ∧
      (interpSemantics L params).val ticks (planOf (interpEnv symbols) s.body) always t =
        some v := by
  intro t ht
  obtain ⟨r, hr, hval⟩ := interpretedAt_eq (L := L) hun hsym hsafe horders params ticks hs
    fun q hq => hvals q (Nat.le_of_lt (hq.trans_le ht))
  obtain ⟨v, hv⟩ := Option.ne_none_iff_exists'.mp (hvals t ht)
  exact ⟨v, hr.trans (congrArg some (toOption_eq_some (hval.trans hv))), hv⟩

/-- Where the interpreter never throws, the plan has values. -/
theorem val_of_interpretedAt {N : Nat} (hreturns : ∀ t ≤ N, ∀ e,
    interpretedAt (L := L) symbols (allocateProgramNodeIds program) orders params ticks t i ≠
      some (.error e)) :
    ∀ t ≤ N, (interpSemantics L params).val ticks (planOf (interpEnv symbols) s.body) always t ≠
      none := by
  intro t
  induction t using Nat.strongRecOn with
  | ind t ih =>
    intro ht hnone
    obtain ⟨r, hr, hval⟩ := interpretedAt_eq (L := L) hun hsym hsafe horders params ticks hs
      fun q hq => ih q hq (Nat.le_of_lt (hq.trans_le ht))
    rw [hnone] at hval
    rcases r with e | v
    · exact hreturns t ht e hr
    · cases hval

end Plan

end Interpreter

/-! ## Refinement -/

/-- **A program refines the interpreter** when its operators simulate those of the interpreter, or
restrictions `step` of them that do not fail along the run. -/
theorem code_refines_interpreter [DecidableEq D] [Fp L] [Widen D L] {env : EmitEnv}
    (hcold : env.assumeWarm = false) (hscalar : env.vectorized = false)
    {program : List (SignalDef D)} (hun : ∀ s ∈ program, Unallocated s.body.calls)
    (hsym : ∀ s ∈ allocateProgramNodeIds program, ∀ c ∈ s.body.calls, c.SymbolOk env.symbols)
    (hsafe : ∀ s ∈ allocateProgramNodeIds program, KalmanSafe s.body)
    (hvolumes : volumeScoped env (allocateProgramNodeIds program) = true) {code : Code (Instr D)}
    (hemit : emitProgram env (allocateProgramNodeIds program) = .ok code)
    {orders : Nat → List Nat}
    (horders : ∀ t, (orders t).Perm (List.range (allocateProgramNodeIds program).length))
    {params : List D} {ticks : Nat → MarketState D}
    {step : StatefulOp D → MarketState D → List D → NodeSlot D L → Option (D × NodeSlot D L)}
    (hstep : ∀ {op market vs slot out}, step op market vs slot = some out →
      operatorStep op market vs slot = .ok out)
    (hsim : ∀ s ∈ allocateProgramNodeIds program, ∀ c ∈ s.body.calls, ∀ op,
      (env.toSchedule : ScheduleEnv D).shape c.name c.args = .stateful op → ∀ path δ,
      Semantics.CallSim (planSemantics params StatefulOp.slot step) (codeSemantics L params) ticks op
        ((scheduleArgs env.toSchedule path c.args δ).plans.take op.fn.arity)) {N : Nat}
    (hok : ∀ s ∈ allocateProgramNodeIds program, ∀ t ≤ N,
      (planSemantics params StatefulOp.slot step).val ticks (planOf env.toSchedule s.body)
        always t ≠ none) :
    ∃ outputs, compiledOutputsAt (fun _ => code) ticks (prewarmProgramContext (newContext params)
          (allocateProgramNodeIds program) : SignalContext D (NodeStates D L)) N = some outputs ∧
      ∀ i < (allocateProgramNodeIds program).length, ∃ v,
        interpretedAt (L := L) env.symbols (allocateProgramNodeIds program) orders params ticks N i =
          some (.ok v) ∧ outputs i = some v := by
  obtain ⟨outputs, hrun, houtputs⟩ := code_follows hcold hscalar hun hsym hvolumes hemit hsim hok
  -- the interpreter does what the restriction does
  have hinterp : ∀ s ∈ allocateProgramNodeIds program, ∀ t ≤ N,
      (interpSemantics L params).val ticks (planOf (interpEnv env.symbols) s.body) always t =
        (planSemantics params StatefulOp.slot step).val ticks (planOf env.toSchedule s.body)
          always t := by
    intro s hs t ht
    rw [interp_val_impl]
    refine plan_value (fun _ => rfl) (fun c _ op _ path δ => ?_) (hok s hs) (fun _ => none) t ht
    refine ⟨Eq, rfl, ?_⟩
    rintro act t vs v slot slot' _ - rfl hout
    exact ⟨slot', congrArg Except.toOption (hstep hout), rfl⟩
  refine ⟨outputs, hrun, fun i hi => ?_⟩
  have hs := List.getElem?_eq_getElem hi
  have hmem := List.getElem_mem hi
  obtain ⟨v, hv, hval⟩ := interpretedAt_of_val (L := L) hun hsym hsafe horders params ticks hs
    (fun t ht => (hinterp _ hmem t ht).trans_ne (hok _ hmem t ht)) N (Nat.le_refl N)
  exact ⟨v, hv, (houtputs hs).trans ((hinterp _ hmem N (Nat.le_refl N)).symm.trans hval)⟩

/-- Noises without calls are safe. -/
theorem kalmanSafe_of_noise {D : Type} {body : Expr D}
    (h : ∀ c ∈ body.calls, c.name = "kalman1d" → ∀ a ∈ c.args.drop 1, a.calls.length = 0) :
    KalmanSafe body := by
  intro c hc
  unfold Call.KalmanSafe
  split
  · rename_i x q r hargs
    intro hfn a ha
    have hname : c.name = "kalman1d" := by
      unfold Builtin.ofName at hfn
      split at hfn <;> first | assumption | cases hfn
    have hnil := h c hc hname
    rw [hargs, List.drop_succ_cons, List.drop_zero] at hnil
    rcases List.mem_append.mp ha with ha | ha
    · exact absurd ha (List.length_eq_zero_iff.mp (hnil q List.mem_cons_self) ▸ List.not_mem_nil)
    · exact absurd ha (List.length_eq_zero_iff.mp
        (hnil r (List.mem_cons_of_mem _ List.mem_cons_self)) ▸ List.not_mem_nil)
  · trivial

/-! ## The operators of the runtime -/

/-- The schedule of scalar code without lowered operators. -/
def runtimeEnv (symbols : SymbolTable) : EmitEnv := ⟨symbols, .none, false, false, false⟩

theorem runtimeEnv_impl (symbols : SymbolTable) :
    ((runtimeEnv symbols).impl : StatefulFn → List (Option D) → Impl) = runtimeImpl := by
  funext fn literals
  unfold EmitEnv.impl runtimeImpl runtimeEnv StatefulLoweringFlags.none
  cases fn <;> (try rfl) <;> dsimp only [StatefulFn.loweringFlag] <;> split <;> rfl

/-- The second argument of an `ema_alpha` is a literal. -/
def Call.LiteralFactor (c : Call D) : Prop :=
  Builtin.ofName c.name = some (.stateful .emaAlpha) → ∀ a ∈ c.args[1]?, ∃ v, a.asNumber = some v

omit [Fp D] in
theorem Call.literalFactor_of_isSome {c : Call D}
    (h : Builtin.ofName c.name = some (.stateful .emaAlpha) →
      (c.args[1]?.bind Expr.asNumber).isSome = true) : c.LiteralFactor := by
  intro hfn a ha
  have hsome := h hfn
  rw [show c.args[1]? = some a from ha, Option.bind_some] at hsome
  exact Option.isSome_iff_exists.mp hsome

/-- The factor of a call, if it is a literal. -/
def Call.factor (c : Call D) : D := (c.args[1]?.bind Expr.asNumber).getD nan

/-- The operand of a literal factor. -/
theorem Call.LiteralFactor.operand {c : Call D} (h : c.LiteralFactor)
    (hfn : Builtin.ofName c.name = some (.stateful .emaAlpha)) {S : Type}
    {M : Semantics (Leaf D) UnaryFn BinaryOpKind (StatefulOp D) (MarketState D) D S}
    (hread : ∀ v x, M.leaf (.number v) x = some v) {ticks : Nat → MarketState D}
    {env : ScheduleEnv D} {path : Path D} {δ : Dict D} {act : Nat → Bool} {t : Nat} {vs : List D}
    (hvs : M.vals ticks ((scheduleArgs env path c.args δ).plans.take 2) act t = some vs) :
    ∀ a ∈ vs[1]?, a = c.factor := by
  have hlit := h hfn
  unfold Call.factor
  obtain ⟨name, args, nid, sid⟩ := c
  dsimp only at hvs hlit ⊢
  rcases args with _ | ⟨x, _ | ⟨w, rest⟩⟩
  · rw [scheduleArgs, List.take_nil, Semantics.vals_nil] at hvs
    cases hvs
    exact fun a ha => absurd ha (Option.not_mem_none a)
  · rw [scheduleArgs, scheduleArgs, List.take_succ_cons, List.take_nil, Semantics.vals_cons,
      Semantics.vals_nil] at hvs
    obtain ⟨v, -, hvs⟩ := Option.bind_eq_some_iff.mp hvs
    cases hvs
    exact fun a ha => absurd ha (Option.not_mem_none a)
  · obtain ⟨v, hv⟩ := hlit w rfl
    obtain ⟨loc, rfl⟩ := Expr.asNumber_eq_some hv
    rw [scheduleArgs, scheduleArgs, schedule, List.take_succ_cons, List.take_succ_cons,
      List.take_zero, Semantics.vals_cons, Semantics.vals_cons, Semantics.vals_nil,
      Semantics.val_leaf, hread] at hvs
    obtain ⟨u, -, hvs⟩ := Option.bind_eq_some_iff.mp hvs
    cases hvs
    rintro a ⟨⟩
    rfl

section Operators

/-- The calls of a schedule are decoded. -/
theorem shape_decoded {impl : StatefulFn → List (Option D) → Impl} {symbols : SymbolTable}
    {c : Call D} {op : StatefulOp D}
    (h : (⟨symbols, impl, fun _ => none⟩ : ScheduleEnv D).shape c.name c.args = .stateful op) :
    ∃ fn, Builtin.ofName c.name = some (.stateful fn) ∧
      DecodedAs (impl fn (c.args.map Expr.asNumber)) fn c.args op ∧
      (op.Sized ∧ parsePreparedPeriod op.literal = op.period) ∧
      ∀ v, op.literal = some v → fn.minPeriod ≤ op.period := by
  have hst : isStatefulOp c.name = true :=
    Bool.of_not_eq_false fun hst => decodeCall_stateless (-1) hst op h
  obtain ⟨fn, hfn⟩ := isStatefulOp_iff.mp hst
  have hshape : decodeCall impl symbols c.name c.args (-1) = .stateful op := h
  rcases decodeCall_stateful impl symbols c.args hfn with hinv | ⟨op', hop, hdec⟩
  · rw [hinv] at hshape
    cases hshape
  · rw [hop] at hshape
    cases hshape
    rw [decodeCall, hfn] at hop
    exact ⟨fn, hfn, hdec, sized_of_decode hop hdec, fun v => minPeriod_of_decode hop⟩

variable [Fp L] [Widen D L]

theorem emittedStep_runtime {op : StatefulOp D} (h : op.impl = .runtime) {warm : Bool}
    {market : MarketState D} {vs : List D} {states : NodeStates D L} :
    emittedStep op warm market vs states =
      (runtimeStep op market vs states.runtime).toOption.map fun out =>
        (out.1, { states with runtime := out.2 }) := by
  unfold emittedStep
  rw [h]

omit [Fp D] in
theorem StatefulOp.inputs_runtime {op : StatefulOp D} (h : op.impl = .runtime)
    (market : MarketState D) (vs : List D) : op.inputs market vs = vs := by
  unfold StatefulOp.inputs
  rw [h]
  split
  · rename_i hlow
    cases hlow
  · rfl

/-- **The operators of the interpreter and those of the runtime** do the same to prepared slots. -/
theorem runtime_callSim {impl : StatefulFn → List (Option D) → Impl} {symbols : SymbolTable}
    {params : List D} {ticks : Nat → MarketState D}
    {step : StatefulOp D → MarketState D → List D → NodeSlot D L → Option (D × NodeSlot D L)}
    (hstep : ∀ {op market vs slot out}, step op market vs slot = some out →
      operatorStep op market vs slot = .ok out)
    {c : Call D} (hlit : c.LiteralFactor) {op : StatefulOp D}
    (hshape : (⟨symbols, impl, fun _ => none⟩ : ScheduleEnv D).shape c.name c.args = .stateful op)
    (himpl : op.impl = .runtime) (path : Path D) (δ : Dict D) :
    Semantics.CallSim (planSemantics params StatefulOp.slot step) (codeSemantics L params) ticks op
      ((scheduleArgs ⟨symbols, impl, fun _ => none⟩ path c.args δ).plans.take op.fn.arity) := by
  obtain ⟨fn, hfn, hdec, ⟨hsized, hperiod⟩, -⟩ := shape_decoded hshape
  refine ⟨fun slot states => states.runtime = slot ∧ slot.Prepared op c.factor,
    ⟨rfl, NodeSlot.prepared_prewarm hsized hperiod⟩, ?_⟩
  rintro act t vs v slot slot' states hvs ⟨rfl, hprepared⟩ hinterp
  have hfactor : op.fn = .emaAlpha → ∀ a ∈ vs[1]?, a = c.factor := by
    intro hema
    rw [hema] at hvs
    exact hlit.operand (by rw [hfn, ← hdec.fn_eq, hema]) (fun _ _ => rfl) hvs
  obtain ⟨hruntime, hprepared'⟩ :=
    operatorStep_runtimeStep hsized hprepared hfactor (hstep hinterp)
  refine ⟨{ states with runtime := slot' }, ?_, rfl, hprepared'⟩
  change emittedStep op false (ticks t) (op.inputs (ticks t) vs) states = _
  rw [op.inputs_runtime himpl, emittedStep_runtime himpl, hruntime]
  rfl

end Operators

/-- **Scalar code refines the interpreter**: where the order in which `kalman1d` evaluates its
operands does not matter, a program without lowered operators writes, tick by tick, what the
interpreter returns. -/
theorem scalar_code_refines_interpreter [DecidableEq D] [Fp L] [Widen D L] {symbols : SymbolTable}
    {program : List (SignalDef D)} (hun : ∀ s ∈ program, Unallocated s.body.calls)
    (hsym : ∀ s ∈ allocateProgramNodeIds program, ∀ c ∈ s.body.calls, c.SymbolOk symbols)
    (hlit : ∀ s ∈ allocateProgramNodeIds program, ∀ c ∈ s.body.calls, c.LiteralFactor)
    (hsafe : ∀ s ∈ allocateProgramNodeIds program, KalmanSafe s.body) {code : Code (Instr D)}
    (hemit : emitProgram (runtimeEnv symbols) (allocateProgramNodeIds program) = .ok code)
    {orders : Nat → List Nat}
    (horders : ∀ t, (orders t).Perm (List.range (allocateProgramNodeIds program).length))
    (params : List D) (ticks : Nat → MarketState D) (N : Nat)
    (hreturns : ∀ t ≤ N, ∀ i < (allocateProgramNodeIds program).length, ∀ e,
      interpretedAt (L := L) symbols (allocateProgramNodeIds program) orders params ticks t i ≠
        some (.error e)) :
    ∃ outputs, compiledOutputsAt (fun _ => code) ticks (prewarmProgramContext (newContext params)
          (allocateProgramNodeIds program) : SignalContext D (NodeStates D L)) N = some outputs ∧
      ∀ i < (allocateProgramNodeIds program).length, ∃ v,
        interpretedAt (L := L) symbols (allocateProgramNodeIds program) orders params ticks N i =
          some (.ok v) ∧ outputs i = some v := by
  have hvwap : ∀ literals : List (Option D), (runtimeEnv symbols).impl .vwap literals ≠ .lowered := by
    intro literals
    rw [runtimeEnv_impl]
    exact fun h => nomatch h
  have hvals := fun {i s} (hs : (allocateProgramNodeIds program)[i]? = some s) =>
    val_of_interpretedAt (L := L) hun hsym hsafe horders params ticks hs
      fun t ht => hreturns t ht i (List.getElem?_eq_some_iff.mp hs).1
  have hsim : ∀ s ∈ allocateProgramNodeIds program, ∀ c ∈ s.body.calls, ∀ op,
      ((runtimeEnv symbols).toSchedule : ScheduleEnv D).shape c.name c.args = .stateful op →
      ∀ path δ, Semantics.CallSim (interpSemantics L params) (codeSemantics L params) ticks op
        ((scheduleArgs (runtimeEnv symbols).toSchedule path c.args δ).plans.take op.fn.arity) := by
    intro s hs c hc op hop path δ
    obtain ⟨fn, -, hdec, -⟩ := shape_decoded hop
    refine runtime_callSim toOption_eq_some (hlit s hs c hc) hop ?_ path δ
    rw [hdec.impl_eq, runtimeEnv_impl]
    rfl
  have hok : ∀ s ∈ allocateProgramNodeIds program, ∀ t ≤ N, (interpSemantics L params).val ticks
      (planOf (runtimeEnv symbols).toSchedule s.body) always t ≠ none := by
    intro s hs t ht
    obtain ⟨i, hi⟩ := List.mem_iff_getElem?.mp hs
    rw [← interp_val_impl (runtimeEnv symbols) params ticks s.body t]
    exact hvals hi t ht
  exact code_refines_interpreter rfl rfl hun hsym hsafe (volumeScoped_of_runtime hvwap _) hemit
    horders toOption_eq_some hsim hok

section Two

open Concrete

/-- `smooth = ema_alpha(mid(A), 0.5)` and
`above = if mid(A) > 5 then kalman1d(mid(A), 1, 1) else sma(mid(A), 2)` -/
def smoothAndAbove : List (SignalDef (Exact ℚ)) :=
  [⟨"smooth", app "ema_alpha" [mid "A", num (1 / 2)]⟩,
    ⟨"above", ifThenElse (gt (mid "A") (num 5)) (app "kalman1d" [mid "A", num 1, num 1])
      (app "sma" [mid "A", num 2])⟩]

/-- The price jumps from 2 to 10. -/
def jump (t : Nat) : MarketState (Exact ℚ) := quote (if t = 0 then 2 else 10) 1

theorem ne_error_of_toOption {α : Type} {r : Option (Except String α)}
    (h : r.bind Except.toOption ≠ none) : ∀ e, r ≠ some (.error e) := by
  rintro e rfl
  exact h rfl

theorem scalar_code_refines_interpreter_smoothAndAbove :
    ∃ code, emitProgram (runtimeEnv symbols) (allocateProgramNodeIds smoothAndAbove) = .ok code ∧
      ∃ outputs, compiledOutputsAt (fun _ => code) jump (prewarmProgramContext (newContext [])
          (allocateProgramNodeIds smoothAndAbove) :
            SignalContext _ (NodeStates (Exact ℚ) (Exact ℚ))) 1 = some outputs ∧
        ∀ i < 2, ∃ v, interpretedAt symbols (allocateProgramNodeIds smoothAndAbove)
          (fun _ => [0, 1]) [] jump 1 i = some (.ok v) ∧ outputs i = some v := by
  obtain ⟨code, hcode⟩ : ∃ code, emitProgram (runtimeEnv symbols)
      (allocateProgramNodeIds smoothAndAbove) = .ok code := exists_emitted (by decide +kernel)
  have hun : ∀ s ∈ smoothAndAbove, ∀ c ∈ s.body.calls, c.nodeId = -1 := by decide +kernel
  have hfactor : ∀ s ∈ allocateProgramNodeIds smoothAndAbove, ∀ c ∈ s.body.calls,
      Builtin.ofName c.name = some (.stateful .emaAlpha) →
        (c.args[1]?.bind Expr.asNumber).isSome = true := by decide +kernel
  have hnoise : ∀ s ∈ allocateProgramNodeIds smoothAndAbove, ∀ c ∈ s.body.calls,
      c.name = "kalman1d" → ∀ a ∈ c.args.drop 1, a.calls.length = 0 := by decide +kernel
  have hreturns : ∀ t < 2, ∀ i < 2, (interpretedAt symbols (allocateProgramNodeIds smoothAndAbove)
      (fun _ => [0, 1]) [] jump t i).bind Except.toOption ≠ none := by decide +kernel
  exact ⟨code, hcode, scalar_code_refines_interpreter hun (symbolOk_of_unset (by decide +kernel))
    (fun s hs c hc => Call.literalFactor_of_isSome (hfactor s hs c hc))
    (fun s hs => kalmanSafe_of_noise (hnoise s hs)) hcode (fun _ => .refl _) [] jump 1
    fun t ht i hi => ne_error_of_toOption (hreturns t (Nat.lt_succ_of_le ht) i hi)⟩

/-- `sma(if mid(A) > 5 then ema(mid(A), 3) else 0, 1)` -/
def averageInBranch : Expr (Exact ℚ) :=
  app "sma" [ifThenElse (gt (mid "A") (num 5)) (app "ema" [mid "A", num 3]) (num 0), num 1]

/-- `filtered = kalman1d(average + ema(mid(A), 3), abs(average), 1)`. The `ema` in the second
`average` has the id of the `ema` next to the first one, which has an id of its own inside. -/
def noiseAfterMeasurement : List (SignalDef (Exact ℚ)) :=
  [⟨"filtered", app "kalman1d" [plus averageInBranch (app "ema" [mid "A", num 3]),
    app "abs" [averageInBranch], num 1]⟩]

/-- **The order of evaluation matters** otherwise: the interpreter evaluates the second `average`,
the code the first one. -/
theorem kalman1d_order_matters :
    ∃ code, emitProgram (runtimeEnv symbols) (allocateProgramNodeIds noiseAfterMeasurement) =
        .ok code ∧
      (∀ t < 2, (interpretedAt symbols (allocateProgramNodeIds noiseAfterMeasurement)
        (fun _ => [0]) [] jump t 0).bind Except.toOption ≠ none) ∧
      (compiledOutputsAt (fun _ => code) jump (prewarmProgramContext (newContext [])
          (allocateProgramNodeIds noiseAfterMeasurement) :
            SignalContext _ (NodeStates (Exact ℚ) (Exact ℚ))) 1).bind (fun outputs => outputs 0) ≠
        (interpretedAt symbols (allocateProgramNodeIds noiseAfterMeasurement) (fun _ => [0]) []
          jump 1 0).bind Except.toOption := by
  have hcode : (emitProgram (runtimeEnv symbols)
      (allocateProgramNodeIds noiseAfterMeasurement)).toOption.any (fun code =>
        decide ((compiledOutputsAt (fun _ => code) jump (prewarmProgramContext (newContext [])
          (allocateProgramNodeIds noiseAfterMeasurement) :
            SignalContext _ (NodeStates (Exact ℚ) (Exact ℚ))) 1).bind (fun outputs => outputs 0) ≠
        (interpretedAt symbols (allocateProgramNodeIds noiseAfterMeasurement) (fun _ => [0]) []
          jump 1 0).bind Except.toOption)) = true := by decide +kernel
  rw [Option.any_eq_true] at hcode
  obtain ⟨code, hcode, hdiffers⟩ := hcode
  exact ⟨code, toOption_eq_some hcode, by decide +kernel, of_decide_eq_true hdiffers⟩

end Two

end JitSignalEngine
