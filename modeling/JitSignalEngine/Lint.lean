import JitSignalEngine.Frontend

/-!
# What the linter lets through

A clean exit of `jitse_lint` is to mean that the program compiles. The linter runs the
front end and binds the tickers. It does not look at the names and argument lists of calls,
nor at identifiers outside ticker positions, and the emitter throws on these.

* `Bound` — what `BindSymbolIds` does to a call.
* `decodeCall_isValid` — what the emitter asks of a call.
* `StandsFor` — the constant an expression becomes by folding and inlining.
* `Expr.compiles` — what a body must be like, said about the text.
* `lint_compiles` — of the programs the linter lets through, these are the ones that are
  emitted.
* `lint_undefined` — an undefined reference is not among them.
-/

namespace JitSignalEngine

open Fp

variable {D : Type}

/-! ## Lists side by side -/

theorem forall₂_trans {α β γ : Type} {R : α → β → Prop} {S : β → γ → Prop} {T : α → γ → Prop}
    {as : List α} {bs : List β} {cs : List γ} (h : List.Forall₂ R as bs)
    (h' : List.Forall₂ S bs cs) (hT : ∀ a b c, R a b → S b c → T a c) : List.Forall₂ T as cs := by
  induction h generalizing cs with
  | nil =>
    cases h'
    exact .nil
  | cons hab _ ih =>
    cases h' with
    | cons hbc h' => exact .cons (hT _ _ _ hab hbc) (ih h')

theorem forall₂_map_eq {α β γ : Type} {R : α → β → Prop} {f : α → γ} {g : β → γ} {as : List α}
    {bs : List β} (h : List.Forall₂ R as bs) (hfg : ∀ a b, R a b → g b = f a) :
    bs.map g = as.map f := by
  induction h with
  | nil => rfl
  | cons hab _ ih => rw [List.map_cons, List.map_cons, hfg _ _ hab, ih]

/-! ## Bound calls -/

/-- The first argument of the call is a ticker in the table. -/
def Call.TickerBound (symbols : SymbolTable) (c : Call D) : Prop :=
  isTickerFirstArgFn c.name = true → ∀ a as, c.args = a :: as →
    ∃ ticker id, a.asIdentifier = some ticker ∧ symbols.lookupId ticker = .ok id

/-- `c'` is `c` with its symbol id. -/
structure Bound (symbols : SymbolTable) (c c' : Call D) : Prop where
  /-- the same function -/
  name : c'.name = c.name
  /-- the same node id -/
  nodeId : c'.nodeId = c.nodeId
  /-- arguments that differ in ids -/
  args : c'.args.map Expr.strip = c.args.map Expr.strip
  /-- the symbol id is the slot of the ticker -/
  symbolOk : isTickerFirstArgFn c'.name = true → c'.SymbolOk symbols
  /-- which is in the table -/
  ticker : c'.TickerBound symbols

theorem bindSymbolArgs_spec {symbols : SymbolTable} {as as' : List (Expr D)}
    (ih : ∀ a ∈ as, ∀ a', bindSymbolIds symbols a = .ok a' →
      a'.strip = a.strip ∧ a'.asIdentifier = a.asIdentifier ∧
        List.Forall₂ (Bound symbols) a.calls a'.calls)
    (h : bindSymbolArgs symbols as = .ok as') :
    as'.map Expr.strip = as.map Expr.strip ∧
      as'.map Expr.asIdentifier = as.map Expr.asIdentifier ∧
      List.Forall₂ (Bound symbols) (Expr.callsArgs as) (Expr.callsArgs as') := by
  induction as generalizing as' with
  | nil =>
    cases h
    exact ⟨rfl, rfl, .nil⟩
  | cons a as iha =>
    simp only [bindSymbolArgs, except_bind_ok] at h
    obtain ⟨a', ha, as'', has, h⟩ := h
    cases h
    obtain ⟨hstrip, hid, hcalls⟩ := ih a List.mem_cons_self a' ha
    obtain ⟨hstrips, hids, hcallss⟩ := iha (fun b hb => ih b (List.mem_cons_of_mem _ hb)) has
    exact ⟨by rw [List.map_cons, List.map_cons, hstrip, hstrips],
      by rw [List.map_cons, List.map_cons, hid, hids], List.rel_append hcalls hcallss⟩

/-- **`BindSymbolIds`** writes symbol ids and nothing else. -/
theorem bindSymbolIds_spec {symbols : SymbolTable} (e : Expr D) :
    ∀ e', bindSymbolIds symbols e = .ok e' →
      e'.strip = e.strip ∧ e'.asIdentifier = e.asIdentifier ∧
        List.Forall₂ (Bound symbols) e.calls e'.calls := by
  induction e using Expr.induct with
  | numberLiteral | identifierExpr | parameterExpr =>
    intro e' h
    cases h
    exact ⟨rfl, rfl, .nil⟩
  | unaryOp loc k e ih =>
    intro e' h
    simp only [bindSymbolIds, except_bind_ok] at h
    obtain ⟨b, hb, h⟩ := h
    cases h
    obtain ⟨hstrip, -, hcalls⟩ := ih b hb
    exact ⟨by rw [Expr.strip, Expr.strip, hstrip], rfl, hcalls⟩
  | binaryOp loc k l r ihl ihr =>
    intro e' h
    simp only [bindSymbolIds, except_bind_ok] at h
    obtain ⟨l', hl, r', hr, h⟩ := h
    cases h
    obtain ⟨hsl, -, hcl⟩ := ihl l' hl
    obtain ⟨hsr, -, hcr⟩ := ihr r' hr
    exact ⟨by rw [Expr.strip, Expr.strip, hsl, hsr], rfl, List.rel_append hcl hcr⟩
  | conditional loc c t e ihc iht ihe =>
    intro e' h
    simp only [bindSymbolIds, except_bind_ok] at h
    obtain ⟨c', hc, t', ht, e'', he, h⟩ := h
    cases h
    obtain ⟨hsc, -, hcc⟩ := ihc c' hc
    obtain ⟨hst, -, hct⟩ := iht t' ht
    obtain ⟨hse, -, hce⟩ := ihe e'' he
    exact ⟨by rw [Expr.strip, Expr.strip, hsc, hst, hse], rfl,
      List.rel_append (List.rel_append hcc hct) hce⟩
  | functionCall loc n args nid sid ih =>
    intro e' h
    -- the ticker was looked up
    obtain ⟨sid', args', hargs, rfl, hlook⟩ : ∃ sid' args', bindSymbolArgs symbols args = .ok args' ∧
        e' = .functionCall loc n args' nid sid' ∧ (isTickerFirstArgFn n = true → ∀ a as,
          args = a :: as → ∃ ticker id, a.asIdentifier = some ticker ∧
            symbols.lookupId ticker = .ok id ∧ sid' = Int.ofNat id) := by
      simp only [bindSymbolIds] at h
      split at h
      · rename_i a as hf
        rcases ha : a.asIdentifier with _ | ticker
        · rw [ha] at h
          cases h
        · rw [ha] at h
          dsimp only at h
          rcases hl : symbols.lookupId ticker with e | id
          · rw [hl] at h
            cases h
          · rw [hl] at h
            obtain ⟨_, hid, args', hargs, h⟩ := (except_bind_ok.mp h).imp
              fun _ h => And.imp_right except_bind_ok.mp h
            cases hid
            cases h
            refine ⟨Int.ofNat id, args', hargs, rfl, fun _ a' as' ha' => ?_⟩
            obtain ⟨rfl, rfl⟩ := List.cons.inj ha'
            exact ⟨ticker, id, ha, hl, rfl⟩
      · rename_i hno
        obtain ⟨_, hid, args', hargs, h⟩ := (except_bind_ok.mp h).imp
          fun _ h => And.imp_right except_bind_ok.mp h
        cases hid
        cases h
        exact ⟨sid, args', hargs, rfl, fun hf a as ha => absurd ha (hno a as hf)⟩
    obtain ⟨hstrip, hids, hcalls⟩ := bindSymbolArgs_spec ih hargs
    have hhead : ∀ a' as', args' = a' :: as' → ∃ a as, args = a :: as ∧
        a'.asIdentifier = a.asIdentifier := by
      rintro a' as' rfl
      cases args with
      | nil => cases hids
      | cons a as => exact ⟨a, as, rfl, (List.cons.inj hids).1⟩
    refine ⟨by rw [Expr.strip, Expr.strip, Expr.stripArgs_eq_map, Expr.stripArgs_eq_map, hstrip],
      rfl, .cons ⟨rfl, rfl, hstrip, fun hf _ _ a' as' ha' => ?_, fun hf a' as' ha' => ?_⟩ hcalls⟩
    · obtain ⟨a, as, ha, hid⟩ := hhead a' as' ha'
      obtain ⟨ticker, id, ht, hl, hs⟩ := hlook hf a as ha
      exact ⟨ticker, hid.trans ht, by dsimp only; rw [hs]; exact hl⟩
    · obtain ⟨a, as, ha, hid⟩ := hhead a' as' ha'
      obtain ⟨ticker, id, ht, hl, -⟩ := hlook hf a as ha
      exact ⟨ticker, id, hid.trans ht, hl⟩

theorem Call.TickerBound.congr {symbols : SymbolTable} {c c' : Call D} (h : c'.TickerBound symbols)
    (hname : c'.name = c.name) (hargs : c'.args.map Expr.strip = c.args.map Expr.strip) :
    c.TickerBound symbols := by
  intro hf a as ha
  have hfaces := sameFaces_of_strip hargs
  rw [ha] at hfaces
  cases hc' : c'.args with
  | nil =>
    rw [hc'] at hfaces
    cases hfaces
  | cons a' as' =>
    rw [hc'] at hfaces
    cases hfaces with
    | cons hab _ =>
      obtain ⟨ticker, id, ht, hl⟩ := h (hname ▸ hf) a' as' hc'
      exact ⟨ticker, id, (asIdentifier_eq_of_face hab).symm.trans ht, hl⟩

/-- A market call of a bound body. -/
theorem Bound.of_forall₂ {symbols : SymbolTable} {cs cs' : List (Call D)}
    (h : List.Forall₂ (Bound symbols) cs cs') :
    (∀ c ∈ cs', c.SymbolOk symbols) ∧ (∀ c ∈ cs, c.TickerBound symbols) := by
  refine ⟨fun c' hc' hf => ?_, fun c hc => ?_⟩
  · obtain ⟨c, -, hb⟩ := forall₂_mem_right h hc'
    exact hb.symbolOk hf hf
  · obtain ⟨c', -, hb⟩ := forall₂_mem_right h.flip hc
    exact hb.ticker.congr hb.name hb.args

/-! ## Ids of a program -/

/-- Calls with the same ids that are structurally equal one by one. -/
theorem ConsistentIds.congr {cs cs' : List (Call D)} (h : ConsistentIds cs)
    (hcs : List.Forall₂ (fun c c' => c'.name = c.name ∧ c'.nodeId = c.nodeId ∧ c'.strip = c.strip)
      cs cs') : ConsistentIds cs' where
  stateful c' hc' hst := by
    obtain ⟨c, hc, hname, hid, -⟩ := forall₂_mem_right hcs hc'
    exact hid ▸ h.stateful c hc (hname ▸ hst)
  stateless c' hc' hst := by
    obtain ⟨c, hc, hname, hid, -⟩ := forall₂_mem_right hcs hc'
    exact hid ▸ h.stateless c hc (hname ▸ hst)
  equal c' hc' d' hd' hst heq := by
    obtain ⟨c, hc, hname, hid, hstrip⟩ := forall₂_mem_right hcs hc'
    obtain ⟨d, hd, -, hid', hstrip'⟩ := forall₂_mem_right hcs hd'
    rw [hstrip, hstrip']
    exact h.equal c hc d hd (hname ▸ hst) (hid ▸ hid' ▸ heq)

theorem Bound.strip {symbols : SymbolTable} {c c' : Call D} (h : Bound symbols c c') :
    c'.strip = c.strip := by
  rw [Call.strip, Call.strip, h.name, h.args]

/-- The bodies `BindSymbolIds` has gone over. -/
theorem bindSignals_forall₂ {symbols : SymbolTable} {ss ss' : List (SignalDef D)}
    (h : bindSignals symbols ss = .ok ss') :
    List.Forall₂ (fun s s' => s'.name = s.name ∧ s'.body.strip = s.body.strip ∧
      List.Forall₂ (Bound symbols) s.body.calls s'.body.calls) ss ss' := by
  induction ss generalizing ss' with
  | nil =>
    cases h
    exact .nil
  | cons s rest ih =>
    rw [bindSignals] at h
    rcases hb : bindSymbolIds symbols s.body with e | body
    · rw [hb] at h
      cases h
    · rw [hb] at h
      obtain ⟨rest', hrest, h⟩ := except_bind_ok.mp h
      cases h
      obtain ⟨hstrip, -, hcalls⟩ := bindSymbolIds_spec s.body body hb
      exact .cons ⟨rfl, hstrip, hcalls⟩ (ih hrest)

/-- The calls of a bound program are those of the allocated one with their symbol ids. -/
theorem bindSignals_calls {symbols : SymbolTable} {ss bound : List (SignalDef D)}
    (h : bindSignals symbols ss = .ok bound) :
    List.Forall₂ (Bound symbols) (ss.flatMap fun s => s.body.calls)
      (bound.flatMap fun s => s.body.calls) :=
  List.rel_flatMap (bindSignals_forall₂ h) fun _ _ hs => hs.2.2

/-! ## Shapes of calls -/

/-- The number of arguments of a function. -/
def Builtin.argCount : Builtin → Nat
  | .market _ | .math _ => 1
  | .stateful .kalman1d | .stateful .rollingCorr | .stateful .rollingBeta => 3
  | .stateful _ => 2

/-- The number of leading arguments that are evaluated. -/
def Builtin.operands : Builtin → Nat
  | .market _ => 0
  | .math _ => 1
  | .stateful fn => fn.arity

/-- Whether an operator has a window. -/
def StatefulFn.windowed : StatefulFn → Bool
  | .emaAlpha | .crossAbove | .crossBelow | .kalman1d => false
  | _ => true

section Shapes

variable [Fp D]

/-- The windows an operator accepts. -/
def LegalWindow (fn : StatefulFn) (v : D) : Prop := ∃ p, literalPeriod v = some p ∧ fn.minPeriod ≤ p

theorem decodeWindow_eq_some_iff {fn : StatefulFn} {w : Expr D} {v : D} :
    decodeWindow fn w = some v ↔ w.asNumber = some v ∧ LegalWindow fn v := by
  unfold decodeWindow LegalWindow
  rcases w.asNumber with _ | u
  · simp
  · rcases hp : literalPeriod u with _ | p
    · simp only [Option.some.injEq, hp]
      constructor
      · exact fun h => (nomatch h)
      · rintro ⟨rfl, q, hq, -⟩
        rw [hp] at hq
        cases hq
    · simp only [Option.some.injEq, hp]
      by_cases hlt : p < fn.minPeriod
      · rw [if_pos hlt]
        constructor
        · exact fun h => (nomatch h)
        · rintro ⟨rfl, q, hq, hle⟩
          rw [hp] at hq
          cases hq
          omega
      · rw [if_neg hlt, Option.some.injEq]
        constructor
        · rintro rfl
          exact ⟨rfl, p, hp, Nat.not_lt.mp hlt⟩
        · exact fun h => h.1

/-- The window argument of a call, if its function has one, satisfies `P`. -/
def Builtin.Window (f : Builtin) (P : StatefulFn → Expr D → Prop) (args : List (Expr D)) : Prop :=
  match f with
  | .stateful fn => fn.windowed = true → ∃ w, args[fn.periodArg]? = some w ∧ P fn w
  | _ => True

/-- A window argument that is a legal literal. -/
def LiteralWindow (fn : StatefulFn) (w : Expr D) : Prop := ∃ v, w.asNumber = some v ∧ LegalWindow fn v

theorem literalWindow_iff {fn : StatefulFn} {w : Expr D} :
    LiteralWindow fn w ↔ ∃ v, decodeWindow fn w = some v :=
  exists_congr fun _ => decodeWindow_eq_some_iff.symm

/-- The shape of a stateful call, when its ticker is in the table. -/
theorem decodeStateful_isValid (impl : Impl) {symbols : SymbolTable} {fn : StatefulFn}
    {args : List (Expr D)} (hticker : fn = .vwap → ∀ a as, args = a :: as →
      ∃ ticker id, a.asIdentifier = some ticker ∧ symbols.lookupId ticker = .ok id) :
    (decodeStateful impl symbols fn args (-1)).isValid = true ↔
      args.length = (Builtin.stateful fn).argCount ∧
        (Builtin.stateful fn).Window LiteralWindow args := by
  have hnone : ∀ w : Expr D, decodeWindow fn w = none → ¬ LiteralWindow fn w := by
    intro w hw h
    obtain ⟨v, hv⟩ := literalWindow_iff.mp h
    rw [hw] at hv
    cases hv
  have hsome : ∀ (w : Expr D) (v : D), decodeWindow fn w = some v → LiteralWindow fn w :=
    fun w v hw => literalWindow_iff.mpr ⟨v, hw⟩
  by_cases hone : fn.arity = 1
  · have hcount : (Builtin.stateful fn).argCount = 2 ∧ fn.periodArg = 1 ∧ fn.windowed = true := by
      cases fn <;> first | exact ⟨rfl, rfl, rfl⟩ | cases hone
    rw [Interpreter.decodeStateful_windowed impl symbols hone, Builtin.Window, hcount.1,
      hcount.2.1, hcount.2.2]
    rcases args with _ | ⟨x, _ | ⟨w, _ | ⟨_, _⟩⟩⟩
    · simp [CallShape.isValid]
    · simp [CallShape.isValid]
    · rcases hw : decodeWindow fn w with _ | v
      · simp [CallShape.isValid, hw, hnone w hw]
      · simp [CallShape.isValid, hw, hsome w v hw]
    · simp [CallShape.isValid]
  by_cases htwo : fn.periodArg = 2
  · have hcount : (Builtin.stateful fn).argCount = 3 ∧ fn.windowed = true := by
      cases fn <;> first | exact ⟨rfl, rfl⟩ | cases htwo
    rw [Interpreter.decodeStateful_pair impl symbols htwo, Builtin.Window, hcount.1, htwo,
      hcount.2]
    rcases args with _ | ⟨x, _ | ⟨y, _ | ⟨w, _ | ⟨_, _⟩⟩⟩⟩
    · simp [CallShape.isValid]
    · simp [CallShape.isValid]
    · simp [CallShape.isValid]
    · rcases hw : decodeWindow fn w with _ | v
      · simp [CallShape.isValid, hw, hnone w hw]
      · simp [CallShape.isValid, hw, hsome w v hw]
    · simp [CallShape.isValid]
  by_cases hvwap : fn = .vwap
  · subst hvwap
    rcases args with _ | ⟨a, _ | ⟨w, _ | ⟨_, _⟩⟩⟩
    · simp [decodeStateful, CallShape.isValid, Builtin.argCount]
    · simp [decodeStateful, CallShape.isValid, Builtin.argCount]
    · obtain ⟨ticker, id, ht, hl⟩ := hticker rfl a [w] rfl
      have hslot : Interpreter.resolveSymbolSlot symbols "vwap" [a, w] (-1) = .ok id := by
        unfold Interpreter.resolveSymbolSlot
        rw [if_neg (show ¬ (0 : Int) ≤ -1 by decide), if_neg (fun h => h.2 rfl)]
        simp only [ht, hl]
      rw [decodeStateful, hslot]
      rcases hw : decodeWindow .vwap w with _ | v
      · simp [CallShape.isValid, Builtin.argCount, Builtin.Window, StatefulFn.windowed,
          StatefulFn.periodArg, hnone w hw]
      · simp [CallShape.isValid, Builtin.argCount, Builtin.Window, StatefulFn.windowed,
          StatefulFn.periodArg, hsome w v hw]
    · simp [decodeStateful, CallShape.isValid, Builtin.argCount]
  · have hrest : fn = .emaAlpha ∨ fn = .crossAbove ∨ fn = .crossBelow ∨ fn = .kalman1d := by
      cases fn <;> simp_all [StatefulFn.arity, StatefulFn.periodArg]
    rcases args with _ | ⟨_, _ | ⟨_, _ | ⟨_, _ | ⟨_, rest⟩⟩⟩⟩ <;>
      rcases hrest with rfl | rfl | rfl | rfl <;>
      simp [decodeStateful, CallShape.isValid, Builtin.argCount, Builtin.Window,
        StatefulFn.windowed]

/-- **What the emitter asks of a call** whose ticker is in the table: a known name, the
right number of arguments, and a literal window. -/
theorem decodeCall_isValid (impl : StatefulFn → List (Option D) → Impl) {symbols : SymbolTable}
    {c : Call D} (hticker : c.TickerBound symbols) :
    (decodeCall impl symbols c.name c.args (-1)).isValid = true ↔
      ∃ f, Builtin.ofName c.name = some f ∧ c.args.length = f.argCount ∧
        f.Window LiteralWindow c.args := by
  obtain ⟨name, args, nid, sid⟩ := c
  unfold decodeCall
  rcases hname : Builtin.ofName name with _ | f
  · exact ⟨fun h => (nomatch h), fun ⟨_, h, _⟩ => (nomatch h)⟩
  · simp only [Option.some.injEq, exists_eq_left']
    rcases f with fn | fn | fn
    · have hf : isTickerFirstArgFn name = true := by rw [isTickerFirstArgFn, hname]
      rcases args with _ | ⟨a, _ | ⟨_, _⟩⟩
      · simp [CallShape.isValid, Builtin.argCount]
      · obtain ⟨ticker, id, ht, hl⟩ := hticker hf a [] rfl
        have hslot : Interpreter.resolveSymbolSlot symbols (Interpreter.marketFnName fn) [a] (-1) =
            .ok id := by
          unfold Interpreter.resolveSymbolSlot
          rw [if_neg (show ¬ (0 : Int) ≤ -1 by decide), if_neg (fun h => h.1 rfl)]
          simp only [ht, hl]
        simp [hslot, CallShape.isValid, Builtin.argCount, Builtin.Window]
      · simp [CallShape.isValid, Builtin.argCount]
    · rcases args with _ | ⟨a, _ | ⟨_, _⟩⟩ <;>
        simp [CallShape.isValid, Builtin.argCount, Builtin.Window]
    · exact decodeStateful_isValid _ fun hv =>
        hticker (by rw [isTickerFirstArgFn, hname, hv])

/-- The evaluated arguments of a call that can be made. -/
theorem decodeCall_arity (impl : StatefulFn → List (Option D) → Impl) {symbols : SymbolTable}
    {name : String} {args : List (Expr D)} {f : Builtin} (hname : Builtin.ofName name = some f)
    (h : (decodeCall impl symbols name args (-1)).isValid = true) :
    (decodeCall impl symbols name args (-1)).arity = f.operands := by
  rcases f with fn | fn | fn
  · unfold decodeCall at h ⊢
    rw [hname] at h ⊢
    rcases args with _ | ⟨a, _ | ⟨_, _⟩⟩
    · cases h
    · dsimp only at h ⊢
      split at h
      · rfl
      · cases h
    · cases h
  · unfold decodeCall at h ⊢
    rw [hname] at h ⊢
    rcases args with _ | ⟨a, _ | ⟨_, _⟩⟩
    · cases h
    · rfl
    · cases h
  · rcases decodeCall_stateful impl symbols args hname with hinv | ⟨op, hop, hdec⟩
    · rw [hinv] at h
      cases h
    · rw [hop, CallShape.arity, hdec.fn_eq, Builtin.operands]

end Shapes

/-! ## Accepted programs -/

section Program

variable [Fp D] {env : EmitEnv}

/-- Only the identifiers outside ticker positions count. -/
theorem Expr.accepted_congr {f g : String → Bool} (e : Expr D)
    (h : ∀ n ∈ collectRefs e, f n = g n) : e.accepted env f = e.accepted env g := by
  induction e using Expr.induct with
  | numberLiteral | parameterExpr => rfl
  | identifierExpr loc n => exact h n List.mem_cons_self
  | unaryOp loc k e ih => exact ih h
  | binaryOp loc k l r ihl ihr =>
    rw [Expr.accepted, Expr.accepted, ihl fun n hn => h n (List.mem_append_left _ hn),
      ihr fun n hn => h n (List.mem_append_right _ hn)]
  | conditional loc c t e ihc iht ihe =>
    rw [Expr.accepted, Expr.accepted,
      ihc fun n hn => h n (List.mem_append_left _ (List.mem_append_left _ hn)),
      iht fun n hn => h n (List.mem_append_left _ (List.mem_append_right _ hn)),
      ihe fun n hn => h n (List.mem_append_right _ hn)]
  | functionCall loc n args nid sid ih =>
    rw [Bool.eq_iff_iff, Expr.accepted_functionCall, Expr.accepted_functionCall]
    refine and_congr_right fun hvalid => forall₂_congr fun a ha => ?_
    dsimp only at hvalid ha
    rcases hname : Builtin.ofName n with _ | b
    · unfold decodeCall at hvalid
      rw [hname] at hvalid
      cases hvalid
    · rw [decodeCall_arity env.impl hname hvalid] at ha
      cases hf : isTickerFirstArgFn n with
      | true =>
        -- nothing is evaluated after a ticker
        have hzero : b.operands = 0 := by
          rw [isTickerFirstArgFn, hname] at hf
          rcases b with fn | fn | fn
          · rfl
          · cases hf
          · cases fn <;> first | rfl | cases hf
        rw [hzero] at ha
        exact absurd ha List.not_mem_nil
      | false =>
        have hmem := List.mem_of_mem_take ha
        rw [ih a hmem fun m hm => h m ?_]
        rw [collectRefs, hf, if_neg Bool.false_ne_true, collectRefsArgs_eq]
        exact List.mem_flatMap.mpr ⟨a, hmem, hm⟩

/-- The signals of bodies that refer to none of them do not matter. -/
theorem acceptedSignals_clean {signals : List (SignalDef D)} {names : String → Bool}
    (h : ∀ s ∈ signals, ∀ m ∈ collectRefs s.body, names m = false ∧ m ∉ signals.map (·.name)) :
    acceptedSignals env signals names ↔
      ∀ s ∈ signals, s.body.accepted env (fun _ => false) = true := by
  induction signals generalizing names with
  | nil => exact ⟨fun _ s hs => absurd hs List.not_mem_nil, fun _ => trivial⟩
  | cons s rest ih =>
    have hnames : ∀ s' ∈ rest, ∀ m ∈ collectRefs s'.body,
        (m == s.name || names m) = false ∧ m ∉ rest.map (·.name) := by
      intro s' hs' m hm
      obtain ⟨hm', hnot⟩ := h s' (List.mem_cons_of_mem _ hs') m hm
      rw [List.map_cons, List.mem_cons, not_or] at hnot
      exact ⟨by rw [hm', Bool.or_false]; exact beq_false_of_ne hnot.1, hnot.2⟩
    rw [acceptedSignals, ih hnames, List.forall_mem_cons,
      s.body.accepted_congr (g := fun _ => false) fun m hm => (h s List.mem_cons_self m hm).1]

variable [DecidableEq D]

omit [Fp D] [DecidableEq D] in
theorem collectRefs_strip (e : Expr D) : collectRefs e.strip = collectRefs e := by
  induction e using Expr.induct with
  | numberLiteral | identifierExpr | parameterExpr => rfl
  | unaryOp loc k e ih => exact ih
  | binaryOp loc k l r ihl ihr => rw [Expr.strip, collectRefs, collectRefs, ihl, ihr]
  | conditional loc c t e ihc iht ihe =>
    rw [Expr.strip, collectRefs, collectRefs, ihc, iht, ihe]
  | functionCall loc n args nid sid ih =>
    have hargs : ∀ as : List (Expr D), (∀ a ∈ as, collectRefs a.strip = collectRefs a) →
        collectRefsArgs (as.map Expr.strip) = collectRefsArgs as := by
      intro as h
      rw [collectRefsArgs_eq, collectRefsArgs_eq, List.flatMap_map]
      exact List.flatMap_congr h
    rw [Expr.strip, Expr.stripArgs_eq_map, collectRefs, collectRefs]
    split
    · cases args with
      | nil => rfl
      | cons a as => exact hargs as fun b hb => ih b (List.mem_cons_of_mem _ hb)
    · exact hargs args ih

omit [Fp D] in
/-- **The ids of a bound program**: those `AllocateNodeIds` gave out, and the slots of the
tickers. -/
theorem bindSignals_ids {symbols : SymbolTable} {inlined bound : List (SignalDef D)}
    (hun : ∀ s ∈ inlined, Unallocated s.body.calls)
    (h : bindSignals symbols (allocateProgramNodeIds inlined) = .ok bound) :
    ConsistentIds (bound.flatMap fun s => s.body.calls) ∧
      ∀ c ∈ bound.flatMap fun s => s.body.calls, c.SymbolOk symbols :=
  have hcalls := bindSignals_calls h
  ⟨(consistentIds_allocateProgramNodeIds hun).congr
    (hcalls.imp fun _ _ hc => ⟨hc.name, hc.nodeId, hc.strip⟩), (Bound.of_forall₂ hcalls).1⟩

/-- **When the bodies of a bound program are emitted.** -/
theorem emitProgram_bound {inlined bound : List (SignalDef D)}
    (hun : ∀ s ∈ inlined, Unallocated s.body.calls)
    (hclean : ∀ s ∈ inlined, ∀ m ∈ collectRefs s.body, m ∉ inlined.map (·.name))
    (h : bindSignals env.symbols (allocateProgramNodeIds inlined) = .ok bound) :
    ((∃ code, emitProgram env bound = .ok code) ↔
      ∀ s ∈ inlined, s.body.accepted env (fun _ => false) = true) ∧
    ∀ s ∈ inlined, ∀ c ∈ s.body.calls, c.TickerBound env.symbols := by
  have halloc := allocateProgramFrom_forall₂ Int.zero_lt_one hun
  have hbound := bindSignals_forall₂ h
  have hcalls := bindSignals_calls h
  have htickers := (Bound.of_forall₂ hcalls).2
  obtain ⟨hids, hsym⟩ := bindSignals_ids hun h
  -- the bodies are those of the inlined program up to ids
  have hstrip : List.Forall₂ (fun s s' => s'.name = s.name ∧ s'.body.strip = s.body.strip)
      inlined bound := by
    refine forall₂_trans halloc hbound fun s t u hst htu => ?_
    exact ⟨htu.1.trans hst.1, htu.2.1.trans hst.2.1⟩
  have hnames : bound.map (·.name) = inlined.map (·.name) :=
    forall₂_map_eq hstrip fun s s' hs => hs.1
  refine ⟨?_, fun s hs c hc => ?_⟩
  · rw [emitProgram_succeeds hids hsym, and_iff_right fun t ht => ?_, acceptedSignals_clean]
    · constructor
      · intro hacc s hs
        obtain ⟨s', hs', -, hstr⟩ := forall₂_mem_right hstrip.flip hs
        rw [← Expr.accepted_strip, ← hstr, Expr.accepted_strip]
        exact hacc s' hs'
      · intro hacc s' hs'
        obtain ⟨s, hs, -, hstr⟩ := forall₂_mem_right hstrip hs'
        rw [← Expr.accepted_strip, hstr, Expr.accepted_strip]
        exact hacc s hs
    · intro s' hs' m hm
      obtain ⟨s, hs, -, hstr⟩ := forall₂_mem_right hstrip hs'
      rw [← collectRefs_strip, hstr, collectRefs_strip] at hm
      exact ⟨rfl, hnames ▸ hclean s hs m hm⟩
    · obtain ⟨s', hs', ht⟩ := List.mem_flatMap.mp ht
      obtain ⟨c', hc', hf, a, as, hargs, hid⟩ := mem_collectTickerSymbols.mp ht
      obtain ⟨c, -, hb⟩ := forall₂_mem_right hcalls (List.mem_flatMap.mpr ⟨s', hs', hc'⟩)
      obtain ⟨ticker, id, ht', hl⟩ := hb.ticker hf a as hargs
      rw [hid] at ht'
      cases ht'
      exact ⟨id, hl⟩
  · obtain ⟨t, ht, -, -, hren, -⟩ := forall₂_mem_right halloc.flip hs
    obtain ⟨c', hc', hr⟩ := forall₂_mem_right hren.flip hc
    exact (htickers c' (List.mem_flatMap.mpr ⟨t, ht, hc'⟩)).congr hr.name hr.args

end Program

/-! ## What the text has to be like -/

section Compiles

variable [Fp D]

/-- The constant an expression becomes: its own, the one of the signal it refers to, or the
one of the branch a constant condition picks. -/
inductive StandsFor (signals : List (SignalDef D)) : Expr D → D → Prop
  /-- folding makes it a literal -/
  | constant {e : Expr D} {v : D} : e.constant = some v → StandsFor signals e v
  /-- it refers to a signal that becomes a literal -/
  | reference {loc : SourceLoc} {s : SignalDef D} {v : D} : s ∈ signals →
      StandsFor signals s.body v → StandsFor signals (.identifierExpr loc s.name) v
  /-- folding leaves a branch -/
  | branch {loc : SourceLoc} {c t e : Expr D} {u v : D} : c.constant = some u →
      StandsFor signals (if truthy u then t else e) v → StandsFor signals (.conditional loc c t e) v

/-- A window that stands for a constant the operator accepts. -/
def StandsForWindow (signals : List (SignalDef D)) (fn : StatefulFn) (w : Expr D) : Prop :=
  ∃ v, StandsFor signals w v ∧ LegalWindow fn v

mutual

/-- Outside tickers and branches that are never taken, every identifier is known, and every
call has a known name, its number of arguments and a legal window. -/
def Expr.compiles (signals : List (SignalDef D)) (known : String → Prop) : Expr D → Prop
  | .numberLiteral _ _ => True
  | .identifierExpr _ n => known n
  | .parameterExpr _ _ i => 0 ≤ i
  | .unaryOp _ _ e => e.compiles signals known
  | .binaryOp _ _ l r => l.compiles signals known ∧ r.compiles signals known
  | .conditional _ c t e =>
    match c.constant with
    | some v => if truthy v then t.compiles signals known else e.compiles signals known
    | none => c.compiles signals known ∧ t.compiles signals known ∧ e.compiles signals known
  | .functionCall _ n args _ _ =>
    match Builtin.ofName n with
    | none => False
    | some f => args.length = f.argCount ∧ f.Window (StandsForWindow signals) args ∧
      Expr.compilesArgs signals known f.operands args

/-- `Expr.compiles` on the first arguments of a call. -/
def Expr.compilesArgs (signals : List (SignalDef D)) (known : String → Prop) :
    Nat → List (Expr D) → Prop
  | _, [] => True
  | 0, _ :: _ => True
  | k + 1, a :: as => a.compiles signals known ∧ Expr.compilesArgs signals known k as

end

theorem Expr.compilesArgs_iff {signals : List (SignalDef D)} {known : String → Prop} {k : Nat}
    {as : List (Expr D)} :
    Expr.compilesArgs signals known k as ↔ ∀ a ∈ as.take k, a.compiles signals known := by
  induction as generalizing k with
  | nil => simp [Expr.compilesArgs]
  | cons a as ih =>
    cases k with
    | zero => simp [Expr.compilesArgs]
    | succ k => rw [Expr.compilesArgs, ih, List.take_succ_cons, List.forall_mem_cons]

/-- What folding and resolution make of an expression. -/
def parsedExpr (ids : String → Option Int) (e : Expr D) : Expr D :=
  resolveParameterRefs ids (foldConstants e)

/-- What they make of a signal. -/
def parsedSignal (ids : String → Option Int) (s : SignalDef D) : SignalDef D :=
  { s with body := parsedExpr ids s.body }

/-- What the front end makes of an expression: `defs` are the bodies of the signals it
refers to. -/
def inlinedExpr (ids : String → Option Int) (defs : String → Option (Expr D)) (e : Expr D) :
    Expr D :=
  inlineExpr defs (parsedExpr ids e)

/-! ### The passes on each construct -/

section Passes

variable {ids : String → Option Int}

variable (ids) in
theorem parsedExpr_constant {e : Expr D} {v : D} (h : e.constant = some v) :
    ∃ loc, parsedExpr ids e = .numberLiteral loc v := by
  obtain ⟨loc, hloc⟩ := Expr.asNumber_eq_some ((asNumber_foldConstants e).trans h)
  exact ⟨loc, by rw [parsedExpr, hloc, resolveParameterRefs]⟩

theorem parsedExpr_unaryOp {loc : SourceLoc} {k : UnaryOpKind} {e : Expr D}
    (h : e.constant = none) :
    parsedExpr ids (.unaryOp loc k e) = .unaryOp loc k (parsedExpr ids e) := by
  simp only [parsedExpr, foldConstants, asNumber_foldConstants, h, resolveParameterRefs]

theorem parsedExpr_binaryOp {loc : SourceLoc} {k : BinaryOpKind} {l r : Expr D}
    (h : l.constant = none ∨ r.constant = none) :
    parsedExpr ids (.binaryOp loc k l r) = .binaryOp loc k (parsedExpr ids l) (parsedExpr ids r) := by
  rw [parsedExpr, foldConstants_binaryOp h, resolveParameterRefs, parsedExpr, parsedExpr]

theorem parsedExpr_conditional {loc : SourceLoc} {c t e : Expr D} (h : c.constant = none) :
    parsedExpr ids (.conditional loc c t e) =
      .conditional loc (parsedExpr ids c) (parsedExpr ids t) (parsedExpr ids e) := by
  simp only [parsedExpr, foldConstants, asNumber_foldConstants, h, resolveParameterRefs]

omit [Fp D] in
theorem resolveParameterRefs_withLoc (e : Expr D) (loc : SourceLoc) :
    resolveParameterRefs ids (e.withLoc loc) = (resolveParameterRefs ids e).withLoc loc := by
  cases e with
  | identifierExpr loc' n =>
    simp only [Expr.withLoc, resolveParameterRefs]
    cases ids n <;> rfl
  | _ => rfl

/-- A conditional with a constant condition is the branch it picks. -/
theorem parsedExpr_picked {loc : SourceLoc} {c t e : Expr D} {v : D} (h : c.constant = some v) :
    parsedExpr ids (.conditional loc c t e) =
      (parsedExpr ids (if truthy v then t else e)).withLoc loc := by
  rw [parsedExpr, foldConstants]
  simp only [asNumber_foldConstants, h, resolveParameterRefs_withLoc, parsedExpr]
  split <;> rfl

omit [Fp D] in
theorem resolveParameterArgs_eq (as : List (Expr D)) :
    resolveParameterArgs ids as = as.map (resolveParameterRefs ids) := by
  induction as with
  | nil => rfl
  | cons a as ih => rw [resolveParameterArgs, ih, List.map_cons]

/-- Whatever happens to the first argument, the others are treated alike. -/
theorem parsedExpr_functionCall (loc : SourceLoc) (n : String) (args : List (Expr D))
    (nid sid : Int) : parsedExpr ids (.functionCall loc n args nid sid) =
      .functionCall loc n (if isTickerFirstArgFn n then
        (args.take 1).map foldConstants ++ (args.drop 1).map (parsedExpr ids)
        else args.map (parsedExpr ids)) nid sid := by
  rw [parsedExpr, foldConstants, resolveParameterRefs, foldArgs_eq_map]
  split
  · cases args with
    | nil => rfl
    | cons a as =>
      rw [List.map_cons, resolveParameterTail, resolveParameterArgs_eq, List.map_map]
      rfl
  · rw [resolveParameterArgs_eq, List.map_map]
    rfl

omit [Fp D] in
theorem inlineExpr_withLoc (defs : String → Option (Expr D)) (e : Expr D) (loc : SourceLoc) :
    inlineExpr defs (e.withLoc loc) = inlineExpr defs e := by
  cases e <;> rfl

omit [Fp D] in
theorem collectRefs_withLoc (e : Expr D) (loc : SourceLoc) :
    collectRefs (e.withLoc loc) = collectRefs e := by
  cases e <;> rfl

omit [Fp D] in
theorem asNumber_cloneExpr (e : Expr D) : (cloneExpr e).asNumber = e.asNumber := by
  cases e <;> rfl

end Passes

/-! ### Constants -/

/-- The definitions of the signals `refs`: their constants are those of the text. -/
structure DefsOk (raw : List (SignalDef D)) (refs : List String) (defs : String → Option (Expr D)) :
    Prop where
  /-- signals are defined -/
  signal : ∀ s ∈ raw, s.name ∈ refs → ∃ b, defs s.name = some b ∧ b.strip = b ∧
    ∀ v, b.asNumber = some v ↔ StandsFor raw s.body v
  /-- other names are not -/
  other : ∀ n ∈ refs, n ∉ raw.map (·.name) → defs n = none

theorem DefsOk.mono {raw : List (SignalDef D)} {refs refs' : List String}
    {defs : String → Option (Expr D)} (h : DefsOk raw refs defs) (hsub : ∀ n ∈ refs', n ∈ refs) :
    DefsOk raw refs' defs :=
  ⟨fun s hs hn => h.signal s hs (hsub _ hn), fun n hn => h.other n (hsub n hn)⟩

variable {raw : List (SignalDef D)} {ids : String → Option Int}
  {defs : String → Option (Expr D)}

/-- **The constants that inlining leaves** are those of the text. -/
theorem asNumber_inlinedExpr (hids : ∀ s ∈ raw, ids s.name = none) (hnd : (raw.map (·.name)).Nodup)
    (e : Expr D) (hdefs : DefsOk raw (collectRefs (parsedExpr ids e)) defs) (v : D) :
    (inlinedExpr ids defs e).asNumber = some v ↔ StandsFor raw e v := by
  induction e using Expr.induct with
  | numberLiteral loc w =>
    constructor
    · exact fun h => .constant h
    · intro h
      cases h with
      | constant h => exact h
  | identifierExpr loc n =>
    rw [inlinedExpr, parsedExpr, foldConstants, resolveParameterRefs] at *
    have hinv : StandsFor raw (.identifierExpr loc n) v → ∃ s ∈ raw, s.name = n ∧
        StandsFor raw s.body v := by
      intro h
      cases h with
      | constant h => cases h
      | reference hs hv => exact ⟨_, hs, rfl, hv⟩
    rcases hn : ids n with _ | i
    · rw [hn] at hdefs
      dsimp only at hdefs ⊢
      rw [inlineExpr]
      by_cases hname : n ∈ raw.map (·.name)
      · obtain ⟨s, hs, rfl⟩ := List.mem_map.mp hname
        obtain ⟨b, hb, -, hnum⟩ := hdefs.signal s hs List.mem_cons_self
        rw [hb]
        dsimp only
        rw [asNumber_cloneExpr, hnum]
        refine ⟨fun h => .reference hs h, fun h => ?_⟩
        obtain ⟨t, ht, heq, hv⟩ := hinv h
        rw [← List.inj_on_of_nodup_map hnd ht hs heq]
        exact hv
      · rw [hdefs.other n List.mem_cons_self hname]
        refine ⟨by rintro ⟨⟩, fun h => ?_⟩
        obtain ⟨s, hs, rfl, -⟩ := hinv h
        exact absurd (List.mem_map_of_mem hs) hname
    · refine ⟨by rintro ⟨⟩, fun h => ?_⟩
      obtain ⟨s, hs, rfl, -⟩ := hinv h
      rw [hids s hs] at hn
      cases hn
  | parameterExpr loc n i =>
    refine ⟨by rintro ⟨⟩, fun h => ?_⟩
    cases h with
    | constant h => cases h
  | unaryOp loc k e ih =>
    have hinv : StandsFor raw (.unaryOp loc k e) v ↔ (Expr.unaryOp loc k e).constant = some v := by
      refine ⟨fun h => ?_, fun h => .constant h⟩
      cases h with
      | constant h => exact h
    rw [hinv]
    rcases hc : (Expr.unaryOp loc k e).constant with _ | w
    · have he : e.constant = none := by
        rw [Expr.constant, Option.map_eq_none_iff] at hc
        exact hc
      rw [inlinedExpr, parsedExpr_unaryOp he]
      exact ⟨by rintro ⟨⟩, by rintro ⟨⟩⟩
    · obtain ⟨loc', hloc⟩ := parsedExpr_constant ids hc
      rw [inlinedExpr, hloc]
      exact Iff.rfl
  | binaryOp loc k l r ihl ihr =>
    have hinv : StandsFor raw (.binaryOp loc k l r) v ↔
        (Expr.binaryOp loc k l r).constant = some v := by
      refine ⟨fun h => ?_, fun h => .constant h⟩
      cases h with
      | constant h => exact h
    rw [hinv]
    rcases hc : (Expr.binaryOp loc k l r).constant with _ | w
    · have hlr : l.constant = none ∨ r.constant = none := by
        rw [Expr.constant] at hc
        rcases hl : l.constant with _ | a
        · exact .inl rfl
        · rcases hr : r.constant with _ | b
          · exact .inr rfl
          · rw [hl, hr] at hc
            cases hc
      rw [inlinedExpr, parsedExpr_binaryOp hlr]
      exact ⟨by rintro ⟨⟩, by rintro ⟨⟩⟩
    · obtain ⟨loc', hloc⟩ := parsedExpr_constant ids hc
      rw [inlinedExpr, hloc]
      exact Iff.rfl
  | conditional loc c t e ihc iht ihe =>
    rcases hc : c.constant with _ | u
    · rw [inlinedExpr, parsedExpr_conditional hc]
      refine ⟨by rintro ⟨⟩, fun h => ?_⟩
      cases h with
      | constant h => rw [Expr.constant, hc] at h; cases h
      | branch h _ => rw [hc] at h; cases h
    · rw [parsedExpr_picked hc, collectRefs_withLoc] at hdefs
      rw [inlinedExpr, parsedExpr_picked hc, inlineExpr_withLoc]
      have hpick : (inlinedExpr ids defs (if truthy u then t else e)).asNumber = some v ↔
          StandsFor raw (if truthy u then t else e) v := by
        split at hdefs
        · rename_i hu
          rw [if_pos hu]
          exact iht hdefs
        · rename_i hu
          rw [if_neg hu]
          exact ihe hdefs
      rw [← inlinedExpr, hpick]
      refine ⟨fun h => .branch hc h, fun h => ?_⟩
      cases h with
      | constant h =>
        rw [Expr.constant, hc] at h
        dsimp only at h
        split at h
        · rename_i hu
          rw [if_pos hu]
          exact .constant h
        · rename_i hu
          rw [if_neg hu]
          exact .constant h
      | branch h hv =>
        rw [hc] at h
        cases h
        exact hv
  | functionCall loc n args nid sid ih =>
    refine ⟨by rintro ⟨⟩, fun h => ?_⟩
    cases h with
    | constant h => cases h

/-! ### Acceptance -/

omit [Fp D] in
/-- The calls of a rebuilt argument are calls of the rebuilt call. -/
theorem tickerBound_arg {symbols : SymbolTable} {n : String} {args : List (Expr D)} {a : Expr D}
    (h : ∀ c ∈ (Expr.functionCall {} n args (-1) (-1)).calls, c.TickerBound symbols)
    (ha : a ∈ args) : ∀ c ∈ a.calls, c.TickerBound symbols := fun c hc =>
  h c (List.mem_cons_of_mem _ (Expr.mem_callsArgs.mpr ⟨a, ha, hc⟩))

theorem compiles_of_constant {known : String → Prop} {e : Expr D} {v : D}
    (h : e.constant = some v) : e.compiles raw known := by
  induction e using Expr.induct generalizing v with
  | numberLiteral loc w => trivial
  | identifierExpr | parameterExpr | functionCall => cases h
  | unaryOp loc k e ih =>
    obtain ⟨w, hw, -⟩ := Option.map_eq_some_iff.mp h
    exact ih hw
  | binaryOp loc k l r ihl ihr =>
    rw [Expr.constant] at h
    split at h
    · rename_i hl hr
      exact ⟨ihl hl, ihr hr⟩
    · cases h
  | conditional loc c t e ihc iht ihe =>
    rw [Expr.constant] at h
    rw [Expr.compiles]
    rcases hc : c.constant with _ | u
    · rw [hc] at h
      cases h
    · rw [hc] at h
      dsimp only at h ⊢
      split at h
      · rename_i hu
        rw [if_pos hu]
        exact iht h
      · rename_i hu
        rw [if_neg hu]
        exact ihe h

/-- The arguments of a call after the front end. -/
theorem inlinedExpr_functionCall (loc : SourceLoc) (n : String) (args : List (Expr D))
    (nid sid : Int) : inlinedExpr ids defs (.functionCall loc n args nid sid) =
      .functionCall {} n (if isTickerFirstArgFn n then
        (args.take 1).map (fun a => inlineExpr defs (foldConstants a)) ++
          (args.drop 1).map (inlinedExpr ids defs)
        else args.map (inlinedExpr ids defs)) (-1) (-1) := by
  rw [inlinedExpr, parsedExpr_functionCall, inlineExpr, inlineArgs_eq]
  split
  · rw [List.map_append, List.map_map, List.map_map]
    rfl
  · rw [List.map_map]
    rfl

omit [Fp D] in
/-- After a ticker nothing is evaluated. -/
theorem operands_of_ticker {n : String} {f : Builtin} (hname : Builtin.ofName n = some f)
    (hf : isTickerFirstArgFn n = true) : f.operands = 0 := by
  rw [isTickerFirstArgFn, hname] at hf
  rcases f with fn | fn | fn
  · rfl
  · cases hf
  · cases fn <;> first | rfl | cases hf

omit [Fp D] in
theorem window_congr {f : Builtin} {P Q : StatefulFn → Expr D → Prop} {args args' : List (Expr D)}
    {g : Expr D → Expr D}
    (hget : ∀ fn, f = .stateful fn → args'[fn.periodArg]? = (args[fn.periodArg]?).map g)
    (hPQ : ∀ fn w, f = .stateful fn → args[fn.periodArg]? = some w → (P fn (g w) ↔ Q fn w)) :
    f.Window P args' ↔ f.Window Q args := by
  rcases f with fn | fn | fn
  · exact Iff.rfl
  · exact Iff.rfl
  · refine forall_congr' fun _ => ?_
    rw [hget fn rfl]
    rcases hw : args[fn.periodArg]? with _ | w
    · simp
    · simp [hPQ fn w rfl hw]

/-- **Acceptance, said about the text.** -/
theorem accepted_inlinedExpr {env : EmitEnv} (hids : ∀ s ∈ raw, ids s.name = none)
    (hpos : ∀ n i, ids n = some i → 0 ≤ i) (hnd : (raw.map (·.name)).Nodup)
    {known : String → Prop} (hknown : ∀ n, known n ↔ ids n ≠ none ∨ n ∈ raw.map (·.name))
    (e : Expr D) (hdefs : DefsOk raw (collectRefs (parsedExpr ids e)) defs)
    (hacc : ∀ n ∈ collectRefs (parsedExpr ids e), ∀ b, defs n = some b →
      b.accepted env (fun _ => false) = true)
    (hticker : ∀ c ∈ (inlinedExpr ids defs e).calls, c.TickerBound env.symbols) :
    (inlinedExpr ids defs e).accepted env (fun _ => false) = true ↔ e.compiles raw known := by
  induction e using Expr.induct with
  | numberLiteral loc w => exact ⟨fun _ => trivial, fun _ => rfl⟩
  | identifierExpr loc n =>
    rw [inlinedExpr, parsedExpr, foldConstants, resolveParameterRefs] at *
    rw [Expr.compiles, hknown]
    rcases hn : ids n with _ | i
    · rw [hn] at hdefs hacc
      dsimp only at hdefs hacc ⊢
      rw [inlineExpr]
      by_cases hname : n ∈ raw.map (·.name)
      · obtain ⟨s, hs, rfl⟩ := List.mem_map.mp hname
        obtain ⟨b, hb, hclean, -⟩ := hdefs.signal s hs List.mem_cons_self
        rw [hb]
        dsimp only
        rw [cloneExpr_of_strip hclean]
        exact ⟨fun _ => .inr hname, fun _ => hacc _ List.mem_cons_self b hb⟩
      · rw [hdefs.other n List.mem_cons_self hname]
        refine ⟨by rintro ⟨⟩, fun h => ?_⟩
        exact h.elim (fun h => absurd rfl h) fun h => absurd h hname
    · exact ⟨fun _ => .inl (Option.some_ne_none i), fun _ => decide_eq_true (hpos n i hn)⟩
  | parameterExpr loc n i => exact decide_eq_true_iff
  | unaryOp loc k e ih =>
    rcases hc : e.constant with _ | w
    · rw [parsedExpr_unaryOp hc] at hdefs hacc
      rw [inlinedExpr, parsedExpr_unaryOp hc] at hticker ⊢
      exact ih hdefs hacc hticker
    · have hconst : (Expr.unaryOp loc k e).constant = some (k.apply w) := by
        rw [Expr.constant, hc, Option.map_some]
      obtain ⟨loc', hloc⟩ := parsedExpr_constant ids hconst
      rw [inlinedExpr, hloc]
      exact ⟨fun _ => compiles_of_constant hconst, fun _ => rfl⟩
  | binaryOp loc k l r ihl ihr =>
    by_cases hlr : l.constant = none ∨ r.constant = none
    · rw [parsedExpr_binaryOp hlr] at hdefs hacc
      rw [inlinedExpr, parsedExpr_binaryOp hlr] at hticker ⊢
      rw [inlineExpr, Expr.accepted, Bool.and_eq_true, Expr.compiles]
      refine and_congr (ihl (hdefs.mono fun n hn => List.mem_append_left _ hn)
        (fun n hn => hacc n (List.mem_append_left _ hn))
        fun c hc => hticker c (List.mem_append_left _ hc))
        (ihr (hdefs.mono fun n hn => List.mem_append_right _ hn)
        (fun n hn => hacc n (List.mem_append_right _ hn))
        fun c hc => hticker c (List.mem_append_right _ hc))
    · rw [not_or] at hlr
      obtain ⟨a, ha⟩ := Option.ne_none_iff_exists'.mp hlr.1
      obtain ⟨b, hb⟩ := Option.ne_none_iff_exists'.mp hlr.2
      have hconst : (Expr.binaryOp loc k l r).constant = some (k.fold a b) := by
        rw [Expr.constant, ha, hb]
      obtain ⟨loc', hloc⟩ := parsedExpr_constant ids hconst
      rw [inlinedExpr, hloc]
      exact ⟨fun _ => compiles_of_constant hconst, fun _ => rfl⟩
  | conditional loc c t e ihc iht ihe =>
    rw [Expr.compiles]
    rcases hc : c.constant with _ | u
    · rw [parsedExpr_conditional hc] at hdefs hacc
      rw [inlinedExpr, parsedExpr_conditional hc] at hticker ⊢
      rw [inlineExpr, Expr.accepted, Bool.and_eq_true, Bool.and_eq_true]
      refine and_congr (ihc ?_ ?_ ?_) (and_congr (iht ?_ ?_ ?_) (ihe ?_ ?_ ?_))
      · exact hdefs.mono fun n hn => List.mem_append_left _ (List.mem_append_left _ hn)
      · exact fun n hn => hacc n (List.mem_append_left _ (List.mem_append_left _ hn))
      · exact fun d hd => hticker d (List.mem_append_left _ (List.mem_append_left _ hd))
      · exact hdefs.mono fun n hn => List.mem_append_left _ (List.mem_append_right _ hn)
      · exact fun n hn => hacc n (List.mem_append_left _ (List.mem_append_right _ hn))
      · exact fun d hd => hticker d (List.mem_append_left _ (List.mem_append_right _ hd))
      · exact hdefs.mono fun n hn => List.mem_append_right _ hn
      · exact fun n hn => hacc n (List.mem_append_right _ hn)
      · exact fun d hd => hticker d (List.mem_append_right _ hd)
    · have hpick : inlinedExpr ids defs (.conditional loc c t e) =
          inlinedExpr ids defs (if truthy u then t else e) := by
        rw [inlinedExpr, parsedExpr_picked hc, inlineExpr_withLoc, inlinedExpr]
      rw [parsedExpr_picked hc, collectRefs_withLoc] at hdefs hacc
      rw [hpick] at hticker ⊢
      dsimp only
      by_cases hu : truthy u = true
      · rw [if_pos hu] at hdefs hacc hticker ⊢
        rw [if_pos hu]
        exact iht hdefs hacc hticker
      · rw [if_neg hu] at hdefs hacc hticker ⊢
        rw [if_neg hu]
        exact ihe hdefs hacc hticker
  | functionCall loc n args nid sid ih =>
    rw [inlinedExpr_functionCall] at hticker ⊢
    rw [parsedExpr_functionCall, collectRefs] at hdefs hacc
    rw [Expr.accepted_functionCall, Call.accepted,
      decodeCall_isValid env.impl (hticker _ List.mem_cons_self), Expr.compiles]
    dsimp only
    rcases hname : Builtin.ofName n with _ | f
    · exact ⟨fun h => absurd h.1.choose_spec.1.symm (Option.some_ne_none _), False.elim⟩
    simp only [Option.some.injEq, exists_eq_left', Expr.compilesArgs_iff]
    cases hf : isTickerFirstArgFn n with
    | true =>
      rw [hf] at hdefs hticker
      simp only [if_true] at hdefs hticker ⊢
      -- the ticker is the first argument, and nothing is evaluated
      have hop : f.operands = 0 := operands_of_ticker hname hf
      have hlen : ((args.take 1).map (fun a => inlineExpr defs (foldConstants a)) ++
          (args.drop 1).map (inlinedExpr ids defs)).length = args.length := by
        rw [List.length_append, List.length_map, List.length_map, List.length_take,
          List.length_drop]
        omega
      have hwin : f.Window LiteralWindow ((args.take 1).map (fun a => inlineExpr defs
          (foldConstants a)) ++ (args.drop 1).map (inlinedExpr ids defs)) ↔
          f.Window (StandsForWindow raw) args := window_congr (g := inlinedExpr ids defs)
        (fun fn _ => ?_) fun fn w _ hw => exists_congr fun v => and_congr_left fun _ =>
          asNumber_inlinedExpr hids hnd w (hdefs.mono fun m hm => ?_) v
      · rw [hlen, hwin, hop, List.take_zero]
        constructor
        · exact fun h => ⟨h.1.1, h.1.2, fun a ha => absurd ha List.not_mem_nil⟩
        · refine fun h => ⟨⟨h.1, h.2.1⟩, fun a ha => ?_⟩
          rw [decodeCall_arity env.impl hname ((decodeCall_isValid env.impl
            (hticker _ List.mem_cons_self)).mpr ⟨f, hname, hlen.trans h.1, hwin.mpr h.2.1⟩), hop,
            List.take_zero] at ha
          exact absurd ha List.not_mem_nil
      · obtain ⟨k, hk⟩ : ∃ k, fn.periodArg = k + 1 := by cases fn <;> exact ⟨_, rfl⟩
        rw [hk]
        cases args with
        | nil => rfl
        | cons a as => simp
      · obtain ⟨k, hk⟩ : ∃ k, fn.periodArg = k + 1 := by cases fn <;> exact ⟨_, rfl⟩
        rw [hk] at hw
        cases args with
        | nil => cases hw
        | cons a as =>
          rw [List.getElem?_cons_succ] at hw
          simp only [List.take_succ_cons, List.take_zero, List.map_cons, List.map_nil,
            List.drop_succ_cons, List.drop_zero, List.cons_append, List.nil_append,
            collectRefsTail, collectRefsArgs_eq]
          exact List.mem_flatMap.mpr ⟨_, List.mem_map_of_mem (List.mem_of_getElem? hw), hm⟩
    | false =>
      rw [hf] at hdefs hacc hticker
      simp only [Bool.false_eq_true, if_false] at hdefs hacc hticker ⊢
      have hrefs : ∀ a ∈ args, ∀ m ∈ collectRefs (parsedExpr ids a),
          m ∈ collectRefsArgs (args.map (parsedExpr ids)) := by
        intro a ha m hm
        rw [collectRefsArgs_eq]
        exact List.mem_flatMap.mpr ⟨_, List.mem_map_of_mem ha, hm⟩
      have hwin : f.Window LiteralWindow (args.map (inlinedExpr ids defs)) ↔
          f.Window (StandsForWindow raw) args := window_congr (g := inlinedExpr ids defs)
        (fun fn _ => List.getElem?_map) fun fn w _ hw => exists_congr fun v =>
          and_congr_left fun _ => asNumber_inlinedExpr hids hnd w
            (hdefs.mono (hrefs w (List.mem_of_getElem? hw))) v
      have hargs : ∀ k, (∀ a ∈ (args.map (inlinedExpr ids defs)).take k,
          a.accepted env (fun _ => false) = true) ↔ ∀ a ∈ args.take k, a.compiles raw known := by
        intro k
        rw [← List.map_take, List.forall_mem_map]
        refine forall₂_congr fun a ha => ?_
        have ha := List.mem_of_mem_take ha
        exact ih a ha (hdefs.mono (hrefs a ha)) (fun m hm => hacc m (hrefs a ha m hm))
          (tickerBound_arg hticker (List.mem_map_of_mem ha))
      have harity := @decodeCall_arity D _ env.impl env.symbols _ (args.map (inlinedExpr ids defs)) _ hname
      have hvalid := decodeCall_isValid env.impl (hticker _ List.mem_cons_self)
      dsimp only at hvalid
      rw [List.length_map, hwin, and_assoc]
      refine and_congr_right fun hlen => and_congr_right fun hw => ?_
      rw [harity (hvalid.mpr ⟨f, hname, (List.length_map _).trans hlen, hwin.mpr hw⟩), hargs]

end Compiles

/-! ## The passes of the linter -/

section Pipeline

variable [Fp D]

/-- The lines of an accepted program: definitions are checked and folded, no more. -/
theorem readLines_ok {lineNo : Nat} {lines : List (List Char)} {ds : List (Definition D)}
    (h : readLines lineNo lines = .ok ds) :
    ds.filterMap Definition.asParam =
        (sourceDefinitions lineNo lines).filterMap Definition.asParam ∧
      ds.filterMap Definition.asSignal =
        ((sourceDefinitions lineNo lines).filterMap Definition.asSignal).map
          fun s => { s with body := foldConstants s.body } := by
  induction lines generalizing lineNo ds with
  | nil =>
    cases h
    exact ⟨rfl, rfl⟩
  | cons raw rest ih =>
    rw [readLines, except_bind_ok] at h
    obtain ⟨d, hd, h⟩ := h
    rw [sourceDefinitions, hd]
    rcases d with _ | d
    · exact ih h
    · obtain ⟨d', hd', h⟩ := except_bind_ok.mp h
      obtain ⟨ds', hds, h⟩ := except_bind_ok.mp h
      cases h
      obtain ⟨hp, hs⟩ := ih hds
      cases d with
      | param p =>
        cases hd'
        exact ⟨congrArg (p :: ·) hp, hs⟩
      | signal s =>
        rw [checkDefinition] at hd'
        split at hd'
        · cases hd'
        · cases hd'
          exact ⟨hp, congrArg (_ :: ·) hs⟩

omit [Fp D] in
/-- **`param_ids`** has the names of the parameters. -/
theorem indexParams_ok {ps : List (ParamDef D)} {i : Int} {ids ids' : String → Option Int}
    (h : indexParams ps i ids = .ok ids') (hi : 0 ≤ i) (hpos : ∀ n k, ids n = some k → 0 ≤ k) :
    (∀ n, ids' n ≠ none ↔ ids n ≠ none ∨ n ∈ ps.map ParamDef.name) ∧
      ∀ n k, ids' n = some k → 0 ≤ k := by
  induction ps generalizing i ids with
  | nil =>
    cases h
    exact ⟨fun n => by simp, hpos⟩
  | cons p rest ih =>
    rw [indexParams] at h
    split at h
    · cases h
    · obtain ⟨hmem, hpos'⟩ := ih h (by omega) fun n k hk => by
        split at hk
        · cases hk
          exact hi
        · exact hpos n k hk
      refine ⟨fun n => ?_, hpos'⟩
      rw [hmem, List.map_cons, List.mem_cons]
      by_cases hn : n = p.name
      · simp [hn]
      · simp [hn]

omit [Fp D] in
/-- A signal does not have the name of a parameter. -/
theorem checkSignalNames_ok {ids : String → Option Int} {signals : List (SignalDef D)}
    {seen : String → Bool} (h : checkSignalNames ids signals seen = .ok ()) :
    ∀ s ∈ signals, ids s.name = none := by
  induction signals generalizing seen with
  | nil => exact fun s hs => absurd hs List.not_mem_nil
  | cons s rest ih =>
    rw [checkSignalNames] at h
    split at h
    · cases h
    · rcases hn : ids s.name with _ | k
      · rw [hn] at h
        exact List.forall_mem_cons.mpr ⟨hn, ih h⟩
      · rw [hn] at h
        cases h

/-- The names a body may refer to. -/
def knownNames (D : Type) [Fp D] (text : List Char) (n : String) : Prop :=
  n ∈ sourceParams (D := D) text ∨ n ∈ (sourceSignals text : List (SignalDef D)).map (·.name)

/-- **`ParseProgram`** folds the bodies and resolves the parameters. -/
theorem parseProgram_ok {text : List Char} {parsed : ProgramDef D}
    (h : parseProgram text = .ok parsed) :
    ∃ ids : String → Option Int,
      parsed.signals = (sourceSignals text).map (parsedSignal ids) ∧
      (∀ s ∈ (sourceSignals text : List (SignalDef D)), ids s.name = none) ∧
      (∀ n k, ids n = some k → 0 ≤ k) ∧
      ∀ n, knownNames D text n ↔
        ids n ≠ none ∨ n ∈ (sourceSignals text : List (SignalDef D)).map (·.name) := by
  rw [parseProgram, except_bind_ok] at h
  obtain ⟨ds, hds, h⟩ := h
  obtain ⟨hparams, hsignals⟩ := readLines_ok hds
  dsimp only at h
  split at h
  · cases h
  · obtain ⟨ids, hids, h⟩ := except_bind_ok.mp h
    obtain ⟨_, hnames, h⟩ := except_bind_ok.mp h
    cases h
    obtain ⟨hmem, hpos⟩ := indexParams_ok hids le_rfl fun n k hk => nomatch hk
    refine ⟨ids, ?_, fun s hs => ?_, hpos, fun n => ?_⟩
    · rw [hsignals, List.map_map]
      rfl
    · refine checkSignalNames_ok hnames { s with body := foldConstants s.body } ?_
      rw [hsignals]
      exact List.mem_map_of_mem hs
    · have hpnames : ((ds.filterMap Definition.asParam).mapIdx fun i p =>
          { p with paramId := i }).map ParamDef.name = sourceParams (D := D) text := by
        refine List.ext_getElem? fun i => ?_
        rw [List.getElem?_map, List.getElem?_mapIdx, hparams, sourceParams, List.getElem?_map,
          Option.map_map]
        rfl
      rw [knownNames, hmem, hpnames]
      simp

/-- **The bodies of a resolved program** are accepted when the text compiles. -/
theorem accepted_resolved {env : EmitEnv} {raw : List (SignalDef D)} {ids : String → Option Int}
    {known : String → Prop} {index : String → Option Nat} {resolved : Nat → Option (Expr D)}
    (hids : ∀ s ∈ raw, ids s.name = none) (hpos : ∀ n k, ids n = some k → 0 ≤ k)
    (hknown : ∀ n, known n ↔ ids n ≠ none ∨ n ∈ raw.map (·.name))
    (hnd : (raw.map (·.name)).Nodup)
    (hindex : Indexes (raw.map (parsedSignal ids)) index)
    (hacyc : ¬ Cyclic (raw.map (parsedSignal ids)))
    (hres : Resolves (raw.map (parsedSignal ids)) index resolved)
    (hticker : ∀ i b, i < raw.length → resolved i = some b → ∀ c ∈ b.calls,
      c.TickerBound env.symbols) :
    (∀ i b, i < raw.length → resolved i = some b → b.accepted env (fun _ => false) = true) ↔
      ∀ s ∈ raw, s.body.compiles raw known := by
  have hwf := mentions_wellFounded hacyc
  set signals := raw.map (parsedSignal ids) with hsignals
  have hget : ∀ {i s}, raw[i]? = some s → signals[i]? = some (parsedSignal ids s) :=
    fun hs => by rw [hsignals, List.getElem?_map, hs]; rfl
  have hnames : signals.map (·.name) = raw.map (·.name) := by
    rw [hsignals, List.map_map]
    rfl
  have hbody : ∀ {i s}, raw[i]? = some s → resolved i =
      some (inlinedExpr ids (inlineDefs index resolved (collectRefs (parsedExpr ids s.body)))
        s.body) := fun hs => hres _ _ (hget hs)
  -- a reference leads to the body of a signal that is mentioned
  have hdefs : ∀ {i s}, raw[i]? = some s → (∀ j, Mentions signals i j → ∀ t, raw[j]? = some t →
      ∀ b, resolved j = some b → ∀ v, b.asNumber = some v ↔ StandsFor raw t.body v) →
      DefsOk raw (collectRefs (parsedExpr ids s.body))
        (inlineDefs index resolved (collectRefs (parsedExpr ids s.body))) := by
    intro i s hs hnum
    refine ⟨fun t ht hn => ?_, fun n hn hno => ?_⟩
    · obtain ⟨j, hj⟩ := List.mem_iff_getElem?.mp ht
      refine ⟨_, ?_, ?_, hnum j ⟨_, _, hget hs, hget hj, hn⟩ t hj _ (hbody hj)⟩
      · rw [inlineDefs, if_pos hn, (hindex t.name j).mpr ⟨_, hget hj, rfl⟩]
        exact hbody hj
      · exact (hres.clean hindex hacyc (hget hj) (hbody hj)).1
    · rw [inlineDefs, if_pos hn]
      rcases hj : index n with _ | j
      · rfl
      · obtain ⟨t, ht, rfl⟩ := (hindex n j).mp hj
        exact absurd (List.mem_map_of_mem (List.mem_of_getElem? ht)) (hnames ▸ hno)
  have hnum : ∀ i s, raw[i]? = some s → ∀ b, resolved i = some b →
      ∀ v, b.asNumber = some v ↔ StandsFor raw s.body v := by
    intro i
    induction i using hwf.induction with
    | _ i ih =>
      intro s hs b hb v
      rw [hbody hs] at hb
      cases hb
      exact asNumber_inlinedExpr hids hnd s.body (hdefs hs ih) v
  have hone : ∀ i s, raw[i]? = some s →
      (∀ j, Mentions signals i j → ∀ b, resolved j = some b →
        b.accepted env (fun _ => false) = true) →
      ∀ b, resolved i = some b →
        (b.accepted env (fun _ => false) = true ↔ s.body.compiles raw known) := by
    intro i s hs hacc b hb
    have hlt : i < raw.length := (List.getElem?_eq_some_iff.mp hs).1
    have htick := hticker i b hlt hb
    rw [hbody hs] at hb
    cases hb
    refine accepted_inlinedExpr hids hpos hnd hknown s.body
      (hdefs hs fun j _ t ht => hnum j t ht) (fun n _ c hc => ?_) htick
    obtain ⟨j, hij, -, hj⟩ := inlineDefs_eq_some hindex (hget hs) hc
    exact hacc j hij c hj
  constructor
  · intro hacc s hs
    obtain ⟨i, hi⟩ := List.mem_iff_getElem?.mp hs
    refine (hone i s hi (fun j hij b hb => hacc j b ?_ hb) _ (hbody hi)).mp
      (hacc i _ (List.getElem?_eq_some_iff.mp hi).1 (hbody hi))
    have := hij.lt
    rwa [hsignals, List.length_map] at this
  · intro hcomp i
    induction i using hwf.induction with
    | _ i ih =>
      intro b hlt hb
      have hi := List.getElem?_eq_getElem hlt
      refine (hone i _ hi (fun j hij b hb => ih j hij b ?_ hb) b hb).mpr
        (hcomp _ (List.mem_of_getElem? hi))
      have := hij.lt
      rwa [hsignals, List.length_map] at this

/-- **What the linter lets through and the emitter does not**: of the programs that pass,
those are emitted in which, outside tickers and branches that are never taken, every
identifier names a parameter or a signal and every call has a known name, its number of
arguments and a window that stands for a legal constant. -/
theorem lint_compiles [DecidableEq D] (order tickerOrder : HashOrder) (text : List Char)
    {symbols : SymbolTable} {bound : List (SignalDef D)}
    (h : lint order tickerOrder text = .ok (symbols, bound)) (env : EmitEnv)
    (henv : env.symbols = symbols) :
    (∃ code, emitProgram env bound = .ok code) ↔
      ∀ s ∈ (sourceSignals text : List (SignalDef D)),
        s.body.compiles (sourceSignals text) (knownNames D text) := by
  rw [lint, except_bind_ok] at h
  obtain ⟨parsed, hparsed, h⟩ := h
  obtain ⟨ids, hsignals, hids, hpos, hknown⟩ := parseProgram_ok hparsed
  obtain ⟨n, -, h'⟩ | ⟨n, -, h'⟩ | ⟨hnd, hacyc, index, resolved, hindex, hres, h'⟩ :=
    inlineSignalDependencies_cases order parsed.signals
  · rw [h'] at h
    cases h
  · rw [h'] at h
    cases h
  · have hun := unallocated_inlined h'
    rw [h'] at h
    obtain ⟨builder, -, h⟩ := except_bind_ok.mp h
    obtain ⟨bound', hbound, h⟩ := except_bind_ok.mp h
    cases h
    rw [← henv] at hbound
    rw [hsignals] at hindex hacyc hres hnd
    -- the inlined bodies, by position
    have hbodies : ∀ P : Expr D → Prop, (∀ s ∈ withBodies parsed.signals resolved, P s.body) ↔
        ∀ i b, i < (sourceSignals text : List (SignalDef D)).length → resolved i = some b → P b := by
      intro P
      have hget : ∀ i, (withBodies parsed.signals resolved)[i]? =
          ((sourceSignals text : List (SignalDef D))[i]?).map fun s =>
            SignalDef.mk s.name ((resolved i).getD (parsedExpr ids s.body)) := by
        intro i
        rw [withBodies_getElem?, hsignals, List.getElem?_map, Option.map_map]
        rfl
      constructor
      · intro hP i b hi hb
        have hs := List.getElem?_eq_getElem hi
        have := hP _ (List.mem_of_getElem? (by rw [hget, hs]; rfl))
        dsimp only at this
        rwa [hb] at this
      · intro hP s hs
        obtain ⟨i, hi⟩ := List.mem_iff_getElem?.mp hs
        rw [hget, Option.map_eq_some_iff] at hi
        obtain ⟨s', hs', rfl⟩ := hi
        have hres' := hres i _ (by rw [List.getElem?_map, hs']; rfl)
        dsimp only
        rw [hres', Option.getD_some]
        exact hP i _ (List.getElem?_eq_some_iff.mp hs').1 hres'
    have hclean : ∀ s ∈ withBodies parsed.signals resolved, ∀ m ∈ collectRefs s.body,
        m ∉ (withBodies parsed.signals resolved).map (·.name) := by
      have hnames : (withBodies parsed.signals resolved).map (·.name) =
          ((sourceSignals text : List (SignalDef D)).map (parsedSignal ids)).map (·.name) := by
        refine List.ext_getElem? fun i => ?_
        rw [List.getElem?_map, withBodies_getElem?, hsignals, Option.map_map, ← List.getElem?_map]
        rfl
      rw [hnames]
      refine (hbodies fun b => ∀ m ∈ collectRefs b, m ∉ _).mpr fun i b hi hb => ?_
      exact (hres.clean hindex hacyc (by rw [List.getElem?_map, List.getElem?_eq_getElem hi]; rfl)
        hb).2
    obtain ⟨hemit, htick⟩ := @emitProgram_bound D _ env _ _ _ hun hclean hbound
    rw [hemit, hbodies fun b => b.accepted env (fun _ => false) = true]
    refine accepted_resolved hids hpos hknown ?_ hindex hacyc hres
      ((hbodies fun b => ∀ c ∈ b.calls, c.TickerBound env.symbols).mp htick)
    rw [List.map_map] at hnd
    exact hnd

end Pipeline

/-! ## A program that passes and is not emitted -/

section Undefined

/-- What becomes of a text: nothing when the linter stops it, and otherwise the exception of
the emitter, if it throws one. -/
def lintThenEmit (text : List Char) : Option (Option String) :=
  match (lint insertionOrder insertionOrder text :
      Except FrontendError (SymbolTable × List (SignalDef (Exact ℚ)))) with
  | .error _ => none
  | .ok (symbols, bound) =>
    match emitProgram (scalarEnv symbols) bound with
    | .error e => some (some e)
    | .ok _ => some none

theorem lint_of_lintThenEmit {text : List Char} {r : Option String}
    (h : lintThenEmit text = some r) : ∃ symbols, ∃ bound : List (SignalDef (Exact ℚ)),
      lint insertionOrder insertionOrder text = .ok (symbols, bound) ∧
        ∀ e, r = some e → emitProgram (scalarEnv symbols) bound = .error e := by
  unfold lintThenEmit at h
  split at h
  · cases h
  · rename_i symbols bound hlint
    refine ⟨symbols, bound, hlint, ?_⟩
    rintro e rfl
    split at h
    · rename_i e' he
      rw [he, Option.some.inj (Option.some.inj h)]
    · cases h

/-- `signal s = sma(mid(A), 3)` -/
def averageText : List Char := "signal s = sma(mid(A), 3)".toList

theorem lint_compiles_average : ∃ symbols, ∃ bound : List (SignalDef (Exact ℚ)),
    lint insertionOrder insertionOrder averageText = .ok (symbols, bound) ∧
      ((∃ code, emitProgram (scalarEnv symbols) bound = .ok code) ↔
        ∀ s ∈ (sourceSignals averageText : List (SignalDef (Exact ℚ))),
          s.body.compiles (sourceSignals averageText) (knownNames (Exact ℚ) averageText)) :=
  have ⟨symbols, bound, h, _⟩ := lint_of_lintThenEmit
    (show lintThenEmit averageText = some none by decide +kernel)
  ⟨symbols, bound, h, lint_compiles insertionOrder insertionOrder averageText h
    (scalarEnv symbols) rfl⟩

/-- `signal s = missing + 1` -/
def undefinedText : List Char := "signal s = missing + 1".toList

/-- **An undefined reference** passes the linter and makes the emitter throw. -/
theorem lint_undefined : ∃ symbols, ∃ bound : List (SignalDef (Exact ℚ)),
    lint insertionOrder insertionOrder undefinedText = .ok (symbols, bound) ∧
      emitProgram (scalarEnv symbols) bound =
        .error "Unresolved identifier in JIT expression: missing" :=
  have ⟨symbols, bound, h, he⟩ := lint_of_lintThenEmit (show lintThenEmit undefinedText =
    some (some "Unresolved identifier in JIT expression: missing") by decide +kernel)
  ⟨symbols, bound, h, he _ rfl⟩

end Undefined

end JitSignalEngine
