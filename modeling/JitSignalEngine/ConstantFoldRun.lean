import JitSignalEngine.ConstantFold
import JitSignalEngine.Deduplication

/-!
# What constant folding preserves

`FoldConstants` is written separately from the interpreter, and it runs before ids are
handed out. Each of the two has a consequence:

* the folder compares literals exactly where the interpreter has a tolerance, so a
  folded `==` can have another truth value (`Expr.foldsExactly` rules that out);
* a call that stood in a branch may stand outside all branches afterwards, and two calls
  may become structurally equal, so the allocator may share slots it did not share
  before.

Where neither happens, the runs before and after folding agree. There are two ways to
say that the sharing is the same:

* `FoldKeepsIds` — folding and allocating commute, up to the names of the ids. Then the
  two interpreters go through the same steps (`visit_fold`).
* `FoldKeepsPlan` — the plans of the two bodies agree. Slots may then be shared that
  were not shared before, as long as they held the same states anyway.
-/

namespace JitSignalEngine

open Fp Widen Dataflow Dataflow.Semantics Interpreter

variable {D L : Type} [Fp D]

/-! ## The calls of a folded expression -/

omit [Fp D] in
theorem calls_withLoc (e : Expr D) (loc : SourceLoc) : (e.withLoc loc).calls = e.calls := by
  cases e <;> rfl

/-- A call with its arguments folded. -/
def Call.fold (c : Call D) : Call D := ⟨c.name, foldArgs c.args, c.nodeId, c.symbolId⟩

/-- The calls that are left are calls that were there, their arguments folded. -/
theorem mem_calls_foldConstants (e : Expr D) : ∀ c' ∈ (foldConstants e).calls,
    ∃ c ∈ e.calls, c' = c.fold := by
  induction e using Expr.induct with
  | numberLiteral | identifierExpr | parameterExpr => intro c' h; exact absurd h List.not_mem_nil
  | unaryOp loc k e ih =>
    intro c' h
    rw [foldConstants] at h
    rcases hn : (foldConstants e).asNumber with _ | v
    · simp only [hn] at h
      exact ih c' h
    · simp only [hn] at h
      exact absurd h List.not_mem_nil
  | binaryOp loc k l r ihl ihr =>
    intro c' h
    have hparts : c' ∈ (foldConstants l).calls ++ (foldConstants r).calls := by
      rw [foldConstants] at h
      rcases hl : (foldConstants l).asNumber with _ | v
      · simp only [hl] at h
        exact h
      · rcases hr : (foldConstants r).asNumber with _ | w
        · simp only [hl, hr] at h
          exact h
        · simp only [hl, hr] at h
          exact absurd h List.not_mem_nil
    rcases List.mem_append.mp hparts with h | h
    · obtain ⟨c, hc, heq⟩ := ihl c' h
      exact ⟨c, List.mem_append_left _ hc, heq⟩
    · obtain ⟨c, hc, heq⟩ := ihr c' h
      exact ⟨c, List.mem_append_right _ hc, heq⟩
  | conditional loc c t e ihc iht ihe =>
    intro c' h
    have hthen : c' ∈ (foldConstants t).calls → ∃ d ∈ (Expr.conditional loc c t e).calls,
        c' = d.fold := fun h =>
      have ⟨d, hd, heq⟩ := iht c' h
      ⟨d, List.mem_append_left _ (List.mem_append_right _ hd), heq⟩
    have helse : c' ∈ (foldConstants e).calls → ∃ d ∈ (Expr.conditional loc c t e).calls,
        c' = d.fold := fun h =>
      have ⟨d, hd, heq⟩ := ihe c' h
      ⟨d, List.mem_append_right _ hd, heq⟩
    rw [foldConstants] at h
    rcases hn : (foldConstants c).asNumber with _ | v
    · simp only [hn] at h
      rcases List.mem_append.mp h with h | h
      · rcases List.mem_append.mp h with h | h
        · obtain ⟨d, hd, heq⟩ := ihc c' h
          exact ⟨d, List.mem_append_left _ (List.mem_append_left _ hd), heq⟩
        · exact hthen h
      · exact helse h
    · simp only [hn, calls_withLoc] at h
      split at h
      · exact hthen h
      · exact helse h
  | functionCall loc n args nid sid ih =>
    intro c' h
    rw [foldConstants] at h
    rcases List.mem_cons.mp h with rfl | h
    · exact ⟨_, List.mem_cons_self, rfl⟩
    · obtain ⟨a', ha', hc'⟩ := Expr.mem_callsArgs.mp h
      rw [foldArgs_eq_map] at ha'
      obtain ⟨a, ha, rfl⟩ := List.mem_map.mp ha'
      obtain ⟨c, hc, heq⟩ := ih a ha c' hc'
      exact ⟨c, List.mem_cons_of_mem _ (Expr.mem_callsArgs.mpr ⟨a, ha, hc⟩), heq⟩

theorem unallocated_foldConstants {e : Expr D} (h : Unallocated e.calls) :
    Unallocated (foldConstants e).calls := by
  intro c' hc'
  obtain ⟨c, hc, rfl⟩ := mem_calls_foldConstants e c' hc'
  exact h c hc

theorem symbolOk_foldConstants {symbols : SymbolTable} {e : Expr D}
    (h : ∀ c ∈ e.calls, c.SymbolOk symbols) :
    ∀ c ∈ (foldConstants e).calls, c.SymbolOk symbols := by
  rintro c' hc' hf hs a as hargs
  obtain ⟨c, hc, rfl⟩ := mem_calls_foldConstants e c' hc'
  obtain ⟨name, args, nid, sid⟩ := c
  cases args with
  | nil => cases hargs
  | cons b bs =>
    obtain ⟨ticker, ht, hl⟩ := h _ hc hf hs b bs rfl
    obtain ⟨loc, rfl⟩ := Expr.asIdentifier_eq_some ht
    cases hargs
    exact ⟨ticker, rfl, hl⟩

omit [Fp D] in
theorem strip_withLoc (e : Expr D) (loc : SourceLoc) : (e.withLoc loc).strip = e.strip := by
  cases e <;> rfl

/-- Ids make no difference to what is folded. -/
theorem foldConstants_strip (e : Expr D) :
    (foldConstants e.strip).strip = (foldConstants e).strip := by
  have hnumber : ∀ {a b : Expr D}, a.strip = b.strip → a.asNumber = b.asNumber := by
    intro a b h
    refine asNumber_eq_of_face ?_
    rw [← a.face_strip, h, b.face_strip]
  induction e using Expr.induct with
  | numberLiteral | identifierExpr | parameterExpr => rfl
  | unaryOp loc k e ih =>
    rw [Expr.strip, foldConstants, foldConstants]
    simp only [hnumber ih]
    rcases (foldConstants e).asNumber with _ | v
    · simp only [Expr.strip, ih]
    · rfl
  | binaryOp loc k l r ihl ihr =>
    rw [Expr.strip, foldConstants, foldConstants]
    simp only [hnumber ihl, hnumber ihr]
    rcases (foldConstants l).asNumber with _ | v
    · simp only [Expr.strip, ihl, ihr]
    · rcases (foldConstants r).asNumber with _ | w
      · simp only [Expr.strip, ihl, ihr]
      · rfl
  | conditional loc c t e ihc iht ihe =>
    rw [Expr.strip, foldConstants, foldConstants]
    simp only [hnumber ihc]
    rcases (foldConstants c).asNumber with _ | v
    · simp only [Expr.strip, ihc, iht, ihe]
    · simp only [strip_withLoc]
      split
      · exact iht
      · exact ihe
  | functionCall loc n args nid sid ih =>
    rw [Expr.strip, Expr.stripArgs_eq_map, foldConstants, foldConstants, foldArgs_eq_map,
      foldArgs_eq_map, Expr.strip, Expr.strip, Expr.stripArgs_eq_map, Expr.stripArgs_eq_map,
      List.map_map, List.map_map, List.map_map]
    exact congrArg (Expr.functionCall {} n · (-1) (-1)) (List.map_congr_left ih)

theorem asNumber_foldConstants_strip (e : Expr D) :
    (foldConstants e.strip).asNumber = (foldConstants e).asNumber := by
  refine asNumber_eq_of_face ?_
  rw [← (foldConstants e.strip).face_strip, foldConstants_strip, (foldConstants e).face_strip]

/-! ## Exact folds -/

section Exactly

variable [DecidableEq D]

mutual

/-- Whether every operator that is folded, in a position that is not folded away, has
the value the interpreter gives it. -/
def Expr.foldsExactly : Expr D → Bool
  | .numberLiteral _ _ => true
  | .identifierExpr _ _ => true
  | .parameterExpr _ _ _ => true
  | .unaryOp _ _ e => e.foldsExactly
  | .binaryOp _ k l r => l.foldsExactly && r.foldsExactly &&
    match (foldConstants l).asNumber, (foldConstants r).asNumber with
    | some v, some w => k.fold v w = k.apply v w
    | _, _ => true
  | .functionCall _ _ args _ _ => foldsExactlyArgs args
  | .conditional _ c t e => c.foldsExactly &&
    match (foldConstants c).asNumber with
    | some v => if truthy v then t.foldsExactly else e.foldsExactly
    | none => t.foldsExactly && e.foldsExactly

/-- `Expr.foldsExactly` for an argument list. -/
def Expr.foldsExactlyArgs : List (Expr D) → Bool
  | [] => true
  | a :: as => a.foldsExactly && foldsExactlyArgs as

end

theorem Expr.foldsExactly_of_mem {a : Expr D} {as : List (Expr D)}
    (h : foldsExactlyArgs as = true) (ha : a ∈ as) : a.foldsExactly = true := by
  induction as with
  | nil => exact absurd ha List.not_mem_nil
  | cons b bs ih =>
    rw [foldsExactlyArgs, Bool.and_eq_true] at h
    rcases List.mem_cons.mp ha with rfl | ha
    · exact h.1
    · exact ih h.2 ha

/-- Ids make no difference to whether folds are exact. -/
theorem Expr.foldsExactly_strip (e : Expr D) : e.strip.foldsExactly = e.foldsExactly := by
  induction e using Expr.induct with
  | numberLiteral | identifierExpr | parameterExpr => rfl
  | unaryOp loc k e ih => exact ih
  | binaryOp loc k l r ihl ihr =>
    rw [strip, foldsExactly, foldsExactly, ihl, ihr, asNumber_foldConstants_strip,
      asNumber_foldConstants_strip]
  | conditional loc c t e ihc iht ihe =>
    rw [strip, foldsExactly, foldsExactly, ihc, iht, ihe, asNumber_foldConstants_strip]
  | functionCall loc n args nid sid ih =>
    have hargs : ∀ as : List (Expr D), (∀ a ∈ as, a.strip.foldsExactly = a.foldsExactly) →
        foldsExactlyArgs (as.map strip) = foldsExactlyArgs as := by
      intro as
      induction as with
      | nil => intro _; rfl
      | cons a as iha =>
        intro h
        rw [List.map_cons, foldsExactlyArgs, foldsExactlyArgs, h a List.mem_cons_self,
          iha fun b hb => h b (List.mem_cons_of_mem _ hb)]
    rw [strip, stripArgs_eq_map, foldsExactly, foldsExactly, hargs args ih]

omit [DecidableEq D] in
/-- Only the two equality tests can be folded to another value. -/
theorem BinaryOpKind.fold_eq_apply {kind : BinaryOpKind} (h : kind ≠ .eq) (h' : kind ≠ .notEq)
    (l r : D) : kind.fold l r = kind.apply l r := by
  cases kind <;> first | rfl | exact absurd rfl h | exact absurd rfl h'

end Exactly

/-! ## Renamed ids -/

section Rename

omit [Fp D]

mutual

/-- An expression with its ids renamed. -/
def Expr.rename (ρ : Int → Int) : Expr D → Expr D
  | .numberLiteral loc v => .numberLiteral loc v
  | .identifierExpr loc n => .identifierExpr loc n
  | .parameterExpr loc n i => .parameterExpr loc n i
  | .unaryOp loc k e => .unaryOp loc k (e.rename ρ)
  | .binaryOp loc k l r => .binaryOp loc k (l.rename ρ) (r.rename ρ)
  | .functionCall loc n args nid sid => .functionCall loc n (renameArgs ρ args) (ρ nid) sid
  | .conditional loc c t e => .conditional loc (c.rename ρ) (t.rename ρ) (e.rename ρ)

/-- `Expr.rename` on an argument list. -/
def Expr.renameArgs (ρ : Int → Int) : List (Expr D) → List (Expr D)
  | [] => []
  | a :: as => a.rename ρ :: renameArgs ρ as

end

@[simp] theorem Expr.renameArgs_eq_map (ρ : Int → Int) (as : List (Expr D)) :
    renameArgs ρ as = as.map (rename ρ) := by
  induction as with
  | nil => rfl
  | cons a as ih => rw [renameArgs, ih, List.map_cons]

theorem Expr.asNumber_rename (ρ : Int → Int) (e : Expr D) :
    (e.rename ρ).asNumber = e.asNumber := by
  cases e <;> rfl

/-- A renaming that keeps ids apart, and unset ids unset. -/
structure IdRenaming (ρ : Int → Int) : Prop where
  /-- ids go to ids -/
  pos : ∀ n, 0 < ρ n ↔ 0 < n
  /-- what is unset stays so -/
  neg : ∀ n, n < 0 → ρ n < 0
  /-- different ids to different ids -/
  inj : ∀ m n, 0 < m → 0 < n → ρ m = ρ n → m = n

theorem IdRenaming.id : IdRenaming id := ⟨fun _ => .rfl, fun _ h => h, fun _ _ _ _ h => h⟩

/-- The calls after renaming. -/
theorem calls_rename (ρ : Int → Int) (e : Expr D) : (e.rename ρ).calls =
    e.calls.map fun c => ⟨c.name, c.args.map (Expr.rename ρ), ρ c.nodeId, c.symbolId⟩ := by
  induction e using Expr.induct with
  | numberLiteral | identifierExpr | parameterExpr => rfl
  | unaryOp loc k e ih => exact ih
  | binaryOp loc k l r ihl ihr =>
    rw [Expr.rename, Expr.calls, Expr.calls, ihl, ihr, List.map_append]
  | conditional loc c t e ihc iht ihe =>
    rw [Expr.rename, Expr.calls, Expr.calls, ihc, iht, ihe, List.map_append, List.map_append]
  | functionCall loc n args nid sid ih =>
    have hargs : ∀ as : List (Expr D), (∀ a ∈ as, a ∈ args) →
        Expr.callsArgs (as.map (Expr.rename ρ)) = (Expr.callsArgs as).map fun c =>
          ⟨c.name, c.args.map (Expr.rename ρ), ρ c.nodeId, c.symbolId⟩ := by
      intro as
      induction as with
      | nil => intro _; rfl
      | cons a as iha =>
        intro h
        rw [List.map_cons, Expr.callsArgs, Expr.callsArgs, ih a (h a List.mem_cons_self),
          iha fun b hb => h b (List.mem_cons_of_mem _ hb), List.map_append]
    rw [Expr.rename, Expr.renameArgs_eq_map, Expr.calls, Expr.calls, hargs args fun _ h => h,
      List.map_cons]

end Rename

/-! ## Simulation -/

section Simulation

variable [Fp L] [Widen D L]

omit [Fp D] [Fp L] [Widen D L] in
/-- Two evaluations in progress: the second keeps under `ρ n` what the first keeps under
`n`. Slots need only agree for the ids that are `live`. -/
structure SameRun (ρ : Int → Int) (live : Int → Prop) (s s' : EvalState D L) : Prop where
  /-- the same parameters -/
  ctxParams : s'.ctx.params = s.ctx.params
  /-- the same slots -/
  slots : ∀ n, 0 < n → live n → s'.ctx.slots (ρ n).toNat = s.ctx.slots n.toNat
  /-- the same values cached -/
  cache : ∀ n, 0 < n → s'.cache (ρ n) = s.cache n

omit [Fp D] [Fp L] [Widen D L] in
/-- When `m` returns, `m'` returns the same, and does the same to the state. -/
def Simulates {α : Type} (ρ : Int → Int) (live : Int → Prop) (m m' : EvalM D L α) : Prop :=
  ∀ s s' a t, SameRun ρ live s s' → m s = (.ok a, t) →
    ∃ t', m' s' = (.ok a, t') ∧ SameRun ρ live t t'

namespace Simulates

variable {α β : Type} {ρ : Int → Int} {live : Int → Prop}

omit [Fp D] [Fp L] [Widen D L] in
theorem pure (a : α) : Simulates ρ live (Pure.pure a : EvalM D L α) (Pure.pure a) := by
  rintro s s' b t hs ⟨⟩
  exact ⟨s', rfl, hs⟩

omit [Fp D] [Fp L] [Widen D L] in
theorem throw (e : String) (m' : EvalM D L α) : Simulates ρ live (EvalM.throw e) m' := by
  rintro s s' a t _ ⟨⟩

omit [Fp D] [Fp L] [Widen D L] in
theorem bind {m m' : EvalM D L α} {f f' : α → EvalM D L β} (hm : Simulates ρ live m m')
    (hf : ∀ a, Simulates ρ live (f a) (f' a)) : Simulates ρ live (m >>= f) (m' >>= f') := by
  intro s s' b t hs h
  obtain ⟨a, r, ha, hb⟩ := EvalM.bind_eq_ok h
  obtain ⟨r', ha', hr⟩ := hm s s' a r hs ha
  obtain ⟨t', hb', ht⟩ := hf a r r' b t hr hb
  exact ⟨t', (EvalM.bind_ok ha').trans hb', ht⟩

omit [Fp D] [Fp L] [Widen D L] in
/-- What simulates a value is that value. -/
theorem eq_of_pure {m : EvalM D L α} {v : α} (h : Simulates ρ live m (Pure.pure v))
    {s s' t : EvalState D L} {a : α} (hs : SameRun ρ live s s') (hm : m s = (.ok a, t)) :
    a = v ∧ SameRun ρ live t s' := by
  obtain ⟨t', ht', hrun⟩ := h s s' a t hs hm
  cases ht'
  exact ⟨rfl, hrun⟩

omit [Fp D] [Fp L] [Widen D L] in
theorem evalAll {ms ms' : List (EvalM D L D)} (h : List.Forall₂ (Simulates ρ live) ms ms') :
    Simulates ρ live (Interpreter.evalAll ms) (Interpreter.evalAll ms') := by
  induction h with
  | nil => exact .pure []
  | cons hm _ ih => exact hm.bind fun v => ih.bind fun vs => .pure (v :: vs)

omit [Fp D] [Fp L] [Widen D L] in
/-- A step on corresponding slots. -/
theorem updateSlot (hρ : IdRenaming ρ) {n : Int} (hn : 0 < n) (hlive : live n) (fn : StatefulFn)
    (step : NodeSlot D L → Except String (D × NodeSlot D L)) :
    Simulates ρ live (Interpreter.updateSlot fn n step)
      (Interpreter.updateSlot fn (ρ n) step) := by
  intro s s' a t hs h
  have hslot := hs.slots n hn hlive
  unfold Interpreter.updateSlot at h ⊢
  rw [hslot]
  rcases hstep : step (s.ctx.slots n.toNat) with e | ⟨v, slot⟩
  · rw [hstep] at h
    cases h
  · rw [hstep] at h
    cases h
    refine ⟨_, rfl, hs.ctxParams, fun m hm hl => ?_, hs.cache⟩
    by_cases hmn : m = n
    · rw [hmn]
      simp only [SignalContext.setSlot_slots_self]
    · have hne : m.toNat ≠ n.toNat := fun h => hmn (by omega)
      have hne' : (ρ m).toNat ≠ (ρ n).toNat := fun h => hmn (hρ.inj m n hm hn (by
        have := (hρ.pos m).mpr hm
        have := (hρ.pos n).mpr hn
        omega))
      dsimp only
      rw [SignalContext.setSlot_slots_ne _ _ hne, SignalContext.setSlot_slots_ne _ _ hne',
        hs.slots m hm hl]

omit [Fp D] [Fp L] [Widen D L] in
/-- Caching a value. -/
theorem cacheAndReturn (hρ : IdRenaming ρ) {n : Int} (hn : 0 < n) (v : D) :
    Simulates ρ live (Interpreter.cacheAndReturn n v : EvalM D L D)
      (Interpreter.cacheAndReturn (ρ n) v) := by
  intro s s' a t hs h
  unfold Interpreter.cacheAndReturn Interpreter.noteReturn at h ⊢
  rw [if_pos hn] at h
  rw [if_pos ((hρ.pos n).mpr hn)]
  cases h
  refine ⟨_, rfl, hs.ctxParams, hs.slots, fun m hm => ?_⟩
  by_cases hmn : m = n
  · simp only [hmn, if_pos]
  · have hne : ρ m ≠ ρ n := fun h => hmn (hρ.inj m n hm hn h)
    simp only [if_neg hmn, if_neg hne, hs.cache m hm]

/-- The operators on corresponding operands. -/
theorem evalOperator (hρ : IdRenaming ρ) {n : Int} (hn : 0 < n) (hlive : live n)
    (op : StatefulOp D) (market : MarketState D) {ms ms' : List (EvalM D L D)}
    (h : List.Forall₂ (Simulates ρ live) ms ms') (hk : op.fn = .kalman1d → ms.length = 3) :
    Simulates ρ live (Interpreter.evalOperator op market n ms)
      (Interpreter.evalOperator op market (ρ n) ms') := by
  by_cases hop : op.fn = .kalman1d
  · match h, hk hop with
    | .cons hx (.cons hq (.cons hr .nil)), _ =>
      obtain ⟨fn, literal, symbol, impl⟩ := op
      obtain rfl : fn = .kalman1d := hop
      refine hq.bind fun q => hr.bind fun r => ?_
      by_cases hchk : (lt q (ofNat 0) || le r (ofNat 0)) = true
      · rw [if_pos hchk]
        exact .throw _ _
      · rw [if_neg hchk, if_neg hchk]
        exact hx.bind fun x => .updateSlot hρ hn hlive _ _
  · rw [evalOperator_of_ne hop, evalOperator_of_ne hop]
    exact (Simulates.evalAll h).bind fun vs => .updateSlot hρ hn hlive _ _

end Simulates

/-! ### Calls -/

omit [Fp D] [Fp L] [Widen D L] in
/-- What `a` has on its face, `b` has too. -/
structure Shows (a b : Expr D) : Prop where
  /-- literals stay -/
  number : ∀ v, a.asNumber = some v → b.asNumber = some v
  /-- tickers stay -/
  identifier : ∀ n, a.asIdentifier = some n → b.asIdentifier = some n

omit [Fp L] [Widen D L] in
theorem decodeWindow_of_shows {fn : StatefulFn} {a b : Expr D} {v : D} (h : Shows a b)
    (hv : decodeWindow fn a = some v) : decodeWindow fn b = some v := by
  rw [← hv]
  unfold decodeWindow
  rw [decodeWindow_eq_some hv, h.number v (decodeWindow_eq_some hv)]

omit [Fp D] [Fp L] [Widen D L] in
theorem resolveSymbolSlot_of_shows {symbols : SymbolTable} {fnName : String}
    {as bs : List (Expr D)} {id : Nat} (h : List.Forall₂ Shows as bs)
    (hid : resolveSymbolSlot symbols fnName as (-1) = .ok id) :
    resolveSymbolSlot symbols fnName bs (-1) = .ok id := by
  rw [← hid]
  cases h with
  | nil => rfl
  | @cons a b as bs hab htail =>
    obtain ⟨ticker, ht⟩ := ticker_of_resolve hid
    unfold resolveSymbolSlot
    simp only [List.length_cons, htail.length_eq, ht, hab.identifier ticker ht]

omit [Fp L] [Widen D L] in
/-- A well-formed call keeps its shape when more arguments become literals. -/
theorem decodeStateful_of_shows {impl : Impl} {symbols : SymbolTable} {fn : StatefulFn}
    {as bs : List (Expr D)} {op : StatefulOp D} (h : List.Forall₂ Shows as bs)
    (hop : decodeStateful impl symbols fn as (-1) = .stateful op) :
    decodeStateful impl symbols fn bs (-1) = .stateful op := by
  by_cases hone : fn.arity = 1
  · rw [decodeStateful_windowed impl symbols hone] at hop ⊢
    rcases h with _ | ⟨_, _ | ⟨hw, _ | ⟨_, _⟩⟩⟩
    · cases hop
    · cases hop
    · rename_i w _
      dsimp only at hop ⊢
      rcases hv : decodeWindow fn w with _ | v
      · rw [hv] at hop; cases hop
      · rw [hv] at hop
        rw [decodeWindow_of_shows hw hv]
        exact hop
    · cases hop
  · by_cases hpair : fn.periodArg = 2
    · rw [decodeStateful_pair impl symbols hpair] at hop ⊢
      rcases h with _ | ⟨_, _ | ⟨_, _ | ⟨hw, _ | ⟨_, _⟩⟩⟩⟩
      · cases hop
      · cases hop
      · cases hop
      · rename_i w _
        dsimp only at hop ⊢
        rcases hv : decodeWindow fn w with _ | v
        · rw [hv] at hop; cases hop
        · rw [hv] at hop
          rw [decodeWindow_of_shows hw hv]
          exact hop
      · cases hop
    · by_cases hvwap : fn = .vwap
      · subst hvwap
        rcases h with _ | ⟨ha, _ | ⟨hw, _ | ⟨_, _⟩⟩⟩
        · cases hop
        · cases hop
        · rename_i a _ w _
          simp only [decodeStateful] at hop ⊢
          rcases hv : decodeWindow .vwap w with _ | v
          · rw [hv] at hop; cases hop
          · rcases hs : resolveSymbolSlot symbols "vwap" [a, w] (-1) with e | id
            · rw [hv, hs] at hop; cases hop
            · rw [hv, hs] at hop
              rw [decodeWindow_of_shows hw hv, resolveSymbolSlot_of_shows (.cons ha (.cons hw .nil)) hs]
              exact hop
        · cases hop
      · -- the operators without a window look at the number of arguments only
        rcases h with _ | ⟨_, _ | ⟨_, _ | ⟨_, _ | ⟨_, _⟩⟩⟩⟩ <;> cases fn <;> first
          | exact hop
          | exact absurd rfl hone
          | exact absurd rfl hpair
          | exact absurd rfl hvwap

omit [Fp L] [Widen D L] in
/-- `decodeStateful_of_shows` for calls of any function. -/
theorem decodeCall_of_shows {symbols : SymbolTable} {name : String} {as bs : List (Expr D)}
    (h : List.Forall₂ Shows as bs)
    (hvalid : decodeCall runtimeImpl symbols name as (-1) ≠ .invalid) :
    decodeCall runtimeImpl symbols name bs (-1) = decodeCall runtimeImpl symbols name as (-1) := by
  unfold decodeCall at hvalid ⊢
  rcases hname : Builtin.ofName name with _ | fn | fn | fn
  · rfl
  · match h with
    | .nil | .cons _ (.cons _ _) => rfl
    | .cons (a := a) ha .nil =>
      rw [hname] at hvalid
      rcases hs : resolveSymbolSlot symbols (marketFnName fn) [a] (-1) with e | id
      · simp only [hs, ne_eq, not_true_eq_false] at hvalid
      · simp only [resolveSymbolSlot_of_shows (.cons ha .nil) hs, hs]
  · match h with
    | .nil | .cons _ .nil | .cons _ (.cons _ _) => rfl
  · rw [hname] at hvalid
    dsimp only [runtimeImpl] at hvalid ⊢
    rcases decodeStateful_inv .runtime symbols fn as with hinv | ⟨op, hop, _⟩
    · exact absurd hinv hvalid
    · rw [hop, decodeStateful_of_shows h hop]

omit [Fp D] [Fp L] [Widen D L] in
theorem symbolOk_of_shows {symbols : SymbolTable} {c : Call D} (hc : c.SymbolOk symbols)
    {bs : List (Expr D)} (h : List.Forall₂ Shows c.args bs) (n : Int) :
    (⟨c.name, bs, n, c.symbolId⟩ : Call D).SymbolOk symbols := by
  rintro hf hs b bs' hbs
  obtain rfl : bs = b :: bs' := hbs
  match hargs : c.args, h with
  | a :: as, .cons hab _ =>
    obtain ⟨ticker, ht, hl⟩ := hc hf hs a as hargs
    exact ⟨ticker, hab.identifier ticker ht, hl⟩

/-- The expressions of a call view are its arguments. -/
theorem view_exprs {symbols : SymbolTable} (market : MarketState D) (args : List (Expr D)) :
    (visitArgs symbols market args : List (CallArg D L)).map CallArg.expr = args := by
  rw [visitArgs_eq_map, List.map_map]
  exact List.map_id _

/-- The evaluators of a call view are those of its arguments. -/
theorem view_evals {symbols : SymbolTable} (market : MarketState D) (args : List (Expr D))
    (k : Nat) : ((visitArgs symbols market args : List (CallArg D L)).take k).map CallArg.eval =
      (args.take k).map (visit symbols market) := by
  rw [visitArgs_eq_map, ← List.map_take, List.map_map]
  rfl

variable {ρ : Int → Int} {live : Int → Prop}

/-- **A call simulates a call** that shows the same literals and tickers and whose
arguments simulate its own. -/
theorem simulates_visitCall (hρ : IdRenaming ρ) {symbols : SymbolTable} (market : MarketState D)
    {c : Call D} (hok : CallOk symbols c) {args' : List (Expr D)}
    (hshows : List.Forall₂ Shows c.args args')
    (hlive : ∀ op, decodeCall runtimeImpl symbols c.name c.args (-1) = .stateful op →
      live c.nodeId)
    (hargs : List.Forall₂ (fun a a' => Simulates ρ live (visit symbols market a : EvalM D L D)
      (visit symbols market a')) c.args args') :
    Simulates ρ live
      (visitCall symbols market c.name ⟨visitArgs symbols market c.args, c.nodeId, c.symbolId⟩)
      (visitCall symbols market c.name
        ⟨visitArgs symbols market args', ρ c.nodeId, c.symbolId⟩ : EvalM D L D) := by
  -- what the dispatch does on both sides
  have hdisp : Simulates ρ live
      (dispatch symbols market c.name
        ⟨visitArgs symbols market c.args, c.nodeId, c.symbolId⟩ : EvalM D L D)
      (dispatch symbols market c.name
        ⟨visitArgs symbols market args', ρ c.nodeId, c.symbolId⟩) := by
    have hspec := dispatch_spec symbols market c.name
      ⟨(visitArgs symbols market c.args : List (CallArg D L)), c.nodeId, c.symbolId⟩
      fun hst => Int.not_lt.mpr (Int.le_of_lt (hok.stateful hst))
    have hspec' := dispatch_spec symbols market c.name
      ⟨(visitArgs symbols market args' : List (CallArg D L)), ρ c.nodeId, c.symbolId⟩
      fun hst => Int.not_lt.mpr (Int.le_of_lt ((hρ.pos _).mpr (hok.stateful hst)))
    rw [view_exprs, decodeCall_symbolOk runtimeImpl hok.symbol] at hspec
    rw [view_exprs, decodeCall_symbolOk runtimeImpl
      (symbolOk_of_shows hok.symbol hshows (ρ c.nodeId))] at hspec'
    dsimp only at hspec'
    rcases hshape : decodeCall runtimeImpl symbols c.name c.args (-1) with _ | ⟨fn, sym⟩ | fn | op
    · rw [hshape] at hspec
      obtain ⟨e, he⟩ := hspec
      rw [he]
      exact .throw _ _
    · rw [decodeCall_of_shows hshows (by rw [hshape]; exact fun h => nomatch h), hshape] at hspec'
      rw [hshape] at hspec
      rw [show _ = _ from hspec, show _ = _ from hspec']
      exact .pure _
    · rw [decodeCall_of_shows hshows (by rw [hshape]; exact fun h => nomatch h), hshape] at hspec'
      rw [hshape] at hspec
      obtain ⟨arg, harg, heq⟩ := hspec
      obtain ⟨arg', harg', heq'⟩ := hspec'
      rw [heq, heq']
      dsimp only at harg harg'
      rw [visitArgs_eq_map] at harg harg'
      obtain ⟨a, hca, rfl⟩ := List.map_eq_singleton_iff.mp harg
      obtain ⟨a', rfl, rfl⟩ := List.map_eq_singleton_iff.mp harg'
      rw [hca] at hargs
      cases hargs with
      | cons ha _ => exact ha.bind fun v => .pure _
    · rw [decodeCall_of_shows hshows (by rw [hshape]; exact fun h => nomatch h), hshape] at hspec'
      rw [hshape] at hspec
      have hst : isStatefulOp c.name = true := by
        cases hst : isStatefulOp c.name with
        | true => rfl
        | false => exact absurd hshape (decodeCall_stateless (-1) hst op)
      have hpos := hok.stateful hst
      obtain ⟨fn, hfn⟩ := isStatefulOp_iff.mp hst
      have hdec : DecodedAs .runtime fn c.args op := by
        rcases decodeCall_stateful runtimeImpl symbols c.args hfn with hinv | ⟨op', hop, hdec⟩
        · rw [hshape] at hinv; cases hinv
        · rw [hshape] at hop
          cases hop
          exact hdec
      rw [show _ = _ from hspec, show _ = _ from hspec', view_evals, view_evals]
      refine Simulates.bind ?_ fun v => .cacheAndReturn hρ hpos v
      refine Simulates.evalOperator hρ hpos (hlive op hshape) op market ?_ fun hk => ?_
      · have htake := List.forall₂_take op.fn.arity hargs
        rw [List.forall₂_map_left_iff, List.forall₂_map_right_iff]
        exact htake
      · rw [List.length_map, List.length_take, hdec.kalman (hdec.fn_eq.symm.trans hk), hk]
        rfl
  intro s s' a t hs h
  unfold visitCall at h ⊢
  by_cases hpos : 0 < c.nodeId
  · rw [if_pos hpos] at h
    rw [if_pos ((hρ.pos _).mpr hpos), hs.cache _ hpos]
    rcases hc : s.cache c.nodeId with _ | v
    · rw [hc] at h
      exact hdisp s s' a t hs h
    · rw [hc] at h
      cases h
      exact ⟨_, rfl, hs.ctxParams, hs.slots, hs.cache⟩
  · rw [if_neg hpos] at h
    rw [if_neg (fun h => hpos ((hρ.pos _).mp h))]
    exact hdisp s s' a t hs h

/-! ### Folded expressions -/

omit [Fp L] [Widen D L] in
/-- Folding leaves literals and tickers alone. -/
theorem shows_fold (ρ : Int → Int) (e : Expr D) : Shows e ((foldConstants e).rename ρ) := by
  constructor
  · intro v hv
    obtain ⟨loc, rfl⟩ := Expr.asNumber_eq_some hv
    rfl
  · intro n hn
    obtain ⟨loc, rfl⟩ := Expr.asIdentifier_eq_some hn
    rfl

/-- A literal evaluates to its value, whatever its ids. -/
theorem visit_of_asNumber {symbols : SymbolTable} {e : Expr D} {v : D} (h : e.asNumber = some v)
    (market : MarketState D) (ρ : Int → Int) :
    (visit symbols market (e.rename ρ) : EvalM D L D) = pure v := by
  obtain ⟨loc, rfl⟩ := Expr.asNumber_eq_some h
  rfl

theorem visit_withLoc {symbols : SymbolTable} (e : Expr D) (loc : SourceLoc)
    (market : MarketState D) (ρ : Int → Int) :
    (visit symbols market ((e.withLoc loc).rename ρ) : EvalM D L D) =
      visit symbols market (e.rename ρ) := by
  cases e <;> rfl

variable [DecidableEq D]

/-- **Folding preserves evaluation**, as long as the ids stay, up to their names. -/
theorem visit_fold (hρ : IdRenaming ρ) {symbols : SymbolTable} (market : MarketState D)
    {cs cs' : List (Call D)} (hok : ∀ c ∈ cs, CallOk symbols c)
    (hlive : ∀ c ∈ cs, c.fold ∈ cs' → ∀ op,
      decodeCall runtimeImpl symbols c.name c.args (-1) = .stateful op → live c.nodeId)
    (e : Expr D) : e.calls ⊆ cs → (foldConstants e).calls ⊆ cs' → e.foldsExactly = true →
    Simulates ρ live (visit symbols market e : EvalM D L D)
      (visit symbols market ((foldConstants e).rename ρ)) := by
  induction e using Expr.induct with
  | numberLiteral loc v => intro _ _ _; exact .pure v
  | identifierExpr loc n => intro _ _ _; exact .throw _ _
  | parameterExpr loc n i =>
    intro _ _ _ s s' a t hs h
    refine ⟨s', ?_, ?_⟩
    · rw [foldConstants, Expr.rename, visit]
      rw [visit] at h
      unfold visitParameter at h ⊢
      rw [hs.ctxParams]
      split at h
      · cases h
      · split at h
        · cases h
        · rename_i hneg
          rw [if_neg hneg]
          split at h
          · cases h
            simp only [*]
          · cases h
    · rw [visit] at h
      unfold visitParameter at h
      split at h
      · cases h
      · split at h
        · cases h
        · split at h
          · cases h
            exact hs
          · cases h
  | unaryOp loc k e ih =>
    intro hcs hcs' hex
    rw [foldConstants] at hcs' ⊢
    rcases hn : (foldConstants e).asNumber with _ | v
    · simp only [hn] at hcs'
      exact (ih hcs hcs' hex).bind fun v => .pure _
    · have ih := ih hcs (calls_of_asNumber hn ▸ List.nil_subset _) hex
      rw [visit_of_asNumber hn] at ih
      dsimp only
      intro s s' a t hs h
      obtain ⟨w, r, hw, hr⟩ := EvalM.bind_eq_ok h
      obtain ⟨rfl, hrun⟩ := ih.eq_of_pure hs hw
      cases hr
      exact ⟨s', rfl, hrun⟩
  | binaryOp loc k l r ihl ihr =>
    intro hcs hcs' hex
    rw [Expr.foldsExactly, Bool.and_eq_true, Bool.and_eq_true] at hex
    have hparts : (foldConstants l).calls ⊆ cs' ∧ (foldConstants r).calls ⊆ cs' := by
      rw [foldConstants] at hcs'
      rcases hl : (foldConstants l).asNumber with _ | v
      · simp only [hl] at hcs'
        exact List.append_subset.mp hcs'
      · refine ⟨calls_of_asNumber hl ▸ List.nil_subset _, ?_⟩
        rcases hr : (foldConstants r).asNumber with _ | w
        · simp only [hl, hr] at hcs'
          exact (List.append_subset.mp hcs').2
        · exact calls_of_asNumber hr ▸ List.nil_subset _
    have ihl := ihl (fun c hc => hcs (List.mem_append_left _ hc)) hparts.1 hex.1.1
    have ihr := ihr (fun c hc => hcs (List.mem_append_right _ hc)) hparts.2 hex.1.2
    have hfold := hex.2
    rw [foldConstants]
    rcases hnl : (foldConstants l).asNumber with _ | v
    · dsimp only
      exact ihl.bind fun v => ihr.bind fun w => .pure _
    · rcases hnr : (foldConstants r).asNumber with _ | w
      · dsimp only
        exact ihl.bind fun v => ihr.bind fun w => .pure _
      · rw [hnl, hnr] at hfold
        rw [visit_of_asNumber hnl] at ihl
        rw [visit_of_asNumber hnr] at ihr
        dsimp only
        intro s s' a t hs h
        obtain ⟨v', s₁, hv, h⟩ := EvalM.bind_eq_ok h
        obtain ⟨w', s₂, hw, h⟩ := EvalM.bind_eq_ok h
        obtain ⟨rfl, hrun⟩ := ihl.eq_of_pure hs hv
        obtain ⟨rfl, hrun⟩ := ihr.eq_of_pure hrun hw
        cases h
        refine ⟨s', ?_, hrun⟩
        rw [Expr.rename, visit, of_decide_eq_true hfold]
        rfl
  | conditional loc c t e ihc iht ihe =>
    intro hcs hcs' hex
    rw [Expr.foldsExactly, Bool.and_eq_true] at hex
    have ihc := ihc fun d hd => hcs (List.mem_append_left _ (List.mem_append_left _ hd))
    have iht := iht fun d hd => hcs (List.mem_append_left _ (List.mem_append_right _ hd))
    have ihe := ihe fun d hd => hcs (List.mem_append_right _ hd)
    have hbranch := hex.2
    rw [foldConstants] at hcs' ⊢
    rcases hn : (foldConstants c).asNumber with _ | v
    · rw [hn, Bool.and_eq_true] at hbranch
      simp only [hn] at hcs'
      obtain ⟨hct, he⟩ := List.append_subset.mp hcs'
      obtain ⟨hc, ht⟩ := List.append_subset.mp hct
      dsimp only
      refine (ihc hc hex.1).bind fun v => ?_
      by_cases htr : truthy v = true
      · rw [if_pos htr, if_pos htr]
        exact iht ht hbranch.1
      · rw [if_neg htr, if_neg htr]
        exact ihe he hbranch.2
    · have ihc := ihc (calls_of_asNumber hn ▸ List.nil_subset _) hex.1
      rw [visit_of_asNumber hn] at ihc
      rw [hn] at hbranch
      simp only [hn, calls_withLoc] at hcs'
      dsimp only
      intro s s' a u hs h
      obtain ⟨v', s₁, hv, h⟩ := EvalM.bind_eq_ok h
      obtain ⟨rfl, hrun⟩ := ihc.eq_of_pure hs hv
      rw [visit_withLoc]
      by_cases htr : truthy v' = true
      · simp only [if_pos htr] at h hbranch hcs' ⊢
        exact iht hcs' hbranch s₁ s' a u hrun h
      · simp only [if_neg htr] at h hbranch hcs' ⊢
        exact ihe hcs' hbranch s₁ s' a u hrun h
  | functionCall loc n args nid sid ih =>
    intro hcs hcs' hex
    rw [foldConstants] at hcs'
    have hself : (⟨n, args, nid, sid⟩ : Call D) ∈ cs := hcs List.mem_cons_self
    have hself' : (⟨n, args, nid, sid⟩ : Call D).fold ∈ cs' := hcs' List.mem_cons_self
    have hargs : ∀ as : List (Expr D), (∀ a ∈ as, a ∈ args) →
        List.Forall₂ (fun a a' => Shows a a' ∧
            Simulates ρ live (visit symbols market a : EvalM D L D) (visit symbols market a'))
          as (as.map fun a => (foldConstants a).rename ρ) := by
      intro as
      induction as with
      | nil => intro _; exact .nil
      | cons a as iha =>
        intro hmem
        refine .cons ⟨shows_fold ρ a, ih a (hmem a List.mem_cons_self) (fun c hc =>
          hcs (List.mem_cons_of_mem _ (Expr.mem_callsArgs.mpr ⟨a, hmem a List.mem_cons_self, hc⟩)))
          (fun c hc => hcs' (List.mem_cons_of_mem _ (Expr.mem_callsArgs.mpr
            ⟨_, foldArgs_eq_map args ▸ List.mem_map_of_mem (hmem a List.mem_cons_self), hc⟩)))
          (Expr.foldsExactly_of_mem hex (hmem a List.mem_cons_self))⟩
          (iha fun b hb => hmem b (List.mem_cons_of_mem _ hb))
    have hargs := hargs args fun _ h => h
    rw [foldConstants, Expr.rename, Expr.renameArgs_eq_map, foldArgs_eq_map, List.map_map, visit,
      visit]
    exact simulates_visitCall hρ market (hok _ hself) (hargs.imp fun _ _ h => h.1)
      (hlive _ hself hself') (hargs.imp fun _ _ h => h.2)

/-! ### Runs with the same ids -/

variable (L) in
omit [DecidableEq D] in
/-- The ids of the calls that are left after folding. -/
def Survives (body : Expr D) (n : Int) : Prop :=
  ∃ c ∈ body.calls, c.nodeId = n ∧ c.fold ∈ (foldConstants body).calls ∧
    ∃ fn, Builtin.ofName c.name = some (.stateful fn) ∧ ∀ slot : NodeSlot D L,
      slot.prewarm fn (periodLiteral fn (foldArgs c.args)) = slot.prewarm fn (periodLiteral fn c.args)

omit [Widen D L] [DecidableEq D] in
/-- Folding leaves the window of a well-formed call alone. -/
theorem prewarm_fold {symbols : SymbolTable} {c : Call D} {op : StatefulOp D}
    (hop : decodeCall runtimeImpl symbols c.name c.args (-1) = .stateful op) :
    ∃ fn, Builtin.ofName c.name = some (.stateful fn) ∧ ∀ slot : NodeSlot D L,
      slot.prewarm fn (periodLiteral fn (foldArgs c.args)) =
        slot.prewarm fn (periodLiteral fn c.args) := by
  have hst : isStatefulOp c.name = true := by
    cases hst : isStatefulOp c.name with
    | true => rfl
    | false => exact absurd hop (decodeCall_stateless (-1) hst op)
  obtain ⟨fn, hfn⟩ := isStatefulOp_iff.mp hst
  refine ⟨fn, hfn, fun slot => ?_⟩
  rcases decodeCall_stateful runtimeImpl symbols c.args hfn with hinv | ⟨op', hop', hdec⟩
  · rw [hop] at hinv; cases hinv
  · rcases hl : op'.literal with _ | v
    · rcases hdec.windowless hl with rfl | rfl | rfl | rfl <;> rfl
    · have hperiod : periodLiteral fn c.args = some v := by
        rcases hdec.literal with h | h
        · rw [hl] at h; cases h
        · rw [← h, hl]
      have hfold : periodLiteral fn (foldArgs c.args) = some v := by
        rw [periodLiteral] at hperiod ⊢
        obtain ⟨w, hw, hv⟩ := Option.bind_eq_some_iff.mp hperiod
        rw [foldArgs_eq_map, List.getElem?_map, hw]
        obtain ⟨loc, rfl⟩ := Expr.asNumber_eq_some hv
        exact hv
      rw [hperiod, hfold]

omit [Fp L] [Widen D L] in
/-- Folding and allocating commute, up to the names of the ids, and no operator is folded
to a value the interpreter would not give it. -/
structure FoldKeepsIds (body : Expr D) : Prop where
  /-- folded operators keep their values -/
  exactly : body.foldsExactly = true
  /-- calls share ids after folding as they did before -/
  ids : ∃ ρ : Int → Int, IdRenaming ρ ∧
    allocateNodeIds (foldConstants body) = (foldConstants (allocateNodeIds body)).rename ρ

omit [Widen D L] [DecidableEq D] in
/-- Fresh contexts correspond. -/
theorem sameRun_fresh {body body' : Expr D} (hids : ConsistentIds body.calls)
    (hids' : ConsistentIds body'.calls)
    (hbody : body' = (foldConstants body).rename ρ) (params : List D) :
    SameRun ρ (Survives L body)
      ⟨(freshContext params body : SignalContext D (NodeSlot D L)), fun _ => none, []⟩
      ⟨freshContext params body', fun _ => none, []⟩ where
  ctxParams := (prewarmExpr_params body' _).trans (prewarmExpr_params body _).symm
  slots := by
    rintro n hn ⟨c, hc, rfl, hsurv, fn, hfn, hprewarm⟩
    have hc' : (⟨c.name, (foldArgs c.args).map (Expr.rename ρ), ρ c.nodeId, c.symbolId⟩ : Call D) ∈
        body'.calls := by
      rw [hbody, calls_rename]
      exact List.mem_map_of_mem hsurv
    have hperiod : periodLiteral fn ((foldArgs c.args).map (Expr.rename ρ)) =
        periodLiteral fn (foldArgs c.args) := by
      rw [periodLiteral, periodLiteral, List.getElem?_map]
      cases (foldArgs c.args)[fn.periodArg]? with
      | none => rfl
      | some a => exact a.asNumber_rename ρ
    have h := freshContext_slots (L := L) hids params hc hfn
    have h' := freshContext_slots (L := L) hids' params hc' hfn
    dsimp only at h' ⊢
    rw [h, h', hperiod, hprewarm]
  cache _ _ := rfl

omit [DecidableEq D] in
/-- Runs of bodies with the same ids go through the same steps, until a tick throws. -/
theorem contextAt_sameRun {symbols : SymbolTable} {body body' : Expr D}
    (hsim : ∀ market, Simulates ρ live (visit symbols market body : EvalM D L D)
      (visit symbols market body'))
    {ctx ctx' : SignalContext D (NodeSlot D L)}
    (hctx : SameRun ρ live ⟨ctx, fun _ => none, []⟩ ⟨ctx', fun _ => none, []⟩)
    (ticks : Nat → MarketState D) (t : Nat)
    (hok : ∀ s < t, (resultAt symbols body ticks ctx s).toOption ≠ none) :
    SameRun ρ live ⟨contextAt symbols body ticks ctx t, fun _ => none, []⟩
      ⟨contextAt symbols body' ticks ctx' t, fun _ => none, []⟩ := by
  induction t with
  | zero => exact hctx
  | succ t ih =>
    have hrun := ih fun s hs => hok s (Nat.lt_succ_of_lt hs)
    have hret := hok t (Nat.lt_succ_self t)
    rw [resultAt, evaluate, evaluateState] at hret
    rcases hv : visit symbols (ticks t) body
      ⟨contextAt symbols body ticks ctx t, fun _ => none, []⟩ with ⟨e | v, r⟩
    · rw [hv] at hret
      exact absurd rfl hret
    · obtain ⟨r', hv', hr⟩ := hsim (ticks t) _ _ v r hrun hv
      rw [contextAt, contextAt, evaluate, evaluate, evaluateState, evaluateState, hv, hv']
      exact ⟨hr.ctxParams, hr.slots, fun _ _ => rfl⟩

omit [DecidableEq D] in
/-- `contextAt_sameRun` for the results. -/
theorem resultAt_sameRun {symbols : SymbolTable} {body body' : Expr D}
    (hsim : ∀ market, Simulates ρ live (visit symbols market body : EvalM D L D)
      (visit symbols market body'))
    {ctx ctx' : SignalContext D (NodeSlot D L)}
    (hctx : SameRun ρ live ⟨ctx, fun _ => none, []⟩ ⟨ctx', fun _ => none, []⟩)
    (ticks : Nat → MarketState D) (t : Nat)
    (hok : ∀ s ≤ t, (resultAt symbols body ticks ctx s).toOption ≠ none) :
    (resultAt symbols body' ticks ctx' t).toOption =
      (resultAt symbols body ticks ctx t).toOption := by
  have hrun := contextAt_sameRun hsim hctx ticks t fun s hs => hok s (Nat.le_of_lt hs)
  have hret := hok t (Nat.le_refl t)
  rw [resultAt, evaluate, evaluateState] at hret
  rcases hv : visit symbols (ticks t) body
    ⟨contextAt symbols body ticks ctx t, fun _ => none, []⟩ with ⟨e | v, r⟩
  · rw [hv] at hret
    exact absurd rfl hret
  · obtain ⟨r', hv', _⟩ := hsim (ticks t) _ _ v r hrun hv
    rw [resultAt, resultAt, evaluate, evaluate, evaluateState, evaluateState, hv, hv']

/-- **Folding preserves runs that share slots as before.** -/
theorem run_of_foldKeepsIds {symbols : SymbolTable} {body : Expr D} (hun : Unallocated body.calls)
    (hsym : ∀ c ∈ body.calls, c.SymbolOk symbols) (h : FoldKeepsIds body) (params : List D)
    (ticks : Nat → MarketState D) (t : Nat)
    (hok : ∀ s ≤ t,
      (runResult L symbols (allocateNodeIds body) params ticks s).toOption ≠ none) :
    (runResult L symbols (allocateNodeIds (foldConstants body)) params ticks t).toOption =
      (runResult L symbols (allocateNodeIds body) params ticks t).toOption := by
  obtain ⟨ρ, hρ, hbody⟩ := h.ids
  have halloc := allocateNodeIds_allocates hun
  have hids := halloc.consistentIds hun
  have hun' := unallocated_foldConstants hun
  have hids' := (allocateNodeIds_allocates hun').consistentIds hun'
  have hcalls := hids.callOk (halloc.symbolOk hsym)
  have hexactly : (allocateNodeIds body).foldsExactly = true := by
    rw [← Expr.foldsExactly_strip, allocateNodeIds, allocateWalk_strip, Expr.foldsExactly_strip]
    exact h.exactly
  have hlive : ∀ c ∈ (allocateNodeIds body).calls,
      c.fold ∈ (foldConstants (allocateNodeIds body)).calls → ∀ op,
      decodeCall runtimeImpl symbols c.name c.args (-1) = .stateful op →
      Survives L (allocateNodeIds body) c.nodeId := by
    intro c hc hc' op hop
    obtain ⟨fn, hfn, hprewarm⟩ := prewarm_fold (L := L) hop
    exact ⟨c, hc, rfl, hc', fn, hfn, hprewarm⟩
  refine resultAt_sameRun (fun market => ?_) (sameRun_fresh hids hids' hbody params) ticks t hok
  rw [hbody]
  exact visit_fold hρ market hcalls hlive _ (fun _ h => h) (fun _ h => h) hexactly

end Simulation

/-! ## Runs with the same plan -/

section Plan

/-- Whether a leaf cannot be evaluated. -/
def Leaf.fails : Leaf D → Bool
  | .fail => true
  | _ => false

/-- A plan with its constants folded, as the interpreter would evaluate them, and without
`now` where it makes no difference. -/
def Plan.simplified (p : Plan D) : Plan D :=
  simplify (planLiterals [] (fun _ => ()) fun _ _ _ _ => none) true p

variable [DecidableEq D]

/-- The plans of the body before and after folding agree, but for the parts of the first
that cannot be evaluated; and in neither does the order matter in which `kalman1d`
evaluates its operands. -/
structure FoldKeepsPlan (symbols : SymbolTable) (body : Expr D) : Prop where
  /-- the order does not matter before -/
  safe : KalmanSafe (allocateNodeIds body)
  /-- nor after folding -/
  safeFolded : KalmanSafe (allocateNodeIds (foldConstants body))
  /-- the plans agree -/
  plan : Term.covers Leaf.fails (planOf (interpEnv symbols) (allocateNodeIds body)).simplified
    (planOf (interpEnv symbols) (allocateNodeIds (foldConstants body))).simplified = true

variable [Fp L] [Widen D L]

omit [DecidableEq D] in
theorem val_simplified (params : List D) (ticks : Nat → MarketState D) (p : Plan D) (t : Nat) :
    (interpSemantics L params).val ticks p.simplified always t =
      (interpSemantics L params).val ticks p always t := by
  have hcongr : p.simplified = simplify (planLiterals params StatefulOp.slot
      fun op market vs (slot : NodeSlot D L) => (operatorStep op market vs slot).toOption) true p :=
    simplify_congr (planLiterals [] (fun _ => ()) fun _ _ _ _ => none)
      (planLiterals params StatefulOp.slot
        fun op market vs (slot : NodeSlot D L) => (operatorStep op market vs slot).toOption)
      rfl rfl rfl rfl rfl p true
  rw [hcongr]
  exact congrFun (val_simplify ticks _ p true always fun _ => rfl) t

/-- **Folding preserves runs whose plan it preserves.** -/
theorem run_of_foldKeepsPlan {symbols : SymbolTable} {body : Expr D} (hun : Unallocated body.calls)
    (hsym : ∀ c ∈ body.calls, c.SymbolOk symbols) (h : FoldKeepsPlan symbols body)
    (params : List D) (ticks : Nat → MarketState D) (t : Nat)
    (hok : ∀ s ≤ t,
      (runResult L symbols (allocateNodeIds body) params ticks s).toOption ≠ none) :
    (runResult L symbols (allocateNodeIds (foldConstants body)) params ticks t).toOption =
      (runResult L symbols (allocateNodeIds body) params ticks t).toOption := by
  have hun' := unallocated_foldConstants hun
  have hids := (allocateNodeIds_allocates hun).consistentIds hun
  have hids' := (allocateNodeIds_allocates hun').consistentIds hun'
  have hwell := wellNumbered_allocateNodeIds hun hsym h.safe
  have hwell' := wellNumbered_allocateNodeIds hun' (symbolOk_foldConstants hsym) h.safeFolded
  have hrun := fun r => interpreter_run (L := L) hwell hids params ticks r
  have hrun' := fun r => interpreter_run (L := L) hwell' hids' params ticks r
  -- the plan has values up to tick `t`
  have hval : ∀ s ≤ t, planValue L symbols (allocateNodeIds body) params ticks s ≠ none := by
    intro s hs
    exact (hrun (t + 1)).1.mp (fun r hr => hok r (Nat.lt_succ_iff.mp hr)) s (Nat.lt_succ_of_le hs)
  have hvals : ∀ s ≤ t, planValue L symbols (allocateNodeIds (foldConstants body)) params ticks s =
      planValue L symbols (allocateNodeIds body) params ticks s := by
    intro s hs
    have hwild : ∀ k : Leaf D, k.fails = true → ∀ x, (interpSemantics L params).leaf k x = none := by
      intro k hk x
      cases k with
      | fail => rfl
      | _ => cases hk
    have hnows : ∀ q ∈ (planOf (interpEnv symbols) (allocateNodeIds body)).simplified.nows,
        ∀ r ≤ t, (interpSemantics L params).val ticks q always r ≠ none := by
      intro q hq r hr
      obtain ⟨p, hp, rfl⟩ := mem_nows_simplify _ _ _ q hq
      change (interpSemantics L params).val ticks (Plan.simplified p) always r ≠ none
      rw [val_simplified]
      exact (schedule_returns (interpEnv symbols) (fun x => hwild .fail rfl x)
        (fun _ _ h => nomatch h) (allocateNodeIds body) [] .empty (fun _ _ h => nomatch h)
        fun _ => hval r hr).1 p hp
    have href := val_refines (SamePure.refl (interpSemantics L params)) hwild (N := t)
      _ _ always h.plan (Term.AllCalls.of_forall (fun _ _ => CallSim.refl _ _ _ _) _) hnows
      (fun r hr _ => by rw [val_simplified]; exact hval r hr) s hs rfl
    rw [val_simplified, val_simplified] at href
    exact href
  rw [(hrun t).2 fun s hs => hval s (Nat.le_of_lt hs),
    (hrun' t).2 fun s hs => hvals s (Nat.le_of_lt hs) ▸ hval s (Nat.le_of_lt hs),
    hvals t (Nat.le_refl t)]

end Plan

/-! ## Runs that folding changes -/

section Changed

open Concrete

/-- `0 == 1e-13` -/
def nearTie : Expr (Exact ℚ) := .binaryOp {} .eq (num 0) (num (1 / 10000000000000))

/-- `(if 1 > 0 then sma(mid(A), 3) else 0) + (if mid(A) > 5 then sma(mid(A), 3) else 0)` -/
def movedCall : Expr (Exact ℚ) :=
  plus (ifThenElse (gt (num 1) (num 0)) (app "sma" [mid "A", num 3]) (num 0))
    (ifThenElse (gt (mid "A") (num 5)) (app "sma" [mid "A", num 3]) (num 0))

/-- The mid price of `A` is 1, then 2, then 9. -/
def risingTicks (t : Nat) : MarketState (Exact ℚ) :=
  quote (if t = 0 then 1 else if t = 1 then 2 else 9) 1

/-- `mid(A) + (1 + 2)` -/
def foldedSum : Expr (Exact ℚ) := plus (mid "A") (plus (num 1) (num 2))

end Changed

end JitSignalEngine
