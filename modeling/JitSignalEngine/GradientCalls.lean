import JitSignalEngine.GradientRefinement

/-!
# The code of an expression follows the forward evaluator

* `EmitsForward` — the code of an expression computes what the evaluator returns.
* `emitGradHelper_triple` — the call of a helper is an update of the evaluator.
* `emitStatefulGradient_follows` — the stateful operators.
* `emitValueGradient_follows` — an expression, by induction on it.

The evaluator computes the noises of `kalman1d` before its measurement, the code after it. So the
noises must not contain calls.
-/

namespace JitSignalEngine

open Fp Widen Builder GradientEmitM

variable {D L : Type}

section Calls

variable [Fp D] [Fp L] [Widen D L] {X : GradientTick D} {Γ : List (Operand D × D)}
  {fs : ForwardState D L}

/-! ## What the evaluator does -/

omit [Fp D] [Fp L] [Widen D L] in
/-- Inversion for `bind`. -/
theorem ForwardM.exec_bind_ok {α β : Type} {m : ForwardM D L α} {k : α → ForwardM D L β}
    {s s' : ForwardState D L} {b : β} (h : (m >>= k).exec s = (.ok b, s')) :
    ∃ a s₁, m.exec s = (.ok a, s₁) ∧ (k a).exec s₁ = (.ok b, s') := by
  rcases hm : m.exec s with ⟨e | a, s₁⟩
  · have hrun : StateT.run (ExceptT.run m) s = (.error e, s₁) := hm
    rw [exec, ExceptT.run_bind, StateT.run_bind, hrun] at h
    cases h
  · rw [exec_bind hm] at h
    exact ⟨a, s₁, rfl, h⟩

omit [Fp D] [Fp L] [Widen D L] in
/-- Inversion for a check. -/
theorem ForwardM.lift_bind_ok {α β : Type} {r : Except String α} {k : α → ForwardM D L β}
    {s s' : ForwardState D L} {b : β} (h : (ForwardM.lift r >>= k).exec s = (.ok b, s')) :
    ∃ a, r = .ok a ∧ (k a).exec s = (.ok b, s') := by
  cases r with
  | error e => cases h
  | ok a => exact ⟨a, rfl, h⟩

/-- The states of a call are written back. -/
def ForwardState.setSlots (fs : ForwardState D L) (ids : ForwardGradient.SlotIds)
    (slots : GradSlots D L) : ForwardState D L :=
  { fs with
    ctx := fs.ctx.setSlot ids.nodeId slots.primal
    sensitivities := fun j => if j = ids.gradSlot then slots.grad else fs.sensitivities j }

/-- The value of a call is kept. -/
def ForwardState.remember (fs : ForwardState D L) (nodeId : Int) (v : ValueGradient D) :
    ForwardState D L :=
  { fs with cache := fun j => if j = nodeId then some v else fs.cache j }

omit [Fp D] [Fp L] [Widen D L] in
/-- Inversion for an update. -/
theorem updateSlots_ok {ids : ForwardGradient.SlotIds}
    {step : GradSlots D L → Except String (ValueGradient D × GradSlots D L)}
    {fs' : ForwardState D L} {v : ValueGradient D}
    (h : (ForwardGradient.updateSlots ids step).exec fs = (.ok v, fs')) :
    ∃ slots, step ⟨fs.ctx.slots ids.nodeId, fs.sensitivities ids.gradSlot⟩ = .ok (v, slots) ∧
      fs' = fs.setSlots ids slots := by
  rw [ForwardGradient.updateSlots, ForwardM.exec_get_bind] at h
  obtain ⟨⟨w, slots⟩, hstep, h⟩ := ForwardM.lift_bind_ok h
  cases h
  exact ⟨slots, hstep, rfl⟩

/-! ### Helpers -/

omit [Fp D] [Fp L] [Widen D L] in
/-- The sensitivity state of a helper is that of the evaluator. -/
theorem GradientFn.gradSlot_ok (helper : GradientFn) {n target : Nat} (htarget : target < n)
    (nodeId : Nat) : helper.gradSlot n nodeId target = .ok (nodeId * n + target) := by
  have hchecked : checkedGradientParam n target = .ok target := by
    unfold checkedGradientParam
    rw [if_neg (by omega)]
    rfl
  have hslot : ForwardGradient.gradientSlot n nodeId target = .ok (nodeId * n + target) :=
    if_neg (by omega)
  cases helper with
  | crossAbove | crossBelow => rfl
  | emaAlpha | sma | lag | rollingStd | zscore | rollingCorr | rollingBeta | kalman1d | rollingMin
  | rollingMax => exact except_bind_ok.mpr ⟨target, hchecked, hslot⟩

omit [Fp L] [Widen D L] in
/-- **A helper** and an update of the evaluator. -/
theorem InStep.setSlots {s : GradientCg D} {A : Set Name} {f : GradFrame D L}
    (h : InStep X Γ fs s A f) (hids : ConsistentIds X.calls) {c : Call D} (hc : c ∈ X.calls)
    (hpos : 0 < c.nodeId) {fn : StatefulFn} (hfn : Builtin.ofName c.name = some (.stateful fn))
    {code fwd : GradSlots D L} (hfollows : HelperFollows code fwd)
    (hsized : fwd.primal.SizedFor fn (parsePreparedPeriod (periodLiteral fn c.args))) :
    InStep X Γ (fs.setSlots (slotsOf X.params.length X.target c.nodeId) fwd) s A
      (f.setSlots c.nodeId.toNat (c.nodeId.toNat * X.params.length + X.target) code) where
  states :=
    { forwardParams := h.states.forwardParams
      codeParams := h.states.codeParams
      forwardCount := h.states.forwardCount
      codeCount := h.states.codeCount
      primal := fun j => by
        by_cases hj : j = c.nodeId.toNat
        · subst hj
          obtain ⟨period, hperiod⟩ := hfollows.primal
          exact ⟨period, by simpa [GradFrame.context, GradFrame.setSlots, ForwardState.setSlots,
            slotsOf] using hperiod⟩
        · obtain ⟨period, hperiod⟩ := h.states.primal j
          refine ⟨period, ?_⟩
          dsimp only [GradFrame.context, GradFrame.setSlots, ForwardState.setSlots, slotsOf]
          rw [SignalContext.setSlot_slots_ne _ _ hj, SignalContext.setSlot_slots_ne _ _ hj]
          exact hperiod
      sensitivities := by
        have hsame : f.sensitivities = fs.sensitivities := h.states.sensitivities
        dsimp only [GradFrame.context, GradFrame.setSlots, ForwardState.setSlots, slotsOf]
        rw [hfollows.grad, hsame]
      kalman1d := fun j => by
        dsimp only [ForwardState.setSlots, slotsOf]
        by_cases hj : j = c.nodeId.toNat
        · subst hj
          rw [SignalContext.setSlot_slots_self]
          exact hfollows.kalman1d
        · rw [SignalContext.setSlot_slots_ne _ _ hj]
          exact h.states.kalman1d j
      sized := fun d hd g hg => by
        dsimp only [ForwardState.setSlots, slotsOf]
        by_cases hj : d.nodeId.toNat = c.nodeId.toNat
        · -- a call of the same operator with the same window
          have hdpos := hids.stateful d hd (isStatefulOp_iff.mpr ⟨g, hg⟩)
          obtain ⟨rfl, hliteral⟩ := hids.ownedBy hc hpos hfn d hd hdpos.le hj g hg
          rw [hj, SignalContext.setSlot_slots_self, hliteral]
          exact hsized
        · rw [SignalContext.setSlot_slots_ne _ _ hj]
          exact h.states.sized d hd g hg }
  caches := h.caches
  live := h.live
  written := h.written

omit [Fp L] [Widen D L] in
/-- **The value of a call is kept** by both. -/
theorem InStep.remember {s : GradientCg D} {A : Set Name} {f : GradFrame D L}
    {ir : ValueGradientIr D} {v : ValueGradient D} (h : InStep X (listPair ir v Γ) fs s A f)
    {nodeId : Int} (hpos : 0 < nodeId) :
    InStep X (listPair ir v Γ) (fs.remember nodeId v) (s.cacheStateful nodeId ir) A f := by
  obtain ⟨hvalue, hv⟩ := h.live _ List.mem_cons_self
  obtain ⟨hgradient, hg⟩ := h.live _ (List.mem_cons_of_mem _ List.mem_cons_self)
  unfold GradientCg.cacheStateful ForwardState.remember
  rw [if_pos hpos]
  refine ⟨{ h.states with }, ?_, h.live, h.written⟩
  refine { h.caches with stepped := ?_, cached := ?_, emitted := ?_ }
  · intro id vg hvg
    dsimp only at hvg
    split at hvg
    · cases hvg
      exact ⟨hvalue, hgradient⟩
    · exact h.caches.stepped id vg hvg
  · intro id vg hid hvg hA
    dsimp only at hvg ⊢
    by_cases hsame : id = nodeId
    · rw [if_pos hsame] at hvg ⊢
      cases hvg
      exact congrArg some (ValueGradientIr.eval_eq hv hg).symm
    · rw [if_neg hsame] at hvg ⊢
      exact h.caches.cached id vg hid hvg hA
  · intro id hid
    dsimp only at hid ⊢
    by_cases hsame : id = nodeId
    · rw [if_pos hsame]
      exact Option.some_ne_none _
    · rw [if_neg hsame] at hid ⊢
      exact h.caches.emitted id hid

/-- **The call of a helper** is an update of the evaluator. -/
theorem emitGradHelper_triple (hids : ConsistentIds X.calls) {c : Call D} (hc : c ∈ X.calls)
    (hpos : 0 < c.nodeId) {fn : StatefulFn} (hfn : Builtin.ofName c.name = some (.stateful fn))
    {window : Nat} (hwindow : parsePreparedPeriod (periodLiteral fn c.args) = window)
    {helper : GradientFn} {args : List (Operand D)} {xs : List D} {period : Int}
    {step : GradSlots D L → Except String (ValueGradient D × GradSlots D L)}
    (hagrees : HelperAgrees fn window helper xs period.toNat step) {Γ' : List (Operand D × D)}
    (hargs : List.Forall₂ (Listed Γ') args xs) (hΓ : ∀ p ∈ Γ, p ∈ Γ') {v : ValueGradient D}
    {fs' : ForwardState D L}
    (hstep : (ForwardGradient.updateSlots (slotsOf X.params.length X.target c.nodeId) step).exec fs =
      (.ok v, fs')) :
    Triple X.machine GradInstr.names (InStep X Γ' fs) (emitGradHelper helper c.nodeId args period)
      fun ir => InStep X (listPair ir v Γ) (fs'.remember c.nodeId v) := by
  subst hwindow
  refine unlist ?_ hΓ
  obtain ⟨fwd, hfwd, rfl⟩ := updateSlots_ok hstep
  unfold emitGradHelper
  rw [liftScalar_getNodeId hpos, Builder.pure_bind]
  refine .bind (Q := fun ir => InStep X (listPair ir v Γ')
    (fs.setSlots (slotsOf X.params.length X.target c.nodeId) fwd)) (.instr fun s A f _ h => ?_)
    fun ir => .bind (.modify fun s A f h => h.remember hpos) fun _ =>
      (Triple.pure ir).conseq (fun _ _ _ h => h) ?_
  · -- the helper reads what the evaluator reads
    have hxs := h.evals hargs
    have hfollows : HelperFollows
        (⟨f.scalar.ctx.slots c.nodeId.toNat,
          f.sensitivities (c.nodeId.toNat * X.params.length + X.target)⟩ : GradSlots D L)
        ⟨fs.ctx.slots c.nodeId.toNat,
          fs.sensitivities (c.nodeId.toNat * X.params.length + X.target)⟩ :=
      ⟨h.states.primal _, congrFun h.states.sensitivities _, h.states.kalman1d _⟩
    obtain ⟨code, hcode, hcodefwd, hsized⟩ := hagrees _ _ hfollows (h.states.sized c hc fn hfn) v fwd hfwd
    have hcount : f.gradientParamCount = X.params.length := h.states.codeCount
    have hrun : f.callHelper X.target helper c.nodeId.toNat xs period.toNat =
        .ok (v, f.setSlots c.nodeId.toNat (c.nodeId.toNat * X.params.length + X.target) code) := by
      unfold GradFrame.callHelper
      rw [hcount]
      exact except_bind_ok.mpr ⟨_, helper.gradSlot_ok X.target_lt _,
        except_bind_ok.mpr ⟨_, hcode, rfl⟩⟩
    refine ⟨_, ?_, (h.setSlots hids hc hpos hfn hcodefwd hsized).definePair v⟩
    change Option.map _ (Except.toOption _) = _
    rw [hxs, hrun]
    rfl
  · rintro r s A f ⟨rfl, h⟩
    exact h

/-! ## Expressions -/

/-- **The code that is built computes what the evaluator returns**, whatever else is listed. -/
def EmitsForward (X : GradientTick D) (m : GradientEmitM D (ValueGradientIr D))
    (gm : ForwardM D L (ValueGradient D)) : Prop :=
  ∀ Γ (fs : ForwardState D L) v fs', gm.exec fs = (.ok v, fs') →
    Triple X.machine GradInstr.names (InStep X Γ fs) m fun ir => InStep X (listPair ir v Γ) fs'

/-- **A call with an id**, past the caches. -/
def EmitsCall (X : GradientTick D) (nodeId : Int) (m : GradientEmitM D (ValueGradientIr D))
    (gm : ForwardM D L (ValueGradient D)) : Prop :=
  ∀ Γ (fs : ForwardState D L) v fs', gm.exec fs = (.ok v, fs') →
    Triple X.machine GradInstr.names (InStep X Γ fs) m
      fun ir => InStep X (listPair ir v Γ) (fs'.remember nodeId v)

/-- One after the other. -/
theorem EmitsForward.bind_triple {m : GradientEmitM D (ValueGradientIr D)}
    {gm : ForwardM D L (ValueGradient D)} (h : EmitsForward X m gm) {α β : Type}
    {gk : ValueGradient D → ForwardM D L β} {fs' : ForwardState D L} {b : β}
    (hrun : (gm >>= gk).exec fs = (.ok b, fs'))
    {k : ValueGradientIr D → GradientEmitM D α} {Q : α → Assertion (GradientCg D) Name (GradFrame D L)}
    (hk : ∀ w fs₁, (gk w).exec fs₁ = (.ok b, fs') → ∀ ir,
      Triple X.machine GradInstr.names (InStep X (listPair ir w Γ) fs₁) (k ir) Q) :
    Triple X.machine GradInstr.names (InStep X Γ fs) (m >>= k) Q := by
  obtain ⟨w, fs₁, hw, hrun⟩ := ForwardM.exec_bind_ok hrun
  exact .bind (h Γ fs w fs₁ hw) fun ir => hk w fs₁ hrun ir

omit [Fp L] [Widen D L] in
/-- A window the evaluator accepts. -/
theorem parsePositiveIntegerPeriod_ok {window : Expr D} {label : String} {period : Nat}
    (h : ForwardGradient.parsePositiveIntegerPeriod window label = .ok period) :
    0 < period ∧ ∃ v, window.asNumber = some v ∧ toInt v = period ∧
      parsePreparedPeriod (some v) = period := by
  unfold ForwardGradient.parsePositiveIntegerPeriod at h
  cases hnum : window.asNumber with
  | none =>
    rw [hnum] at h
    cases h
  | some v =>
    rw [hnum] at h
    dsimp only at h
    split at h
    · cases h
    · rename_i hok
      cases h
      have hpos : 0 < toInt v := by
        by_contra hneg
        exact hok (by rw [decide_eq_true (not_lt.mp hneg), Bool.true_or])
      refine ⟨by omega, v, rfl, by omega, ?_⟩
      simp only [parsePreparedPeriod]
      rw [if_neg hok]

omit [Fp L] [Widen D L] in
/-- The emitter reads the same window, or throws. -/
theorem emitGradientWindow_eq {window : Expr D} {label : String} {period : Nat}
    (h : ForwardGradient.parsePositiveIntegerPeriod window label = .ok period) (fn : StatefulFn)
    (name : String) : emitGradientWindow fn name window = pure (period : Int) ∨
      ∃ e, emitGradientWindow fn name window = Builder.throw e := by
  obtain ⟨-, v, hnum, hv, -⟩ := parsePositiveIntegerPeriod_ok h
  unfold emitGradientWindow emitPeriod
  rw [hnum]
  dsimp only
  cases literalPeriod v with
  | none => exact .inr ⟨_, rfl⟩
  | some p =>
    rw [Builder.lift_of_ok, Builder.pure_bind]
    split
    · exact .inr ⟨_, rfl⟩
    · exact .inl (by rw [hv])

/-- What is emitted for the window the evaluator accepts. -/
theorem emitGradientWindow_triple {window : Expr D} {label : String} {period : Nat}
    (h : ForwardGradient.parsePositiveIntegerPeriod window label = .ok period) (fn : StatefulFn)
    (name : String) {α : Type} {k : Int → GradientEmitM D α}
    {P : Assertion (GradientCg D) Name (GradFrame D L)}
    {Q : α → Assertion (GradientCg D) Name (GradFrame D L)}
    (hk : Triple X.machine GradInstr.names P (k period) Q) :
    Triple X.machine GradInstr.names P (emitGradientWindow fn name window >>= k) Q := by
  rcases emitGradientWindow_eq h fn name with hwindow | ⟨e, hwindow⟩
  · rw [hwindow, Builder.pure_bind]
    exact hk
  · rw [hwindow]
    exact .throw _ _

omit [Fp D] [Fp L] [Widen D L] in
@[simp] theorem emitGradientArg_zero (a : GradientEmitArg D) (args : List (GradientEmitArg D)) :
    emitGradientArg (a :: args) 0 = pure a := rfl

omit [Fp D] [Fp L] [Widen D L] in
@[simp] theorem emitGradientArg_succ (a : GradientEmitArg D) (args : List (GradientEmitArg D))
    (i : Nat) : emitGradientArg (a :: args) (i + 1) = emitGradientArg args i := rfl

/-! ### Noises -/

omit [Fp D] [Fp L] [Widen D L] in
/-- **A computation of the parameters**: it changes nothing and reads nothing else. -/
def ReadsParams (gm : ForwardM D L (ValueGradient D)) : Prop :=
  ∀ fs v fs', gm.exec fs = (.ok v, fs') → fs' = fs ∧
    ∀ fs₂ : ForwardState D L, fs₂.ctx.params = fs.ctx.params → gm.exec fs₂ = (.ok v, fs₂)

namespace ReadsParams

variable {gm : ForwardM D L (ValueGradient D)}

omit [Fp D] [Fp L] [Widen D L] in
theorem pure (v : ValueGradient D) : ReadsParams (Pure.pure v : ForwardM D L (ValueGradient D)) := by
  intro fs w fs' h
  cases h
  exact ⟨rfl, fun _ _ => rfl⟩

omit [Fp D] [Fp L] [Widen D L] in
theorem throw (e : String) :
    ReadsParams (MonadExcept.throw e : ForwardM D L (ValueGradient D)) := by
  intro fs w fs' h
  cases h

omit [Fp D] [Fp L] [Widen D L] in
theorem bind (h : ReadsParams gm) {k : ValueGradient D → ForwardM D L (ValueGradient D)}
    (hk : ∀ a, ReadsParams (k a)) : ReadsParams (gm >>= k) := by
  intro fs v fs' hrun
  obtain ⟨a, fs₁, ha, hnext⟩ := ForwardM.exec_bind_ok hrun
  obtain ⟨rfl, hsame⟩ := h fs a fs₁ ha
  obtain ⟨rfl, hsame'⟩ := hk a _ v fs' hnext
  refine ⟨rfl, fun fs₂ hparams => ?_⟩
  rw [ForwardM.exec_bind (hsame fs₂ hparams)]
  exact hsame' fs₂ hparams

omit [Fp L] [Widen D L] in
theorem parameter (target : Nat) (id : Int) :
    ReadsParams (ForwardGradient.evalParameter (D := D) (L := L) target id) := by
  intro fs v fs' hrun
  rw [ForwardGradient.evalParameter, ForwardM.exec_get_bind] at hrun
  cases hread : (if id < 0 then none else fs.ctx.params[id.toNat]?) with
  | none =>
    rw [hread] at hrun
    cases hrun
  | some x =>
    rw [hread] at hrun
    cases hrun
    refine ⟨rfl, fun fs₂ hparams => ?_⟩
    rw [ForwardGradient.evalParameter, ForwardM.exec_get_bind, hparams, hread]
    rfl

/-- An expression without calls. -/
theorem expr {symbols : SymbolTable} {market : MarketState D} {target : Nat} {e : Expr D}
    (h : e.calls = []) :
    ReadsParams (L := L) (ForwardGradient.evalExpr symbols market target e) := by
  induction e using Expr.induct with
  | numberLiteral loc v => exact pure _
  | identifierExpr loc name => exact throw _
  | parameterExpr loc name id => exact parameter target id
  | unaryOp loc k e ih =>
    rw [ForwardGradient.evalExpr]
    exact (ih h).bind fun x => pure _
  | binaryOp loc k l r ihl ihr =>
    obtain ⟨hl, hr⟩ := List.append_eq_nil_iff.mp h
    rw [ForwardGradient.evalExpr]
    exact (ihl hl).bind fun x => (ihr hr).bind fun y => pure _
  | conditional loc c t e ihc iht ihe =>
    obtain ⟨hct, he⟩ := List.append_eq_nil_iff.mp h
    obtain ⟨hc, ht⟩ := List.append_eq_nil_iff.mp hct
    rw [ForwardGradient.evalExpr]
    refine (ihc hc).bind fun x => ?_
    split
    · exact iht ht
    · exact ihe he
  | functionCall loc name args nid sid ih => cases h

end ReadsParams

omit [Fp D] in
/-- A literal or a parameter is no call. -/
theorem Expr.calls_of_fixedValue {params : List D} {e : Expr D} {v : D}
    (h : e.fixedValue params = some v) : e.calls = [] := by
  cases e with
  | numberLiteral | parameterExpr => rfl
  | identifierExpr | unaryOp | binaryOp | conditional | functionCall => cases h

/-- The evaluator returns its value. -/
theorem evalExpr_fixedValue {symbols : SymbolTable} {market : MarketState D} {target : Nat}
    {params : List D} {e : Expr D} {x : D} (hx : e.fixedValue params = some x)
    {fs' : ForwardState D L} {v : ValueGradient D} (hparams : fs.ctx.params = params)
    (h : (ForwardGradient.evalExpr symbols market target e).exec fs = (.ok v, fs')) :
    v.value = x := by
  subst hparams
  cases e with
  | numberLiteral loc y =>
    cases hx
    cases h
    rfl
  | parameterExpr loc name id =>
    rw [Expr.fixedValue] at hx
    rw [ForwardGradient.evalExpr, ForwardGradient.evalParameter, ForwardM.exec_get_bind, hx] at h
    cases h
    rfl
  | identifierExpr | unaryOp | binaryOp | conditional | functionCall => cases hx

/-! ### Operators -/

section Operators

variable (hids : ConsistentIds X.calls) {c : Call D} (hc : c ∈ X.calls) (hpos : 0 < c.nodeId)
  {fn : StatefulFn} (hfn : Builtin.ofName c.name = some (.stateful fn)) {helper : GradientFn}
  {m₁ m₂ m₃ : GradientEmitM D (ValueGradientIr D)} {a b w : GradArg D L}
  {rest : List (GradArg D L)}

include hids hc hpos hfn

/-- A series and a window. -/
theorem evalWindowed_follows (name label : String) (short : Option String)
    (hliteral : periodLiteral fn c.args = w.expr.asNumber)
    {step : GradSlots D L → ValueGradient D → Nat → Except String (ValueGradient D × GradSlots D L)}
    (hagrees : ∀ period x, 0 < period →
      HelperAgrees fn period helper [x.value, x.gradient] period fun slots => step slots x period)
    (ha : EmitsForward X m₁ a.eval) :
    EmitsCall X c.nodeId
      (do
        let period ← emitGradientWindow fn name w.expr
        let x ← m₁
        emitGradHelper helper c.nodeId [x.value, x.gradient] period)
      (ForwardGradient.evalWindowed label short step (slotsOf X.params.length X.target c.nodeId)
        (a :: w :: rest)) := by
  intro Γ fs v fs' hrun
  unfold ForwardGradient.evalWindowed at hrun
  obtain ⟨period, hperiod, hrun⟩ := ForwardM.lift_bind_ok hrun
  obtain ⟨hperiodpos, u, hnum, -, hprepared⟩ := parsePositiveIntegerPeriod_ok hperiod
  -- the check for short windows returns
  have hseries : (a.eval >>= fun x => ForwardGradient.updateSlots
      (slotsOf X.params.length X.target c.nodeId) fun slots => step slots x period).exec fs =
        (.ok v, fs') := by
    cases short with
    | none => exact hrun
    | some e =>
      dsimp only at hrun
      split at hrun
      · cases hrun
      · exact hrun
  refine emitGradientWindow_triple hperiod fn name ?_
  refine ha.bind_triple hseries fun x fs₁ hstep ir => ?_
  exact emitGradHelper_triple hids hc hpos hfn (by rw [hliteral, hnum, hprepared])
    (hagrees period x hperiodpos) (ListedPair.head.cons .nil) (fun p => mem_listPair ir x) hstep

/-- `ema`: the evaluator looks at the window after the series. -/
theorem evalEma_follows (name : String) (hema : fn = .ema)
    (hliteral : periodLiteral fn c.args = w.expr.asNumber) (ha : EmitsForward X m₁ a.eval) :
    EmitsCall X c.nodeId
      (do
        let period ← emitGradientWindow fn name w.expr
        let x ← m₁
        emitGradHelper .emaAlpha c.nodeId
          [x.value, x.gradient, .const (emaAlphaOfPeriod period), .const (ofNat 0)] period)
      (ForwardGradient.evalEma (slotsOf X.params.length X.target c.nodeId) (a :: w :: rest)) := by
  intro Γ fs v fs' hrun
  unfold ForwardGradient.evalEma at hrun
  obtain ⟨x, fs₁, hx, hrun⟩ := ForwardM.exec_bind_ok hrun
  obtain ⟨period, hperiod, hstep⟩ := ForwardM.lift_bind_ok hrun
  obtain ⟨-, u, hnum, -, hprepared⟩ := parsePositiveIntegerPeriod_ok hperiod
  refine emitGradientWindow_triple hperiod fn name ?_
  refine .bind (ha Γ fs x fs₁ hx) fun ir => ?_
  exact emitGradHelper_triple hids hc hpos hfn (by rw [hliteral, hnum, hprepared])
    (ema_helperAgrees period period x ⟨emaAlphaOfPeriod period, ofNat 0⟩ (.inl hema))
    (ListedPair.head.cons (.cons (.inr rfl) (.cons (.inr rfl) .nil)))
    (fun p => mem_listPair ir x) hstep

/-- `ema_alpha` -/
theorem evalEmaAlpha_follows (hema : fn = .emaAlpha) (ha : EmitsForward X m₁ a.eval)
    (hb : EmitsForward X m₂ b.eval) :
    EmitsCall X c.nodeId
      (do
        let x ← m₁
        let alpha ← m₂
        emitGradHelper .emaAlpha c.nodeId [x.value, x.gradient, alpha.value, alpha.gradient] 0)
      (ForwardGradient.evalEmaAlpha (slotsOf X.params.length X.target c.nodeId)
        (a :: b :: rest)) := by
  intro Γ fs v fs' hrun
  refine ha.bind_triple hrun fun x fs₁ hrun irx => hb.bind_triple hrun fun alpha fs₂ hstep ira => ?_
  exact emitGradHelper_triple hids hc hpos hfn rfl
    (ema_helperAgrees _ 0 x alpha (.inr hema))
    (ListedPair.head.tail.tail.cons (ListedPair.head.cons .nil))
    (fun p hp => mem_listPair ira alpha (mem_listPair irx x hp)) hstep

/-- Two series and a window. -/
theorem evalPair_follows (name label : String)
    (hliteral : periodLiteral fn c.args = w.expr.asNumber)
    {step : GradSlots D L → ValueGradient D → ValueGradient D → Nat →
      ValueGradient D × GradSlots D L}
    (hagrees : ∀ period x y, HelperAgrees fn period helper [x.value, x.gradient, y.value, y.gradient]
      period fun slots => .ok (step slots x y period))
    (ha : EmitsForward X m₁ a.eval) (hb : EmitsForward X m₂ b.eval) :
    EmitsCall X c.nodeId
      (do
        let period ← emitGradientWindow fn name w.expr
        let x ← m₁
        let y ← m₂
        emitGradHelper helper c.nodeId [x.value, x.gradient, y.value, y.gradient] period)
      (ForwardGradient.evalPair label step (slotsOf X.params.length X.target c.nodeId)
        (a :: b :: w :: rest)) := by
  intro Γ fs v fs' hrun
  unfold ForwardGradient.evalPair at hrun
  obtain ⟨period, hperiod, hrun⟩ := ForwardM.lift_bind_ok hrun
  obtain ⟨-, u, hnum, -, hprepared⟩ := parsePositiveIntegerPeriod_ok hperiod
  refine emitGradientWindow_triple hperiod fn name ?_
  refine ha.bind_triple hrun fun x fs₁ hrun irx => hb.bind_triple hrun fun y fs₂ hstep iry => ?_
  exact emitGradHelper_triple hids hc hpos hfn (by rw [hliteral, hnum, hprepared])
    (hagrees period x y)
    (ListedPair.head.tail.tail.cons (ListedPair.head.cons .nil))
    (fun p hp => mem_listPair iry y (mem_listPair irx x hp)) hstep

/-- Two series. -/
theorem evalCross_follows
    {step : GradSlots D L → ValueGradient D → ValueGradient D → ValueGradient D × GradSlots D L}
    (hagrees : ∀ x y, HelperAgrees fn (parsePreparedPeriod (periodLiteral fn c.args)) helper
      [x.value, y.value] 0 fun slots => .ok (step slots x y))
    (ha : EmitsForward X m₁ a.eval) (hb : EmitsForward X m₂ b.eval) :
    EmitsCall X c.nodeId
      (do
        let x ← m₁
        let y ← m₂
        emitGradHelper helper c.nodeId [x.value, y.value] 0)
      (ForwardGradient.evalCross step (slotsOf X.params.length X.target c.nodeId)
        (a :: b :: rest)) := by
  intro Γ fs v fs' hrun
  refine ha.bind_triple hrun fun x fs₁ hrun irx => hb.bind_triple hrun fun y fs₂ hstep iry => ?_
  exact emitGradHelper_triple hids hc hpos hfn rfl (hagrees x y)
    (.cons ListedPair.head.tail.tail.value (.cons ListedPair.head.value .nil))
    (fun p hp => mem_listPair iry y (mem_listPair irx x hp)) hstep

/-- `kalman1d`: the evaluator computes the noises first. They are the same after the measurement. -/
theorem evalKalman1d_follows (hkalman : fn = .kalman1d)
    (hzero : lt (ofNat 0 : D) (ofNat 0) = false)
    (hq : ReadsParams b.eval) (hr : ReadsParams w.eval)
    (hnoise : ∀ fs v fs', fs.ctx.params = X.params → w.eval.exec fs = (.ok v, fs') →
      NoiseAboveFloor v.value)
    (ha : EmitsForward X m₁ a.eval) (hb : EmitsForward X m₂ b.eval) (hw : EmitsForward X m₃ w.eval) :
    EmitsCall X c.nodeId
      (do
        let x ← m₁
        let q ← m₂
        let r ← m₃
        emitGradHelper .kalman1d c.nodeId
          [x.value, x.gradient, q.value, q.gradient, r.value, r.gradient] 0)
      (ForwardGradient.evalKalman1d (slotsOf X.params.length X.target c.nodeId)
        (a :: b :: w :: rest)) := by
  subst hkalman
  intro Γ fs v fs' hrun
  unfold ForwardGradient.evalKalman1d at hrun
  dsimp only at hrun
  obtain ⟨q, fs₁, hqrun, hnext⟩ := ForwardM.exec_bind_ok hrun
  obtain ⟨rfl, hqsame⟩ := hq fs q fs₁ hqrun
  obtain ⟨r, fs₂, hrrun, hlast⟩ := ForwardM.exec_bind_ok hnext
  obtain ⟨rfl, hrsame⟩ := hr _ r fs₂ hrrun
  split at hlast
  · cases hlast
  · rename_i hcheck
    rw [Bool.or_eq_true, not_or, Bool.not_eq_true] at hcheck
    obtain ⟨x, fs₃, hx, hstep⟩ := ForwardM.exec_bind_ok hlast
    refine .assume (fun s A f h => h.states.forwardParams) fun hparams => ?_
    refine .bind (ha Γ _ x fs₃ hx) fun irx => ?_
    -- the parameters are still the same
    refine .assume (fun s A f h => h.states.forwardParams) fun hparams₃ => ?_
    have hsame := hparams₃.trans hparams.symm
    refine .bind (hb _ fs₃ q fs₃ (hqsame fs₃ hsame)) fun irq =>
      .bind (hw _ fs₃ r fs₃ (hrsame fs₃ hsame)) fun irr => ?_
    exact emitGradHelper_triple hids hc hpos hfn rfl
      (kalman1d_helperAgrees _ 0 x hzero hcheck.1 (hnoise _ r _ hparams hrrun))
      (ListedPair.head.tail.tail.tail.tail.cons (ListedPair.head.tail.tail.cons
        (ListedPair.head.cons .nil)))
      (fun p hp => mem_listPair irr r (mem_listPair irq q (mem_listPair irx x hp))) hstep

end Operators

/-- **What the code relies on for a `kalman1d`**: the process noise has no calls, and the
measurement noise is a literal or a parameter above the floor. -/
def NoisesFixed (params : List D) (args : List (Expr D)) : Prop :=
  ∀ x q r rest, args = x :: q :: r :: rest →
    q.calls = [] ∧ ∃ v, r.fixedValue params = some v ∧ NoiseAboveFloor v

theorem EmitsCall.of_throw {nodeId : Int} {m : GradientEmitM D (ValueGradientIr D)} (e : String) :
    EmitsCall (L := L) X nodeId m (MonadExcept.throw e) := by
  intro Γ fs v fs' hrun
  cases hrun

/-- **A stateful operator**: the cases are those of the two dispatches. -/
theorem emitStatefulGradient_follows {env : EmitEnv} {symbols : SymbolTable}
    (hids : ConsistentIds X.calls) {name : String} {args : List (Expr D)} {nodeId sid : Int}
    (hc : ⟨name, args, nodeId, sid⟩ ∈ X.calls) (hpos : 0 < nodeId) {fn : StatefulFn}
    (hfn : Builtin.ofName name = some (.stateful fn)) (hzero : lt (ofNat 0 : D) (ofNat 0) = false)
    (hargs : ∀ a ∈ args, EmitsForward (L := L) X (emitValueGradient env a)
      (ForwardGradient.evalExpr symbols X.market X.target a))
    (hnoise : fn = .kalman1d → NoisesFixed X.params args) :
    EmitsCall (L := L) X nodeId (emitStatefulGradient fn name (emitGradientArgs env args) nodeId)
      (ForwardGradient.evalStateful fn (slotsOf X.params.length X.target nodeId)
        (ForwardGradient.evalArgs symbols X.market X.target args)) := by
  rcases args with _ | ⟨a, _ | ⟨b, rest⟩⟩
  · cases fn <;> exact .of_throw _
  · cases fn <;> exact .of_throw _
  · have ha := hargs a List.mem_cons_self
    have hb := hargs b (List.mem_cons_of_mem _ List.mem_cons_self)
    cases fn <;> simp only [emitStatefulGradient, StatefulFn.gradientFn, emitGradientArgs,
      emitGradientArg_zero, emitGradientArg_succ, Builder.pure_bind, ForwardGradient.evalStateful,
      ForwardGradient.evalArgs]
    case sma =>
      exact evalWindowed_follows hids hc hpos hfn name "sma()" none rfl sma_helperAgrees ha
    case lag =>
      exact evalWindowed_follows hids hc hpos hfn name "lag()" none rfl lag_helperAgrees ha
    case rollingStd =>
      exact evalWindowed_follows hids hc hpos hfn name "rolling_std()" _ rfl
        (fun period x _ => rollingStd_helperAgrees period period x) ha
    case zscore =>
      exact evalWindowed_follows hids hc hpos hfn name "zscore()" _ rfl
        (fun period x _ => zscore_helperAgrees period period x) ha
    case rollingMin =>
      exact evalWindowed_follows hids hc hpos hfn name "rolling_min()" none rfl
        rollingMin_helperAgrees ha
    case rollingMax =>
      exact evalWindowed_follows hids hc hpos hfn name "rolling_max()" none rfl
        rollingMax_helperAgrees ha
    case ema => exact evalEma_follows hids hc hpos hfn name rfl rfl ha
    case emaAlpha => exact evalEmaAlpha_follows hids hc hpos hfn rfl ha hb
    case crossAbove => exact evalCross_follows hids hc hpos hfn (crossAbove_helperAgrees _ 0) ha hb
    case crossBelow => exact evalCross_follows hids hc hpos hfn (crossBelow_helperAgrees _ 0) ha hb
    case vwap => exact .of_throw _
    case rollingCorr =>
      rcases rest with _ | ⟨w, rest⟩
      · exact .of_throw _
      · simp only [emitGradientArgs, emitGradientArg_zero, Builder.pure_bind,
          ForwardGradient.evalArgs]
        exact evalPair_follows hids hc hpos hfn name "rolling_corr()" rfl
          (fun period x y => rollingCorr_helperAgrees period period x y) ha hb
    case rollingBeta =>
      rcases rest with _ | ⟨w, rest⟩
      · exact .of_throw _
      · simp only [emitGradientArgs, emitGradientArg_zero, Builder.pure_bind,
          ForwardGradient.evalArgs]
        exact evalPair_follows hids hc hpos hfn name "rolling_beta()" rfl
          (fun period x y => rollingBeta_helperAgrees period period x y) ha hb
    case kalman1d =>
      rcases rest with _ | ⟨w, rest⟩
      · exact .of_throw _
      · obtain ⟨hq, x, hx, habove⟩ := hnoise rfl a b w rest rfl
        simp only [emitGradientArgs, emitGradientArg_zero, Builder.pure_bind,
          ForwardGradient.evalArgs]
        exact evalKalman1d_follows hids hc hpos hfn rfl hzero (.expr hq)
          (.expr (Expr.calls_of_fixedValue hx))
          (fun fs v fs' hparams hrun => by
            rw [evalExpr_fixedValue hx hparams hrun]
            exact habove) ha hb
          (hargs w (List.mem_cons_of_mem _ (List.mem_cons_of_mem _ List.mem_cons_self)))

/-! ### The caches -/

/-- **A call with an id**: it is emitted once, and evaluated once. -/
theorem emitGradientCall_stateful {market : EmitM D (Operand D)} {name : String}
    {args : List (GradientEmitArg D)} {nodeId : Int} (hpos : 0 < nodeId) (hid : X.ids nodeId)
    {run : ForwardM D L (ValueGradient D)}
    (h : EmitsCall X nodeId (emitGradientDispatch market name args nodeId) run) :
    EmitsForward X (emitGradientCall market name args nodeId)
      (ForwardGradient.evalCall nodeId run) := by
  intro Γ fs v fs' hrun s A f r hr hscope hP
  unfold ForwardGradient.evalCall at hrun
  rw [if_pos hpos, ForwardM.exec_get_bind] at hrun
  unfold emitGradientCall at hr
  rw [if_pos hpos] at hr
  cases hcache : s.statefulGradEmitCache nodeId with
  | some vg =>
    rw [hcache] at hr
    have htriple := reuse_triple (X := X) (P := fun s A f => InStep X Γ fs s A f ∧
      s.statefulGradEmitCache nodeId = some vg) vg
    obtain ⟨f', hcode, heq, hA, hstep, hvg⟩ := htriple.apply hr hscope ⟨hP, hcache⟩
    have hcached := hstep.caches.cached nodeId vg hid hvg hA
    rw [hcached] at hrun
    cases hrun
    obtain ⟨hv, hg⟩ := hstep.caches.stepped nodeId vg hvg
    refine ⟨f', hcode, hstep.states, hstep.caches, fun p hp => ?_, hstep.written⟩
    rw [heq] at hp
    rcases List.mem_cons.mp hp with rfl | hp
    · exact ⟨hv, rfl⟩
    · rcases List.mem_cons.mp hp with rfl | hp
      · exact ⟨hg, rfl⟩
      · exact hstep.live p hp
  | none =>
    rw [hcache] at hr
    have hmiss : fs.cache nodeId = none := by
      by_contra hne
      exact hP.caches.emitted nodeId hne hcache
    rw [hmiss] at hrun
    obtain ⟨w, fs₁, hw, hlast⟩ := ForwardM.exec_bind_ok hrun
    cases hlast
    exact (h Γ fs _ fs₁ hw).apply hr hscope hP

/-- A call without an id is not looked up. -/
theorem emitGradientCall_stateless {market : EmitM D (Operand D)} {name : String}
    {args : List (GradientEmitArg D)} {nodeId : Int} (hid : nodeId ≤ 0)
    {run : ForwardM D L (ValueGradient D)}
    (h : EmitsForward X (emitGradientDispatch market name args nodeId) run) :
    EmitsForward X (emitGradientCall market name args nodeId)
      (ForwardGradient.evalCall nodeId run) := by
  have hemit : emitGradientCall market name args nodeId =
      emitGradientDispatch market name args nodeId := by
    funext s
    unfold emitGradientCall
    rw [if_neg (not_lt.mpr hid)]
  unfold ForwardGradient.evalCall
  rw [hemit, if_neg (not_lt.mpr hid)]
  exact h

/-! ### Conditionals -/

/-- **A conditional**: the branch that is not taken was emitted, but is not in scope. -/
theorem branch_follows {cond : Operand D} {x v : ValueGradient D} (hcond : Listed Γ cond x.value)
    {mt me : GradientEmitM D (ValueGradientIr D)} {gt ge : ForwardM D L (ValueGradient D)}
    (ht : EmitsForward X mt gt) (he : EmitsForward X me ge)
    (hmt : Moves (GradientCg.Grows X.ids) mt) (hme : Moves (GradientCg.Grows X.ids) me)
    {fs' : ForwardState D L}
    (hrun : (if truthy x.value then gt else ge).exec fs = (.ok v, fs')) :
    Triple X.machine GradInstr.names (InStep X Γ fs) (GradientEmitM.branch cond mt me)
      fun ir => InStep X (listPair ir v Γ) fs' := by
  -- the values that arrive at the join
  have hjoin : ∀ (ir : ValueGradientIr D) (s s' : GradientCg D) (A B : Set Name) (f : GradFrame D L),
      A ⊆ B → InStep X (listPair ir v Γ) fs' s B f → s.Grows X.ids s' →
      InStep X (listPair ⟨.reg s'.cg.nextReg, .reg (s'.cg.nextReg + 1)⟩ v Γ) fs' (s'.skip 2)
        ({n | n ∈ [Name.reg s'.cg.nextReg, .reg (s'.cg.nextReg + 1)]} ∪ A)
        (f.setPair s'.cg.nextReg (s'.cg.nextReg + 1) (ir.eval f.scalar.regs)) := by
    intro ir s s' A B f hA h hs
    rw [ValueGradientIr.eval_eq (h.eval .head) (h.eval Listed.head.tail)]
    refine (((h.skip hs).shrink hA).definePair v).relist fun p hp => .inl ?_
    simp only [List.mem_cons] at hp ⊢
    tauto
  have htakes : ∀ s A f, InStep X Γ fs s A f →
      GradInstr.takes (.scalar (.condBr cond)) f = truthy x.value := by
    intro s A f h
    rw [← h.eval hcond]
    rfl
  cases hx : truthy x.value with
  | true =>
    rw [hx, if_pos rfl] at hrun
    have helse : Triple X.machine GradInstr.names
        (fun s A f => InStep X Γ fs s A f ∧ X.machine.takes (.scalar (.condBr cond)) f = false) me
        fun _ _ _ _ => False := fun s A f _ _ _ h =>
      absurd ((htakes s A f h.1).symm.trans h.2) (by rw [hx]; decide)
    exact .branch rfl ((ht Γ fs v fs' hrun).conseq (fun _ _ _ h => h.1) fun _ _ _ _ h => h) helse
      hmt hme (fun s s' A f hs h => h.skip hs)
      (fun ir _ s s' A B f hA h hs => hjoin ir s s' A B f hA h hs)
      fun _ _ _ _ _ _ _ h => h.elim
  | false =>
    rw [hx, if_neg Bool.false_ne_true] at hrun
    have hthen : Triple X.machine GradInstr.names
        (fun s A f => InStep X Γ fs s A f ∧ X.machine.takes (.scalar (.condBr cond)) f = true) mt
        fun _ _ _ _ => False := fun s A f _ _ _ h =>
      absurd ((htakes s A f h.1).symm.trans h.2) (by rw [hx]; decide)
    exact .branch rfl hthen ((he Γ fs v fs' hrun).conseq (fun _ _ _ h => h.1) fun _ _ _ _ h => h)
      hmt hme (fun s s' A f hs h => h.skip hs) (fun _ _ _ _ _ _ _ _ h => h.elim)
      fun _ ir s A B f hA h => hjoin ir s s A B f hA h (.refl s)

/-! ### The induction -/

omit [Fp D] [Fp L] [Widen D L] in
/-- The slots of a call with an id. -/
theorem slotIds_exec {n target : Nat} (htarget : target < n) (hcount : fs.gradientParamCount = n)
    {nodeId : Int} (hid : 0 ≤ nodeId) (name : String) :
    (ForwardGradient.slotIds (D := D) (L := L) name nodeId target).exec fs =
      (.ok (slotsOf n target nodeId), fs) := by
  unfold ForwardGradient.slotIds
  rw [if_neg (not_lt.mpr hid)]
  dsimp only
  rw [ForwardM.exec_get_bind, ForwardGradient.gradientSlot, hcount, if_neg (by omega)]
  rfl

omit [Fp L] [Widen D L] in
theorem map_expr_evalArgs [Fp L] [Widen D L] (symbols : SymbolTable) (market : MarketState D)
    (target : Nat) (args : List (Expr D)) :
    (ForwardGradient.evalArgs (L := L) symbols market target args).map GradArg.expr = args := by
  induction args with
  | nil => rfl
  | cons a args ih => rw [ForwardGradient.evalArgs, List.map_cons, ih]

/-- **A call**, past the caches where it has an id. -/
theorem emitGradientCall_follows {env : EmitEnv} (hids : ConsistentIds X.calls)
    (hzero : lt (ofNat 0 : D) (ofNat 0) = false) {name : String} {args : List (Expr D)}
    {nodeId sid : Int} (hc : ⟨name, args, nodeId, sid⟩ ∈ X.calls)
    (hown : Call.HasId X.ids (⟨name, args, nodeId, sid⟩ : Call D))
    (hargs : ∀ a ∈ args, EmitsForward (L := L) X (emitValueGradient env a)
      (ForwardGradient.evalExpr env.symbols X.market X.target a))
    (hnoise : Builtin.ofName name = some (.stateful .kalman1d) → NoisesFixed X.params args) :
    EmitsForward (L := L) X
      (emitGradientCall (emitCall env false ⟨name, emitArgs env false args, nodeId, sid⟩) name
        (emitGradientArgs env args) nodeId)
      (ForwardGradient.evalCall nodeId (ForwardGradient.evalFunction env.symbols X.market X.target
        name (ForwardGradient.evalArgs env.symbols X.market X.target args) nodeId sid)) := by
  unfold ForwardGradient.evalFunction
  cases hname : Builtin.ofName name with
  | none =>
    refine emitGradientCall_stateless (hown.stateless (by rw [isStatefulOp, hname])) ?_
    unfold emitGradientDispatch
    rw [hname]
    exact fun Γ fs v fs' _ => .throw _ _
  | some b =>
    cases b with
    | market fn =>
      have hid := hown.stateless (by rw [isStatefulOp, hname])
      refine emitGradientCall_stateless hid ?_
      unfold emitGradientDispatch
      rw [hname]
      dsimp only
      rw [emitCall_market hid hname]
      intro Γ fs v fs' hrun
      unfold ForwardGradient.evalMarketRead at hrun
      rw [map_expr_evalArgs] at hrun
      obtain ⟨id, hsym, hlast⟩ := ForwardM.lift_bind_ok hrun
      cases hlast
      exact .bind (emitMarket_triple fn hsym) fun a => done_triple .head (.inr rfl) fun p hp =>
        .tail _ hp
    | math fn =>
      refine emitGradientCall_stateless (hown.stateless (by rw [isStatefulOp, hname])) ?_
      unfold emitGradientDispatch
      rw [hname]
      dsimp only
      rcases args with _ | ⟨a, rest⟩
      · exact fun Γ fs v fs' hrun => by cases hrun
      · intro Γ fs v fs' hrun
        simp only [emitGradientArgs, emitGradientArg_zero, Builder.pure_bind]
        refine (hargs a List.mem_cons_self).bind_triple hrun fun x fs₁ hlast ir => ?_
        cases hlast
        exact unlist (emitMathGradient_triple fn .head) fun p => mem_listPair ir x
    | stateful fn =>
      obtain ⟨hpos, hid⟩ := hown.stateful (by rw [isStatefulOp, hname])
      refine emitGradientCall_stateful hpos hid fun Γ fs v fs' hrun => ?_
      unfold emitGradientDispatch
      rw [hname]
      refine .assume (fun s A f h => h.states.forwardCount) fun hcount => ?_
      dsimp only at hrun ⊢
      rw [ForwardM.exec_bind (slotIds_exec X.target_lt hcount hpos.le name)] at hrun
      refine emitStatefulGradient_follows hids hc hpos hname hzero hargs ?_ Γ fs v fs' hrun
      rintro rfl
      exact hnoise hname

/-- **An expression**, by induction on it. -/
theorem emitValueGradient_follows {env : EmitEnv} (hids : ConsistentIds X.calls)
    (hzero : lt (ofNat 0 : D) (ofNat 0) = false) {e : Expr D} (hmem : ∀ c ∈ e.calls, c ∈ X.calls)
    (hown : ∀ c ∈ e.calls, c.HasId X.ids)
    (hnoise : ∀ c ∈ e.calls, Builtin.ofName c.name = some (.stateful .kalman1d) →
      NoisesFixed X.params c.args) :
    EmitsForward (L := L) X (emitValueGradient env e)
      (ForwardGradient.evalExpr env.symbols X.market X.target e) := by
  induction e using Expr.induct with
  | numberLiteral loc x =>
    intro Γ fs v fs' hrun
    cases hrun
    exact done_triple (.inr rfl) (.inr rfl) fun _ hp => hp
  | identifierExpr loc name =>
    intro Γ fs v fs' hrun
    cases hrun
  | parameterExpr loc name id =>
    intro Γ fs v fs' hrun
    refine .assume (fun s A f h => h.states.forwardParams) fun hparams => ?_
    rw [ForwardGradient.evalExpr, ForwardGradient.evalParameter, ForwardM.exec_get_bind,
      hparams] at hrun
    cases hread : paramValue X.params id with
    | none =>
      rw [paramValue] at hread
      rw [hread] at hrun
      cases hrun
    | some x =>
      have hx := hread
      rw [paramValue] at hread
      rw [hread] at hrun
      cases hrun
      exact param_triple hx
  | unaryOp loc k e ih =>
    intro Γ fs v fs' hrun
    rw [emitValueGradient]
    rw [ForwardGradient.evalExpr] at hrun
    refine (ih hmem hown hnoise).bind_triple hrun fun x fs₁ hlast ir => ?_
    cases hlast
    exact unlist (emitUnaryGradient_triple k .head) fun p => mem_listPair ir x
  | binaryOp loc k l r ihl ihr =>
    have hl : ∀ c ∈ l.calls, c ∈ (Expr.binaryOp loc k l r).calls := fun c =>
      List.mem_append_left _
    have hr : ∀ c ∈ r.calls, c ∈ (Expr.binaryOp loc k l r).calls := fun c =>
      List.mem_append_right _
    intro Γ fs v fs' hrun
    rw [emitValueGradient]
    rw [ForwardGradient.evalExpr] at hrun
    refine (ihl (fun c hc => hmem c (hl c hc)) (fun c hc => hown c (hl c hc))
      fun c hc => hnoise c (hl c hc)).bind_triple hrun fun x fs₁ hnext irx => ?_
    refine (ihr (fun c hc => hmem c (hr c hc)) (fun c hc => hown c (hr c hc))
      fun c hc => hnoise c (hr c hc)).bind_triple hnext fun y fs₂ hlast iry => ?_
    cases hlast
    exact unlist (emitBinaryGradient_triple k ListedPair.head.tail.tail .head) fun p hp =>
      mem_listPair iry y (mem_listPair irx x hp)
  | conditional loc c t e ihc iht ihe =>
    have hc : ∀ d ∈ c.calls, d ∈ (Expr.conditional loc c t e).calls := fun d hd =>
      List.mem_append_left _ (List.mem_append_left _ hd)
    have ht : ∀ d ∈ t.calls, d ∈ (Expr.conditional loc c t e).calls := fun d hd =>
      List.mem_append_left _ (List.mem_append_right _ hd)
    have he : ∀ d ∈ e.calls, d ∈ (Expr.conditional loc c t e).calls := fun d =>
      List.mem_append_right _
    intro Γ fs v fs' hrun
    rw [emitValueGradient]
    rw [ForwardGradient.evalExpr] at hrun
    refine (ihc (fun d hd => hmem d (hc d hd)) (fun d hd => hown d (hc d hd))
      fun d hd => hnoise d (hc d hd)).bind_triple hrun fun x fs₁ hlast ir => ?_
    refine unlist ?_ fun p => mem_listPair ir x
    exact branch_follows .head
      (iht (fun d hd => hmem d (ht d hd)) (fun d hd => hown d (ht d hd))
        fun d hd => hnoise d (ht d hd))
      (ihe (fun d hd => hmem d (he d hd)) (fun d hd => hown d (he d hd))
        fun d hd => hnoise d (he d hd))
      (emitValueGradient_grows fun d hd => hown d (ht d hd))
      (emitValueGradient_grows fun d hd => hown d (he d hd)) hlast
  | functionCall loc name args nid sid ih =>
    have hin : ∀ a ∈ args, ∀ c ∈ a.calls, c ∈ (Expr.functionCall loc name args nid sid).calls :=
      fun a ha c hc => List.mem_cons_of_mem _ (Expr.mem_callsArgs.mpr ⟨a, ha, hc⟩)
    rw [emitValueGradient, ForwardGradient.evalExpr]
    exact emitGradientCall_follows hids hzero (hmem _ List.mem_cons_self)
      (hown _ List.mem_cons_self)
      (fun a ha => ih a ha (fun c hc => hmem c (hin a ha c hc)) (fun c hc => hown c (hin a ha c hc))
        fun c hc => hnoise c (hin a ha c hc))
      (hnoise _ List.mem_cons_self)

end Calls

end JitSignalEngine
