import JitSignalEngine.GradientCode

/-!
# What the emission of gradients adds

The emitter walks over both branches of a conditional, of which a call executes one. What the other
one leaves in the caches is not there at run time.

* `GradientEmitM.liftScalar_bind` and its companions — emission that knows of no gradients.
* `GradientCg.Grows` — registers are handed out in order, and what comes into a cache is a new one.
* `emitValueGradient_grows` — an expression.
-/

namespace JitSignalEngine

open Fp Widen Builder

variable {D L : Type}

/-! ## What emission adds -/

/-- **What emission does to its context**: registers are handed out in order, and what comes into a
cache is a new register. New node ids satisfy `ids`. -/
structure GradientCg.Grows (ids : Int → Prop) (s s' : GradientCg D) : Prop where
  /-- registers are handed out in order -/
  nextReg : s.cg.nextReg ≤ s'.cg.nextReg
  /-- the loaded fields are the old ones and new registers -/
  fields : ∀ symbol field a, s'.cg.programMarketFieldCache symbol field = some a →
    s.cg.programMarketFieldCache symbol field = some a ∨
      ∃ m, a = .reg m ∧ s.cg.nextReg ≤ m ∧ m < s'.cg.nextReg
  /-- so are the values of node ids -/
  cached : ∀ id vg, s'.statefulGradEmitCache id = some vg → s.statefulGradEmitCache id = some vg ∨
    ids id ∧ ∃ m, vg = ⟨.reg m, .reg (m + 1)⟩ ∧ s.cg.nextReg ≤ m ∧ m + 1 < s'.cg.nextReg
  /-- nothing leaves the cache -/
  kept : ∀ id, s.statefulGradEmitCache id ≠ none → s'.statefulGradEmitCache id ≠ none

namespace GradientCg.Grows

variable {ids : Int → Prop} {s s' s'' : GradientCg D}

theorem refl (s : GradientCg D) : s.Grows ids s :=
  ⟨Nat.le_refl _, fun _ _ _ h => .inl h, fun _ _ h => .inl h, fun _ h => h⟩

theorem trans (h : s.Grows ids s') (h' : s'.Grows ids s'') : s.Grows ids s'' where
  nextReg := h.nextReg.trans h'.nextReg
  fields symbol field a ha := by
    rcases h'.fields symbol field a ha with ha | ⟨m, rfl, hm, hlt⟩
    · refine (h.fields symbol field a ha).imp_right ?_
      rintro ⟨m, rfl, hm, hlt⟩
      exact ⟨m, rfl, hm, hlt.trans_le h'.nextReg⟩
    · exact .inr ⟨m, rfl, h.nextReg.trans hm, hlt⟩
  cached id vg hvg := by
    rcases h'.cached id vg hvg with hvg | ⟨hid, m, rfl, hm, hlt⟩
    · refine (h.cached id vg hvg).imp_right ?_
      rintro ⟨hid, m, rfl, hm, hlt⟩
      exact ⟨hid, m, rfl, hm, hlt.trans_le h'.nextReg⟩
    · exact .inr ⟨hid, m, rfl, h.nextReg.trans hm, hlt⟩
  kept id hid := h'.kept id (h.kept id hid)

theorem skip (s : GradientCg D) (n : Nat) : s.Grows ids (s.skip n) :=
  ⟨Nat.le_add_right _ _, fun _ _ _ h => .inl h, fun _ _ h => .inl h, fun _ h => h⟩

/-- A field that was just loaded. -/
theorem cacheField (s : GradientCg D) (symbol : Nat) (field : MarketField) :
    s.Grows ids { s.skip 1 with
      cg := (s.skip 1).cg.cacheField symbol field (.reg s.cg.nextReg) } where
  nextReg := Nat.le_succ _
  fields symbol' field' a ha := by
    dsimp only [CodegenContext.cacheField] at ha
    split at ha
    · cases ha
      exact .inr ⟨_, rfl, Nat.le_refl _, Nat.lt_succ_self _⟩
    · exact .inl ha
  cached _ _ h := .inl h
  kept _ h := h

/-- A call that was just emitted. -/
theorem cacheStateful (s : GradientCg D) {nodeId : Int} (hid : 0 < nodeId → ids nodeId) :
    s.Grows ids ((s.skip 2).cacheStateful nodeId
      ⟨.reg s.cg.nextReg, .reg (s.cg.nextReg + 1)⟩) := by
  unfold GradientCg.cacheStateful
  split
  · rename_i hpos
    refine ⟨Nat.le_add_right _ _, fun _ _ _ h => .inl h, fun id vg hvg => ?_, fun id h => ?_⟩
    · dsimp only at hvg
      split at hvg
      · rename_i heq
        cases hvg
        exact .inr ⟨heq ▸ hid hpos, _, rfl, Nat.le_refl _, Nat.lt_succ_self _⟩
      · exact .inl hvg
    · dsimp only
      split
      · exact Option.some_ne_none _
      · exact h
  · exact .skip s 2

end GradientCg.Grows

/-! ### Emission that knows of no gradients -/

namespace GradientEmitM

variable {α β : Type}

theorem liftScalar_lift (r : Except String α) :
    (liftScalar (EmitM.lift r) : GradientEmitM D α) = Builder.lift r := by
  cases r <;> rfl

theorem liftScalar_build (i : Nat → Instr D) : liftScalar (EmitM.build i) = buildScalar i := rfl

theorem liftScalar_bind (m : EmitM D α) (f : α → EmitM D β) :
    liftScalar (m >>= f) = liftScalar m >>= fun a => liftScalar (f a) := by
  funext s
  change liftScalar (EmitM.bind m f) s = Builder.bind (liftScalar m) (fun a => liftScalar (f a)) s
  unfold EmitM.bind Builder.bind liftScalar
  dsimp only
  cases m s.cg with
  | error e => rfl
  | ok r =>
    dsimp only
    cases f r.value r.cg with
    | error e => rfl
    | ok r' =>
      dsimp only
      rw [Code.map_append]

end GradientEmitM

open GradientEmitM

section Moves

variable {ids : Int → Prop}

theorem build_grows (i : Nat → GradInstr D) : Moves (GradientCg.Grows ids) (build i) :=
  .instr fun s => .skip s 1

theorem buildScalar_grows (i : Nat → Instr D) : Moves (GradientCg.Grows ids) (buildScalar i) :=
  build_grows _

/-- What hands out a cached value adds nothing. -/
theorem liftScalar_reuse_ok {a v : Operand D} {s s' : GradientCg D} {code : Code (GradInstr D)}
    (h : liftScalar (EmitM.reuse a) s = .ok ⟨v, code, s'⟩) :
    v = a ∧ s' = s ∧ ((∃ c, a = .const c) ∧ code = .done ∨
      ∃ n, a = .reg n ∧ code = .instr (.scalar (.reuse (.reg n))) .done) := by
  cases a with
  | const c =>
    cases h
    exact ⟨rfl, rfl, .inl ⟨⟨c, rfl⟩, rfl⟩⟩
  | reg n =>
    cases h
    exact ⟨rfl, rfl, .inr ⟨n, rfl, rfl⟩⟩

theorem liftScalar_reuse_grows (a : Operand D) :
    Moves (GradientCg.Grows ids) (liftScalar (EmitM.reuse a)) := by
  intro s r h
  obtain ⟨-, hs, -⟩ := liftScalar_reuse_ok h
  rw [hs]
  exact .refl s

theorem reuse_grows (vg : ValueGradientIr D) :
    Moves (GradientCg.Grows ids) (GradientEmitM.reuse vg) :=
  .bind .trans (liftScalar_reuse_grows _) fun _ =>
    .bind .trans (liftScalar_reuse_grows _) fun _ => .pure .refl _

/-- A load of a field that was loaded. -/
theorem liftScalar_load_hit {symbol : Nat} {field : MarketField} {s : GradientCg D} {v : Operand D}
    (h : s.cg.programMarketFieldCache symbol field = some v) :
    liftScalar (emitMarketFieldLoad symbol field) s = liftScalar (EmitM.reuse v) s := by
  unfold liftScalar emitMarketFieldLoad
  rw [h]

/-- A load of a field that was not. -/
theorem liftScalar_load_miss {symbol : Nat} {field : MarketField} {s : GradientCg D}
    (h : s.cg.programMarketFieldCache symbol field = none) :
    liftScalar (emitMarketFieldLoad symbol field) s =
      Builder.instr (fun s => (.reg s.cg.nextReg,
          .scalar (.loadField s.cg.nextReg symbol field), { s.skip 1 with
            cg := (s.skip 1).cg.cacheField symbol field (.reg s.cg.nextReg) })) s := by
  unfold liftScalar emitMarketFieldLoad
  rw [h]
  rfl

theorem load_grows (symbol : Nat) (field : MarketField) :
    Moves (GradientCg.Grows (D := D) ids) (liftScalar (emitMarketFieldLoad symbol field)) := by
  intro s r h
  cases hcache : s.cg.programMarketFieldCache symbol field with
  | some v =>
    rw [liftScalar_load_hit hcache] at h
    exact liftScalar_reuse_grows v s r h
  | none =>
    rw [liftScalar_load_miss hcache] at h
    rw [instr_ok.mp h]
    exact .cacheField s symbol field

variable [Fp D] {env : EmitEnv}

theorem marketValue_grows (fn : MarketFn) (symbol : Nat) :
    Moves (GradientCg.Grows (D := D) ids) (liftScalar (emitMarketValue fn symbol)) := by
  unfold emitMarketValue
  cases fn with
  | bid => exact load_grows symbol .bid
  | ask => exact load_grows symbol .ask
  | mid =>
    simp only [liftScalar_bind, liftScalar_build]
    exact .bind .trans (load_grows symbol .bid) fun _ => .bind .trans (load_grows symbol .ask)
      fun _ => .bind .trans (buildScalar_grows _) fun _ => buildScalar_grows _
  | spread =>
    simp only [liftScalar_bind, liftScalar_build]
    exact .bind .trans (load_grows symbol .bid) fun _ => .bind .trans (load_grows symbol .ask)
      fun _ => buildScalar_grows _

theorem emitMarket_grows (fn : MarketFn) (call : EmitCall D) :
    Moves (GradientCg.Grows (D := D) ids) (liftScalar (emitMarket env fn call)) := by
  unfold emitMarket
  split
  · split
    · exact .throw _
    · rw [liftScalar_bind, liftScalar_lift]
      exact .bind .trans (.lift .refl _) fun _ => marketValue_grows fn _
  · exact .throw _

/-- A call without an id is not looked up by `EmitExpr`. -/
theorem emitCall_market {call : EmitCall D} (hid : call.nodeId ≤ 0) {fn : MarketFn}
    (hfn : Builtin.ofName call.name = some (.market fn)) :
    emitCall env false call = emitMarket env fn call := by
  funext cg
  unfold emitCall emitDispatch
  rw [if_neg (by omega), hfn]

omit [Fp D] in
theorem emitUnaryGradient_grows (kind : UnaryOpKind) (x : ValueGradientIr D) :
    Moves (GradientCg.Grows ids) (emitUnaryGradient kind x) := by
  cases kind with
  | plus => exact .pure .refl _
  | minus =>
    exact .bind .trans (buildScalar_grows _) fun _ => .bind .trans (buildScalar_grows _)
      fun _ => .pure .refl _

theorem emitBinaryGradient_grows (kind : BinaryOpKind) (l r : ValueGradientIr D) :
    Moves (GradientCg.Grows ids) (emitBinaryGradient kind l r) := by
  refine .bind .trans (buildScalar_grows _) fun v => ?_
  cases kind with
  | add | sub => exact .bind .trans (buildScalar_grows _) fun _ => .pure .refl _
  | mul =>
    exact .bind .trans (buildScalar_grows _) fun _ => .bind .trans (buildScalar_grows _)
      fun _ => .bind .trans (buildScalar_grows _) fun _ => .pure .refl _
  | div =>
    exact .bind .trans (buildScalar_grows _) fun _ => .bind .trans (buildScalar_grows _)
      fun _ => .bind .trans (buildScalar_grows _) fun _ => .bind .trans (buildScalar_grows _)
      fun _ => .bind .trans (buildScalar_grows _) fun _ => .pure .refl _
  | gt | lt | gte | lte | eq | notEq | and | or => exact .pure .refl _

theorem emitMathGradient_grows (fn : MathFn) (x : ValueGradientIr D) :
    Moves (GradientCg.Grows ids) (emitMathGradient fn x) := by
  cases fn with
  | abs =>
    exact .bind .trans (build_grows _) fun _ => .bind .trans (buildScalar_grows _)
      fun _ => .bind .trans (buildScalar_grows _) fun _ => .pure .refl _
  | log =>
    exact .bind .trans (buildScalar_grows _) fun _ => .bind .trans (buildScalar_grows _)
      fun _ => .pure .refl _
  | sqrt =>
    exact .bind .trans (buildScalar_grows _) fun _ => .bind .trans (buildScalar_grows _)
      fun _ => .bind .trans (buildScalar_grows _) fun _ => .pure .refl _

theorem emitGradientWindow_grows (fn : StatefulFn) (name : String) (window : Expr D) :
    Moves (GradientCg.Grows ids) (emitGradientWindow fn name window) := by
  refine .bind .trans (.lift .refl _) fun v => ?_
  split
  · exact .throw _
  · exact .pure .refl _

omit [Fp D] in
/-- An id that was allocated is kept. -/
theorem liftScalar_getNodeId {nodeId : Int} (hpos : 0 < nodeId) :
    liftScalar (getNodeId nodeId) = (pure nodeId : GradientEmitM D Int) := by
  funext s
  unfold liftScalar getNodeId
  rw [if_pos hpos]
  rfl

omit [Fp D] in
theorem emitGradHelper_grows (fn : GradientFn) {nodeId : Int} (hpos : 0 < nodeId) (hid : ids nodeId)
    (args : List (Operand D)) (period : Int) :
    Moves (GradientCg.Grows ids) (emitGradHelper fn nodeId args period) := by
  unfold emitGradHelper
  rw [liftScalar_getNodeId hpos, Builder.pure_bind]
  intro s r h
  obtain ⟨r₁, r₂, h₁, h₂, rfl⟩ := bind_ok.mp h
  obtain ⟨r₃, r₄, h₃, h₄, rfl⟩ := bind_ok.mp h₂
  rw [instr_ok.mp h₁] at h₃
  rw [modify_ok.mp h₃] at h₄
  rw [pure_ok.mp h₄]
  exact .cacheStateful s fun _ => hid

omit [Fp D] in
theorem emitGradientArg_bind_grows {args : List (GradientEmitArg D)} {i : Nat} {α : Type}
    {k : GradientEmitArg D → GradientEmitM D α}
    (h : ∀ a ∈ args, Moves (GradientCg.Grows ids) (k a)) :
    Moves (GradientCg.Grows ids) (emitGradientArg args i >>= k) := by
  unfold emitGradientArg
  cases harg : args[i]? with
  | none => exact .throw _
  | some a =>
    dsimp only
    rw [Builder.pure_bind]
    exact h a (List.mem_of_getElem? harg)

theorem emitStatefulGradient_grows (fn : StatefulFn) (name : String) {nodeId : Int}
    (hpos : 0 < nodeId) (hid : ids nodeId) {args : List (GradientEmitArg D)}
    (hargs : ∀ a ∈ args, Moves (GradientCg.Grows ids) a.emit) :
    Moves (GradientCg.Grows ids) (emitStatefulGradient fn name args nodeId) := by
  have hhelper := fun helper (vs : List (Operand D)) period =>
    emitGradHelper_grows helper hpos hid vs period
  -- one operand, two and three, and the window before them
  have hone : ∀ {α : Type} {i : Nat} {k : ValueGradientIr D → GradientEmitM D α},
      (∀ x, Moves (GradientCg.Grows ids) (k x)) → Moves (GradientCg.Grows ids)
        (emitGradientArg args i >>= fun a => a.emit >>= k) :=
    fun hk => emitGradientArg_bind_grows fun a ha => .bind .trans (hargs a ha) hk
  have hwindow : ∀ {α : Type} {i : Nat} {k : Int → GradientEmitM D α},
      (∀ x, Moves (GradientCg.Grows ids) (k x)) → Moves (GradientCg.Grows ids)
        (emitGradientArg args i >>= fun a => emitGradientWindow fn name a.expr >>= k) :=
    fun hk => emitGradientArg_bind_grows fun a _ => .bind .trans (emitGradientWindow_grows fn name a.expr) hk
  unfold emitStatefulGradient
  split
  · exact .throw _
  · cases fn with
    | emaAlpha => exact hone fun _ => hone fun _ => hhelper _ _ _
    | ema | sma | lag | rollingStd | zscore | rollingMin | rollingMax =>
      exact hwindow fun _ => hone fun _ => hhelper _ _ _
    | rollingCorr | rollingBeta => exact hwindow fun _ => hone fun _ => hone fun _ => hhelper _ _ _
    | kalman1d => exact hone fun _ => hone fun _ => hone fun _ => hhelper _ _ _
    | crossAbove | crossBelow => exact hone fun _ => hone fun _ => hhelper _ _ _
    | vwap => exact .throw _

/-- The id of a call: those of stateful calls are in `ids`, other calls have none. -/
structure Call.HasId (ids : Int → Prop) (c : Call D) : Prop where
  /-- a stateful call -/
  stateful : isStatefulOp c.name = true → 0 < c.nodeId ∧ ids c.nodeId
  /-- another call -/
  stateless : isStatefulOp c.name = false → c.nodeId ≤ 0

/-- **What the emission of an expression adds.** -/
theorem emitValueGradient_grows {e : Expr D} (h : ∀ c ∈ e.calls, c.HasId ids) :
    Moves (GradientCg.Grows ids) (emitValueGradient env e) := by
  induction e using Expr.induct with
  | numberLiteral loc v => exact .pure .refl _
  | parameterExpr loc name id =>
    rw [emitValueGradient]
    split
    · exact .throw _
    · exact .bind .trans (buildScalar_grows _) fun _ => .bind .trans (build_grows _)
        fun _ => .pure .refl _
  | identifierExpr loc name =>
    intro s r hr
    rw [emitValueGradient] at hr
    dsimp only at hr
    split at hr
    · exact reuse_grows _ s r hr
    · cases hr
  | unaryOp loc k e ih =>
    rw [emitValueGradient]
    exact .bind .trans (ih h) fun x => emitUnaryGradient_grows k x
  | binaryOp loc k l r ihl ihr =>
    rw [emitValueGradient]
    exact .bind .trans (ihl fun c hc => h c (List.mem_append_left _ hc)) fun x =>
      .bind .trans (ihr fun c hc => h c (List.mem_append_right _ hc)) fun y =>
        emitBinaryGradient_grows k x y
  | conditional loc c t e ihc iht ihe =>
    rw [emitValueGradient]
    refine .bind .trans (ihc fun d hd => h d (List.mem_append_left _ (List.mem_append_left _ hd)))
      fun x => .branch .trans (iht fun d hd => h d (List.mem_append_left _ (List.mem_append_right _ hd)))
        (ihe fun d hd => h d (List.mem_append_right _ hd)) fun _ _ s => .skip s 2
  | functionCall loc name args nid sid ih =>
    have hcall := h _ List.mem_cons_self
    have hargs : ∀ a ∈ emitGradientArgs env args, Moves (GradientCg.Grows ids) a.emit := by
      have hall : ∀ as : List (Expr D), (∀ a ∈ as, a ∈ args) →
          ∀ a ∈ emitGradientArgs env as, Moves (GradientCg.Grows ids) a.emit := by
        intro as
        induction as with
        | nil => exact fun _ a ha => absurd ha List.not_mem_nil
        | cons b bs ihb =>
          intro hmem a ha
          rcases List.mem_cons.mp ha with rfl | ha
          · exact ih b (hmem b List.mem_cons_self) fun c hc => h c (List.mem_cons_of_mem _
              (Expr.mem_callsArgs.mpr ⟨b, hmem b List.mem_cons_self, hc⟩))
          · exact ihb (fun c hc => hmem c (List.mem_cons_of_mem _ hc)) a ha
      exact hall args fun _ ha => ha
    intro s r hr
    rw [emitValueGradient, emitGradientCall] at hr
    split at hr
    · exact reuse_grows _ s r hr
    · refine Moves.apply ?_ hr
      unfold emitGradientDispatch
      cases hname : Builtin.ofName name with
      | none => exact .throw _
      | some b =>
        cases b with
        | market fn =>
          dsimp only
          rw [emitCall_market (hcall.stateless (by rw [isStatefulOp, hname])) hname]
          exact .bind .trans (emitMarket_grows fn _) fun _ => .pure .refl _
        | math fn =>
          exact emitGradientArg_bind_grows fun a ha =>
            .bind .trans (hargs a ha) fun x => emitMathGradient_grows fn x
        | stateful fn =>
          obtain ⟨hpos, hid⟩ := hcall.stateful (by rw [isStatefulOp, hname])
          exact emitStatefulGradient_grows fn name hpos hid hargs

end Moves

end JitSignalEngine
