import JitSignalEngine.EmissionSchedule
import JitSignalEngine.GradientEmission
import JitSignalEngine.GradientHelpers

/-!
# The code of a gradient follows the forward evaluator

Compiled gradient programs and `ForwardGradientInterpreter` both keep a value by node id so that a
shared call is computed once: the emitter while it emits, the evaluator while it evaluates. An
expression is followed through both at once.

* `InStep` — a point of the code: the states agree, and where a name of the emitter's cache is in
  scope, the evaluator has cached its value.
* `…_triple` — what the instructions of one operation do.
-/

namespace JitSignalEngine

open Fp Widen Builder GradientEmitM

variable {D L : Type}

/-! ## Points of the code -/

/-- A cached value and its gradient may be used where the names of `A` are in scope. -/
def ValueGradientIr.In (A : Set Name) (vg : ValueGradientIr D) : Prop :=
  vg.value.In A ∧ vg.gradient.In A

theorem ValueGradientIr.eval_eq {vg : ValueGradientIr D} {regs : Nat → D} {v : ValueGradient D}
    (hv : vg.value.eval regs = v.value) (hg : vg.gradient.eval regs = v.gradient) :
    vg.eval regs = v := congr (congrArg ValueGradient.mk hv) hg

/-- **What the code of a signal runs under.** -/
structure GradientTick (D : Type) where
  /-- the market snapshot -/
  market : MarketState D
  /-- the parameters -/
  params : List D
  /-- the parameter the caller asks for -/
  target : Nat
  /-- it is there -/
  target_lt : target < params.length
  /-- the calls of the program -/
  calls : List (Call D)
  /-- the node ids of the signal -/
  ids : Int → Prop
  /-- what was written for the signals before -/
  written : Nat → Option (ValueGradient D)

/-- The machine of the call. -/
abbrev GradientTick.machine [Fp D] [Fp L] [Widen D L] (X : GradientTick D) :
    Machine (GradInstr D) (GradFrame D L) := gradMachine X.market X.target

section Points

variable [Fp D]

/-- **The states of the evaluator and of the code.** -/
structure StatesFollow (params : List D) (calls : List (Call D)) (fs : ForwardState D L)
    (s : GradientContext D L) : Prop where
  /-- the parameters of the evaluator -/
  forwardParams : fs.ctx.params = params
  /-- those of the code -/
  codeParams : s.ctx.params = params
  /-- `gradient_param_count` of the evaluator -/
  forwardCount : fs.gradientParamCount = params.length
  /-- that of the code -/
  codeCount : s.gradientParamCount = params.length
  /-- the operator states but for the period of `ema` -/
  primal : ∀ j, ∃ period, s.ctx.slots j = (fs.ctx.slots j).withEmaPeriod period
  /-- the sensitivity states -/
  sensitivities : s.sensitivities = fs.sensitivities
  /-- the variances of `kalman1d` -/
  kalman1d : ∀ j, lt (fs.ctx.slots j).kalman1d.p (ofNat 0) = false
  /-- what the prewarm has set up -/
  sized : ∀ c ∈ calls, ∀ fn, Builtin.ofName c.name = some (.stateful fn) →
    (fs.ctx.slots c.nodeId.toNat).SizedFor fn (parsePreparedPeriod (periodLiteral fn c.args))

omit [Fp D] in
/-- **The caches of the emitter**: what they name in the scope `A` has the right value. -/
structure CachesFollow (X : GradientTick D) (s : GradientCg D) (A : Set Name)
    (cache : Int → Option (ValueGradient D)) (regs : Nat → D) : Prop where
  /-- the names in scope were handed out -/
  scope : ∀ m, .reg m ∈ A → m < s.cg.nextReg
  /-- so were the loaded fields -/
  loaded : ∀ symbol field a, s.cg.programMarketFieldCache symbol field = some a →
    ∀ m, a = .reg m → m < s.cg.nextReg
  /-- and what stands for calls -/
  stepped : ∀ id vg, s.statefulGradEmitCache id = some vg →
    (∀ m, vg.value = .reg m → m < s.cg.nextReg) ∧ ∀ m, vg.gradient = .reg m → m < s.cg.nextReg
  /-- loaded fields -/
  fields : ∀ symbol field a, s.cg.programMarketFieldCache symbol field = some a → a.In A →
    a.eval regs = (X.market symbol).field field
  /-- calls of this signal: what is in scope was computed -/
  cached : ∀ id vg, X.ids id → s.statefulGradEmitCache id = some vg → vg.In A →
    cache id = some (vg.eval regs)
  /-- what was computed was emitted -/
  emitted : ∀ id, cache id ≠ none → s.statefulGradEmitCache id ≠ none

/-- **A point of the code**, where the operands in `Γ` have the values that stand there. -/
structure InStep (X : GradientTick D) (Γ : List (Operand D × D)) (fs : ForwardState D L)
    (s : GradientCg D) (A : Set Name) (f : GradFrame D L) : Prop where
  /-- the states -/
  states : StatesFollow X.params X.calls fs f.context
  /-- the caches -/
  caches : CachesFollow X s A fs.cache f.scalar.regs
  /-- the operands -/
  live : ∀ p ∈ Γ, p.1.Holds s.cg f.scalar p.2
  /-- the outputs -/
  written : ∀ i, f.scalar.outputs i = (X.written i).map ValueGradient.value ∧
    f.gradients i = (X.written i).map ValueGradient.gradient

omit [Fp D] in
/-- The value of an operand: listed, or a constant. -/
def Listed (Γ : List (Operand D × D)) (a : Operand D) (x : D) : Prop := (a, x) ∈ Γ ∨ a = .const x

omit [Fp D] in
theorem Listed.head {Γ : List (Operand D × D)} {a : Operand D} {x : D} :
    Listed ((a, x) :: Γ) a x := .inl List.mem_cons_self

omit [Fp D] in
theorem Listed.tail {Γ : List (Operand D × D)} {p : Operand D × D} {a : Operand D} {x : D}
    (h : Listed Γ a x) : Listed (p :: Γ) a x := h.imp_left (List.mem_cons_of_mem _)

variable {X : GradientTick D} {Γ Γ' : List (Operand D × D)} {fs : ForwardState D L}
  {s s' : GradientCg D} {A B : Set Name} {f : GradFrame D L}

namespace InStep

theorem eval (h : InStep X Γ fs s A f) {a : Operand D} {x : D} (ha : Listed Γ a x) :
    a.eval f.scalar.regs = x := by
  rcases ha with ha | rfl
  · exact (h.live _ ha).2
  · rfl

theorem evals (h : InStep X Γ fs s A f) {args : List (Operand D)} {xs : List D}
    (hargs : List.Forall₂ (Listed Γ) args xs) : args.map (Operand.eval f.scalar.regs) = xs := by
  induction hargs with
  | nil => rfl
  | cons ha _ ih => rw [List.map_cons, h.eval ha, ih]

/-- More can be listed when it is known. -/
theorem relist (h : InStep X Γ fs s A f) (hΓ : ∀ p ∈ Γ', Listed Γ p.1 p.2) :
    InStep X Γ' fs s A f := by
  refine ⟨h.states, h.caches, fun p hp => ?_, h.written⟩
  rcases hΓ p hp with hp | hp
  · exact h.live _ hp
  · rw [hp]
    exact ⟨fun n hn => (nomatch hn), rfl⟩

/-- **Code that is not run** changes nothing that is in scope. -/
theorem skip (h : InStep X Γ fs s A f) (hs : s.Grows X.ids s') : InStep X Γ fs s' A f where
  states := h.states
  caches :=
    { scope := fun m hm => (h.caches.scope m hm).trans_le hs.nextReg
      loaded := fun symbol field a ha m hm => by
        rcases hs.fields symbol field a ha with ha | ⟨k, rfl, -, hlt⟩
        · exact (h.caches.loaded symbol field a ha m hm).trans_le hs.nextReg
        · cases hm
          exact hlt
      stepped := fun id vg hvg => by
        rcases hs.cached id vg hvg with hvg | ⟨-, k, rfl, -, hlt⟩
        · obtain ⟨hv, hg⟩ := h.caches.stepped id vg hvg
          exact ⟨fun m hm => (hv m hm).trans_le hs.nextReg,
            fun m hm => (hg m hm).trans_le hs.nextReg⟩
        · exact ⟨fun m hm => by cases hm; exact (Nat.lt_succ_self _).trans hlt,
            fun m hm => by cases hm; exact hlt⟩
      fields := fun symbol field a ha hA => by
        rcases hs.fields symbol field a ha with ha | ⟨m, rfl, hm, -⟩
        · exact h.caches.fields symbol field a ha hA
        · exact absurd (h.caches.scope m hA) (Nat.not_lt.mpr hm)
      cached := fun id vg hid hvg hA => by
        rcases hs.cached id vg hvg with hvg | ⟨-, m, rfl, hle, -⟩
        · exact h.caches.cached id vg hid hvg hA
        · exact absurd (h.caches.scope m hA.1) (Nat.not_lt.mpr hle)
      emitted := fun id hid => hs.kept id (h.caches.emitted id hid) }
  live p hp := (h.live p hp).later hs.nextReg fun _ _ => rfl
  written := h.written

/-- Names go out of scope. -/
theorem shrink (h : InStep X Γ fs s B f) (hA : A ⊆ B) : InStep X Γ fs s A f where
  states := h.states
  caches :=
    { scope := fun m hm => h.caches.scope m (hA hm)
      loaded := h.caches.loaded
      stepped := h.caches.stepped
      fields := fun symbol field a ha hIn => h.caches.fields symbol field a ha (hIn.mono hA)
      cached := fun id vg hid hvg hIn =>
        h.caches.cached id vg hid hvg ⟨hIn.1.mono hA, hIn.2.mono hA⟩
      emitted := h.caches.emitted }
  live := h.live
  written := h.written

end InStep

omit [Fp D] in
/-- An operand that was there before a register is handed out. -/
theorem Operand.eval_define {a : Operand D} {n : Nat} (ha : ∀ m, a = .reg m → m < n) (v : D) :
    a.eval (f.setReg n v).scalar.regs = a.eval f.scalar.regs := by
  cases a with
  | const c => rfl
  | reg m => exact if_neg (ha m rfl).ne

omit [Fp D] in
/-- It comes not into scope with the register. -/
theorem Operand.In.of_define {a : Operand D} {n : Nat} (ha : ∀ m, a = .reg m → m < n)
    (h : a.In ({x | x ∈ [Name.reg n]} ∪ A)) : a.In A := by
  cases a with
  | const c => trivial
  | reg m =>
    rcases h with h | h
    · exact absurd (Name.reg.inj (List.mem_singleton.mp h)) (ha m rfl).ne
    · exact h

/-- **A register is handed out** and defined. -/
theorem InStep.define (h : InStep X Γ fs s A f) (v : D) :
    InStep X ((.reg s.cg.nextReg, v) :: Γ) fs (s.skip 1) ({x | x ∈ [Name.reg s.cg.nextReg]} ∪ A)
      (f.setReg s.cg.nextReg v) where
  states := h.states
  caches :=
    { scope := fun m hm => by
        rcases hm with hm | hm
        · rw [Name.reg.inj (List.mem_singleton.mp hm)]
          exact Nat.lt_succ_self _
        · exact (h.caches.scope m hm).trans (Nat.lt_succ_self _)
      loaded := fun symbol field a ha m hm =>
        (h.caches.loaded symbol field a ha m hm).trans (Nat.lt_succ_self _)
      stepped := fun id vg hvg => by
        obtain ⟨hv, hg⟩ := h.caches.stepped id vg hvg
        exact ⟨fun m hm => (hv m hm).trans (Nat.lt_succ_self _),
          fun m hm => (hg m hm).trans (Nat.lt_succ_self _)⟩
      fields := fun symbol field a ha hA => by
        have hbelow := h.caches.loaded symbol field a ha
        rw [Operand.eval_define hbelow]
        exact h.caches.fields symbol field a ha (hA.of_define hbelow)
      cached := fun id vg hid hvg hA => by
        obtain ⟨hv, hg⟩ := h.caches.stepped id vg hvg
        rw [h.caches.cached id vg hid hvg ⟨hA.1.of_define hv, hA.2.of_define hg⟩]
        unfold ValueGradientIr.eval
        rw [Operand.eval_define hv, Operand.eval_define hg]
      emitted := h.caches.emitted }
  live p hp := by
    rcases List.mem_cons.mp hp with rfl | hp
    · exact ⟨fun m hm => by cases hm; exact Nat.lt_succ_self _, if_pos rfl⟩
    · exact (h.live p hp).later (Nat.le_succ _) fun m hm => if_neg hm.ne
  written := h.written

/-- A value and its gradient are defined. -/
theorem InStep.definePair (h : InStep X Γ fs s A f) (v : ValueGradient D) :
    InStep X ((.reg s.cg.nextReg, v.value) :: (.reg (s.cg.nextReg + 1), v.gradient) :: Γ) fs
      (s.skip 2) ({x | x ∈ [Name.reg s.cg.nextReg, .reg (s.cg.nextReg + 1)]} ∪ A)
      (f.setPair s.cg.nextReg (s.cg.nextReg + 1) v) := by
  have hset : {x | x ∈ [Name.reg s.cg.nextReg, .reg (s.cg.nextReg + 1)]} ∪ A =
      {x | x ∈ [Name.reg (s.cg.nextReg + 1)]} ∪ ({x | x ∈ [Name.reg s.cg.nextReg]} ∪ A) := by
    ext x
    simp only [List.mem_cons, List.not_mem_nil, or_false, Set.mem_union, Set.mem_ofPred_eq]
    tauto
  rw [hset]
  refine ((h.define v.value).define v.gradient).relist fun p hp => .inl ?_
  simp only [List.mem_cons] at hp ⊢
  tauto

end Points

/-! ## What the instructions of an operation do -/

section Triples

variable [Fp D] [Fp L] [Widen D L] {X : GradientTick D} {Γ : List (Operand D × D)}
  {fs : ForwardState D L}

/-- An instruction with a result. -/
theorem build_triple {i : Nat → GradInstr D} {x : D} (hdefs : ∀ n, (i n).defs = [.reg n])
    (hexec : ∀ n s A f, InStep X Γ fs s A f →
      (i n).exec X.market X.target f = some (f.setReg n x)) :
    Triple X.machine GradInstr.names (InStep X Γ fs) (build i)
      fun a => InStep X ((a, x) :: Γ) fs := by
  refine .instr fun s A f _ hP => ⟨_, hexec s.cg.nextReg s A f hP, ?_⟩
  change InStep X _ fs _ ({n | n ∈ (i s.cg.nextReg).defs} ∪ A) _
  rw [hdefs]
  exact hP.define x

variable {a b : Operand D} {x y : D}

theorem binary_triple (kind : BinaryOpKind) (ha : Listed Γ a x) (hb : Listed Γ b y) :
    Triple X.machine GradInstr.names (InStep X Γ fs) (buildScalar fun n => .binary n kind a b)
      fun r => InStep X ((r, kind.apply x y) :: Γ) fs :=
  build_triple (fun _ => rfl) fun n s A f h => by
    rw [← h.eval ha, ← h.eval hb]
    rfl

theorem neg_triple (ha : Listed Γ a x) :
    Triple X.machine GradInstr.names (InStep X Γ fs) (buildScalar fun n => .neg n a)
      fun r => InStep X ((r, neg x) :: Γ) fs :=
  build_triple (fun _ => rfl) fun n s A f h => by
    rw [← h.eval ha]
    rfl

theorem math_triple (fn : MathFn) (ha : Listed Γ a x) :
    Triple X.machine GradInstr.names (InStep X Γ fs) (buildScalar fun n => .math n fn a)
      fun r => InStep X ((r, fn.apply x) :: Γ) fs :=
  build_triple (fun _ => rfl) fun n s A f h => by
    rw [← h.eval ha]
    rfl

/-- A value and its gradient are listed. -/
abbrev listPair (ir : ValueGradientIr D) (v : ValueGradient D) (Γ : List (Operand D × D)) :
    List (Operand D × D) := (ir.value, v.value) :: (ir.gradient, v.gradient) :: Γ

/-- The end of an operation. -/
theorem done_triple {Γ' : List (Operand D × D)} {ir : ValueGradientIr D} {v : ValueGradient D}
    (hv : Listed Γ' ir.value v.value) (hg : Listed Γ' ir.gradient v.gradient)
    (hΓ : ∀ p ∈ Γ, p ∈ Γ') :
    Triple X.machine GradInstr.names (InStep X Γ' fs) (pure ir)
      fun r => InStep X (listPair r v Γ) fs :=
  (Triple.pure ir).conseq (fun _ _ _ h => h) fun r s A f ⟨hr, h⟩ => by
    subst hr
    refine h.relist fun p hp => ?_
    rcases List.mem_cons.mp hp with rfl | hp
    · exact hv
    · rcases List.mem_cons.mp hp with rfl | hp
      · exact hg
      · exact .inl (hΓ p hp)

/-- The value and the gradient of an operand. -/
structure ListedPair (Γ : List (Operand D × D)) (ir : ValueGradientIr D) (v : ValueGradient D) :
    Prop where
  /-- the value -/
  value : Listed Γ ir.value v.value
  /-- the gradient -/
  gradient : Listed Γ ir.gradient v.gradient

omit [Fp D] [Fp L] [Widen D L] in
theorem ListedPair.head {ir : ValueGradientIr D} {v : ValueGradient D} :
    ListedPair (listPair ir v Γ) ir v := ⟨.head, Listed.head.tail⟩

omit [Fp D] [Fp L] [Widen D L] in
theorem ListedPair.tail {ir : ValueGradientIr D} {v : ValueGradient D} (h : ListedPair Γ ir v)
    {p : Operand D × D} : ListedPair (p :: Γ) ir v := ⟨h.value.tail, h.gradient.tail⟩

omit [Fp D] [Fp L] [Widen D L] in
/-- A pair among the arguments of a helper. -/
theorem ListedPair.cons {ir : ValueGradientIr D} {v : ValueGradient D} (h : ListedPair Γ ir v)
    {args : List (Operand D)} {xs : List D} (hargs : List.Forall₂ (Listed Γ) args xs) :
    List.Forall₂ (Listed Γ) (ir.value :: ir.gradient :: args) (v.value :: v.gradient :: xs) :=
  .cons h.value (.cons h.gradient hargs)

omit [Fp D] [Fp L] [Widen D L] in
theorem mem_listPair (ir : ValueGradientIr D) (v : ValueGradient D) {p : Operand D × D}
    (hp : p ∈ Γ) : p ∈ listPair ir v Γ := List.mem_cons_of_mem _ (List.mem_cons_of_mem _ hp)

variable {l r : ValueGradientIr D} {u v : ValueGradient D}

theorem emitUnaryGradient_triple (kind : UnaryOpKind) (h : ListedPair Γ l u) :
    Triple X.machine GradInstr.names (InStep X Γ fs) (emitUnaryGradient kind l)
      fun ir => InStep X (listPair ir (kind.forward u) Γ) fs := by
  cases kind with
  | plus => exact done_triple h.value h.gradient fun _ hp => hp
  | minus =>
    refine .bind (neg_triple h.value) fun nv => .bind (neg_triple h.gradient.tail) fun ng => ?_
    exact done_triple Listed.head.tail .head fun p hp => .tail _ (.tail _ hp)

theorem emitBinaryGradient_triple (kind : BinaryOpKind) (hl : ListedPair Γ l u)
    (hr : ListedPair Γ r v) :
    Triple X.machine GradInstr.names (InStep X Γ fs) (emitBinaryGradient kind l r)
      fun ir => InStep X (listPair ir (kind.forward u v) Γ) fs := by
  refine .bind (binary_triple kind hl.value hr.value) fun w => ?_
  cases kind with
  | add | sub =>
    refine .bind (binary_triple _ hl.tail.gradient hr.tail.gradient) fun g => ?_
    exact done_triple Listed.head.tail .head fun p hp => .tail _ (.tail _ hp)
  | mul =>
    refine .bind (binary_triple .mul hl.tail.gradient hr.tail.value) fun gl => ?_
    refine .bind (binary_triple .mul hl.tail.tail.value hr.tail.tail.gradient) fun gr => ?_
    refine .bind (binary_triple .add Listed.head.tail .head) fun g => ?_
    exact done_triple Listed.head.tail.tail.tail .head
      fun p hp => .tail _ (.tail _ (.tail _ (.tail _ hp)))
  | div =>
    refine .bind (binary_triple .mul hl.tail.gradient hr.tail.value) fun numL => ?_
    refine .bind (binary_triple .mul hl.tail.tail.value hr.tail.tail.gradient) fun numR => ?_
    refine .bind (binary_triple .sub Listed.head.tail .head) fun num => ?_
    refine .bind (binary_triple .mul hr.value.tail.tail.tail.tail hr.value.tail.tail.tail.tail)
      fun den => ?_
    refine .bind (binary_triple .div Listed.head.tail .head) fun g => ?_
    exact done_triple Listed.head.tail.tail.tail.tail.tail .head
      fun p hp => .tail _ (.tail _ (.tail _ (.tail _ (.tail _ (.tail _ hp)))))
  | gt | lt | gte | lte | eq | notEq | and | or =>
    exact done_triple .head (.inr rfl) fun p hp => .tail _ hp

theorem emitMathGradient_triple (fn : MathFn) (h : ListedPair Γ l u) :
    Triple X.machine GradInstr.names (InStep X Γ fs) (emitMathGradient fn l)
      fun ir => InStep X (listPair ir (fn.forward u) Γ) fs := by
  cases fn with
  | abs =>
    refine .bind (build_triple (x := if lt (ofNat 0) u.value then ofNat 1
      else if lt u.value (ofNat 0) then neg (ofNat 1) else ofNat 0) (fun _ => rfl)
      fun n s A f hP => ?_) fun sign => ?_
    · rw [← hP.eval h.value]
      rfl
    · refine .bind (math_triple .abs h.tail.value) fun w => ?_
      refine .bind (binary_triple .mul Listed.head.tail h.tail.tail.gradient) fun g => ?_
      exact done_triple Listed.head.tail .head fun p hp => .tail _ (.tail _ (.tail _ hp))
  | log =>
    refine .bind (math_triple .log h.value) fun w => ?_
    refine .bind (binary_triple .div h.tail.gradient h.tail.value) fun g => ?_
    exact done_triple Listed.head.tail .head fun p hp => .tail _ (.tail _ hp)
  | sqrt =>
    refine .bind (math_triple .sqrt h.value) fun root => ?_
    refine .bind (binary_triple .mul (.inr rfl) .head) fun den => ?_
    refine .bind (binary_triple .div h.tail.tail.gradient .head) fun g => ?_
    exact done_triple Listed.head.tail.tail .head fun p hp => .tail _ (.tail _ (.tail _ hp))

/-! ### Cached values -/

/-- A cached value is used where it is in scope. -/
theorem liftScalar_reuse_triple {P : Assertion (GradientCg D) Name (GradFrame D L)} (a : Operand D) :
    Triple X.machine GradInstr.names P (liftScalar (EmitM.reuse a))
      fun b s A f => b = a ∧ a.In A ∧ P s A f := by
  cases a with
  | const c => exact .nothing fun s A f r hr hP => by cases hr; exact ⟨rfl, rfl, trivial, hP⟩
  | reg n =>
    rintro s A f ⟨_, _, _⟩ hr hscope hP
    obtain ⟨rfl, rfl, h⟩ := liftScalar_reuse_ok hr
    obtain ⟨⟨c, hc⟩, -⟩ | ⟨m, hm, rfl⟩ := h
    · cases hc
    · cases hm
      refine ⟨f, rfl, ?_⟩
      have hset : {x | x ∈ (Code.instr (GradInstr.scalar (.reuse (.reg n)) : GradInstr D)
          .done).topNames GradInstr.names} ∪ A = A := by
        simp [Code.topNames, GradInstr.names, GradInstr.defs, Instr.defs]
      rw [hset]
      exact ⟨rfl, hscope.1 _ List.mem_cons_self, hP⟩

theorem reuse_triple {P : Assertion (GradientCg D) Name (GradFrame D L)} (vg : ValueGradientIr D) :
    Triple X.machine GradInstr.names P (GradientEmitM.reuse vg)
      fun ir s A f => ir = vg ∧ vg.In A ∧ P s A f := by
  refine .bind (liftScalar_reuse_triple vg.value) fun w => .bind (liftScalar_reuse_triple vg.gradient)
    fun g => (Triple.pure _).conseq (fun _ _ _ h => h) ?_
  rintro ir s A f ⟨rfl, rfl, hg, rfl, hv, hP⟩
  exact ⟨rfl, ⟨hv, hg⟩, hP⟩

/-- A field of an instrument, from the cache or loaded. -/
theorem load_triple (symbol : Nat) (field : MarketField) :
    Triple X.machine GradInstr.names (InStep X Γ fs) (liftScalar (emitMarketFieldLoad symbol field))
      fun a => InStep X ((a, (X.market symbol).field field) :: Γ) fs := by
  intro s A f r hr hscope hP
  cases hcache : s.cg.programMarketFieldCache symbol field with
  | some w =>
    rw [liftScalar_load_hit hcache] at hr
    have htriple := liftScalar_reuse_triple (X := X) (P := fun s A f => InStep X Γ fs s A f ∧
      s.cg.programMarketFieldCache symbol field = some w) w
    obtain ⟨f', hrun, heq, hA, h, hw⟩ := htriple s A f r hr hscope ⟨hP, hcache⟩
    refine ⟨f', hrun, h.states, h.caches, fun p hp => ?_, h.written⟩
    rcases List.mem_cons.mp hp with rfl | hp
    · rw [heq]
      exact ⟨h.caches.loaded _ _ _ hw, h.caches.fields _ _ _ hw hA⟩
    · exact h.live p hp
  | none =>
    rw [liftScalar_load_miss hcache] at hr
    refine Triple.apply (M := X.machine) (P := InStep X Γ fs)
      (Q := fun a => InStep X ((a, (X.market symbol).field field) :: Γ) fs)
      (.instr fun s A f _ h => ⟨f.setReg s.cg.nextReg ((X.market symbol).field field), rfl, ?_⟩) hr
      hscope hP
    have hdef := h.define ((X.market symbol).field field)
    refine ⟨hdef.states, { hdef.caches with loaded := ?_, fields := ?_ }, hdef.live, hdef.written⟩
    · intro symbol' field' a ha
      dsimp only [CodegenContext.cacheField] at ha
      split at ha
      · cases ha
        intro m hm
        cases hm
        exact Nat.lt_succ_self _
      · exact hdef.caches.loaded symbol' field' a ha
    · intro symbol' field' a ha hA
      dsimp only [CodegenContext.cacheField] at ha
      split at ha
      · rename_i heq
        cases ha
        rw [heq.1, heq.2]
        exact (hdef.live _ List.mem_cons_self).2
      · exact hdef.caches.fields symbol' field' a ha hA

/-! ### Market reads and parameters -/

/-- More was listed than is needed. -/
theorem unlist {m : GradientEmitM D (ValueGradientIr D)} {Γ' : List (Operand D × D)}
    {P : Assertion (GradientCg D) Name (GradFrame D L)} {v : ValueGradient D}
    (h : Triple X.machine GradInstr.names P m fun ir => InStep X (listPair ir v Γ') fs)
    (hΓ : ∀ p ∈ Γ, p ∈ Γ') :
    Triple X.machine GradInstr.names P m fun ir => InStep X (listPair ir v Γ) fs :=
  h.conseq (fun _ _ _ h => h) fun ir s A f hP => hP.relist fun p hp => .inl <| by
    simp only [List.mem_cons] at hp ⊢
    exact hp.imp_right fun hp => hp.imp_right (hΓ p)

theorem marketValue_triple (fn : MarketFn) (symbol : Nat) :
    Triple X.machine GradInstr.names (InStep X Γ fs) (liftScalar (emitMarketValue fn symbol))
      fun a => InStep X ((a, (X.market symbol).read fn) :: Γ) fs := by
  have hdrop : ∀ {p q : Operand D × D} {a : Operand D} {x : D} {s A} {f : GradFrame D L},
      InStep X ((a, x) :: p :: q :: Γ) fs s A f → InStep X ((a, x) :: Γ) fs s A f :=
    fun h => h.relist fun p hp => .inl <| by
      simp only [List.mem_cons] at hp ⊢
      exact hp.imp_right fun hp => .inr (.inr hp)
  unfold emitMarketValue
  cases fn with
  | bid => exact load_triple symbol .bid
  | ask => exact load_triple symbol .ask
  | mid =>
    simp only [liftScalar_bind, liftScalar_build]
    refine .bind (load_triple symbol .bid) fun bid => .bind (load_triple symbol .ask) fun ask => ?_
    refine .bind ((binary_triple .add Listed.head.tail .head).conseq (fun _ _ _ h => h)
      fun _ _ _ _ => hdrop) fun sum => ?_
    refine (binary_triple .mul .head (.inr rfl)).conseq (fun _ _ _ h => h) fun a s A f h => ?_
    exact h.relist fun p hp => .inl <| by
      simp only [List.mem_cons] at hp ⊢
      exact hp.imp_right .inr
  | spread =>
    simp only [liftScalar_bind, liftScalar_build]
    refine .bind (load_triple symbol .bid) fun bid => .bind (load_triple symbol .ask) fun ask => ?_
    exact (binary_triple .sub .head Listed.head.tail).conseq (fun _ _ _ h => h)
      fun _ _ _ _ => hdrop

/-- A market read of the code is one of the evaluator. -/
theorem emitMarket_triple {env : EmitEnv} (fn : MarketFn) {name label : String}
    {args : List (Expr D)} {nodeId sid : Int} {id : Nat}
    (h : Interpreter.resolveSymbolSlot env.symbols label args sid = .ok id) :
    Triple X.machine GradInstr.names (InStep X Γ fs)
      (liftScalar (emitMarket env fn ⟨name, emitArgs env false args, nodeId, sid⟩))
      fun a => InStep X ((a, (X.market id).read fn) :: Γ) fs := by
  unfold emitMarket
  rcases args with _ | ⟨a, _ | ⟨b, rest⟩⟩
  · exact .throw _ _
  · dsimp only [emitArgs]
    cases hticker : a.asIdentifier with
    | none => exact .throw _ _
    | some ticker =>
      have hsame : emitSymbol env sid ticker = .ok id := by
        unfold emitSymbol
        unfold Interpreter.resolveSymbolSlot at h
        split at h
        · rw [if_pos ‹_›]
          exact h
        · rw [if_neg ‹_›]
          rw [if_neg (fun hc => hc.1 rfl)] at h
          dsimp only at h
          rw [hticker] at h
          exact h
      dsimp only
      rw [hsame, EmitM.lift_ok_eq, EmitM.pure_bind]
      exact marketValue_triple fn id
  · exact .throw _ _

theorem param_triple {name : String} {id : Int} {env : EmitEnv} {loc : SourceLoc}
    (hx : paramValue X.params id = some x) :
    Triple X.machine GradInstr.names (InStep X Γ fs) (emitValueGradient env (.parameterExpr loc name id))
      fun ir => InStep X
        (listPair ir ⟨x, if id = X.target then ofNat 1 else ofNat 0⟩ Γ) fs := by
  rw [emitValueGradient]
  split
  · exact .throw _ _
  · refine .bind (build_triple (x := x) (fun _ => rfl) fun n s A f h => ?_) fun w =>
      .bind (build_triple (x := if id = X.target then ofNat 1 else ofNat 0) (fun _ => rfl)
        fun n s A f h => ?_) fun g =>
          done_triple Listed.head.tail .head fun p hp => .tail _ (.tail _ hp)
    · have hparams : f.scalar.ctx.params = X.params := h.states.codeParams
      unfold GradInstr.exec Instr.exec
      dsimp only
      rw [hparams, hx]
      rfl
    · unfold GradInstr.exec
      dsimp only
      simp only [eq_comm]

end Triples

end JitSignalEngine
