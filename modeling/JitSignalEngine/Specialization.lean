import JitSignalEngine.Execution

/-!
# Tier promotion

`TieredProgramJit` starts with the baseline program and later switches to a program compiled
with `assume_warm`, in which `sma`, `ema` and `lag` skip the guards on their lowered states.

* `computeProgramWarmupThreshold` — how many ticks the baseline program has to run first.
* `emitProgram_specialized` — the program with `assume_warm` is the baseline program with the
  operators outside branches replaced (`Instr.specialize`), and every operator in it belongs to a
  call of the signals (`OperatorOf`).
* `LoweredSlot.fill` — how far the state of such an operator is filled. One execution fills it
  by one (`emittedStep_fill`), and once it is full the guards decide nothing
  (`emittedStep_warm`).
* `promotion_invisible` — an operator outside branches is executed at every tick, so from the
  threshold on the two programs write the same.
-/

namespace JitSignalEngine

open Fp Widen EmitM

variable {D L : Type}

/-! ## The threshold -/

section Threshold

variable [Fp D]

/-- What a call asks for: `op_threshold`. -/
def Call.warmup (c : Call D) : Int :=
  match Builtin.ofName c.name, c.args with
  | some (.stateful .emaAlpha), _ :: _ :: _ => 1
  | some (.stateful .ema), _ :: period :: _ => if period.asNumber.isSome then 1 else 0
  | some (.stateful .sma), _ :: period :: _ | some (.stateful .lag), _ :: period :: _
  | some (.stateful .rollingStd), _ :: period :: _ | some (.stateful .rollingMin), _ :: period :: _
  | some (.stateful .rollingMax), _ :: period :: _ | some (.stateful .zscore), _ :: period :: _
  | some (.stateful .vwap), _ :: period :: _ =>
    match period.asNumber with
    | some v => toInt v
    | none => 0
  | _, _ => 0

/-- `ComputeProgramWarmupThreshold` -/
def computeProgramWarmupThreshold (signals : List (SignalDef D)) : Int :=
  (signals.flatMap fun s => s.body.calls).foldl
    (fun threshold c => if threshold < c.warmup then c.warmup else threshold) 0

/-- The threshold is enough for every call. -/
theorem warmup_le_threshold {signals : List (SignalDef D)} {c : Call D}
    (hc : c ∈ signals.flatMap fun s => s.body.calls) :
    c.warmup ≤ computeProgramWarmupThreshold signals := by
  unfold computeProgramWarmupThreshold
  generalize (signals.flatMap fun s => s.body.calls) = cs at hc
  have hmono : ∀ (cs : List (Call D)) (t : Int), t ≤ cs.foldl
      (fun threshold c => if threshold < c.warmup then c.warmup else threshold) t := by
    intro cs
    induction cs with
    | nil => exact fun t => le_refl t
    | cons d cs ih =>
      intro t
      refine le_trans ?_ (ih _)
      dsimp only
      split <;> omega
  generalize (0 : Int) = t
  induction cs generalizing t with
  | nil => exact absurd hc List.not_mem_nil
  | cons d cs ih =>
    rcases List.mem_cons.mp hc with rfl | hc
    · refine le_trans ?_ (hmono cs _)
      dsimp only
      split <;> omega
    · exact ih hc _

end Threshold

/-! ## The specialized program -/

/-- The variant of an instruction without guards, where there is one. -/
def Instr.specialize : Instr D → Instr D
  | .operator dst op _ nodeId args =>
    .operator dst op (op.impl == .lowered && op.fn.hasWarmVariant) nodeId args
  | i => i

/-- What `assume_warm` makes of code, by whether it stands in a branch. -/
def specializeAt (inBranch : Bool) (c : Code (Instr D)) : Code (Instr D) :=
  if inBranch then c else c.mapOuter Instr.specialize

/-- An operator of the baseline program, of which `T` holds. -/
def Instr.Drawn (T : StatefulOp D → Int → Prop) : Instr D → Prop
  | .operator _ op warm nodeId _ => warm = false ∧ T op nodeId
  | _ => True

/-- **`m'` is the specialization of `m`**, and `T` holds of the operators. -/
def Specializes {α : Type} (T : StatefulOp D → Int → Prop) (inBranch : Bool) (m m' : EmitM D α) :
    Prop :=
  ∀ cg r, m cg = .ok r →
    m' cg = .ok ⟨r.value, specializeAt inBranch r.code, r.cg⟩ ∧ ∀ i ∈ r.code.instrs, i.Drawn T

theorem specializeAt_append (b : Bool) (c d : Code (Instr D)) :
    specializeAt b (c.append d) = (specializeAt b c).append (specializeAt b d) := by
  cases b with
  | true => rfl
  | false => exact Code.mapOuter_append _ c d

namespace Specializes

variable {α β : Type} {T : StatefulOp D → Int → Prop} {b : Bool}

/-- Emission without code. -/
theorem of_done {m : EmitM D α} (h : ∀ cg r, m cg = .ok r → r.code = .done) :
    Specializes T b m m := by
  intro cg r hr
  have hcode := h cg r hr
  refine ⟨?_, fun i hi => ?_⟩
  · rw [hr, hcode]
    cases b <;> rw [show r = ⟨r.value, .done, r.cg⟩ by rw [← hcode]] <;> rfl
  · rw [hcode] at hi
    exact absurd hi List.not_mem_nil

theorem pure (a : α) : Specializes T b (Pure.pure a : EmitM D α) (Pure.pure a) :=
  of_done fun cg r h => by rw [pure_ok.mp h]

theorem throw (e : String) : Specializes T b (EmitM.throw e : EmitM D α) (EmitM.throw e) :=
  fun _ _ h => (nomatch h)

theorem lift (v : Except String α) : Specializes T b (EmitM.lift v : EmitM D α) (EmitM.lift v) :=
  of_done fun cg r h => by
    obtain ⟨a, -, rfl⟩ := lift_ok.mp h
    rfl

theorem modify (f : CodegenContext D → CodegenContext D) :
    Specializes T b (EmitM.modify f) (EmitM.modify f) :=
  of_done fun cg r h => by rw [modify_ok.mp h]

/-- One after the other. -/
theorem bind {m m' : EmitM D α} {f f' : α → EmitM D β} (hm : Specializes T b m m')
    (hf : ∀ a, Specializes T b (f a) (f' a)) : Specializes T b (m >>= f) (m' >>= f') := by
  intro cg r hr
  obtain ⟨r₁, r₂, h₁, h₂, rfl⟩ := bind_ok.mp hr
  obtain ⟨h₁', hd₁⟩ := hm cg r₁ h₁
  obtain ⟨h₂', hd₂⟩ := hf r₁.value r₁.cg r₂ h₂
  refine ⟨bind_ok.mpr ⟨_, _, h₁', h₂', ?_⟩, fun i hi => ?_⟩
  · rw [specializeAt_append]
  · rw [Code.instrs_append] at hi
    rcases List.mem_append.mp hi with hi | hi
    · exact hd₁ i hi
    · exact hd₂ i hi

/-- One instruction. -/
theorem build {i i' : Nat → Instr D} (hd : ∀ dst, (i dst).Drawn T)
    (hi : ∀ dst, specializeAt b (.instr (i dst) .done) = .instr (i' dst) .done) :
    Specializes T b (EmitM.build i) (EmitM.build i') := by
  intro cg r hr
  obtain rfl := build_ok.mp hr
  refine ⟨build_ok.mpr ?_, fun k hk => ?_⟩
  · rw [hi]
  · rw [List.mem_singleton.mp hk]
    exact hd _

/-- An instruction that is no operator. -/
theorem build_plain {i : Nat → Instr D} (hi : ∀ dst, (i dst).specialize = i dst)
    (hd : ∀ dst, (i dst).Drawn T) : Specializes T b (EmitM.build i) (EmitM.build i) := by
  refine build hd fun dst => ?_
  cases b with
  | true => rfl
  | false => exact congrArg (Code.instr · .done) (hi dst)

theorem emit {i : Instr D} (hi : i.specialize = i) (hd : i.Drawn T) :
    Specializes T b (EmitM.emit i) (EmitM.emit i) := by
  intro cg r hr
  obtain rfl := emit_ok.mp hr
  refine ⟨?_, fun k hk => ?_⟩
  · cases b with
    | true => rfl
    | false => exact congrArg (fun i => Except.ok (⟨(), .instr i .done, cg⟩ : Emitted D Unit)) hi.symm
  · rw [List.mem_singleton.mp hk]
    exact hd

theorem reuse (v : Operand D) : Specializes T b (EmitM.reuse v) (EmitM.reuse v) := by
  cases v with
  | const v => exact pure _
  | reg n => exact (emit (i := .reuse (.reg n)) rfl trivial).bind fun _ => pure _

/-- The branches of a conditional are not specialized. -/
theorem branch (cond : Operand D) {mt mt' me me' : EmitM D (Operand D)}
    (ht : Specializes T true mt mt') (he : Specializes T true me me') :
    Specializes T b (EmitM.branch cond mt me) (EmitM.branch cond mt' me') := by
  intro cg r hr
  obtain ⟨t, e, ht₁, he₁, rfl⟩ := branch_ok.mp hr
  obtain ⟨ht', hdt⟩ := ht cg t ht₁
  obtain ⟨he', hde⟩ := he t.cg e he₁
  refine ⟨branch_ok.mpr ⟨_, _, ht', he', ?_⟩, fun i hi => ?_⟩
  · cases b <;> rfl
  · simp only [Code.instrs, List.append_nil, List.mem_append] at hi
    exact hi.elim (hdt i) (hde i)

theorem emitMarketFieldLoad (symbol : Nat) (field : MarketField) :
    Specializes T b (JitSignalEngine.emitMarketFieldLoad symbol field)
      (JitSignalEngine.emitMarketFieldLoad symbol field : EmitM D (Operand D)) := by
  intro cg r hr
  unfold JitSignalEngine.emitMarketFieldLoad at hr ⊢
  split at hr
  · exact reuse _ cg r hr
  · exact ((build_plain (i := fun dst => .loadField dst symbol field) (fun _ => rfl)
      fun _ => trivial).bind fun _ => (modify _).bind fun _ => pure _) cg r hr

theorem loadLoweredBaseField (flag : LoweringFlag) :
    Specializes T b (JitSignalEngine.loadLoweredBaseField flag)
      (JitSignalEngine.loadLoweredBaseField flag : EmitM D Unit) := by
  intro cg r hr
  unfold JitSignalEngine.loadLoweredBaseField at hr ⊢
  split at hr
  · rw [if_pos ‹_›]
    exact emit (i := .reuse (.base flag)) rfl trivial cg r hr
  · rw [if_neg ‹_›]
    exact modify (fun cg => { cg with bases := flag :: cg.bases }) cg r hr

theorem cacheStateful (nodeId : Int) (v : Operand D) :
    Specializes T b (JitSignalEngine.cacheStateful nodeId v)
      (JitSignalEngine.cacheStateful nodeId v) :=
  (modify _).bind fun _ => pure _

end Specializes

/-! ## Emission with and without `assume_warm` -/

/-- The same environment, for the specialized program. -/
def EmitEnv.assumingWarm (env : EmitEnv) : EmitEnv := { env with assumeWarm := true }

/-- The choice of an implementation does not look at the flag. -/
theorem EmitEnv.impl_assumingWarm [Fp D] (env : EmitEnv) (fn : StatefulFn)
    (literals : List (Option D)) : env.assumingWarm.impl fn literals = env.impl fn literals := rfl

/-- The operator of a call of the list. An operator that has a variant without guards takes its
window from the literal behind the series. -/
def OperatorOf [Fp D] (cs : List (Call D)) (op : StatefulOp D) (nodeId : Int) : Prop :=
  ∃ c ∈ cs, c.nodeId = nodeId ∧ Builtin.ofName c.name = some (.stateful op.fn) ∧
    (op.fn.hasWarmVariant = true → ∃ series window v, c.args = [series, window] ∧
      window.asNumber = some v ∧ literalPeriod v ≠ none ∧ op.literal = some v)

namespace Specializes

variable [Fp D] {env : EmitEnv} {cs : List (Call D)} {b : Bool}

omit [Fp D] in
theorem emitBase {T : StatefulOp D → Int → Prop} (op : StatefulOp D) :
    Specializes T b (JitSignalEngine.emitBase env op)
      (JitSignalEngine.emitBase env.assumingWarm op) := by
  unfold JitSignalEngine.emitBase
  split
  · by_cases hv : env.vectorized = true
    · rw [if_pos hv, if_pos (show env.assumingWarm.vectorized = true from hv)]
      exact pure ()
    · rw [if_neg hv, if_neg (show ¬ env.assumingWarm.vectorized = true from hv)]
      exact loadLoweredBaseField _
  · exact pure ()

/-- A stateful operator. -/
theorem emitOperator (hbase : env.assumeWarm = false) {op : StatefulOp D} {c : Call D}
    (hpos : 0 < c.nodeId) (hop : OperatorOf cs op c.nodeId) (args : List (Operand D)) :
    Specializes (OperatorOf cs) b (JitSignalEngine.emitOperator env op b c.nodeId args)
      (JitSignalEngine.emitOperator env.assumingWarm op b c.nodeId args) := by
  have hget : (getNodeId c.nodeId : EmitM D Int) = Pure.pure c.nodeId := by
    funext cg
    exact if_pos hpos
  have hcold : env.warm op b = false := by rw [EmitEnv.warm, hbase]; rfl
  unfold JitSignalEngine.emitOperator
  rw [hget, pure_bind, pure_bind, hcold]
  refine (emitBase op).bind fun _ => (build
    (i := fun dst => .operator dst op false c.nodeId args) (fun _ => ⟨rfl, hop⟩)
    fun dst => ?_).bind fun v => cacheStateful _ v
  cases b with
  | true => simp [specializeAt, EmitEnv.warm]
  | false => simp [specializeAt, Code.mapOuter, Instr.specialize, EmitEnv.warm, EmitEnv.assumingWarm]

omit [Fp D] in
/-- A check, and what follows when it passes. -/
theorem lift_bind {T : StatefulOp D → Int → Prop} {α β : Type} {v : Except String α}
    {f f' : α → EmitM D β} (hf : ∀ a, v = .ok a → Specializes T b (f a) (f' a)) :
    Specializes T b (EmitM.lift v >>= f) (EmitM.lift v >>= f') := by
  cases v with
  | error e =>
    rw [lift_error_eq, throw_bind, throw_bind]
    exact throw e
  | ok a =>
    rw [lift_ok_eq, pure_bind, pure_bind]
    exact hf a rfl

theorem emitMarketValue {T : StatefulOp D → Int → Prop} (fn : MarketFn) (symbol : Nat) :
    Specializes T b (JitSignalEngine.emitMarketValue fn symbol)
      (JitSignalEngine.emitMarketValue fn symbol : EmitM D (Operand D)) := by
  have hbinary : ∀ (kind : BinaryOpKind) (x y : Operand D), Specializes T b
      (EmitM.build fun dst => .binary dst kind x y) (EmitM.build fun dst => .binary dst kind x y) :=
    fun kind x y => build_plain (i := fun dst => .binary dst kind x y) (fun _ => rfl)
      fun _ => trivial
  cases fn with
  | bid => exact emitMarketFieldLoad symbol .bid
  | ask => exact emitMarketFieldLoad symbol .ask
  | mid =>
    exact (emitMarketFieldLoad symbol .bid).bind fun x => (emitMarketFieldLoad symbol .ask).bind
      fun y => (hbinary .add x y).bind fun sum => hbinary .mul sum _
  | spread =>
    exact (emitMarketFieldLoad symbol .bid).bind fun x => (emitMarketFieldLoad symbol .ask).bind
      fun y => hbinary .sub y x

omit [Fp D] in
theorem emitVwapLoads {T : StatefulOp D → Int → Prop} (symbol : Nat) :
    Specializes T b (JitSignalEngine.emitVwapLoads env symbol)
      (JitSignalEngine.emitVwapLoads env.assumingWarm symbol : EmitM D (List (Operand D))) := by
  have hload : ∀ field, Specializes T b
      (EmitM.build fun dst => .loadField dst symbol field : EmitM D (Operand D))
      (EmitM.build fun dst => .loadField dst symbol field) :=
    fun field => build_plain (i := fun dst => .loadField dst symbol field) (fun _ => rfl)
      fun _ => trivial
  unfold JitSignalEngine.emitVwapLoads
  by_cases hv : env.vectorized = true
  · rw [if_pos hv, if_pos (show env.assumingWarm.vectorized = true from hv)]
    exact (hload .bid).bind fun _ => (hload .ask).bind fun _ => (hload .volume).bind fun _ => pure _
  · rw [if_neg hv, if_neg (show ¬ env.assumingWarm.vectorized = true from hv)]
    exact (emitMarketFieldLoad symbol .bid).bind fun _ => (emitMarketFieldLoad symbol .ask).bind
      fun _ => (emitMarketFieldLoad symbol .volume).bind fun _ => pure _

variable (hbase : env.assumeWarm = false) (hids : ConsistentIds cs) {c : Call D} (hc : c ∈ cs)

include hbase hids hc

/-- The operator of a call of the list. -/
theorem operatorOf {op : StatefulOp D} (hname : Builtin.ofName c.name = some (.stateful op.fn))
    (hwindow : op.fn.hasWarmVariant = true → ∃ series window v, c.args = [series, window] ∧
      window.asNumber = some v ∧ literalPeriod v ≠ none ∧ op.literal = some v)
    (xs : List (Operand D)) :
    Specializes (OperatorOf cs) b (JitSignalEngine.emitOperator env op b c.nodeId xs)
      (JitSignalEngine.emitOperator env.assumingWarm op b c.nodeId xs) :=
  emitOperator hbase (hids.stateful c hc (isStatefulOp_iff.mpr ⟨op.fn, hname⟩))
    ⟨c, hc, rfl, hname, hwindow⟩ xs

/-- The operator of a call of the list that has one variant only. -/
theorem coldOperatorOf {op : StatefulOp D} (hname : Builtin.ofName c.name = some (.stateful op.fn))
    (hcold : op.fn.hasWarmVariant = false) (xs : List (Operand D)) :
    Specializes (OperatorOf cs) b (JitSignalEngine.emitOperator env op b c.nodeId xs)
      (JitSignalEngine.emitOperator env.assumingWarm op b c.nodeId xs) :=
  operatorOf hbase hids hc hname (fun h => absurd (hcold.symm.trans h) Bool.false_ne_true) xs

variable (hargs : ∀ a ∈ c.args, Specializes (OperatorOf cs) b (JitSignalEngine.emitExpr env b a)
    (JitSignalEngine.emitExpr env.assumingWarm b a))

include hargs

omit hbase hids hc hargs in
/-- A window that passes its check. -/
theorem emitPeriod_ok {name : String} {window : Expr D} {v : D} (h : emitPeriod name window = .ok v) :
    window.asNumber = some v ∧ literalPeriod v ≠ none := by
  unfold emitPeriod at h
  rcases hv : window.asNumber with _ | u
  · rw [hv] at h
    cases h
  · rw [hv] at h
    dsimp only at h
    rcases hp : literalPeriod u with _ | period
    · rw [hp] at h
      cases h
    · rw [hp] at h
      cases h
      exact ⟨rfl, by rw [hp]; exact Option.some_ne_none _⟩

omit hbase hids hc hargs in
variable (env b c) in
/-- A call whose arguments are emitted in `env`. -/
def emittedCall : EmitCall D :=
  ⟨c.name, c.args.map fun a => ⟨a, JitSignalEngine.emitExpr env b a⟩, c.nodeId, c.symbolId⟩

/-- The operators of one series and a window. -/
theorem emitWindowed {fn : StatefulFn} (hname : Builtin.ofName c.name = some (.stateful fn)) :
    Specializes (OperatorOf cs) b
      (JitSignalEngine.emitWindowed env fn b (emittedCall env b c))
      (JitSignalEngine.emitWindowed env.assumingWarm fn b (emittedCall env.assumingWarm b c)) := by
  unfold JitSignalEngine.emitWindowed emittedCall
  -- with too few or too many arguments both throw
  rcases hc' : c.args with _ | ⟨series, _ | ⟨window, _ | ⟨extra, rest⟩⟩⟩
  · exact throw _
  · exact throw _
  · simp only [EmitCall.literals, List.map_cons, List.map_nil, EmitEnv.impl_assumingWarm]
    refine lift_bind fun v hv => ?_
    split
    · exact throw _
    · refine (hargs series (by simp [hc'])).bind fun x => operatorOf hbase hids hc hname ?_ [x]
      obtain ⟨hv, hper⟩ := emitPeriod_ok hv
      exact fun _ => ⟨series, window, v, hc', hv, hper, rfl⟩
  · exact throw _

/-- `cross_above` and `cross_below`. -/
theorem emitCross {fn : StatefulFn} (hname : Builtin.ofName c.name = some (.stateful fn))
    (hcold : fn.hasWarmVariant = false) :
    Specializes (OperatorOf cs) b
      (JitSignalEngine.emitCross env fn b (emittedCall env b c))
      (JitSignalEngine.emitCross env.assumingWarm fn b (emittedCall env.assumingWarm b c)) := by
  unfold JitSignalEngine.emitCross emittedCall
  rcases hc' : c.args with _ | ⟨first, _ | ⟨second, _ | ⟨extra, rest⟩⟩⟩
  · exact throw _
  · exact throw _
  · simp only [EmitCall.literals, List.map_cons, List.map_nil, EmitEnv.impl_assumingWarm]
    exact (hargs first (by simp [hc'])).bind fun x => (hargs second (by simp [hc'])).bind fun y =>
      coldOperatorOf hbase hids hc hname hcold _
  · exact throw _

/-- `rolling_corr` and `rolling_beta`. -/
theorem emitPair {fn : StatefulFn} (hname : Builtin.ofName c.name = some (.stateful fn))
    (hcold : fn.hasWarmVariant = false) :
    Specializes (OperatorOf cs) b
      (JitSignalEngine.emitPair env fn b (emittedCall env b c))
      (JitSignalEngine.emitPair env.assumingWarm fn b (emittedCall env.assumingWarm b c)) := by
  unfold JitSignalEngine.emitPair emittedCall
  rcases hc' : c.args with _ | ⟨first, _ | ⟨second, _ | ⟨window, _ | ⟨extra, rest⟩⟩⟩⟩
  · exact throw _
  · exact throw _
  · exact throw _
  · simp only [EmitCall.literals, List.map_cons, List.map_nil, EmitEnv.impl_assumingWarm]
    exact lift_bind fun v _ => (hargs first (by simp [hc'])).bind fun x =>
      (hargs second (by simp [hc'])).bind fun y => coldOperatorOf hbase hids hc hname hcold _
  · exact throw _

omit hargs in
/-- `vwap` -/
theorem emitVwap (hname : Builtin.ofName c.name = some (.stateful .vwap)) :
    Specializes (OperatorOf cs) b
      (JitSignalEngine.emitVwap env b (emittedCall env b c))
      (JitSignalEngine.emitVwap env.assumingWarm b (emittedCall env.assumingWarm b c)) := by
  unfold JitSignalEngine.emitVwap emittedCall
  rcases hc' : c.args with _ | ⟨arg, _ | ⟨window, _ | ⟨extra, rest⟩⟩⟩
  · exact throw _
  · exact throw _
  · simp only [List.map_cons, List.map_nil]
    cases arg.asIdentifier with
    | none => exact throw _
    | some ticker =>
      refine lift_bind fun v _ => lift_bind fun symbol _ => ?_
      simp only [EmitCall.literals, List.map_cons, List.map_nil, EmitEnv.impl_assumingWarm]
      cases env.impl .vwap [arg.asNumber, window.asNumber] with
      | lowered =>
        exact (emitVwapLoads symbol).bind fun loads =>
          coldOperatorOf hbase hids hc hname (by rfl) loads
      | runtime | avx2 =>
        exact (pure []).bind fun loads => coldOperatorOf hbase hids hc hname (by rfl) loads
  · exact throw _

/-- `ema_alpha` -/
theorem emitEmaAlpha (hname : Builtin.ofName c.name = some (.stateful .emaAlpha)) :
    Specializes (OperatorOf cs) b
      (JitSignalEngine.emitEmaAlpha env b (emittedCall env b c))
      (JitSignalEngine.emitEmaAlpha env.assumingWarm b (emittedCall env.assumingWarm b c)) := by
  unfold JitSignalEngine.emitEmaAlpha emittedCall
  rcases hc' : c.args with _ | ⟨series, _ | ⟨factor, _ | ⟨extra, rest⟩⟩⟩
  · exact throw _
  · exact throw _
  · exact (hargs series (by simp [hc'])).bind fun x => (hargs factor (by simp [hc'])).bind fun y =>
      coldOperatorOf hbase hids hc hname (by rfl) _
  · exact throw _

/-- `kalman1d` -/
theorem emitKalman1d (hname : Builtin.ofName c.name = some (.stateful .kalman1d)) :
    Specializes (OperatorOf cs) b
      (JitSignalEngine.emitKalman1d env b (emittedCall env b c))
      (JitSignalEngine.emitKalman1d env.assumingWarm b (emittedCall env.assumingWarm b c)) := by
  unfold JitSignalEngine.emitKalman1d emittedCall
  rcases hc' : c.args with _ | ⟨x, _ | ⟨q, _ | ⟨r, _ | ⟨extra, rest⟩⟩⟩⟩
  · exact throw _
  · exact throw _
  · exact throw _
  · simp only [EmitCall.literals, List.map_cons, List.map_nil, EmitEnv.impl_assumingWarm]
    exact (hargs x (by simp [hc'])).bind fun x => (hargs q (by simp [hc'])).bind fun q =>
      (hargs r (by simp [hc'])).bind fun r => coldOperatorOf hbase hids hc hname (by rfl) _
  · exact throw _

/-- **A stateful call past the cache.** -/
theorem emitStateful {fn : StatefulFn} (hname : Builtin.ofName c.name = some (.stateful fn)) :
    Specializes (OperatorOf cs) b
      (JitSignalEngine.emitStateful env fn b ⟨c.name, emitArgs env b c.args, c.nodeId, c.symbolId⟩)
      (JitSignalEngine.emitStateful env.assumingWarm fn b
        ⟨c.name, emitArgs env.assumingWarm b c.args, c.nodeId, c.symbolId⟩) := by
  rw [emitArgs_eq_map, emitArgs_eq_map]
  cases fn with
  | sma | ema | lag | rollingStd | zscore | rollingMin | rollingMax =>
    exact emitWindowed hbase hids hc hargs hname
  | crossAbove | crossBelow => exact emitCross hbase hids hc hargs hname rfl
  | rollingCorr | rollingBeta => exact emitPair hbase hids hc hargs hname rfl
  | vwap => exact emitVwap hbase hids hc hname
  | emaAlpha => exact emitEmaAlpha hbase hids hc hargs hname
  | kalman1d => exact emitKalman1d hbase hids hc hargs hname

/-- **A call past the cache.** -/
theorem emitDispatch :
    Specializes (OperatorOf cs) b
      (JitSignalEngine.emitDispatch env b ⟨c.name, emitArgs env b c.args, c.nodeId, c.symbolId⟩)
      (JitSignalEngine.emitDispatch env.assumingWarm b
        ⟨c.name, emitArgs env.assumingWarm b c.args, c.nodeId, c.symbolId⟩) := by
  unfold JitSignalEngine.emitDispatch
  rcases hname : Builtin.ofName c.name with _ | fn | fn | fn
  · exact throw _
  · -- `mid`, `bid`, `ask` and `spread`
    rw [emitArgs_eq_map, emitArgs_eq_map]
    unfold JitSignalEngine.emitMarket
    rcases c.args with _ | ⟨a, _ | ⟨a', as⟩⟩
    · exact throw _
    · simp only [List.map_cons, List.map_nil]
      cases a.asIdentifier with
      | none => exact throw _
      | some ticker => exact (lift _).bind fun symbol => emitMarketValue fn symbol
    · exact throw _
  · -- `abs`, `sqrt` and `log`
    rw [emitArgs_eq_map, emitArgs_eq_map]
    unfold JitSignalEngine.emitMath
    rcases hc' : c.args with _ | ⟨a, _ | ⟨a', as⟩⟩
    · exact throw _
    · exact (hargs a (by simp [hc'])).bind fun x =>
        build_plain (i := fun dst => .math dst fn x) (fun _ => rfl) fun _ => trivial
    · exact throw _
  · exact emitStateful hbase hids hc hargs hname

/-- **A call.** -/
theorem emitCall :
    Specializes (OperatorOf cs) b
      (JitSignalEngine.emitCall env b ⟨c.name, emitArgs env b c.args, c.nodeId, c.symbolId⟩)
      (JitSignalEngine.emitCall env.assumingWarm b
        ⟨c.name, emitArgs env.assumingWarm b c.args, c.nodeId, c.symbolId⟩) := by
  intro cg r hr
  unfold JitSignalEngine.emitCall at hr ⊢
  dsimp only at hr ⊢
  cases hcache : (if 0 < c.nodeId then cg.statefulEmitCache c.nodeId else none) with
  | some v =>
    rw [hcache] at hr
    exact reuse v cg r hr
  | none =>
    rw [hcache] at hr
    exact emitDispatch hbase hids hc hargs cg r hr

omit hc hargs in
/-- **An expression.** -/
theorem emitExpr (hscalar : env.vectorized = false) (e : Expr D) : ∀ b : Bool,
    (∀ c ∈ e.calls, c ∈ cs) → Specializes (OperatorOf cs) b (JitSignalEngine.emitExpr env b e)
      (JitSignalEngine.emitExpr env.assumingWarm b e) := by
  induction e using Expr.induct with
  | numberLiteral loc v => exact fun b _ => pure _
  | identifierExpr loc n =>
    intro b _ cg r hr
    unfold JitSignalEngine.emitExpr at hr ⊢
    cases hv : cg.signalValues n with
    | some v =>
      rw [hv] at hr
      exact reuse v cg r hr
    | none =>
      rw [hv] at hr
      cases hr
  | parameterExpr loc n id =>
    intro b _
    unfold JitSignalEngine.emitExpr
    split
    · exact throw _
    · exact build_plain (i := fun dst => .param dst id) (fun _ => rfl) fun _ => trivial
  | unaryOp loc k e ih =>
    intro b h
    unfold JitSignalEngine.emitExpr
    refine (ih b h).bind fun v => ?_
    cases k with
    | plus => exact pure v
    | minus => exact build_plain (i := fun dst => .neg dst v) (fun _ => rfl) fun _ => trivial
  | binaryOp loc k l r ihl ihr =>
    intro b h
    unfold JitSignalEngine.emitExpr
    exact (ihl b fun c hc => h c (List.mem_append_left _ hc)).bind fun x =>
      (ihr b fun c hc => h c (List.mem_append_right _ hc)).bind fun y =>
        build_plain (i := fun dst => .binary dst k x y) (fun _ => rfl) fun _ => trivial
  | conditional loc c t e ihc iht ihe =>
    intro b h
    unfold JitSignalEngine.emitExpr
    simp only [Expr.calls, List.mem_append] at h
    refine (ihc b fun c hc => h c (.inl (.inl hc))).bind fun cond => ?_
    rw [hscalar, show env.assumingWarm.vectorized = false from hscalar, if_neg Bool.false_ne_true,
      if_neg Bool.false_ne_true]
    exact branch cond (iht true fun c hc => h c (.inl (.inr hc)))
      (ihe true fun c hc => h c (.inr hc))
  | functionCall loc n args nid sid ih =>
    intro b h
    unfold JitSignalEngine.emitExpr
    exact emitCall (c := ⟨n, args, nid, sid⟩) hbase hids (h _ List.mem_cons_self) fun a ha =>
      ih a ha b fun c hc => h c (List.mem_cons_of_mem _ (Expr.mem_callsArgs.mpr ⟨a, ha, hc⟩))

end Specializes

/-! ### Programs -/

section Programs

variable [Fp D] {env : EmitEnv} {cs : List (Call D)}

theorem specializes_prewarm (tickers : List String) :
    Specializes (OperatorOf cs) false (prewarmProgramMarketLoads env tickers : EmitM D Unit)
      (prewarmProgramMarketLoads env.assumingWarm tickers) := by
  induction tickers with
  | nil => exact .pure ()
  | cons ticker rest ih =>
    exact (Specializes.lift _).bind fun symbol => (Specializes.emitMarketFieldLoad symbol .bid).bind
      fun _ => (Specializes.emitMarketFieldLoad symbol .ask).bind fun _ => ih

theorem specializes_emitSignals (hbase : env.assumeWarm = false) (hscalar : env.vectorized = false)
    (hids : ConsistentIds cs) {signals : List (SignalDef D)}
    (hcs : ∀ s ∈ signals, ∀ c ∈ s.body.calls, c ∈ cs) (i : Nat) :
    Specializes (OperatorOf cs) false (emitSignals env signals i)
      (emitSignals env.assumingWarm signals i) := by
  induction signals generalizing i with
  | nil => exact .pure ()
  | cons s rest ih =>
    exact (Specializes.emitExpr hbase hids hscalar s.body false (hcs s List.mem_cons_self)).bind
      fun v => (Specializes.modify _).bind fun _ =>
        (Specializes.emit (i := .store i v) rfl trivial).bind fun _ =>
          ih (fun t ht => hcs t (List.mem_cons_of_mem _ ht)) (i + 1)

/-- **The specialized program** is the baseline program with operators outside branches
replaced. -/
theorem emitProgram_specialized (hbase : env.assumeWarm = false)
    (hscalar : env.vectorized = false) {signals : List (SignalDef D)}
    (hids : ConsistentIds (signals.flatMap fun s => s.body.calls)) {code : Code (Instr D)}
    (h : emitProgram env signals = .ok code) :
    emitProgram env.assumingWarm signals = .ok (code.mapOuter Instr.specialize) ∧
      ∀ i ∈ code.instrs, i.Drawn (OperatorOf (signals.flatMap fun s => s.body.calls)) := by
  unfold emitProgram at h ⊢
  have hemit : Specializes (OperatorOf (signals.flatMap fun s => s.body.calls)) false
      (prewarmProgramMarketLoads env (signals.flatMap fun s => collectTickerSymbols s.body) >>=
        fun _ => emitSignals env signals 0)
      (prewarmProgramMarketLoads env.assumingWarm
        (signals.flatMap fun s => collectTickerSymbols s.body) >>=
        fun _ => emitSignals env.assumingWarm signals 0) :=
    (specializes_prewarm _).bind fun _ => specializes_emitSignals hbase hscalar hids
      (fun s hs c hc => List.mem_flatMap.mpr ⟨s, hs, hc⟩) 0
  split at h
  · cases h
  · rename_i r hr
    cases h
    obtain ⟨hwarm, hdrawn⟩ := hemit _ r hr
    have hhoisted : ∀ flags, (hoistedCode flags : Code (Instr D)).mapOuter Instr.specialize =
        hoistedCode flags ∧ ∀ i ∈ (hoistedCode flags : Code (Instr D)).instrs, i.Drawn
          (OperatorOf (signals.flatMap fun s => s.body.calls)) := by
      intro flags
      induction flags with
      | nil => exact ⟨rfl, fun i hi => absurd hi List.not_mem_nil⟩
      | cons flag flags ih =>
        refine ⟨by rw [hoistedCode, Code.mapOuter, ih.1]; rfl, fun i hi => ?_⟩
        rcases List.mem_cons.mp hi with rfl | hi
        · trivial
        · exact ih.2 i hi
    refine ⟨?_, fun i hi => ?_⟩
    · rw [hwarm, Code.mapOuter, Code.mapOuter_append, (hhoisted _).1]
      rfl
    · rcases List.mem_cons.mp hi with rfl | hi
      · trivial
      · rw [Code.instrs_append] at hi
        exact (List.mem_append.mp hi).elim ((hhoisted _).2 i) (hdrawn i)

end Programs

/-! ## Filled states -/

/-- How far the lowered state of an operator is filled. -/
def LoweredSlot.fill (slot : LoweredSlot D) : StatefulFn → Nat
  | .sma => slot.sma.count
  | .lag => slot.lag.count
  | .ema => if slot.ema.initialized then 1 else 0
  | _ => 0

section Fill

variable [Fp D]

/-- When the guards of an operator decide nothing any more. -/
def StatefulOp.fullAt (op : StatefulOp D) : Nat :=
  match op.fn with
  | .sma | .lag => op.period
  | .ema => 1
  | _ => 0

theorem loweredSma_count {period : Nat} {st : SmaStateLowered D} (x : D) (hle : st.count ≤ period) :
    (loweredSma false period st x).2.count = min (st.count + 1) period := by
  change (if st.count = period then st.count else st.count + 1) = _
  split <;> omega

theorem loweredLag_count {period : Nat} {st : LagStateLowered D} (x : D) (hle : st.count ≤ period) :
    (loweredLag false period st x).2.count = min (st.count + 1) period := by
  change (if st.count = period then st.count else st.count + 1) = _
  split <;> omega

/-- **One execution** of a lowered operator fills its state by one. -/
theorem loweredStep_fill {op : StatefulOp D} {vs : List D} {slot slot' : LoweredSlot D} {v : D}
    (h : loweredStep op false vs slot = some (v, slot')) (hle : slot.fill op.fn ≤ op.fullAt) :
    slot'.fill op.fn = min (slot.fill op.fn + 1) op.fullAt := by
  unfold loweredStep at h
  unfold StatefulOp.fullAt at hle ⊢
  cases hfn : op.fn with
  | sma =>
    rw [hfn] at h hle
    rcases vs with _ | ⟨x, _ | ⟨y, ys⟩⟩
    · cases h
    · cases h
      exact loweredSma_count x hle
    · cases h
  | lag =>
    rw [hfn] at h hle
    rcases vs with _ | ⟨x, _ | ⟨y, ys⟩⟩
    · cases h
    · cases h
      exact loweredLag_count x hle
    · cases h
  | ema =>
    rw [hfn] at h
    rcases vs with _ | ⟨x, _ | ⟨y, ys⟩⟩
    · cases h
    · cases h
      exact (min_eq_right (Nat.le_add_left 1 _)).symm
    · cases h
  | _ => exact (Nat.min_zero _).symm

/-- Once the state is full, **the guards decide nothing**. -/
theorem loweredStep_warm {op : StatefulOp D} (warm : Bool) (vs : List D) {slot : LoweredSlot D}
    (hfull : slot.fill op.fn = op.fullAt) :
    loweredStep op warm vs slot = loweredStep op false vs slot := by
  cases warm with
  | false => rfl
  | true =>
    unfold loweredStep
    unfold StatefulOp.fullAt at hfull
    cases hfn : op.fn with
    | sma =>
      rw [hfn] at hfull
      have hcount : slot.sma.count = op.period := hfull
      have hsma : ∀ x, loweredSma true op.period slot.sma x = loweredSma false op.period slot.sma x := by
        intro x
        simp [loweredSma, hcount]
      rcases vs with _ | ⟨x, _ | ⟨y, ys⟩⟩
      · rfl
      · simp only [hsma]
      · rfl
    | lag =>
      rw [hfn] at hfull
      have hcount : slot.lag.count = op.period := hfull
      have hlag : ∀ x, loweredLag true op.period slot.lag x = loweredLag false op.period slot.lag x := by
        intro x
        simp [loweredLag, hcount]
      rcases vs with _ | ⟨x, _ | ⟨y, ys⟩⟩
      · rfl
      · simp only [hlag]
      · rfl
    | ema =>
      rw [hfn] at hfull
      have hinit : slot.ema.initialized = true := by
        by_contra hne
        have hzero : slot.fill .ema = 0 := if_neg hne
        exact Nat.zero_ne_one (hzero.symm.trans hfull)
      have hema : ∀ x, loweredEma true op.period slot.ema x = loweredEma false op.period slot.ema x := by
        intro x
        simp [loweredEma, hinit]
      rcases vs with _ | ⟨x, _ | ⟨y, ys⟩⟩
      · rfl
      · simp only [hema]
      · rfl
    | _ => rcases vs with _ | ⟨x, _ | ⟨y, _ | ⟨z, _ | ⟨w, ws⟩⟩⟩⟩ <;> rfl

variable [Fp L] [Widen D L]

/-- **One execution** of an operator in emitted code. -/
theorem emittedStep_fill {op : StatefulOp D} {market : MarketState D} {vs : List D}
    {slot slot' : NodeStates D L} {v : D}
    (h : emittedStep op false market vs slot = some (v, slot'))
    (hle : slot.lowered.fill op.fn ≤ op.fullAt) :
    slot'.lowered.fill op.fn = min (slot.lowered.fill op.fn + 1) op.fullAt ∨
      (op.impl ≠ .lowered ∧ slot'.lowered.fill op.fn = slot.lowered.fill op.fn) := by
  unfold emittedStep at h
  cases himpl : op.impl with
  | lowered =>
    rw [himpl] at h
    obtain ⟨⟨w, low⟩, hout, heq⟩ := Option.map_eq_some_iff.mp h
    cases heq
    exact .inl (loweredStep_fill hout hle)
  | runtime =>
    rw [himpl] at h
    obtain ⟨out, -, heq⟩ := Option.map_eq_some_iff.mp h
    cases heq
    exact .inr ⟨by simp, rfl⟩
  | avx2 =>
    rw [himpl] at h
    rcases vs with _ | ⟨x, _ | ⟨y, ys⟩⟩
    · cases h
    · obtain ⟨out, -, heq⟩ := Option.map_eq_some_iff.mp h
      cases heq
      exact .inr ⟨by simp, rfl⟩
    · cases h

/-- Once the state is full, **the specialized operator is the operator**. -/
theorem emittedStep_warm {op : StatefulOp D} (market : MarketState D) (vs : List D)
    {slot : NodeStates D L} (hfull : op.impl = .lowered → slot.lowered.fill op.fn = op.fullAt)
    (warm : Bool) : emittedStep op warm market vs slot = emittedStep op false market vs slot := by
  unfold emittedStep
  cases himpl : op.impl with
  | lowered => simp only [loweredStep_warm warm vs (hfull himpl)]
  | runtime => rfl
  | avx2 => rcases vs with _ | ⟨x, _ | ⟨y, ys⟩⟩ <;> rfl

end Fill

/-! ## The slots of a program -/

section Slots

variable [Fp D] {cs : List (Call D)} {op op' : StatefulOp D} {n : Int}

theorem OperatorOf.pos (hids : ConsistentIds cs) (h : OperatorOf cs op n) : 0 < n := by
  obtain ⟨c, hc, rfl, hname, -⟩ := h
  exact hids.stateful c hc (isStatefulOp_iff.mpr ⟨op.fn, hname⟩)

/-- An id stands for one operator. -/
theorem OperatorOf.unique (hids : ConsistentIds cs) (h : OperatorOf cs op n)
    (h' : OperatorOf cs op' n) : op.fn = op'.fn ∧ op.fullAt = op'.fullAt := by
  obtain ⟨c, hc, rfl, hname, hwindow⟩ := h
  obtain ⟨d, hd, hid, hname', hwindow'⟩ := h'
  obtain ⟨hsame, hstrip⟩ := Call.strip_inj
    (hids.equal c hc d hd (isStatefulOp_iff.mpr ⟨op.fn, hname⟩) hid.symm)
  have hfn : op.fn = op'.fn := by
    rw [← hsame, hname] at hname'
    exact Builtin.stateful.inj (Option.some.inj hname')
  refine ⟨hfn, ?_⟩
  have hliteral : op.fn.hasWarmVariant = true → op.literal = op'.literal := by
    intro hwarm
    obtain ⟨s, w, v, hargs, hw, -, hv⟩ := hwindow hwarm
    obtain ⟨s', w', v', hargs', hw', -, hv'⟩ := hwindow' (hfn ▸ hwarm)
    have hfaces := (sameFaces_of_strip hstrip).asNumbers
    rw [hargs, hargs'] at hfaces
    simp only [List.map_cons, List.map_nil, List.cons.injEq, and_true] at hfaces
    rw [hv, hv', ← hw, ← hw', hfaces.2]
  unfold StatefulOp.fullAt StatefulOp.period
  rw [← hfn]
  cases hfn' : op.fn with
  | sma | lag | ema => rw [hliteral (by rw [hfn']; rfl)]
  | _ => rfl

/-- An operator that can be specialized fills up within the threshold. -/
theorem OperatorOf.fullAt_le {signals : List (SignalDef D)}
    (h : OperatorOf (signals.flatMap fun s => s.body.calls) op n) {T : Nat}
    (hT : computeProgramWarmupThreshold signals ≤ T) : op.fullAt ≤ T := by
  obtain ⟨c, hc, -, hname, hwindow⟩ := h
  have hle := warmup_le_threshold hc
  unfold Call.warmup at hle
  unfold StatefulOp.fullAt StatefulOp.period
  rw [hname] at hle
  cases hfn : op.fn with
  | sma | lag =>
    obtain ⟨s, w, v, hargs, hw, -, hv⟩ := hwindow (by rw [hfn]; rfl)
    simp only [hfn, hargs, hw] at hle
    simp only [hv]
    omega
  | ema =>
    obtain ⟨s, w, v, hargs, hw, -, hv⟩ := hwindow (by rw [hfn]; rfl)
    simp only [hfn, hargs, hw, Option.isSome_some, if_true] at hle
    dsimp only
    omega
  | _ => exact Nat.zero_le _

/-- How far the slot of an operator is filled. -/
def SignalContext.fill (ctx : SignalContext D (NodeStates D L)) (op : StatefulOp D) (n : Int) : Nat :=
  (ctx.slots n.toNat).lowered.fill op.fn

/-- No slot is filled beyond its window. -/
def Bounded (cs : List (Call D)) (ctx : SignalContext D (NodeStates D L)) : Prop :=
  ∀ op n, OperatorOf cs op n → ctx.fill op n ≤ op.fullAt

/-- What a run does to the slots: they fill up. -/
def FillsUp (cs : List (Call D)) (ctx ctx' : SignalContext D (NodeStates D L)) : Prop :=
  Bounded cs ctx → Bounded cs ctx' ∧ ∀ op n, OperatorOf cs op n → ctx.fill op n ≤ ctx'.fill op n

theorem FillsUp.refl (ctx : SignalContext D (NodeStates D L)) : FillsUp cs ctx ctx :=
  fun h => ⟨h, fun _ _ _ => Nat.le_refl _⟩

theorem FillsUp.trans {ctx₁ ctx₂ ctx₃ : SignalContext D (NodeStates D L)}
    (h : FillsUp cs ctx₁ ctx₂) (h' : FillsUp cs ctx₂ ctx₃) : FillsUp cs ctx₁ ctx₃ := by
  intro hb
  obtain ⟨hb₂, hle⟩ := h hb
  obtain ⟨hb₃, hle'⟩ := h' hb₂
  exact ⟨hb₃, fun op n ho => Nat.le_trans (hle op n ho) (hle' op n ho)⟩

variable [Fp L] [Widen D L]

/-- **A step** of an operator of the program. -/
theorem fill_step (hids : ConsistentIds cs) {market : MarketState D} {vs : List D} {v : D}
    {slot : NodeStates D L} {ctx : SignalContext D (NodeStates D L)} (ho : OperatorOf cs op n)
    (h : emittedStep op false market vs (ctx.slots n.toNat) = some (v, slot))
    (hb : Bounded cs ctx) :
    FillsUp cs ctx (ctx.setSlot n.toNat slot) ∧
      (op.impl = .lowered →
        (ctx.setSlot n.toNat slot).fill op n = min (ctx.fill op n + 1) op.fullAt) := by
  have hstep := emittedStep_fill h (hb op n ho)
  have hself : (ctx.setSlot n.toNat slot).fill op n = slot.lowered.fill op.fn := by
    rw [SignalContext.fill, SignalContext.setSlot_slots_self]
  have hbounds : ctx.fill op n ≤ slot.lowered.fill op.fn ∧
      slot.lowered.fill op.fn ≤ op.fullAt := by
    have hle := hb op n ho
    unfold SignalContext.fill at hle ⊢
    rcases hstep with hstep | ⟨-, hstep⟩ <;> omega
  have hother : ∀ op' n', OperatorOf cs op' n' →
      ctx.fill op' n' ≤ (ctx.setSlot n.toNat slot).fill op' n' ∧
      (ctx.setSlot n.toNat slot).fill op' n' ≤ op'.fullAt := by
    intro op' n' ho'
    by_cases hn : n'.toNat = n.toNat
    · have hpos := ho.pos hids
      have hpos' := ho'.pos hids
      obtain rfl : n' = n := by omega
      obtain ⟨hfn, hfull⟩ := ho'.unique hids ho
      unfold SignalContext.fill at hself hbounds ⊢
      rw [hfn, hfull, hself]
      exact hbounds
    · unfold SignalContext.fill
      rw [SignalContext.setSlot_slots_ne _ _ hn]
      exact ⟨Nat.le_refl _, hb op' n' ho'⟩
  refine ⟨fun _ => ⟨fun op' n' ho' => (hother op' n' ho').2, fun op' n' ho' => (hother op' n' ho').1⟩,
    fun hlow => ?_⟩
  rcases hstep with hstep | ⟨hne, -⟩
  · rw [hself, hstep]
    rfl
  · exact absurd hlow hne

/-- **An instruction** of the program. -/
theorem exec_fillsUp (hids : ConsistentIds cs) {market : MarketState D} {i : Instr D}
    (hd : i.Drawn (OperatorOf cs)) {s s' : Frame D (NodeStates D L)}
    (h : i.exec emittedStep market s = some s') : FillsUp cs s.ctx s'.ctx := by
  rcases Instr.exec_ctx h with heq | ⟨dst, op, warm, n, args, vs, v, slot, rfl, hstep, heq⟩
  · rw [heq]
    exact .refl _
  · obtain ⟨rfl, ho⟩ := hd
    rw [heq]
    exact fun hb => (fill_step hids ho hstep hb).1 hb

variable {code : Code (Instr D)} {market : MarketState D}
  {ctx : SignalContext D (NodeStates D L)} {s : Frame D (NodeStates D L)}

/-- **A tick** of the baseline program. -/
theorem movesAlong_fillsUp (hids : ConsistentIds cs)
    (hd : ∀ i ∈ code.instrs, i.Drawn (OperatorOf cs)) :
    (instrMachine emittedStep market).MovesAlong
      (fun s s' : Frame D (NodeStates D L) => FillsUp cs s.ctx s'.ctx) code where
  refl s := .refl s.ctx
  trans {s₁ s₂ s₃} h h' := FillsUp.trans (L := L) h h'
  join j b s := by
    change FillsUp cs s.ctx (j.merge b s).ctx
    rw [Instr.merge_ctx]
    exact .refl _
  step i hi _ _ := exec_fillsUp hids (hd i hi)

/-- **An operator outside branches** is executed at every tick. -/
theorem runProgram_outer (hids : ConsistentIds cs)
    (hd : ∀ i ∈ code.instrs, i.Drawn (OperatorOf cs)) {dst : Nat} {warm : Bool}
    {args : List (Operand D)} (hi : .operator dst op warm n args ∈ code.outer)
    (hlow : op.impl = .lowered) (hb : Bounded cs ctx) (h : runProgram code market ctx = some s) :
    min (ctx.fill op n + 1) op.fullAt ≤ s.ctx.fill op n := by
  obtain ⟨rfl, ho⟩ := hd _ (code.outer_subset _ hi)
  obtain ⟨s₁, s₂, h₁, hstep, h₂⟩ := (movesAlong_fillsUp hids hd).outer hi h
  obtain ⟨⟨v, slot⟩, hout, rfl⟩ := Option.map_eq_some_iff.mp hstep
  obtain ⟨hb₁, hle₁⟩ := h₁ hb
  obtain ⟨hfills, heq⟩ := fill_step hids ho hout hb₁
  obtain ⟨hb₂, hle₂⟩ := h₂ (hfills hb₁).1
  have hstart : ctx.fill op n ≤ s₁.ctx.fill op n := hle₁ op n ho
  have hend : (s₁.ctx.setSlot n.toNat slot).fill op n ≤ s.ctx.fill op n := hle₂ op n ho
  have hfill := heq hlow
  omega

/-- The slots of the operators outside branches, `k` ticks into a run. -/
structure FilledFor (cs : List (Call D)) (code : Code (Instr D)) (k : Nat)
    (ctx : SignalContext D (NodeStates D L)) : Prop where
  /-- no slot is filled beyond its window -/
  bounded : Bounded cs ctx
  /-- and all are filled by one at each tick -/
  filled : ∀ dst op warm n args, .operator dst op warm n args ∈ code.outer → op.impl = .lowered →
    min k op.fullAt ≤ ctx.fill op n

/-- **The specialized program** does what the baseline program does once the slots are full. -/
theorem runProgram_specialized (hids : ConsistentIds cs)
    (hd : ∀ i ∈ code.instrs, i.Drawn (OperatorOf cs)) {k : Nat} (hfilled : FilledFor cs code k ctx)
    (hk : ∀ op n, OperatorOf cs op n → op.fullAt ≤ k) :
    runProgram (code.mapOuter Instr.specialize) market ctx = runProgram code market ctx := by
  refine Machine.run_mapOuter (P := fun s => FilledFor cs code k s.ctx) (fun j b s hs => ?_)
    (fun i hi s s' hs h => ?_) (fun i hi s hs => ?_) hfilled
  · change FilledFor cs code k (j.merge b s).ctx
    rw [Instr.merge_ctx]
    exact hs
  · obtain ⟨hb, hle⟩ := exec_fillsUp hids (hd i hi) h hs.bounded
    exact ⟨hb, fun dst op warm n args hmem hlow =>
      Nat.le_trans (hs.filled dst op warm n args hmem hlow)
        (hle op n (hd _ (code.outer_subset _ hmem)).2)⟩
  · cases i with
    | operator dst op warm n args =>
      obtain ⟨rfl, ho⟩ := hd _ (code.outer_subset _ hi)
      have hfull : op.impl = .lowered → s.ctx.fill op n = op.fullAt := by
        intro hlow
        have hle := hs.filled dst op false n args hi hlow
        rw [Nat.min_eq_right (hk op n ho)] at hle
        exact Nat.le_antisymm (hs.bounded op n ho) hle
      change Option.map _ (emittedStep op _ market _ _) = Option.map _ (emittedStep op _ market _ _)
      rw [emittedStep_warm market _ hfull]
    | _ => rfl

/-- **A run** of the baseline program fills the slots of the operators outside branches. -/
theorem filledFor_run (hids : ConsistentIds cs)
    (hd : ∀ i ∈ code.instrs, i.Drawn (OperatorOf cs)) {ticks : Nat → MarketState D} (hb : Bounded cs ctx)
    {k : Nat} {ctx' : SignalContext D (NodeStates D L)}
    (h : compiledContextAt (fun _ => code) ticks ctx k = some ctx') : FilledFor cs code k ctx' := by
  induction k generalizing ctx' with
  | zero =>
    cases h
    exact ⟨hb, fun _ _ _ _ _ _ _ => by rw [Nat.zero_min]; exact Nat.zero_le _⟩
  | succ k ih =>
    obtain ⟨ctx₁, hctx₁, htick⟩ := Option.bind_eq_some_iff.mp h
    obtain ⟨s, hs, rfl⟩ := Option.map_eq_some_iff.mp htick
    have hk := ih hctx₁
    refine ⟨((movesAlong_fillsUp hids hd).run hs hk.bounded).1, ?_⟩
    intro dst op warm n args hi hlow
    have hstep := runProgram_outer hids hd hi hlow hk.bounded hs
    have hbefore := hk.filled dst op warm n args hi hlow
    omega

end Slots

/-! ## Prewarming -/

section Prewarming

variable [Fp D] [Fp L] [Widen D L]

omit [Widen D L] in
/-- The prewarm of a call empties a lowered state or leaves it alone. -/
theorem fill_prewarm (slot : NodeStates D L) (fn fn' : StatefulFn) (literal : Option D) :
    (slot.prewarm fn' literal).lowered.fill fn = 0 ∨
      (slot.prewarm fn' literal).lowered.fill fn = slot.lowered.fill fn := by
  change (slot.lowered.prewarm fn' literal).fill fn = 0 ∨
    (slot.lowered.prewarm fn' literal).fill fn = slot.lowered.fill fn
  unfold LoweredSlot.prewarm
  cases fn' <;> dsimp only <;> (try split) <;> cases fn <;> first | exact .inr rfl | exact .inl rfl

omit [Widen D L] in
/-- And it does empty the state of its operator. -/
theorem fill_prewarm_self (slot : NodeStates D L) (fn : StatefulFn) {v : D}
    (h : literalPeriod v ≠ none) : (slot.prewarm fn (some v)).lowered.fill fn = 0 := by
  have hpos : 0 < parsePreparedPeriod (some v) := by
    unfold parsePreparedPeriod
    unfold literalPeriod at h
    dsimp only
    split at h
    · exact absurd rfl h
    · rename_i hcond
      rw [if_neg hcond]
      simp only [Bool.or_eq_true, decide_eq_true_eq, not_or] at hcond
      omega
  change (slot.lowered.prewarm fn (some v)).fill fn = 0
  unfold LoweredSlot.prewarm
  cases fn <;> first | rfl | (simp only [if_pos hpos]; rfl)

/-- What the prewarm of some calls does to the slot of an operator. -/
structure Empties (op : StatefulOp D) (n : Int) (cs : List (Call D))
    (ctx ctx' : SignalContext D (NodeStates D L)) : Prop where
  /-- an empty state stays empty -/
  keep : ctx.fill op n = 0 → ctx'.fill op n = 0
  /-- a call of the operator empties it -/
  empty : OperatorOf cs op n → ctx'.fill op n = 0

namespace Empties

variable {op : StatefulOp D} {n : Int} {cs ds : List (Call D)}
  {ctx ctx₁ ctx₂ : SignalContext D (NodeStates D L)}

omit [Fp L] [Widen D L] in
theorem nil (ctx : SignalContext D (NodeStates D L)) : Empties op n [] ctx ctx :=
  ⟨fun h => h, fun ⟨_, hc, _⟩ => absurd hc List.not_mem_nil⟩

omit [Fp L] [Widen D L] in
theorem append (h : Empties op n cs ctx ctx₁) (h' : Empties op n ds ctx₁ ctx₂) :
    Empties op n (cs ++ ds) ctx ctx₂ := by
  refine ⟨fun h₀ => h'.keep (h.keep h₀), fun ⟨c, hc, ho⟩ => ?_⟩
  rcases List.mem_append.mp hc with hc | hc
  · exact h'.keep (h.empty ⟨c, hc, ho⟩)
  · exact h'.empty ⟨c, hc, ho⟩

omit [Widen D L] in
/-- A call before its arguments. -/
theorem call (ctx : SignalContext D (NodeStates D L)) (c : Call D) (hpos : 0 < n) :
    Empties op n [c] ctx (prewarmCall NodeStates.prewarm ctx c.name c.args c.nodeId) := by
  have hother : ∀ fn, Builtin.ofName c.name = some (.stateful fn) → 0 ≤ c.nodeId →
      ∀ slot, (ctx.setSlot c.nodeId.toNat slot).fill op n =
        if n.toNat = c.nodeId.toNat then slot.lowered.fill op.fn else ctx.fill op n := by
    intro fn _ _ slot
    unfold SignalContext.fill SignalContext.setSlot
    dsimp only
    split <;> rfl
  constructor
  · intro h₀
    unfold prewarmCall
    split
    · rename_i fn hname
      split
      · rename_i hid
        rw [hother fn hname hid]
        split
        · rename_i hn
          rcases fill_prewarm (ctx.slots c.nodeId.toNat) op.fn fn (periodLiteral fn c.args) with h | h
          · exact h
          · rw [h, ← hn]
            exact h₀
        · exact h₀
      · exact h₀
    · exact h₀
  · rintro ⟨d, hd, hid, hname, hwindow⟩
    obtain rfl := List.mem_singleton.mp hd
    have hnn : 0 ≤ d.nodeId := by omega
    unfold prewarmCall
    rw [hname]
    dsimp only
    rw [if_pos hnn, hother _ hname hnn, if_pos (by rw [hid])]
    cases hwarm : op.fn.hasWarmVariant with
    | true =>
      obtain ⟨s, w, v, hargs, hw, hperiod, -⟩ := hwindow hwarm
      have hliteral : periodLiteral op.fn d.args = some v := by
        unfold periodLiteral
        rw [hargs]
        cases hfn : op.fn with
        | sma | ema | lag => exact hw
        | _ =>
          rw [hfn] at hwarm
          cases hwarm
      rw [hliteral]
      exact fill_prewarm_self _ op.fn hperiod
    | false =>
      cases hfn : op.fn with
      | sma | ema | lag =>
        rw [hfn] at hwarm
        cases hwarm
      | _ => rfl

end Empties

omit [Widen D L] in
theorem prewarmExpr_empties (op : StatefulOp D) {n : Int} (hn : 0 < n) (e : Expr D) :
    ∀ ctx : SignalContext D (NodeStates D L),
      Empties op n e.calls ctx (prewarmExpr NodeStates.prewarm e ctx) := by
  induction e using Expr.induct with
  | numberLiteral | identifierExpr | parameterExpr => exact fun ctx => .nil ctx
  | unaryOp loc k e ih => exact ih
  | binaryOp loc k l r ihl ihr => exact fun ctx => (ihl ctx).append (ihr _)
  | conditional loc c t e ihc iht ihe =>
    exact fun ctx => ((ihc ctx).append (iht _)).append (ihe _)
  | functionCall loc name args nid sid ih =>
    intro ctx
    have hargs : ∀ (as : List (Expr D)), (∀ a ∈ as, a ∈ args) →
        ∀ ctx : SignalContext D (NodeStates D L),
          Empties op n (Expr.callsArgs as) ctx (prewarmArgs NodeStates.prewarm as ctx) := by
      intro as
      induction as with
      | nil => exact fun _ ctx => .nil ctx
      | cons a as iha =>
        intro hmem ctx
        exact (ih a (hmem a List.mem_cons_self) ctx).append
          (iha (fun b hb => hmem b (List.mem_cons_of_mem _ hb)) _)
    exact (Empties.call ctx ⟨name, args, nid, sid⟩ hn).append (hargs args (fun _ h => h) _)

omit [Widen D L] in
/-- **A prewarmed context** is bounded. -/
theorem bounded_prewarm {signals : List (SignalDef D)}
    (hids : ConsistentIds (signals.flatMap fun s => s.body.calls))
    (ctx : SignalContext D (NodeStates D L)) :
    Bounded (signals.flatMap fun s => s.body.calls) (prewarmProgramContext ctx signals) := by
  intro op n ho
  have hpos := ho.pos hids
  have hall : ∀ (signals : List (SignalDef D)) (ctx : SignalContext D (NodeStates D L)),
      Empties op n (signals.flatMap fun s => s.body.calls) ctx (prewarmProgramContext ctx signals) := by
    intro signals
    induction signals with
    | nil => exact fun ctx => .nil ctx
    | cons s rest ih => exact fun ctx => (prewarmExpr_empties op hpos s.body ctx).append (ih _)
  rw [(hall signals ctx).empty ho]
  exact Nat.zero_le _

end Prewarming

/-! ## Promotion -/

section Promotion

variable [DecidableEq D] [Fp D] [Fp L] [Widen D L]

/-- **Tier promotion is invisible.** The specialized program compiles when the baseline program
does, and from a prewarmed context it can take over at any tick from the threshold on: every
tick writes what the baseline program would have written. -/
theorem promotion_invisible {symbols : SymbolTable} {lowering : StatefulLoweringFlags}
    {useAvx2 : Bool} {program : List (SignalDef D)}
    (hun : ∀ s ∈ program, Unallocated s.body.calls) {code : Code (Instr D)}
    (hcode : emitProgram ⟨symbols, lowering, useAvx2, false, false⟩
      (allocateProgramNodeIds program) = .ok code) :
    ∃ warmCode, emitProgram ⟨symbols, lowering, useAvx2, true, false⟩
        (allocateProgramNodeIds program) = .ok warmCode ∧
      ∀ T : Nat, computeProgramWarmupThreshold (allocateProgramNodeIds program) ≤ T →
        ∀ (ctx : SignalContext D (NodeStates D L)) (ticks : Nat → MarketState D) (k : Nat),
          compiledOutputsAt (fun n => if n < T then code else warmCode) ticks
              (prewarmProgramContext ctx (allocateProgramNodeIds program)) k =
            compiledOutputsAt (fun _ => code) ticks
              (prewarmProgramContext ctx (allocateProgramNodeIds program)) k := by
  have hids := consistentIds_allocateProgramNodeIds hun
  obtain ⟨hwarm, hd⟩ := emitProgram_specialized rfl rfl hids hcode
  refine ⟨_, hwarm, fun T hT ctx ticks => ?_⟩
  generalize hctx₀ : prewarmProgramContext ctx (allocateProgramNodeIds program) = ctx₀
  have hb : Bounded ((allocateProgramNodeIds program).flatMap fun s => s.body.calls) ctx₀ :=
    hctx₀ ▸ bounded_prewarm hids ctx
  -- a tick of the switched run, from a state of the baseline run
  have htick : ∀ (k : Nat) (ctx' : SignalContext D (NodeStates D L)),
      compiledContextAt (fun _ => code) ticks ctx₀ k = some ctx' →
      runProgram (if k < T then code else code.mapOuter Instr.specialize) (ticks k) ctx' =
        runProgram code (ticks k) ctx' := by
    intro k ctx' hk
    split
    · rfl
    · rename_i hT'
      exact runProgram_specialized hids hd (filledFor_run hids hd hb hk) fun op n ho =>
        Nat.le_trans (ho.fullAt_le hT) (Nat.le_of_not_lt hT')
  have hcontexts : ∀ k, compiledContextAt (fun n => if n < T then code else
      code.mapOuter Instr.specialize) ticks ctx₀ k = compiledContextAt (fun _ => code) ticks ctx₀ k := by
    intro k
    induction k with
    | zero => rfl
    | succ k ih =>
      rw [compiledContextAt, compiledContextAt, ih]
      exact Option.bind_congr fun ctx' hk => congrArg _ (htick k ctx' hk)
  intro k
  unfold compiledOutputsAt
  rw [hcontexts]
  exact Option.bind_congr fun ctx' hk => congrArg _ (htick k ctx' hk)

end Promotion

/-! ### Two averages -/

section TwoAverages

open Concrete

/-- `s = sma(mid(A), 3) + lag(ema(mid(A), 2), 1)` -/
def twoAverages : List (SignalDef (Exact ℚ)) :=
  [⟨"s", plus (app "sma" [mid "A", num 3]) (app "lag" [app "ema" [mid "A", num 2], num 1])⟩]

theorem promotion_invisible_twoAverages :
    ∃ code warmCode,
      emitProgram ⟨symbols, .all, false, false, false⟩ (allocateProgramNodeIds twoAverages) =
          .ok code ∧
        emitProgram ⟨symbols, .all, false, true, false⟩ (allocateProgramNodeIds twoAverages) =
          .ok warmCode ∧
        ∀ (ctx : SignalContext (Exact ℚ) (NodeStates (Exact ℚ) (Exact ℚ)))
          (ticks : Nat → MarketState (Exact ℚ)) (k : Nat),
          compiledOutputsAt (fun n => if n < 3 then code else warmCode) ticks
              (prewarmProgramContext ctx (allocateProgramNodeIds twoAverages)) k =
            compiledOutputsAt (fun _ => code) ticks
              (prewarmProgramContext ctx (allocateProgramNodeIds twoAverages)) k := by
  have hun : ∀ s ∈ twoAverages, ∀ c ∈ s.body.calls, c.nodeId = -1 := by decide +kernel
  have ⟨code, hcode⟩ : ∃ code, emitProgram ⟨symbols, .all, false, false, false⟩
      (allocateProgramNodeIds twoAverages) = .ok code := exists_emitted (by decide +kernel)
  have ⟨warmCode, hwarm, hsame⟩ := promotion_invisible (L := Exact ℚ) hun hcode
  exact ⟨code, warmCode, hcode, hwarm, hsame 3 (by decide +kernel)⟩

end TwoAverages

end JitSignalEngine
