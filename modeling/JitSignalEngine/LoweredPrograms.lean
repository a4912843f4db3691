import JitSignalEngine.LoweredOperators
import JitSignalEngine.ScalarRefinement

/-!
# Programs with lowered operators

`StatefulLoweringFlags` chooses, operator by operator, between a call of the runtime and IR on a
second state. A program refines the interpreter under any choice, as long as the operators do.

* `loweredExactly_callSim` — `ema`, `lag`, the crossings, `rolling_min` and `rolling_max` keep the
  fields of the runtime, and compute the same in every arithmetic.
* `exactlyLowered_code_refines_interpreter` — programs that lower no other operators.
* `numericStep` — an operator that refuses NaN.
* `lowered_callSim` — every lowered operator, in exact arithmetic, on numbers.
* `lowered_code_refines_interpreter` — programs under any flags, where no operator is given NaN.
-/

namespace JitSignalEngine

open Fp Widen Dataflow Interpreter EmittedTick Exact

variable {D L : Type}

/-! ## Operators that keep the fields of the runtime -/

section Exactly

variable [Fp D] [Fp L] [Widen D L]

omit [Widen D L] [Fp L] in
/-- The lowered state of an operator has the fields of its state in the runtime. -/
def StatefulOp.SameFields (op : StatefulOp D) (slot : NodeSlot D L) (low : LoweredSlot D) : Prop :=
  match op.fn with
  | .ema => low.ema = slot.ema.lowered
  | .lag => low.lag = slot.lag.lowered ∧ slot.lag.count ≤ op.period
  | .rollingMin => low.rollingMin = slot.rollingMin
  | .rollingMax => low.rollingMax = slot.rollingMax
  | .crossAbove | .crossBelow => low.cross = slot.cross
  | _ => False

/-- The operators whose IR does what the runtime does, in every arithmetic. -/
def StatefulFn.loweredExactly : StatefulFn → Bool
  | .ema | .lag | .rollingMin | .rollingMax | .crossAbove | .crossBelow => true
  | _ => false

variable {op : StatefulOp D} {factor : D} {market : MarketState D} {vs : List D}
  {slot slot' : NodeSlot D L} {low : LoweredSlot D} {v : D}

/-- **A tick** of the interpreter and of the IR. -/
theorem StatefulOp.SameFields.tick (h : op.SameFields slot low) (hsized : op.Sized)
    (hslot : slot.Prepared op factor)
    (hstep : operatorStep op market vs slot = .ok (v, slot')) :
    ∃ low', loweredStep op false vs low = some (v, low') ∧ op.SameFields slot' low' := by
  have harity := operatorStep_arity hstep
  unfold operatorStep at hstep
  unfold loweredStep
  unfold SameFields at h ⊢
  unfold NodeSlot.Prepared at hslot
  cases hfn : op.fn <;>
    simp only [StatefulOp.Sized, hfn] at hsized hslot harity hstep h ⊢
  case ema =>
    obtain ⟨x, rfl⟩ := List.length_eq_one_iff.1 harity
    have hema := loweredEma_lowered op.period slot.ema hslot.1 x slot.ema.period
    cases hinit : slot.ema.initialized <;>
      simp only [hinit, Bool.not_true, Bool.not_false, if_true, if_false, Bool.false_eq_true] at hema
    · simp only [emaStep, hinit, Bool.not_false, if_true, Except.ok.injEq, Prod.mk.injEq] at hstep
      obtain ⟨rfl, rfl⟩ := hstep
      simp only [h, hema]
      exact ⟨_, rfl, rfl⟩
    · simp only [emaStep, hinit, Bool.not_true, Bool.false_eq_true, if_false, Except.ok.injEq,
        Prod.mk.injEq] at hstep
      obtain ⟨rfl, rfl⟩ := hstep
      simp only [h, hema, hslot.1]
      exact ⟨_, rfl, rfl⟩
  case lag =>
    obtain ⟨x, rfl⟩ := List.length_eq_one_iff.1 harity
    obtain ⟨hlow, hcount⟩ := h
    have hlag := loweredLag_lowered slot.lag (hslot.1 ▸ hsized) (hslot.1 ▸ hcount) x
    rw [hslot.1] at hlag
    simp only [lagStep, (hslot.push hsized x).1, Except.map, Except.ok.injEq, Prod.mk.injEq] at hstep
    obtain ⟨rfl, rfl⟩ := hstep
    simp only [hlow, hlag.1]
    exact ⟨_, rfl, rfl, hlag.2⟩
  case crossAbove =>
    obtain ⟨a, b, rfl⟩ := List.length_eq_two.1 harity
    simp only [crossAboveStep, Except.ok.injEq, Prod.mk.injEq] at hstep
    obtain ⟨rfl, rfl⟩ := hstep
    simp only [loweredCross_eq, h]
    exact ⟨_, rfl, rfl⟩
  case crossBelow =>
    obtain ⟨a, b, rfl⟩ := List.length_eq_two.1 harity
    simp only [crossBelowStep, Except.ok.injEq, Prod.mk.injEq] at hstep
    obtain ⟨rfl, rfl⟩ := hstep
    simp only [loweredCross_eq, h]
    exact ⟨_, rfl, rfl⟩
  case rollingMin =>
    obtain ⟨x, rfl⟩ := List.length_eq_one_iff.1 harity
    simp only [rollingMinStep, (updateRolling_prepared .min hslot x).1, Except.ok.injEq,
      Prod.mk.injEq] at hstep
    obtain ⟨rfl, rfl⟩ := hstep
    simp only [loweredMonoDequeRolling_eq, h]
    exact ⟨_, rfl, rfl⟩
  case rollingMax =>
    obtain ⟨x, rfl⟩ := List.length_eq_one_iff.1 harity
    simp only [rollingMaxStep, (updateRolling_prepared .max hslot x).1, Except.ok.injEq,
      Prod.mk.injEq] at hstep
    obtain ⟨rfl, rfl⟩ := hstep
    simp only [loweredMonoDequeRolling_eq, h]
    exact ⟨_, rfl, rfl⟩

omit [Widen D L] in
/-- Both states are prewarmed in one walk. -/
theorem StatefulOp.sameFields_prewarm (hfn : op.fn.loweredExactly = true) (hsized : op.Sized)
    (hperiod : parsePreparedPeriod op.literal = op.period) :
    op.SameFields (NodeSlot.empty.prewarm op.fn op.literal : NodeSlot D L)
      (LoweredSlot.empty.prewarm op.fn op.literal) := by
  unfold SameFields
  cases hop : op.fn <;> simp only [StatefulOp.Sized, hop] at hsized <;>
    simp only [NodeSlot.prewarm, LoweredSlot.prewarm, hperiod]
  case ema =>
    rw [if_pos hsized, if_pos hsized]
    rfl
  case lag =>
    have hfresh : (NodeSlot.empty : NodeSlot D L).lag.capacity ≠ op.period := hsized.ne
    rw [if_pos hsized, if_pos ⟨hsized, hfresh⟩]
    exact ⟨rfl, Nat.zero_le _⟩
  case rollingMin =>
    rw [if_pos hsized, if_pos hsized, NodeSlot.empty, RollingMinMaxState.init,
      MonoDequeState.monoInit_init]
    rfl
  case rollingMax =>
    rw [if_pos hsized, if_pos hsized, NodeSlot.empty, RollingMinMaxState.init,
      MonoDequeState.monoInit_init]
    rfl
  all_goals
    rw [hop] at hfn
    cases hfn

theorem emittedStep_lowered (himpl : op.impl = .lowered) {warm : Bool} {states : NodeStates D L} :
    emittedStep op warm market vs states =
      (loweredStep op warm vs states.lowered).map fun out =>
        (out.1, { states with lowered := out.2 }) := by
  unfold emittedStep
  rw [himpl]

omit [Fp D] in
theorem StatefulOp.inputs_of_ne (hfn : op.fn ≠ .vwap) : op.inputs market vs = vs := by
  unfold StatefulOp.inputs
  split
  · exact absurd ‹_› hfn
  · rfl

/-- **The operators that keep the fields of the runtime** simulate those of the interpreter. -/
theorem loweredExactly_callSim {impl : StatefulFn → List (Option D) → Impl} {symbols : SymbolTable}
    {params : List D} {ticks : Nat → MarketState D} {c : Call D} {op : StatefulOp D}
    (hshape : (⟨symbols, impl, fun _ => none⟩ : ScheduleEnv D).shape c.name c.args = .stateful op)
    (himpl : op.impl = .lowered) (hfn : op.fn.loweredExactly = true) (args : List (Plan D)) :
    Semantics.CallSim (interpSemantics L params) (codeSemantics L params) ticks op args := by
  obtain ⟨fn, -, -, ⟨hsized, hperiod⟩, -⟩ := shape_decoded hshape
  have hne : op.fn ≠ .vwap := fun h => by rw [h] at hfn; cases hfn
  refine ⟨fun slot states => slot.Prepared op nan ∧ op.SameFields slot states.lowered,
    ⟨NodeSlot.prepared_prewarm hsized hperiod, op.sameFields_prewarm hfn hsized hperiod⟩, ?_⟩
  rintro act t vs v slot slot' states - ⟨hslot, hfields⟩ hinterp
  have hok : operatorStep op (ticks t) vs slot = .ok (v, slot') := toOption_eq_some hinterp
  obtain ⟨low', hlow, hfields'⟩ := hfields.tick hsized hslot hok
  have hprepared := (operatorStep_runtimeStep hsized hslot
    (fun hema => by rw [hema] at hfn; cases hfn) hok).2
  refine ⟨{ states with lowered := low' }, ?_, hprepared, hfields'⟩
  change emittedStep op false (ticks t) (op.inputs (ticks t) vs) states = _
  rw [op.inputs_of_ne hne, emittedStep_lowered himpl, hlow]
  rfl

end Exactly

/-! ## Programs -/

/-- The schedule of scalar code without AVX2. -/
def loweringEnv (symbols : SymbolTable) (flags : StatefulLoweringFlags) : EmitEnv :=
  ⟨symbols, flags, false, false, false⟩

/-- What the flags decide. -/
theorem loweringEnv_impl [Fp D] (symbols : SymbolTable) (flags : StatefulLoweringFlags)
    (fn : StatefulFn) (literals : List (Option D)) :
    (loweringEnv symbols flags).impl fn literals = .runtime ∨
      (loweringEnv symbols flags).impl fn literals = .lowered ∧
        ∃ flag, fn.loweringFlag = some flag ∧ flags flag = true := by
  unfold EmitEnv.impl loweringEnv
  dsimp only
  rcases hflag : fn.loweringFlag with _ | flag
  · left
    split <;> rfl
  · cases hset : flags flag
    · left
      simp only [hset, Bool.false_and, Bool.false_eq_true, if_false]
      split <;> rfl
    · have hlowered : ∃ f, some flag = some f ∧ flags f = true := ⟨flag, rfl, hset⟩
      simp only [hset, Bool.true_and, if_true]
      split
      · split
        · exact .inr ⟨rfl, hlowered⟩
        · exact .inl rfl
      · exact .inr ⟨rfl, hlowered⟩
      · exact .inr ⟨rfl, hlowered⟩

/-- The flags of the operators that keep the fields of the runtime. -/
def exactFlags : List LoweringFlag := [.ema, .lag, .cross, .rollingMin, .rollingMax]

theorem loweredExactly_of_flag {fn : StatefulFn} {flag : LoweringFlag}
    (h : fn.loweringFlag = some flag) (hflag : flag ∈ exactFlags) : fn.loweredExactly = true := by
  revert flag
  cases fn <;> decide

/-- **Exact lowering refines the interpreter**: a program that lowers operators only that keep the
fields of the runtime writes what the interpreter returns, in every arithmetic. -/
theorem exactlyLowered_code_refines_interpreter [DecidableEq D] [Fp D] [Fp L] [Widen D L]
    {symbols : SymbolTable} {flags : StatefulLoweringFlags}
    (hflags : ∀ flag, flags flag = true → flag ∈ exactFlags)
    {program : List (SignalDef D)} (hun : ∀ s ∈ program, Unallocated s.body.calls)
    (hsym : ∀ s ∈ allocateProgramNodeIds program, ∀ c ∈ s.body.calls, c.SymbolOk symbols)
    (hlit : ∀ s ∈ allocateProgramNodeIds program, ∀ c ∈ s.body.calls, c.LiteralFactor)
    (hsafe : ∀ s ∈ allocateProgramNodeIds program, KalmanSafe s.body) {code : Code (Instr D)}
    (hemit : emitProgram (loweringEnv symbols flags) (allocateProgramNodeIds program) = .ok code)
    {orders : Nat → List Nat}
    (horders : ∀ t, (orders t).Perm (List.range (allocateProgramNodeIds program).length))
    (params : List D) (ticks : Nat → MarketState D) (N : Nat)
    (hreturns : ∀ t ≤ N, ∀ i < (allocateProgramNodeIds program).length, ∀ e,
      interpretedAt (L := L) symbols (allocateProgramNodeIds program) orders params ticks t i ≠
        some (.error e)) :
    ∃ outputs, compiledOutputsAt (fun _ => code) ticks (prewarmProgramContext (newContext params)
          (allocateProgramNodeIds program) : SignalContext D (NodeStates D L)) N = some outputs ∧
      ∀ i < (allocateProgramNodeIds program).length, ∃ v,
        interpretedAt (L := L) symbols (allocateProgramNodeIds program) orders params ticks N i =
          some (.ok v) ∧ outputs i = some v := by
  have hvwap : ∀ literals : List (Option D),
      (loweringEnv symbols flags).impl .vwap literals ≠ .lowered := by
    intro literals hlow
    rcases loweringEnv_impl symbols flags .vwap literals with hrun | ⟨-, flag, hflag, hset⟩
    · rw [hrun] at hlow
      cases hlow
    · cases loweredExactly_of_flag hflag (hflags flag hset)
  have hsim : ∀ s ∈ allocateProgramNodeIds program, ∀ c ∈ s.body.calls, ∀ op,
      ((loweringEnv symbols flags).toSchedule : ScheduleEnv D).shape c.name c.args = .stateful op →
      ∀ path δ, Semantics.CallSim (interpSemantics L params) (codeSemantics L params) ticks op
        ((scheduleArgs (loweringEnv symbols flags).toSchedule path c.args δ).plans.take
          op.fn.arity) := by
    intro s hs c hc op hop path δ
    obtain ⟨fn, -, hdec, -⟩ := shape_decoded hop
    rcases loweringEnv_impl symbols flags fn (c.args.map Expr.asNumber) with
      hrun | ⟨hlow, flag, hflag, hset⟩
    · exact runtime_callSim toOption_eq_some (hlit s hs c hc) hop (hdec.impl_eq.trans hrun) path δ
    · exact loweredExactly_callSim hop (hdec.impl_eq.trans hlow)
        (hdec.fn_eq ▸ loweredExactly_of_flag hflag (hflags flag hset)) _
  have hok : ∀ s ∈ allocateProgramNodeIds program, ∀ t ≤ N, (interpSemantics L params).val ticks
      (planOf (loweringEnv symbols flags).toSchedule s.body) always t ≠ none := by
    intro s hs t ht
    obtain ⟨i, hi⟩ := List.mem_iff_getElem?.mp hs
    rw [← interp_val_impl (loweringEnv symbols flags) params ticks s.body t]
    exact val_of_interpretedAt (L := L) hun hsym hsafe horders params ticks hi
      (fun t ht => hreturns t ht i (List.getElem?_eq_some_iff.mp hi).1) t ht
  exact code_refines_interpreter rfl rfl hun hsym hsafe (volumeScoped_of_runtime hvwap _) hemit
    horders toOption_eq_some hsim hok

section Two
open Concrete

/-- `peak = if cross_above(mid(A), ema(mid(A), 3)) then rolling_max(mid(A), 2) else lag(mid(A), 1)`
and `low = rolling_min(mid(A), 2) + kalman1d(mid(A), 1, 1)` -/
def peakAndLow : List (SignalDef (Exact ℚ)) :=
  [⟨"peak", ifThenElse (app "cross_above" [mid "A", app "ema" [mid "A", num 3]])
      (app "rolling_max" [mid "A", num 2]) (app "lag" [mid "A", num 1])⟩,
    ⟨"low", plus (app "rolling_min" [mid "A", num 2]) (app "kalman1d" [mid "A", num 1, num 1])⟩]

/-- What is lowered exactly. -/
def lowerExactly : StatefulLoweringFlags := fun flag => exactFlags.contains flag

theorem exactlyLowered_code_refines_interpreter_peakAndLow :
    ∃ code, emitProgram (loweringEnv symbols lowerExactly) (allocateProgramNodeIds peakAndLow) =
        .ok code ∧
      ∃ outputs, compiledOutputsAt (fun _ => code) jump (prewarmProgramContext (newContext [])
          (allocateProgramNodeIds peakAndLow) :
            SignalContext _ (NodeStates (Exact ℚ) (Exact ℚ))) 1 = some outputs ∧
        ∀ i < 2, ∃ v, interpretedAt symbols (allocateProgramNodeIds peakAndLow)
          (fun _ => [0, 1]) [] jump 1 i = some (.ok v) ∧ outputs i = some v := by
  obtain ⟨code, hcode⟩ : ∃ code, emitProgram (loweringEnv symbols lowerExactly)
      (allocateProgramNodeIds peakAndLow) = .ok code := exists_emitted (by decide +kernel)
  have hun : ∀ s ∈ peakAndLow, ∀ c ∈ s.body.calls, c.nodeId = -1 := by decide +kernel
  have hfactor : ∀ s ∈ allocateProgramNodeIds peakAndLow, ∀ c ∈ s.body.calls,
      Builtin.ofName c.name = some (.stateful .emaAlpha) →
        (c.args[1]?.bind Expr.asNumber).isSome = true := by decide +kernel
  have hnoise : ∀ s ∈ allocateProgramNodeIds peakAndLow, ∀ c ∈ s.body.calls,
      c.name = "kalman1d" → ∀ a ∈ c.args.drop 1, a.calls.length = 0 := by decide +kernel
  have hreturns : ∀ t < 2, ∀ i < 2, (interpretedAt symbols (allocateProgramNodeIds peakAndLow)
      (fun _ => [0, 1]) [] jump t i).bind Except.toOption ≠ none := by decide +kernel
  exact ⟨code, hcode, exactlyLowered_code_refines_interpreter
    (fun flag h => List.contains_iff_mem.mp h) hun (symbolOk_of_unset (by decide +kernel))
    (fun s hs c hc => Call.literalFactor_of_isSome (hfactor s hs c hc))
    (fun s hs => kalmanSafe_of_noise (hnoise s hs)) hcode (fun _ => .refl _) [] jump 1
    fun t ht i hi => ne_error_of_toOption (hreturns t (Nat.lt_succ_of_le ht) i hi)⟩

end Two
/-! ## Numbers -/

/-- The operators of the interpreter, restricted to operands that are numbers. -/
def numericStep [Fp D] [Fp L] [Widen D L] (op : StatefulOp D) (market : MarketState D)
    (vs : List D) (slot : NodeSlot D L) : Option (D × NodeSlot D L) :=
  if vs.any isnan then none else (operatorStep op market vs slot).toOption

theorem numericStep_eq_some [Fp D] [Fp L] [Widen D L] {op : StatefulOp D} {market : MarketState D}
    {vs : List D} {slot : NodeSlot D L} {out : D × NodeSlot D L}
    (h : numericStep op market vs slot = some out) :
    vs.any isnan = false ∧ operatorStep op market vs slot = .ok out := by
  unfold numericStep at h
  split at h
  · cases h
  · exact ⟨Bool.eq_false_iff.mpr ‹_›, toOption_eq_some h⟩

/-- What is not NaN is a number. -/
theorem exists_numbers {vs : List (Exact ℝ)} (h : vs.any isnan = false) :
    ∃ xs : List ℝ, vs = xs.map val := by
  rcases numbers_or_nan vs with hnum | hmem
  · exact hnum
  · exact absurd (List.any_eq_true.mpr ⟨.nan, hmem, rfl⟩) (Bool.eq_false_iff.mp h)

/-- Window literals are whole numbers that fit an `int`. -/
def Call.WholeWindow (c : Call (Exact ℝ)) : Prop :=
  ∀ fn, Builtin.ofName c.name = some (.stateful fn) → ∀ v ∈ periodLiteral fn c.args,
    ∃ n : Nat, n < 2 ^ 31 ∧ v = .val (n : ℝ)

theorem parsePreparedPairPeriod_natCast (n : Nat) :
    parsePreparedPairPeriod (some (.val (n : ℝ)) : Option (Exact ℝ)) = n := by
  have hexact : lt (fabs (sub (val (n : ℝ)) (ofInt (n : Int)))) eqTolerance = true := by
    rw [ofInt, ofRat_val, sub_val, Int.cast_natCast, Rat.cast_natCast, sub_self]
    have hlt : max (0 : ℝ) (-0) < ((1 / 10 ^ 12 : ℚ) : ℝ) := by norm_num
    exact decide_eq_true hlt
  simp only [parsePreparedPairPeriod, toInt_natCast, hexact, Bool.and_true, decide_eq_true_eq]
  split <;> omega

/-- Operators that are lowered are legal. -/
theorem legal_of_shape {impl : StatefulFn → List (Option (Exact ℝ)) → Impl} {symbols : SymbolTable}
    {c : Call (Exact ℝ)} {op : StatefulOp (Exact ℝ)}
    (hshape : (⟨symbols, impl, fun _ => none⟩ : ScheduleEnv (Exact ℝ)).shape c.name c.args =
      .stateful op) (hwhole : c.WholeWindow) (hfn : op.fn ≠ .emaAlpha) : op.Legal := by
  obtain ⟨fn, hname, hdec, ⟨hsized, hperiod⟩, hmin⟩ := shape_decoded hshape
  -- the literal, if the operator has one
  have hwindow : op.literal = none ∨ ∃ n : Nat, n < 2 ^ 31 ∧ op.literal = some (.val (n : ℝ)) := by
    rcases hdec.literal with hlit | hlit
    · exact .inl hlit
    · rcases hv : periodLiteral fn c.args with _ | v
      · exact .inl (hlit.trans hv)
      · obtain ⟨n, hn, rfl⟩ := hwhole fn hname v hv
        exact .inr ⟨n, hn, hlit.trans hv⟩
  have hlt : op.period < 2 ^ 31 := by
    rw [← hperiod]
    rcases hwindow with hlit | ⟨n, hn, hlit⟩ <;> rw [hlit]
    · decide
    · rwa [parsePreparedPeriod_natCast]
  have hpair : parsePreparedPairPeriod op.literal = op.period := by
    rw [← hperiod]
    rcases hwindow with hlit | ⟨n, -, hlit⟩ <;> rw [hlit]
    · rfl
    · rw [parsePreparedPairPeriod_natCast, parsePreparedPeriod_natCast]
  refine ⟨hfn, hsized, fun hdev => ?_, hlt, hperiod, fun _ => hpair⟩
  rcases hlit : op.literal with _ | v
  · rw [hdec.fn_eq] at hdev
    rcases hdec.windowless hlit with rfl | rfl | rfl | rfl <;> rcases hdev with h | h <;> cases h
  · have hle := hmin v hlit
    rw [hdec.fn_eq] at hdev
    rcases hdev with rfl | rfl <;> exact hle

/-- The market of a tick with finite quotes. -/
def quotedTicks (quotes : Nat → Nat → Quote ℝ) (t : Nat) : MarketState (Exact ℝ) :=
  fun symbol => (quotes t symbol).state

section Numbers

variable {op : StatefulOp (Exact ℝ)} {i : OperatorInput ℝ}

/-- What the IR of an operator is given. -/
theorem OperatorInput.loweredValues_eq (himpl : op.impl = .lowered) :
    i.loweredValues op = op.inputs i.market i.values := by
  unfold loweredValues StatefulOp.inputs
  rw [himpl]
  cases op.fn <;> rfl

theorem loweredTick_eq_ok {low low' : LoweredSlot (Exact ℝ)} {v : Exact ℝ}
    (h : loweredTick op low i = .ok (v, low')) :
    loweredStep op false (i.loweredValues op) low = some (v, low') := by
  unfold loweredTick at h
  split at h
  · rw [‹loweredStep _ _ _ _ = _›]
    exact congrArg some (Except.ok.inj h)
  · cases h

/-- An operator that returned was given what it accepts. -/
theorem accepted_of_ok {slot : NodeSlot (Exact ℝ) (Exact ℝ)}
    {out : Exact ℝ × NodeSlot (Exact ℝ) (Exact ℝ)} (h : interpreterTick op slot i = .ok out) :
    i.Accepted op.fn := by
  have harity : i.values.length = op.fn.arity := operatorStep_arity h
  rw [OperatorInput.values, List.length_map] at harity
  have hguard : op.fn = .kalman1d → ∃ x q r, i.operands = [x, q, r] ∧ 0 ≤ q ∧ 0 < r := by
    intro hfn
    rw [hfn] at harity
    obtain ⟨x, q, r, hx⟩ := List.length_eq_three.1 harity
    unfold interpreterTick operatorStep at h
    rw [hfn, OperatorInput.values, hx] at h
    change (if (lt (val q) (ofNat 0) || le (val r) (ofNat 0)) = true then _ else _) = _ at h
    split at h
    · cases h
    · rename_i hpass
      rw [Bool.or_eq_true, not_or, ofNat_val, Nat.cast_zero, lt_val, le_val, decide_eq_true_eq,
        decide_eq_true_eq] at hpass
      exact ⟨x, q, r, hx, not_lt.mp hpass.1, not_le.mp hpass.2⟩
  refine ⟨harity, fun hfn q hq => ?_, fun hfn r hr => ?_⟩
  · obtain ⟨x, q', r, hx, hle, -⟩ := hguard hfn
    rw [hx] at hq
    cases hq
    exact hle
  · obtain ⟨x, q, r', hx, -, hlt⟩ := hguard hfn
    rw [hx] at hr
    cases hr
    exact hlt

end Numbers

/-- **Every lowered operator** simulates the restriction of the interpreter's to numbers. -/
theorem lowered_callSim {impl : StatefulFn → List (Option (Exact ℝ)) → Impl}
    {symbols : SymbolTable} {params : List (Exact ℝ)} {quotes : Nat → Nat → Quote ℝ}
    {c : Call (Exact ℝ)} (hwhole : c.WholeWindow) {op : StatefulOp (Exact ℝ)}
    (hshape : (⟨symbols, impl, fun _ => none⟩ : ScheduleEnv (Exact ℝ)).shape c.name c.args =
      .stateful op) (himpl : op.impl = .lowered) (hfn : op.fn ≠ .emaAlpha)
    (args : List (Plan (Exact ℝ))) :
    Semantics.CallSim (planSemantics params StatefulOp.slot (numericStep (L := Exact ℝ)))
      (codeSemantics (Exact ℝ) params) (quotedTicks quotes) op args := by
  have hop := legal_of_shape hshape hwhole hfn
  refine ⟨fun slot states => slot.Prepared op .nan ∧ op.Agrees slot states.lowered,
    ⟨NodeSlot.prepared_prewarm hop.sized hop.prepared, hop.agrees_prewarm⟩, ?_⟩
  rintro act t vs v slot slot' states - ⟨hslot, hagrees⟩ hnumeric
  obtain ⟨hnum, hok⟩ := numericStep_eq_some hnumeric
  obtain ⟨xs, rfl⟩ := exists_numbers hnum
  -- the tick as an input of the operator
  have hinterp : interpreterTick op slot ⟨quotes t, xs⟩ = .ok (v, slot') := hok
  obtain ⟨v', slot'', low', hinterp', hlow, hagrees'⟩ :=
    hagrees.tick hop hslot (accepted_of_ok hinterp)
  obtain ⟨rfl, rfl⟩ := Prod.mk.inj (Except.ok.inj (hinterp'.symm.trans hinterp))
  have hprepared := (operatorStep_runtimeStep hop.sized hslot
    (fun hema => absurd hema hop.lowered) hok).2
  have hstep := loweredTick_eq_ok hlow
  rw [OperatorInput.loweredValues_eq himpl] at hstep
  refine ⟨{ states with lowered := low' }, ?_, hprepared, hagrees'⟩
  change emittedStep op false _ (op.inputs (quotedTicks quotes t) (xs.map val)) states = _
  rw [emittedStep_lowered himpl]
  exact congrArg (Option.map _) hstep

/-- **Lowered code refines the interpreter**: over the reals a program writes what the interpreter
returns, whatever operators are lowered, as long as no operator is given NaN. -/
theorem lowered_code_refines_interpreter {symbols : SymbolTable} {flags : StatefulLoweringFlags}
    {program : List (SignalDef (Exact ℝ))} (hun : ∀ s ∈ program, Unallocated s.body.calls)
    (hsym : ∀ s ∈ allocateProgramNodeIds program, ∀ c ∈ s.body.calls, c.SymbolOk symbols)
    (hlit : ∀ s ∈ allocateProgramNodeIds program, ∀ c ∈ s.body.calls, c.LiteralFactor)
    (hwhole : ∀ s ∈ allocateProgramNodeIds program, ∀ c ∈ s.body.calls, c.WholeWindow)
    (hsafe : ∀ s ∈ allocateProgramNodeIds program, KalmanSafe s.body)
    (hvolumes : volumeScoped (loweringEnv symbols flags) (allocateProgramNodeIds program) = true)
    {code : Code (Instr (Exact ℝ))}
    (hemit : emitProgram (loweringEnv symbols flags) (allocateProgramNodeIds program) = .ok code)
    {orders : Nat → List Nat}
    (horders : ∀ t, (orders t).Perm (List.range (allocateProgramNodeIds program).length))
    (params : List (Exact ℝ)) (quotes : Nat → Nat → Quote ℝ) (N : Nat)
    (hnumeric : ∀ s ∈ allocateProgramNodeIds program, ∀ t ≤ N,
      (planSemantics params StatefulOp.slot (numericStep (L := Exact ℝ))).val (quotedTicks quotes)
        (planOf (loweringEnv symbols flags).toSchedule s.body) always t ≠ none) :
    ∃ outputs, compiledOutputsAt (fun _ => code) (quotedTicks quotes)
        (prewarmProgramContext (newContext params) (allocateProgramNodeIds program) :
          SignalContext (Exact ℝ) (NodeStates (Exact ℝ) (Exact ℝ))) N = some outputs ∧
      ∀ i < (allocateProgramNodeIds program).length, ∃ v,
        interpretedAt (L := Exact ℝ) symbols (allocateProgramNodeIds program) orders params
          (quotedTicks quotes) N i = some (.ok v) ∧ outputs i = some v := by
  refine code_refines_interpreter rfl rfl hun hsym hsafe hvolumes hemit horders
    (fun h => (numericStep_eq_some h).2) (fun s hs c hc op hop path δ => ?_) hnumeric
  obtain ⟨fn, -, hdec, -⟩ := shape_decoded hop
  rcases loweringEnv_impl symbols flags fn (c.args.map Expr.asNumber) with
    hrun | ⟨hlow, flag, hflag, -⟩
  · exact runtime_callSim (fun h => (numericStep_eq_some h).2) (hlit s hs c hc) hop
      (hdec.impl_eq.trans hrun) path δ
  · refine lowered_callSim (hwhole s hs c hc) hop (hdec.impl_eq.trans hlow) (fun hema => ?_) _
    rw [← hdec.fn_eq, hema] at hflag
    cases hflag

section Crossing
open Concrete

/-- The mid price of a ticker. -/
def midPrice (ticker : String) : Expr (Exact ℝ) :=
  .functionCall {} "mid" [.identifierExpr {} ticker] (-1) (-1)

/-- `crossing = cross_above(mid(A), mid(B))`, with the id of the operator. -/
def crossing (nodeId : Int) : SignalDef (Exact ℝ) :=
  ⟨"crossing", .functionCall {} "cross_above" [midPrice "A", midPrice "B"] nodeId (-1)⟩

/-- What its calls are. -/
theorem calls_crossing {P : Call (Exact ℝ) → Prop} {nodeId : Int}
    (hcross : P ⟨"cross_above", [midPrice "A", midPrice "B"], nodeId, -1⟩)
    (hmid : ∀ ticker, P ⟨"mid", [.identifierExpr {} ticker], -1, -1⟩) :
    ∀ s ∈ [crossing nodeId], ∀ c ∈ s.body.calls, P c := by
  intro s hs c hc
  obtain rfl := List.mem_singleton.mp hs
  obtain rfl | hc := List.mem_cons.mp hc
  · exact hcross
  · obtain rfl | hc := List.mem_cons.mp hc
    · exact hmid "A"
    · obtain rfl := List.mem_singleton.mp hc
      exact hmid "B"

theorem allocateProgramNodeIds_crossing :
    allocateProgramNodeIds [crossing (-1)] = [crossing 1] := rfl

/-- The plan of its lowered code. -/
def crossingPlan : Plan (Exact ℝ) :=
  .call ⟨.crossAbove, none, 0, .lowered⟩ [.leaf (.market .mid 0), .leaf (.market .mid 1)]

theorem planOf_crossing :
    planOf (loweringEnv symbols .all).toSchedule (crossing 1).body = crossingPlan := rfl

/-- Mid prices are numbers. -/
theorem crossing_val_ne_none (quotes : Nat → Nat → Quote ℝ) (t : Nat) :
    (planSemantics [] StatefulOp.slot (numericStep (L := Exact ℝ))).val (quotedTicks quotes)
      crossingPlan always t ≠ none := by
  have hmid : ∀ symbol, isnan ((quotedTicks quotes t symbol).mid) = false := fun symbol => by
    rw [isnan, Bool.not_eq_false']
    exact decide_eq_true rfl
  have hnum : [(quotedTicks quotes t 0).mid, (quotedTicks quotes t 1).mid].any isnan = false := by
    rw [List.any_cons, List.any_cons, hmid, hmid]
    rfl
  rw [crossingPlan, Semantics.val_call, Semantics.output]
  change ((numericStep _ _ [(quotedTicks quotes t 0).mid, (quotedTicks quotes t 1).mid] _).map _) ≠ _
  rw [numericStep, hnum]
  exact Option.some_ne_none _

/-- The price of the first instrument rises. -/
def rising (t symbol : Nat) : Quote ℝ := if symbol = 0 then ⟨t, t, 1⟩ else ⟨1, 1, 1⟩

theorem lowered_code_refines_interpreter_crossing :
    ∃ code, emitProgram (loweringEnv symbols .all) (allocateProgramNodeIds [crossing (-1)]) =
        .ok code ∧
      ∃ outputs, compiledOutputsAt (fun _ => code) (quotedTicks rising)
          (prewarmProgramContext (newContext []) (allocateProgramNodeIds [crossing (-1)]) :
            SignalContext _ (NodeStates (Exact ℝ) (Exact ℝ))) 2 = some outputs ∧
        ∀ i < 1, ∃ v, interpretedAt (L := Exact ℝ) symbols (allocateProgramNodeIds [crossing (-1)])
          (fun _ => [0]) [] (quotedTicks rising) 2 i = some (.ok v) ∧ outputs i = some v := by
  obtain ⟨code, hcode⟩ : ∃ code, emitProgram (loweringEnv symbols .all)
      (allocateProgramNodeIds [crossing (-1)]) = .ok code := exists_emitted (by decide +kernel)
  -- its calls have no slot, no factor, no window and no noise
  have hun : ∀ s ∈ [crossing (-1)], ∀ c ∈ s.body.calls, c.nodeId = -1 :=
    calls_crossing rfl fun _ => rfl
  have hsym : ∀ s ∈ [crossing 1], ∀ c ∈ s.body.calls, c.SymbolOk symbols :=
    calls_crossing (fun _ hbound => absurd hbound (by decide))
      fun _ _ hbound => absurd (show (0 : Int) ≤ -1 from hbound) (by decide)
  have hlit : ∀ s ∈ [crossing 1], ∀ c ∈ s.body.calls, c.LiteralFactor :=
    calls_crossing (fun hfn => nomatch hfn) fun _ hfn => nomatch hfn
  have hwhole : ∀ s ∈ [crossing 1], ∀ c ∈ s.body.calls, c.WholeWindow :=
    calls_crossing (fun fn hfn v hv => by cases hfn; cases hv) fun _ fn hfn => nomatch hfn
  have hsafe : ∀ s ∈ [crossing 1], ∀ c ∈ s.body.calls, c.name = "kalman1d" →
      ∀ a ∈ c.args.drop 1, a.calls.length = 0 :=
    calls_crossing (fun hname => absurd hname (by decide))
      fun _ hname => absurd (show "mid" = "kalman1d" from hname) (by decide)
  have hnumeric : ∀ s ∈ [crossing 1], ∀ t ≤ 2,
      (planSemantics [] StatefulOp.slot (numericStep (L := Exact ℝ))).val (quotedTicks rising)
        (planOf (loweringEnv symbols .all).toSchedule s.body) always t ≠ none := by
    intro s hs t _
    obtain rfl := List.mem_singleton.mp hs
    exact crossing_val_ne_none rising t
  exact ⟨code, hcode, lowered_code_refines_interpreter hun hsym hlit hwhole
    (fun s hs => kalmanSafe_of_noise (hsafe s hs)) rfl hcode (fun _ => .refl _) [] rising 2 hnumeric⟩

end Crossing
end JitSignalEngine
