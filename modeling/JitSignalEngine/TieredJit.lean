import JitSignalEngine.JitCompiler
import JitSignalEngine.Specialization

/-!
# Runs of a tiered compiler

`TieredProgramJit` owns two compilers. `Compile` compiles the baseline program and publishes its
function, `Promote` compiles the program with `assume_warm` and publishes that one. The evaluator
loads the active function before every tick.

* `TieredImpl.compile`, `TieredImpl.promote` — the two calls.
* `LlvmAnswers.Loads` — what LLVM puts at the addresses it finds.
* `TieredImpl.outputsAt` — a run, with promotions tried at any ticks.
* `TieredImpl.Serves` — what is active, and that a promotion keeps it so.
* `tiered_run_follows_baseline` — the promotions do not show.
-/

namespace JitSignalEngine

variable {D L : Type}

/-! ## The two tiers -/

/-- `TieredProgramJit::Impl` -/
structure TieredImpl (D : Type) where
  /-- `baseline_jit` -/
  baselineJit : JitImpl
  /-- `specialized_jit` -/
  specializedJit : JitImpl
  /-- what `signals` points to, nothing before `Compile` -/
  signals : List (SignalDef D)
  /-- what `symbols` points to -/
  symbols : SymbolTable
  /-- `lowering` -/
  lowering : StatefulLoweringFlags
  /-- `warmup_threshold` -/
  warmupThreshold : Int
  /-- `active_fn` -/
  activeFn : Option Address
  /-- `promoted` -/
  promoted : Bool
  /-- `compiled` -/
  compiled : Bool
  /-- `last_error` -/
  lastError : String

/-- What a call does, and what it returns unless it throws. -/
structure TieredOutcome (D : Type) where
  /-- the two tiers afterwards -/
  impl : TieredImpl D
  /-- what the call returns, unless it throws -/
  returned : Option Bool

theorem TieredOutcome.eq_of_returned {o : TieredOutcome D} {b : Option Bool} (h : o.returned = b) :
    o = ⟨o.impl, b⟩ := by
  subst h
  rfl

namespace TieredImpl

/-- A `TieredProgramJit` as its constructor leaves it. -/
def init (baseline specialized : JitImpl) : TieredImpl D where
  baselineJit := baseline
  specializedJit := specialized
  signals := []
  symbols := fun _ => none
  lowering := .all
  warmupThreshold := 0
  activeFn := none
  promoted := false
  compiled := false
  lastError := ""

/-- `last_error = message; return false` -/
def fail (st : TieredImpl D) (message : String) : TieredOutcome D :=
  ⟨{ st with lastError := message }, some false⟩

/-- The end of both calls: the function the compiler has is published as `next` says. -/
def publish (tier : String) (r : Outcome) (next : Address → TieredImpl D) (st : TieredImpl D) :
    TieredOutcome D :=
  match r.returned with
  | none => ⟨st, none⟩
  | some false => st.fail (tier ++ " compile failed: " ++ r.impl.lastError)
  | some true =>
    match r.impl.get .programFunction with
    | none => st.fail (tier ++ " compile returned null program fn")
    | some a => ⟨next a, some true⟩

/-- `TieredProgramJit::IsAvailable` -/
def isAvailable (hasLlvm : Bool) (st : TieredImpl D) : Bool :=
  (hasLlvm && st.baselineJit.lljit) && (hasLlvm && st.specializedJit.lljit)

section Calls

variable [Fp D] (hasLlvm : Bool)

/-- `TieredProgramJit::Compile` -/
def compile (signals : List (SignalDef D)) (symbols : SymbolTable) (lowering : StatefulLoweringFlags)
    (ans : LlvmAnswers) (st : TieredImpl D) : TieredOutcome D :=
  let st := { st with activeFn := none, promoted := false, compiled := false }
  if !st.isAvailable hasLlvm then st.fail "JIT is unavailable"
  else
    let r := compileProgram hasLlvm signals symbols ans
      { st.baselineJit with statefulLowering := lowering }
    let st :=
      { st with
        baselineJit := r.impl
        signals := signals
        symbols := symbols
        lowering := lowering
        warmupThreshold := computeProgramWarmupThreshold signals }
    st.publish "baseline" r fun a =>
      { st with activeFn := some a, compiled := true, lastError := "" }

/-- `TieredProgramJit::Promote` -/
def promote (ans : LlvmAnswers) (st : TieredImpl D) : TieredOutcome D :=
  if !st.compiled then st.fail "Promote() before Compile()"
  else if st.promoted then ⟨st, some true⟩
  else
    let r := compileProgramSpecialized hasLlvm st.signals st.symbols true ans
      { st.specializedJit with statefulLowering := st.lowering }
    let st := { st with specializedJit := r.impl }
    st.publish "specialized" r fun a =>
      { st with activeFn := some a, promoted := true, lastError := "" }

/-! ## Runs -/

/-- Promotions, one after the other. -/
def promoteAll (attempts : List LlvmAnswers) (st : TieredImpl D) : TieredImpl D :=
  attempts.foldl (fun st ans => (st.promote hasLlvm ans).impl) st

/-- The tiers when the function for tick `n` is loaded. The promotions in `attempts n` were tried
since the one for the tick before was. -/
def atTick (attempts : Nat → List LlvmAnswers) (st : TieredImpl D) : Nat → TieredImpl D
  | 0 => st.promoteAll hasLlvm (attempts 0)
  | n + 1 => (st.atTick attempts n).promoteAll hasLlvm (attempts (n + 1))

variable [Fp L] [Widen D L] (mem : Address → Option (Code (Instr D)))

/-- A call of `CurrentFunction()`, where `mem` is the code at an address. -/
def call (market : MarketState D) (ctx : SignalContext D (NodeStates D L))
    (st : TieredImpl D) : Option (Frame D (NodeStates D L)) :=
  (st.activeFn.bind mem).bind fun code => runProgram code market ctx

/-- The context before tick `n`, if the calls before it return. -/
def contextAt (attempts : Nat → List LlvmAnswers) (ticks : Nat → MarketState D)
    (ctx : SignalContext D (NodeStates D L)) (st : TieredImpl D) :
    Nat → Option (SignalContext D (NodeStates D L))
  | 0 => some ctx
  | n + 1 => (st.contextAt attempts ticks ctx n).bind fun ctx =>
    ((st.atTick hasLlvm attempts n).call mem (ticks n) ctx).map Frame.ctx

/-- What the call at tick `n` writes, if it returns. -/
def outputsAt (attempts : Nat → List LlvmAnswers) (ticks : Nat → MarketState D)
    (ctx : SignalContext D (NodeStates D L)) (st : TieredImpl D) (n : Nat) :
    Option (Nat → Option D) :=
  (st.contextAt hasLlvm mem attempts ticks ctx n).bind fun ctx =>
    ((st.atTick hasLlvm attempts n).call mem (ticks n) ctx).map Frame.outputs

end Calls

end TieredImpl

/-! ## What a compile without a cache finds -/

section Compile

variable [Fp D] {hasLlvm : Bool} {signals : List (SignalDef D)} {symbols : SymbolTable}
  {ans : LlvmAnswers} {st : JitImpl} {r : Outcome}

omit [Fp D] in
/-- A module that is linked is looked up. -/
theorem linkModule_ok {registered : List RuntimeSymbol} {setFn : Address → JitImpl → JitImpl}
    {calls : Callees} (hr : linkModule registered ans setFn calls st = r)
    (h : r.returned = some true) :
    ∃ a, ans.lookup = .ok a ∧
      r.impl = { setFn a (registerSymbols registered st) with lastError := "" } := by
  unfold linkModule at hr
  split at hr
  · subst hr
    cases h
  · dsimp only at hr
    split at hr
    · subst hr
      cases h
    · split at hr
      · subst hr
        cases h
      · rename_i a hfound
        subst hr
        refine ⟨a, ?_, rfl⟩
        split at hfound
        · exact hfound
        · cases hfound

omit [Fp D] in
theorem linkModule_cacheDir (registered : List RuntimeSymbol) {setFn : Address → JitImpl → JitImpl}
    (hset : ∀ a st, (setFn a st).cacheDir = st.cacheDir) (calls : Callees) :
    (linkModule registered ans setFn calls st).impl.cacheDir = st.cacheDir := by
  have hregister : (registerSymbols registered st).cacheDir = st.cacheDir := by
    unfold registerSymbols
    split <;> rfl
  unfold linkModule
  split
  · rfl
  · dsimp only
    split
    · exact hregister
    · split
      · exact hregister
      · exact (hset _ _).trans hregister

variable (hasLlvm signals symbols ans) in
/-- Without a cache the code is emitted, or the compile fails. -/
theorem prepareProgram_module (assumeWarm : Bool) (hcache : st.cacheDir = "") :
    (∃ message, prepareProgram hasLlvm assumeWarm signals symbols ans st = .failed message) ∨
      ∃ calls code, emitProgram ⟨symbols, st.statefulLowering, ans.hasAvx2, assumeWarm, false⟩
          signals = .ok code ∧
        prepareProgram hasLlvm assumeWarm signals symbols ans st = .module calls false := by
  unfold prepareProgram prepareCached programCalls
  rw [hcache]
  split
  · exact .inl ⟨_, rfl⟩
  · split
    · exact .inl ⟨_, rfl⟩
    · split
      · exact .inl ⟨_, rfl⟩
      · cases emitProgram ⟨symbols, st.statefulLowering, ans.hasAvx2, assumeWarm, false⟩ signals with
        | error e => exact .inl ⟨_, rfl⟩
        | ok code =>
          cases hverified : ans.verified with
          | false => exact .inl ⟨_, by simp only [verifyModule, hverified, Except.map]; rfl⟩
          | true =>
            exact .inr ⟨_, code, rfl, by simp only [verifyModule, hverified, Except.map]; rfl⟩

/-- **A compile that succeeds** emitted its code, and stores the address that was found. -/
theorem compileProgramImpl_ok {assumeWarm : Bool}
    (hr : compileProgramImpl hasLlvm assumeWarm signals symbols ans st = r)
    (hcache : st.cacheDir = "") (h : r.returned = some true) :
    ∃ a code, ans.lookup = .ok a ∧
      emitProgram ⟨symbols, st.statefulLowering, ans.hasAvx2, assumeWarm, false⟩ signals = .ok code ∧
      r.impl.get .programFunction = some a := by
  unfold compileProgramImpl at hr
  dsimp only at hr
  have hreset : ((resetForProgram st).setCacheHit (!hasLlvm && st.lastCacheHit)).cacheDir = "" :=
    hcache
  rcases prepareProgram_module hasLlvm signals symbols ans assumeWarm hreset with
    ⟨message, hprepared⟩ | ⟨calls, code, hcode, hprepared⟩
  · rw [hprepared] at hr
    subst hr
    cases h
  · rw [hprepared, finishProgram] at hr
    obtain ⟨a, ha, himpl⟩ := linkModule_ok hr h
    exact ⟨a, code, ha, hcode, by rw [himpl]; rfl⟩

variable (hasLlvm signals symbols ans st) in
theorem compileProgramImpl_cacheDir (assumeWarm : Bool) :
    (compileProgramImpl hasLlvm assumeWarm signals symbols ans st).impl.cacheDir = st.cacheDir := by
  unfold compileProgramImpl finishProgram
  dsimp only
  split
  · rfl
  · rfl
  · rfl
  · rw [linkModule_cacheDir]
    · rfl
    · exact fun _ _ => rfl

end Compile

/-! ## What is active -/

/-- **What LLVM does**: the function it finds for a module is that of the code in the module. All
compilers run on one machine. -/
structure LlvmAnswers.Loads [Fp D] (mem : Address → Option (Code (Instr D)))
    (useAvx2 assumeWarm : Bool) (signals : List (SignalDef D)) (symbols : SymbolTable)
    (lowering : StatefulLoweringFlags) (ans : LlvmAnswers) : Prop where
  machine : ans.hasAvx2 = useAvx2
  loaded : ∀ a code, ans.lookup = .ok a →
    emitProgram ⟨symbols, lowering, useAvx2, assumeWarm, false⟩ signals = .ok code →
      mem a = some code

namespace TieredImpl

variable [Fp D] {hasLlvm : Bool} {st : TieredImpl D} {ans : LlvmAnswers}

variable (hasLlvm) in
/-- The tiers after any calls. -/
inductive Reachable : TieredImpl D → Prop
  | init (lljit lljit' : Bool) (error error' : String) (lowering lowering' : StatefulLoweringFlags) :
    Reachable (init (.init lljit error lowering) (.init lljit' error' lowering'))
  | compile {st : TieredImpl D} (signals : List (SignalDef D)) (symbols : SymbolTable)
    (lowering : StatefulLoweringFlags) (ans : LlvmAnswers) (h : Reachable st) :
    Reachable (st.compile hasLlvm signals symbols lowering ans).impl
  | promote {st : TieredImpl D} (ans : LlvmAnswers) (h : Reachable st) :
    Reachable (st.promote hasLlvm ans).impl

/-- Neither compiler has a cache. -/
def Uncached (st : TieredImpl D) : Prop :=
  st.baselineJit.cacheDir = "" ∧ st.specializedJit.cacheDir = ""

omit [Fp D] in
/-- Nothing is published, or what the compiler has. -/
theorem publish_cases {tier : String} {r : Outcome} {next : Address → TieredImpl D}
    {o : TieredOutcome D} (ho : st.publish tier r next = o) :
    (o.returned ≠ some true ∧ ∃ e, o.impl = { st with lastError := e }) ∨
      ∃ a, r.returned = some true ∧ r.impl.get .programFunction = some a ∧ o = ⟨next a, some true⟩ := by
  unfold publish at ho
  split at ho
  · subst ho
    exact .inl ⟨nofun, st.lastError, rfl⟩
  · subst ho
    exact .inl ⟨nofun, _, rfl⟩
  · rename_i hreturned
    split at ho
    · subst ho
      exact .inl ⟨nofun, _, rfl⟩
    · rename_i a hfound
      exact .inr ⟨a, hreturned, hfound, ho.symm⟩

omit [Fp D] in
/-- What holds of the tiers whichever way the call ends. -/
theorem publish_keeps {P : TieredImpl D → Prop} {tier : String} {r : Outcome}
    {next : Address → TieredImpl D} (hst : ∀ e, P { st with lastError := e })
    (hnext : ∀ a, P (next a)) : P (st.publish tier r next).impl := by
  generalize ho : st.publish tier r next = o
  rcases publish_cases ho with ⟨-, e, he⟩ | ⟨a, -, -, rfl⟩
  · rw [he]
    exact hst e
  · exact hnext a

/-- Neither compiler is ever given a cache. -/
theorem Reachable.uncached (h : Reachable hasLlvm st) : st.Uncached := by
  induction h with
  | init => exact ⟨rfl, rfl⟩
  | @compile st signals symbols lowering ans _ ih =>
    have hkept := (compileProgramImpl_cacheDir hasLlvm signals symbols ans
      { st.baselineJit with statefulLowering := lowering } false).trans ih.1
    unfold TieredImpl.compile
    dsimp only
    split
    · exact ih
    · exact publish_keeps (fun _ => ⟨hkept, ih.2⟩) fun _ => ⟨hkept, ih.2⟩
  | @promote st ans _ ih =>
    have hkept := (compileProgramImpl_cacheDir hasLlvm st.signals st.symbols ans
      { st.specializedJit with statefulLowering := st.lowering } true).trans ih.2
    unfold TieredImpl.promote
    dsimp only
    split
    · exact ih
    · split
      · exact ih
      · exact publish_keeps (fun _ => ⟨ih.1, hkept⟩) fun _ => ⟨ih.1, hkept⟩

/-- **What is active** at tick `n`, after a `Compile` that succeeded: the baseline code or, from the
threshold on, the code without guards. -/
structure Serves (mem : Address → Option (Code (Instr D))) (signals : List (SignalDef D))
    (symbols : SymbolTable) (lowering : StatefulLoweringFlags) (code : Code (Instr D)) (n : Nat)
    (st : TieredImpl D) : Prop where
  sameSignals : st.signals = signals
  sameSymbols : st.symbols = symbols
  sameLowering : st.lowering = lowering
  threshold : st.warmupThreshold = computeProgramWarmupThreshold signals
  compiled : st.compiled = true
  uncached : st.specializedJit.cacheDir = ""
  active : ∃ a, st.activeFn = some a ∧ (mem a = some code ∨
    computeProgramWarmupThreshold signals ≤ n ∧ mem a = some (code.mapOuter Instr.specialize))

variable {mem : Address → Option (Code (Instr D))} {useAvx2 : Bool} {signals : List (SignalDef D)}
  {symbols : SymbolTable} {lowering : StatefulLoweringFlags} {code : Code (Instr D)} {n : Nat}

/-- **`Compile`** publishes the baseline code. -/
theorem serves_compile (hst : st.Uncached)
    (hans : ans.Loads mem useAvx2 false signals symbols lowering)
    (h : (st.compile hasLlvm signals symbols lowering ans).returned = some true) :
    ∃ code, emitProgram ⟨symbols, lowering, useAvx2, false, false⟩ signals = .ok code ∧
      Serves mem signals symbols lowering code 0
        (st.compile hasLlvm signals symbols lowering ans).impl := by
  generalize ho : st.compile hasLlvm signals symbols lowering ans = o at h ⊢
  unfold TieredImpl.compile compileProgram at ho
  dsimp only at ho
  split at ho
  · subst ho
    cases h
  · rcases publish_cases ho with ⟨hfailed, -⟩ | ⟨a, hreturned, hfound, rfl⟩
    · exact absurd h hfailed
    · have hcache : { st.baselineJit with statefulLowering := lowering }.cacheDir = "" := hst.1
      obtain ⟨b, code, hlookup, hcode, hstored⟩ := compileProgramImpl_ok rfl hcache hreturned
      obtain rfl : b = a := Option.some.inj (hstored.symm.trans hfound)
      rw [hans.machine] at hcode
      exact ⟨code, hcode, rfl, rfl, rfl, rfl, rfl, hst.2, b, rfl,
        .inl (hans.loaded b code hlookup hcode)⟩

/-- **`Promote`** changes nothing, or publishes the code without guards. -/
theorem Serves.promote (h : Serves mem signals symbols lowering code n st)
    (hids : ConsistentIds (signals.flatMap fun s => s.body.calls))
    (hcode : emitProgram ⟨symbols, lowering, useAvx2, false, false⟩ signals = .ok code)
    (hans : ans.Loads mem useAvx2 true signals symbols lowering)
    (hn : computeProgramWarmupThreshold signals ≤ n) :
    Serves mem signals symbols lowering code n (st.promote hasLlvm ans).impl := by
  have hkept := (compileProgramImpl_cacheDir hasLlvm st.signals st.symbols ans
    { st.specializedJit with statefulLowering := st.lowering } true).trans h.uncached
  generalize ho : st.promote hasLlvm ans = o
  unfold TieredImpl.promote compileProgramSpecialized at ho
  dsimp only at ho
  split at ho
  · rename_i hnot
    rw [h.compiled] at hnot
    cases hnot
  · split at ho
    · subst ho
      exact h
    · rcases publish_cases ho with ⟨-, e, he⟩ | ⟨a, hreturned, hfound, rfl⟩
      · rw [he]
        exact { h with uncached := hkept }
      · have hcache : { st.specializedJit with statefulLowering := st.lowering }.cacheDir = "" :=
          h.uncached
        obtain ⟨b, warmCode, hlookup, hwarm, hstored⟩ := compileProgramImpl_ok rfl hcache hreturned
        obtain rfl : b = a := Option.some.inj (hstored.symm.trans hfound)
        dsimp only at hwarm
        rw [hans.machine, h.sameSignals, h.sameSymbols, h.sameLowering] at hwarm
        have hspecialized := (emitProgram_specialized rfl rfl hids hcode).1
        obtain rfl : code.mapOuter Instr.specialize = warmCode :=
          Except.ok.inj (hspecialized.symm.trans hwarm)
        exact { h with
          uncached := hkept
          active := ⟨b, rfl, .inr ⟨hn, hans.loaded b _ hlookup hwarm⟩⟩ }

/-- A later tick. -/
theorem Serves.next (h : Serves mem signals symbols lowering code n st) :
    Serves mem signals symbols lowering code (n + 1) st := by
  obtain ⟨a, ha, hmem⟩ := h.active
  exact { h with active := ⟨a, ha, hmem.imp_right fun ⟨hn, hwarm⟩ => ⟨by omega, hwarm⟩⟩ }

theorem Serves.promoteAll (h : Serves mem signals symbols lowering code n st)
    (hids : ConsistentIds (signals.flatMap fun s => s.body.calls))
    (hcode : emitProgram ⟨symbols, lowering, useAvx2, false, false⟩ signals = .ok code)
    {attempts : List LlvmAnswers}
    (hans : ∀ ans ∈ attempts, ans.Loads mem useAvx2 true signals symbols lowering)
    (hn : attempts ≠ [] → computeProgramWarmupThreshold signals ≤ n) :
    Serves mem signals symbols lowering code n (st.promoteAll hasLlvm attempts) := by
  induction attempts generalizing st with
  | nil => exact h
  | cons ans rest ih =>
    have hn := hn (List.cons_ne_nil ans rest)
    exact ih (h.promote hids hcode (hans ans List.mem_cons_self) hn)
      (fun b hb => hans b (List.mem_cons_of_mem _ hb)) fun _ => hn

/-- **At every tick**, by induction on the ticks. -/
theorem Serves.atTick (h : Serves mem signals symbols lowering code 0 st)
    (hids : ConsistentIds (signals.flatMap fun s => s.body.calls))
    (hcode : emitProgram ⟨symbols, lowering, useAvx2, false, false⟩ signals = .ok code)
    {attempts : Nat → List LlvmAnswers}
    (hans : ∀ n, ∀ ans ∈ attempts n, ans.Loads mem useAvx2 true signals symbols lowering)
    (hn : ∀ n : Nat, attempts n ≠ [] → computeProgramWarmupThreshold signals ≤ n) (n : Nat) :
    Serves mem signals symbols lowering code n (st.atTick hasLlvm attempts n) := by
  induction n with
  | zero => exact h.promoteAll hids hcode (hans 0) (hn 0)
  | succ n ih => exact ih.next.promoteAll hids hcode (hans (n + 1)) (hn (n + 1))

variable [Fp L] [Widen D L]

/-- A call of the active function, where the baseline program filled the slots. -/
theorem Serves.call_eq (h : Serves mem signals symbols lowering code n st)
    (hids : ConsistentIds (signals.flatMap fun s => s.body.calls))
    (hd : ∀ i ∈ code.instrs, i.Drawn (OperatorOf (signals.flatMap fun s => s.body.calls)))
    {ctx : SignalContext D (NodeStates D L)}
    (hfilled : FilledFor (signals.flatMap fun s => s.body.calls) code n ctx)
    (market : MarketState D) : st.call mem market ctx = runProgram code market ctx := by
  obtain ⟨a, ha, hmem | ⟨hn, hmem⟩⟩ := h.active
  · rw [call, ha, Option.bind_some, hmem, Option.bind_some]
  · rw [call, ha, Option.bind_some, hmem, Option.bind_some]
    exact runProgram_specialized hids hd hfilled fun op m ho => ho.fullAt_le hn

/-- **A run** from a state of a successful compile. -/
theorem Serves.outputsAt_eq (h : Serves mem signals symbols lowering code 0 st)
    (hids : ConsistentIds (signals.flatMap fun s => s.body.calls))
    (hcode : emitProgram ⟨symbols, lowering, useAvx2, false, false⟩ signals = .ok code)
    {attempts : Nat → List LlvmAnswers}
    (hans : ∀ n, ∀ ans ∈ attempts n, ans.Loads mem useAvx2 true signals symbols lowering)
    (hn : ∀ n : Nat, attempts n ≠ [] → computeProgramWarmupThreshold signals ≤ n)
    (ticks : Nat → MarketState D) {ctx : SignalContext D (NodeStates D L)}
    (hbounded : Bounded (signals.flatMap fun s => s.body.calls) ctx) (n : Nat) :
    st.outputsAt hasLlvm mem attempts ticks ctx n =
      compiledOutputsAt (fun _ => code) ticks ctx n := by
  have hd := (emitProgram_specialized rfl rfl hids hcode).2
  have hcall : ∀ n ctx', compiledContextAt (fun _ => code) ticks ctx n = some ctx' →
      (st.atTick hasLlvm attempts n).call mem (ticks n) ctx' = runProgram code (ticks n) ctx' :=
    fun n ctx' hctx' => (h.atTick hids hcode hans hn n).call_eq hids hd
      (filledFor_run hids hd hbounded hctx') (ticks n)
  have hcontext : st.contextAt hasLlvm mem attempts ticks ctx n =
      compiledContextAt (fun _ => code) ticks ctx n := by
    induction n with
    | zero => rfl
    | succ n ih =>
      rw [contextAt, compiledContextAt, ih]
      exact Option.bind_congr fun ctx' hctx' => congrArg _ (hcall n ctx' hctx')
  rw [outputsAt, compiledOutputsAt, hcontext]
  exact Option.bind_congr fun ctx' hctx' => congrArg _ (hcall n ctx' hctx')

end TieredImpl

/-! ## Promotions do not show -/

section Tiered

variable [DecidableEq D] [Fp D] [Fp L] [Widen D L]

/-- **Promotions do not show.** After a `Compile` that succeeds, whatever the tiers were used for
before, promotions may be tried before any tick from the threshold on, as often as one likes, and
each of them may fail. At every tick the active function writes what the baseline program writes
when it is called at all ticks. -/
theorem tiered_run_follows_baseline {hasLlvm useAvx2 : Bool} {program : List (SignalDef D)}
    (hun : ∀ s ∈ program, Unallocated s.body.calls) {symbols : SymbolTable}
    {lowering : StatefulLoweringFlags} {mem : Address → Option (Code (Instr D))} {st st' : TieredImpl D}
    (hst : TieredImpl.Reachable hasLlvm st) {ans : LlvmAnswers}
    (hans : ans.Loads mem useAvx2 false (allocateProgramNodeIds program) symbols lowering)
    (hcompile : st.compile hasLlvm (allocateProgramNodeIds program) symbols lowering ans =
      ⟨st', some true⟩)
    {attempts : Nat → List LlvmAnswers}
    (hattempts : ∀ n, ∀ ans ∈ attempts n,
      ans.Loads mem useAvx2 true (allocateProgramNodeIds program) symbols lowering)
    (hready : ∀ n : Nat, attempts n ≠ [] → st'.warmupThreshold ≤ n)
    (ctx : SignalContext D (NodeStates D L)) (ticks : Nat → MarketState D) :
    ∃ code, emitProgram ⟨symbols, lowering, useAvx2, false, false⟩
        (allocateProgramNodeIds program) = .ok code ∧
      ∀ n, st'.outputsAt hasLlvm mem attempts ticks
          (prewarmProgramContext ctx (allocateProgramNodeIds program)) n =
        compiledOutputsAt (fun _ => code) ticks
          (prewarmProgramContext ctx (allocateProgramNodeIds program)) n := by
  have hids := consistentIds_allocateProgramNodeIds hun
  have hreturned : (st.compile hasLlvm (allocateProgramNodeIds program) symbols lowering ans).returned =
      some true := by rw [hcompile]
  obtain ⟨code, hcode, hserves⟩ := TieredImpl.serves_compile hst.uncached hans hreturned
  rw [hcompile] at hserves
  refine ⟨code, hcode, hserves.outputsAt_eq hids hcode hattempts (fun n hn => ?_) ticks
    (bounded_prewarm hids ctx)⟩
  exact hserves.threshold ▸ hready n hn

end Tiered

section TwoTiers

open Concrete

/-- Two compilers. -/
def twoTiers : TieredImpl (Exact ℚ) := .init (.init true "" .all) (.init true "" .all)

/-- A `Compile` of the two averages. The baseline code is at address 1. -/
def compiledAverages : TieredOutcome (Exact ℚ) :=
  twoTiers.compile true (allocateProgramNodeIds twoAverages) symbols .all (answersAt 1)

/-- Before tick 3 a promotion fails and another one succeeds. -/
def secondTry : Nat → List LlvmAnswers
  | 3 => [{ answersAt 2 with addError := some "out of memory" }, answersAt 2]
  | _ => []

theorem tiered_run_follows_baseline_twoAverages :
    (compiledAverages.impl.atTick true secondTry 2).activeFn = some 1 ∧
      (compiledAverages.impl.atTick true secondTry 3).activeFn = some 2 ∧
      ∃ mem : Address → Option (Code (Instr (Exact ℚ))), ∀ (ctx : SignalContext (Exact ℚ)
          (NodeStates (Exact ℚ) (Exact ℚ))) (ticks : Nat → MarketState (Exact ℚ)),
        ∃ code, emitProgram ⟨symbols, .all, false, false, false⟩
            (allocateProgramNodeIds twoAverages) = .ok code ∧
          ∀ n, compiledAverages.impl.outputsAt true mem secondTry ticks
              (prewarmProgramContext ctx (allocateProgramNodeIds twoAverages)) n =
            compiledOutputsAt (fun _ => code) ticks
              (prewarmProgramContext ctx (allocateProgramNodeIds twoAverages)) n := by
  refine ⟨by decide +kernel, by decide +kernel, ?_⟩
  have hun : ∀ s ∈ twoAverages, ∀ c ∈ s.body.calls, c.nodeId = -1 := by decide +kernel
  obtain ⟨code, hcode⟩ : ∃ code, emitProgram ⟨symbols, .all, false, false, false⟩
      (allocateProgramNodeIds twoAverages) = .ok code := exists_emitted (by decide +kernel)
  obtain ⟨warmCode, hwarm⟩ : ∃ code, emitProgram ⟨symbols, .all, false, true, false⟩
      (allocateProgramNodeIds twoAverages) = .ok code := exists_emitted (by decide +kernel)
  have hreachable : TieredImpl.Reachable true twoTiers := .init true true "" "" .all .all
  have hcompile : twoTiers.compile true (allocateProgramNodeIds twoAverages) symbols .all
      (answersAt 1) = ⟨compiledAverages.impl, some true⟩ :=
    TieredOutcome.eq_of_returned (by decide +kernel)
  have hthreshold : compiledAverages.impl.warmupThreshold = 3 := by decide +kernel
  -- what is at the two addresses
  have hbaseline : (answersAt 1).Loads (fun a => if a = 1 then some code else some warmCode) false false
      (allocateProgramNodeIds twoAverages) symbols .all := by
    refine ⟨rfl, fun a c ha hc => ?_⟩
    cases ha
    exact congrArg some (Except.ok.inj (hcode.symm.trans hc))
  have hspecialized : ∀ ans : LlvmAnswers, ans.hasAvx2 = false → ans.lookup = .ok 2 →
      ans.Loads (fun a => if a = 1 then some code else some warmCode) false true
        (allocateProgramNodeIds twoAverages) symbols .all := by
    refine fun ans havx2 hlookup => ⟨havx2, fun a c ha hc => ?_⟩
    cases hlookup.symm.trans ha
    exact congrArg some (Except.ok.inj (hwarm.symm.trans hc))
  have hattempts : ∀ n, ∀ ans ∈ secondTry n, ans.hasAvx2 = false ∧ ans.lookup = .ok 2 := by
    intro n ans hans
    unfold secondTry at hans
    split at hans
    · rcases List.mem_cons.mp hans with rfl | hans
      · exact ⟨rfl, rfl⟩
      · rw [List.mem_singleton.mp hans]
        exact ⟨rfl, rfl⟩
    · exact absurd hans List.not_mem_nil
  refine ⟨fun a => if a = 1 then some code else some warmCode, fun ctx ticks =>
    tiered_run_follows_baseline hun hreachable hbaseline hcompile
      (fun n ans hans => hspecialized ans (hattempts n ans hans).1 (hattempts n ans hans).2)
      (fun n hn => ?_) ctx ticks⟩
  unfold secondTry at hn
  split at hn
  · exact hthreshold.le
  · exact absurd rfl hn

end TwoTiers

end JitSignalEngine
