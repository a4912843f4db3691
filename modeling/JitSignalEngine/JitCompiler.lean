import JitSignalEngine.RuntimeSymbols

/-!
# One compiler, many compiles

A `JitCompiler` holds one LLJIT instance and the results of its last compile. Its five
compile calls share both, so what one call does depends on the calls before it.

* `JitImpl` — `JitCompiler::Impl`, with the symbols defined in the main dylib.
* `LlvmAnswers` — what LLVM and the file system answer during a call.
* `Prepared`, `linkModule` — a compile up to the linker, and the linker.
* `JitCall.run` — the five calls; `JitEvent.next` — a call or a setting.
* `one_program_iff` — when the getters always answer for the last call.
* `symbols_registered_iff` — when every module finds the runtime functions it calls.

`Compile` does not reset the vector function. The flag `runtime_symbols_registered` does not
say which of the four blocks registered the symbols.
-/

namespace JitSignalEngine

variable {D : Type}

/-! ## The state -/

/-- The address of compiled code. -/
abbrev Address : Type := Nat

/-- `JitCompiler::Impl` -/
structure JitImpl where
  /-- `last_error` -/
  lastError : String
  /-- `fn` -/
  fn : Option Address
  /-- `program_fn` -/
  programFn : Option Address
  /-- `program_gradient_fn` -/
  programGradientFn : Option Address
  /-- `program_fn_vec` -/
  programFnVec : Option Address
  /-- `vec_lane_count` -/
  vecLaneCount : Nat
  /-- `stateful_lowering` -/
  statefulLowering : StatefulLoweringFlags
  /-- `cache_dir` -/
  cacheDir : String
  /-- `last_cache_hit` -/
  lastCacheHit : Bool
  /-- whether there is an `lljit` -/
  lljit : Bool
  /-- `runtime_symbols_registered` -/
  runtimeSymbolsRegistered : Bool
  /-- the runtime functions defined in the main dylib of `lljit` -/
  mainDylib : List RuntimeSymbol

/-- A compiler as its constructor leaves it. -/
def JitImpl.init (lljit : Bool) (lastError : String) (lowering : StatefulLoweringFlags) :
    JitImpl where
  lastError := lastError
  fn := none
  programFn := none
  programGradientFn := none
  programFnVec := none
  vecLaneCount := 0
  statefulLowering := lowering
  cacheDir := ""
  lastCacheHit := false
  lljit := lljit
  runtimeSymbolsRegistered := false
  mainDylib := []

namespace JitImpl

/-- `fn = a` -/
def setFn (a : Address) (st : JitImpl) : JitImpl := { st with fn := some a }

/-- `program_fn = a` -/
def setProgramFn (a : Address) (st : JitImpl) : JitImpl := { st with programFn := some a }

/-- `program_gradient_fn = a` -/
def setProgramGradientFn (a : Address) (st : JitImpl) : JitImpl :=
  { st with programGradientFn := some a }

/-- `program_fn_vec = a` -/
def setProgramFnVec (a : Address) (st : JitImpl) : JitImpl :=
  { st with programFnVec := some a }

/-- `last_cache_hit = hit` -/
def setCacheHit (hit : Bool) (st : JitImpl) : JitImpl := { st with lastCacheHit := hit }

end JitImpl

/-- What a call asks of LLVM and the file system, and is told. -/
structure LlvmAnswers where
  /-- `HasAVX2()` -/
  hasAvx2 : Bool
  /-- `lookup(fn_name)` before anything is compiled -/
  inMemory : Option Address
  /-- what the module in the cache file of a scalar program calls, if it is readable -/
  cachedScalar : Option (List ScalarFn)
  /-- the same for a gradient program -/
  cachedGradient : Option Callees
  /-- `verifyFunction` found nothing -/
  verified : Bool
  /-- `WriteModuleToCache` throws, from its `remove` -/
  cacheWriteThrows : Bool
  /-- the error of `define(absoluteSymbols(..))` -/
  defineError : Option String
  /-- the error of `addIRModule` -/
  addError : Option String
  /-- the error of `lookup` for a module with an undefined symbol -/
  symbolsNotFound : String
  /-- `lookup(fn_name)` for a module whose symbols are all defined -/
  lookup : Except String Address

/-- What a call does. -/
structure Outcome where
  /-- the compiler afterwards -/
  impl : JitImpl
  /-- what the call returns, unless it throws -/
  returned : Option Bool
  /-- the function the call looked up -/
  found : Option Address
  /-- what the module it hands to `addIRModule` calls -/
  handed : Option Callees

/-- `last_error = message; return false` -/
def JitImpl.fail (st : JitImpl) (message : String) : Outcome :=
  ⟨{ st with lastError := message }, some false, none, none⟩

/-! ## The linker -/

/-- The functions the registration blocks share, in their order. -/
def scalarSymbols : List RuntimeSymbol :=
  [.scalar .param, .scalar .mid, .scalar .symbolCtx, .scalar .bid, .scalar .ask,
    .scalar .spread, .scalar .ema, .scalar .emaAlpha, .scalar .sma, .scalar .smaPrepare,
    .scalar .rollingStd, .scalar .zscore, .scalar .rollingMin, .scalar .rollingMax,
    .scalar .vwap, .scalar .lag, .scalar .crossAbove, .scalar .crossBelow,
    .scalar .rollingCorr, .scalar .rollingBeta, .scalar .kalman1d]

/-- The block of `JitCompiler::Compile`. -/
def compileSymbols : List RuntimeSymbol := scalarSymbols

/-- The block of `CompileProgramImpl`. -/
def compileProgramSymbols : List RuntimeSymbol := scalarSymbols

/-- The block of `CompileProgramVectorizedImpl`. -/
def compileProgramVectorizedSymbols : List RuntimeSymbol := scalarSymbols

/-- The block of `CompileProgramGradientImpl`. -/
def compileProgramGradientSymbols : List RuntimeSymbol :=
  scalarSymbols ++
    [.gradient .emaAlpha, .gradient .sma, .gradient .lag, .gradient .rollingStd,
      .gradient .zscore, .gradient .rollingCorr, .gradient .rollingBeta, .gradient .kalman1d,
      .gradient .rollingMin, .gradient .rollingMax, .gradient .crossAbove,
      .gradient .crossBelow]

/-- `define(absoluteSymbols(..))` and the flag. -/
def registerSymbols (symbols : List RuntimeSymbol) (st : JitImpl) : JitImpl :=
  if st.runtimeSymbolsRegistered then st
  else { st with runtimeSymbolsRegistered := true, mainDylib := symbols }

/-- The end of the four compile functions: the registration, `addIRModule`, `lookup`. The
function goes where `setFn` puts it. -/
def linkModule (symbols : List RuntimeSymbol) (ans : LlvmAnswers)
    (setFn : Address → JitImpl → JitImpl) (calls : Callees) (st : JitImpl) : Outcome :=
  match if st.runtimeSymbolsRegistered then none else ans.defineError with
  | some e => st.fail ("Failed to register runtime symbols: " ++ e)
  | none =>
    let st := registerSymbols symbols st
    match ans.addError with
    | some e => { st.fail ("Failed to add IR module: " ++ e) with handed := some calls }
    | none =>
      match if calls ⊆ st.mainDylib then ans.lookup else .error ans.symbolsNotFound with
      | .error e =>
        { st.fail ("Failed to lookup compiled symbol: " ++ e) with handed := some calls }
      | .ok a => ⟨{ setFn a st with lastError := "" }, some true, some a, some calls⟩

/-- How far a compile gets before the linker. -/
inductive Prepared where
  /-- `last_error = message; return false` -/
  | failed (message : String)
  /-- an exception leaves the call -/
  | threw
  /-- the function is in memory -/
  | inMemory (a : Address)
  /-- a module, from the cache or not -/
  | module (calls : Callees) (fromCache : Bool)

/-! ## The compile functions -/

section Compile

variable [Fp D] (hasLlvm : Bool)

/-- `verifyFunction` after the emission. -/
def verifyModule (ans : LlvmAnswers) (message : String) (emitted : Except String Callees) :
    Except String Callees :=
  match emitted with
  | .error e => .error e
  | .ok calls => if ans.verified then .ok calls else .error message

/-- `JitCompiler::Compile` up to the linker. -/
def prepareSignal (signal : SignalDef D) (symbols : SymbolTable) (ans : LlvmAnswers)
    (st : JitImpl) : Except String Callees :=
  if !hasLlvm then .error "LLVM support is disabled at build time"
  else if !st.lljit then .error "LLJIT is not initialized"
  else
    verifyModule ans "LLVM verifyFunction failed"
      ((signalCalls ⟨symbols, st.statefulLowering, ans.hasAvx2, false, false⟩ signal).map
        (List.map .scalar))

/-- The parts of `CompileProgramImpl` and `CompileProgramGradientImpl` up to the linker,
with the module of the cache file, the emission and the error texts of each. -/
def prepareCached (empty : String) (invalid : String) (cached : Option Callees)
    (emitted : Except String Callees) (signals : List (SignalDef D)) (ans : LlvmAnswers)
    (st : JitImpl) : Prepared :=
  if !hasLlvm then .failed "LLVM support is disabled at build time"
  else if !st.lljit then .failed "LLJIT is not initialized"
  else if signals.isEmpty then .failed empty
  else
    match if st.cacheDir = "" then none else ans.inMemory with
    | some a => .inMemory a
    | none =>
      match if st.cacheDir = "" then none else cached with
      | some calls => .module calls true
      | none =>
        match verifyModule ans invalid emitted with
        | .error e => .failed e
        | .ok calls =>
          if st.cacheDir ≠ "" ∧ ans.cacheWriteThrows then .threw else .module calls false

/-- `CompileProgramImpl` up to the linker. -/
def prepareProgram (assumeWarm : Bool) (signals : List (SignalDef D)) (symbols : SymbolTable)
    (ans : LlvmAnswers) (st : JitImpl) : Prepared :=
  prepareCached hasLlvm "CompileProgram requires at least one signal"
    "LLVM verifyFunction failed (program)" (ans.cachedScalar.map (List.map .scalar))
    ((programCalls ⟨symbols, st.statefulLowering, ans.hasAvx2, assumeWarm, false⟩ signals).map
      (List.map .scalar))
    signals ans st

/-- `CompileProgramGradientImpl` up to the linker. -/
def prepareGradient (signals : List (SignalDef D)) (symbols : SymbolTable)
    (ans : LlvmAnswers) (st : JitImpl) : Prepared :=
  prepareCached hasLlvm "CompileProgramGradient requires at least one signal"
    "LLVM verifyFunction failed (program gradient)" ans.cachedGradient
    (gradientProgramCalls ⟨symbols, st.statefulLowering, ans.hasAvx2, false, false⟩ signals)
    signals ans st

/-- `CompileProgramVectorizedImpl` up to the linker. It has no cache. -/
def prepareVectorized (signals : List (SignalDef D)) (symbols : SymbolTable)
    (laneCount : Nat) (ans : LlvmAnswers) (st : JitImpl) : Except String Callees :=
  if !hasLlvm then .error "LLVM support is disabled at build time"
  else if !st.lljit then .error "LLJIT is not initialized"
  else if signals.isEmpty then .error "CompileProgramVectorized requires at least one signal"
  else if laneCount ≠ 2 ∧ laneCount ≠ 4 ∧ laneCount ≠ 8 then
    .error "CompileProgramVectorized: lane_count must be 2, 4, or 8"
  else
    verifyModule ans "LLVM verifyFunction failed (program vec)"
      ((programCalls ⟨symbols, st.statefulLowering, ans.hasAvx2, false, true⟩ signals).map
        (List.map .scalar))

/-- What follows on the preparation of a program. -/
def finishProgram (symbols : List RuntimeSymbol) (setFn : Address → JitImpl → JitImpl)
    (prepared : Prepared) (ans : LlvmAnswers) (st : JitImpl) : Outcome :=
  match prepared with
  | .failed message => st.fail message
  | .threw => ⟨st, none, none, none⟩
  | .inMemory a =>
    ⟨{ (setFn a st).setCacheHit true with lastError := "" }, some true, some a, none⟩
  | .module calls fromCache =>
    linkModule symbols ans (fun a st => (setFn a st).setCacheHit fromCache) calls st

/-- What `JitCompiler::Compile` resets. -/
def resetForCompile (st : JitImpl) : JitImpl :=
  { st with fn := none, programFn := none, programGradientFn := none }

/-- What the four `CompileProgram*` calls reset. -/
def resetForProgram (st : JitImpl) : JitImpl :=
  { st with
    fn := none
    programFn := none
    programGradientFn := none
    programFnVec := none
    vecLaneCount := 0 }

/-- `JitCompiler::Compile` -/
def compile (signal : SignalDef D) (symbols : SymbolTable) (ans : LlvmAnswers)
    (st : JitImpl) : Outcome :=
  let st := resetForCompile st
  match prepareSignal hasLlvm signal symbols ans st with
  | .error e => st.fail e
  | .ok calls => linkModule compileSymbols ans JitImpl.setFn calls st

/-- `CompileProgramImpl` behind the resets of its callers. -/
def compileProgramImpl (assumeWarm : Bool) (signals : List (SignalDef D))
    (symbols : SymbolTable) (ans : LlvmAnswers) (st : JitImpl) : Outcome :=
  let st := (resetForProgram st).setCacheHit (!hasLlvm && st.lastCacheHit)
  finishProgram compileProgramSymbols JitImpl.setProgramFn
    (prepareProgram hasLlvm assumeWarm signals symbols ans st) ans st

/-- `JitCompiler::CompileProgram` -/
def compileProgram (signals : List (SignalDef D)) (symbols : SymbolTable)
    (ans : LlvmAnswers) (st : JitImpl) : Outcome :=
  compileProgramImpl hasLlvm false signals symbols ans st

/-- `JitCompiler::CompileProgramSpecialized`, with `profile.assume_warm`. -/
def compileProgramSpecialized (signals : List (SignalDef D)) (symbols : SymbolTable)
    (assumeWarm : Bool) (ans : LlvmAnswers) (st : JitImpl) : Outcome :=
  compileProgramImpl hasLlvm assumeWarm signals symbols ans st

/-- `JitCompiler::CompileProgramGradient` -/
def compileProgramGradient (signals : List (SignalDef D)) (symbols : SymbolTable)
    (ans : LlvmAnswers) (st : JitImpl) : Outcome :=
  let st := (resetForProgram st).setCacheHit (!hasLlvm && st.lastCacheHit)
  finishProgram compileProgramGradientSymbols JitImpl.setProgramGradientFn
    (prepareGradient hasLlvm signals symbols ans st) ans st

/-- `JitCompiler::CompileProgramVectorized` -/
def compileProgramVectorized (signals : List (SignalDef D)) (symbols : SymbolTable)
    (laneCount : Nat) (ans : LlvmAnswers) (st : JitImpl) : Outcome :=
  let st := resetForProgram st
  match prepareVectorized hasLlvm signals symbols laneCount ans st with
  | .error e => st.fail e
  | .ok calls =>
    let r := linkModule compileProgramVectorizedSymbols ans JitImpl.setProgramFnVec calls st
    if r.returned = some true then { r with impl := { r.impl with vecLaneCount := laneCount } }
    else r

end Compile

/-! ## Runs -/

/-- A compile call. -/
inductive JitCall (D : Type) where
  | compile (signal : SignalDef D) (symbols : SymbolTable)
  | compileProgram (signals : List (SignalDef D)) (symbols : SymbolTable)
  | compileProgramSpecialized (signals : List (SignalDef D)) (symbols : SymbolTable)
    (assumeWarm : Bool)
  | compileProgramGradient (signals : List (SignalDef D)) (symbols : SymbolTable)
  | compileProgramVectorized (signals : List (SignalDef D)) (symbols : SymbolTable)
    (laneCount : Nat)

/-- The getter of the function a call compiles. -/
inductive JitGetter where
  /-- `GetFunction` -/
  | function
  /-- `GetProgramFunction` -/
  | programFunction
  /-- `GetProgramGradientFunction` -/
  | programGradientFunction
  /-- `GetProgramVectorizedFunction` -/
  | programVectorizedFunction
deriving DecidableEq, Repr

/-- The four getters. -/
def JitImpl.get (st : JitImpl) : JitGetter → Option Address
  | .function => st.fn
  | .programFunction => st.programFn
  | .programGradientFunction => st.programGradientFn
  | .programVectorizedFunction => st.programFnVec

/-- `VectorizedLaneCount` -/
def JitImpl.vectorizedLaneCount (st : JitImpl) : Nat := st.vecLaneCount

/-- The getter that answers for a call. -/
def JitCall.getter : JitCall D → JitGetter
  | .compile _ _ => .function
  | .compileProgram _ _ | .compileProgramSpecialized _ _ _ => .programFunction
  | .compileProgramGradient _ _ => .programGradientFunction
  | .compileProgramVectorized _ _ _ => .programVectorizedFunction

/-- What can happen to a compiler. -/
inductive JitEvent (D : Type) where
  /-- a compile call -/
  | call (c : JitCall D) (ans : LlvmAnswers)
  /-- `SetStatefulLowering` -/
  | setStatefulLowering (flags : StatefulLoweringFlags)
  /-- `EnableModuleCache` -/
  | enableModuleCache (cacheDir : String)
  /-- `DisableModuleCache` -/
  | disableModuleCache

section Runs

variable [Fp D] (hasLlvm : Bool)

/-- A compile call on a compiler. -/
def JitCall.run (ans : LlvmAnswers) (st : JitImpl) : JitCall D → Outcome
  | .compile signal symbols => JitSignalEngine.compile hasLlvm signal symbols ans st
  | .compileProgram signals symbols =>
    JitSignalEngine.compileProgram hasLlvm signals symbols ans st
  | .compileProgramSpecialized signals symbols assumeWarm =>
    JitSignalEngine.compileProgramSpecialized hasLlvm signals symbols assumeWarm ans st
  | .compileProgramGradient signals symbols =>
    JitSignalEngine.compileProgramGradient hasLlvm signals symbols ans st
  | .compileProgramVectorized signals symbols laneCount =>
    JitSignalEngine.compileProgramVectorized hasLlvm signals symbols laneCount ans st

/-- A compiler after an event. -/
def JitEvent.next (st : JitImpl) : JitEvent D → JitImpl
  | .call c ans => (c.run hasLlvm ans st).impl
  | .setStatefulLowering flags => { st with statefulLowering := flags }
  | .enableModuleCache cacheDir => { st with cacheDir }
  | .disableModuleCache => { st with cacheDir := "", lastCacheHit := false }

/-- A property of the events of a run, each with the compiler it happens to. -/
def Throughout (P : JitImpl → JitEvent D → Prop) : JitImpl → List (JitEvent D) → Prop
  | _, [] => True
  | st, e :: rest => P st e ∧ Throughout P (JitEvent.next hasLlvm st e) rest

/-- **Run rule.** What two properties of events have in common at every compiler with an
invariant, they have in common in every run. -/
theorem throughout_iff {Inv : JitImpl → Prop} {P Q : JitImpl → JitEvent D → Prop}
    (hnext : ∀ st (e : JitEvent D), Inv st → Inv (e.next hasLlvm st))
    (hiff : ∀ st e, Inv st → (P st e ↔ Q st e)) (events : List (JitEvent D)) {st : JitImpl}
    (hst : Inv st) : Throughout hasLlvm P st events ↔ Throughout hasLlvm Q st events := by
  induction events generalizing st with
  | nil => exact Iff.rfl
  | cons e rest ih => exact and_congr (hiff st e hst) (ih (hnext st e hst))

end Runs

/-! ## One program -/

/-- The results of two states agree. -/
structure SameResults (st st' : JitImpl) : Prop where
  get : ∀ g, st'.get g = st.get g
  lanes : st'.vecLaneCount = st.vecLaneCount

theorem SameResults.rfl {st : JitImpl} : SameResults st st := ⟨fun _ => Eq.refl _, Eq.refl _⟩

theorem registerSymbols_results (symbols : List RuntimeSymbol) (st : JitImpl) :
    SameResults st (registerSymbols symbols st) := by
  rw [registerSymbols]
  split
  · exact .rfl
  · exact ⟨fun g => by cases g <;> rfl, Eq.refl _⟩

/-- A function goes to one getter, and nothing else changes. -/
def Stores (setFn : Address → JitImpl → JitImpl) (g : JitGetter) : Prop :=
  ∀ a st, (∀ g', (setFn a st).get g' = if g' = g then some a else st.get g') ∧
    (setFn a st).vecLaneCount = st.vecLaneCount

/-- What a compile does to the results `st` after its resets: it stores the function it
found, or leaves them and does not succeed. -/
def Delivers (g : JitGetter) (st : JitImpl) (r : Outcome) : Prop :=
  (r.returned ≠ some true ∧ SameResults st r.impl) ∨
    ∃ a, r.returned = some true ∧ r.found = some a ∧
      (∀ g', r.impl.get g' = if g' = g then some a else st.get g') ∧
      r.impl.vecLaneCount = st.vecLaneCount

theorem delivers_fail (g : JitGetter) {st st' : JitImpl} (h : SameResults st st')
    (message : String) : Delivers g st (st'.fail message) := by
  refine .inl ⟨by simp [JitImpl.fail], fun g' => ?_, h.lanes⟩
  rw [← h.get g']
  cases g' <;> rfl

/-- The linker fails, or stores the function. -/
theorem linkModule_delivers {setFn : Address → JitImpl → JitImpl} {g : JitGetter}
    (hset : Stores setFn g) (symbols : List RuntimeSymbol) (ans : LlvmAnswers)
    (calls : Callees) (st : JitImpl) :
    Delivers g st (linkModule symbols ans setFn calls st) := by
  have hregister := registerSymbols_results symbols st
  rw [linkModule]
  split
  · exact delivers_fail g .rfl _
  · dsimp only
    split
    · exact delivers_fail g hregister _
    · split
      · exact delivers_fail g hregister _
      · rename_i a _
        obtain ⟨hget, hlanes⟩ := hset a (registerSymbols symbols st)
        refine .inr ⟨a, rfl, rfl, fun g' => ?_, hlanes.trans hregister.lanes⟩
        rw [← hregister.get g', ← hget g']
        cases g' <;> rfl

theorem finishProgram_delivers {setFn : Address → JitImpl → JitImpl} {g : JitGetter}
    (hset : Stores setFn g) (symbols : List RuntimeSymbol) (prepared : Prepared)
    (ans : LlvmAnswers) (st : JitImpl) :
    Delivers g st (finishProgram symbols setFn prepared ans st) := by
  cases prepared with
  | failed message => exact delivers_fail g .rfl message
  | threw => exact .inl ⟨by simp [finishProgram], .rfl⟩
  | inMemory a =>
    obtain ⟨hget, hlanes⟩ := hset a st
    refine .inr ⟨a, rfl, rfl, fun g' => ?_, hlanes⟩
    rw [← hget g']
    cases g' <;> rfl
  | module calls fromCache =>
    refine linkModule_delivers (fun a st => ?_) symbols ans calls st
    obtain ⟨hget, hlanes⟩ := hset a st
    refine ⟨fun g' => ?_, hlanes⟩
    rw [← hget g']
    cases g' <;> rfl

theorem stores_setFn : Stores JitImpl.setFn .function :=
  fun _ _ => ⟨fun g' => by cases g' <;> rfl, rfl⟩

theorem stores_setProgramFn : Stores JitImpl.setProgramFn .programFunction :=
  fun _ _ => ⟨fun g' => by cases g' <;> rfl, rfl⟩

theorem stores_setProgramGradientFn :
    Stores JitImpl.setProgramGradientFn .programGradientFunction :=
  fun _ _ => ⟨fun g' => by cases g' <;> rfl, rfl⟩

theorem stores_setProgramFnVec :
    Stores JitImpl.setProgramFnVec .programVectorizedFunction :=
  fun _ _ => ⟨fun g' => by cases g' <;> rfl, rfl⟩

/-- The lane count is there exactly with the vector function. -/
def LanesMatch (st : JitImpl) : Prop :=
  st.vectorizedLaneCount ≠ 0 ↔ st.get .programVectorizedFunction ≠ none

/-- What the getters are to say after a call. -/
structure OneProgramAfter (c : JitCall D) (r : Outcome) : Prop where
  /-- the getter of the call has the function the call found, the others have none -/
  succeeded : r.returned = some true →
    ∃ a, r.found = some a ∧ ∀ g, r.impl.get g = if g = c.getter then some a else none
  /-- no getter has a function -/
  failed : r.returned = some false → ∀ g, r.impl.get g = none
  lanes : LanesMatch r.impl

section OneProgram

variable [Fp D] (hasLlvm : Bool)

omit [Fp D] in
/-- The results behind the resets of the `CompileProgram*` calls. -/
theorem oneProgramAfter_of_delivers {c : JitCall D} {st : JitImpl} {r : Outcome}
    (hget : ∀ g, st.get g = none) (hlanes : st.vecLaneCount = 0)
    (hc : c.getter ≠ .programVectorizedFunction) (h : Delivers c.getter st r) :
    OneProgramAfter c r := by
  rcases h with ⟨hfalse, hsame⟩ | ⟨a, htrue, hfound, hstored, hkept⟩
  · refine ⟨fun h => absurd h hfalse, fun _ g => (hsame.get g).trans (hget g), ?_⟩
    simp [LanesMatch, JitImpl.vectorizedLaneCount, hsame.lanes, hlanes, hsame.get, hget]
  · refine ⟨fun _ => ⟨a, hfound, fun g => by rw [hstored, hget]⟩, fun h => ?_, ?_⟩
    · simp [htrue] at h
    · simp [LanesMatch, JitImpl.vectorizedLaneCount, hkept, hlanes, hstored, hget, hc.symm]

theorem compileProgramImpl_delivers (assumeWarm : Bool) (signals : List (SignalDef D))
    (symbols : SymbolTable) (ans : LlvmAnswers) (st : JitImpl) :
    Delivers .programFunction
      ((resetForProgram st).setCacheHit (!hasLlvm && st.lastCacheHit))
      (compileProgramImpl hasLlvm assumeWarm signals symbols ans st) :=
  finishProgram_delivers stores_setProgramFn _ _ _ _

/-- After a `CompileProgram*` call there is one program or none, whatever was before. -/
theorem oneProgramAfter_program {c : JitCall D} (hc : ∀ signal symbols, c ≠ .compile signal symbols)
    (ans : LlvmAnswers) (st : JitImpl) : OneProgramAfter c (c.run hasLlvm ans st) := by
  have hget : ∀ g, (resetForProgram st).get g = none := fun g => by cases g <;> rfl
  have hcold : ∀ b g, ((resetForProgram st).setCacheHit b).get g = none :=
    fun b g => by cases g <;> rfl
  cases c with
  | compile signal symbols => exact absurd rfl (hc signal symbols)
  | compileProgram signals symbols =>
    exact oneProgramAfter_of_delivers (hcold _) rfl nofun
      (compileProgramImpl_delivers hasLlvm false signals symbols ans st)
  | compileProgramSpecialized signals symbols assumeWarm =>
    exact oneProgramAfter_of_delivers (hcold _) rfl nofun
      (compileProgramImpl_delivers hasLlvm assumeWarm signals symbols ans st)
  | compileProgramGradient signals symbols =>
    exact oneProgramAfter_of_delivers (hcold _) rfl nofun
      (finishProgram_delivers stores_setProgramGradientFn _ _ _ _)
  | compileProgramVectorized signals symbols laneCount =>
    simp only [JitCall.run, compileProgramVectorized]
    split
    · refine ⟨fun h => ?_, fun _ g => ?_, ?_⟩
      · simp [JitImpl.fail] at h
      · rw [← hget g]
        cases g <;> rfl
      · simp [LanesMatch, JitImpl.vectorizedLaneCount, JitImpl.fail, JitImpl.get,
          resetForProgram]
    · rename_i calls hprepared
      have hlanes : laneCount ≠ 0 := by
        rintro rfl
        simp only [prepareVectorized] at hprepared
        split at hprepared
        · cases hprepared
        · split at hprepared
          · cases hprepared
          · split at hprepared
            · cases hprepared
            · simp at hprepared
      rcases linkModule_delivers stores_setProgramFnVec compileProgramVectorizedSymbols ans calls
        (resetForProgram st) with ⟨hfalse, hsame⟩ | ⟨a, htrue, hfound, hstored, -⟩
      · rw [if_neg hfalse]
        refine ⟨fun h => absurd h hfalse, fun _ g => (hsame.get g).trans (hget g), ?_⟩
        simp [LanesMatch, JitImpl.vectorizedLaneCount, hsame.lanes, hsame.get, hget]
        rfl
      · rw [if_pos htrue]
        have hsame : ∀ (impl : JitImpl) (n : Nat) g, { impl with vecLaneCount := n }.get g =
            impl.get g := fun impl n g => by cases g <;> rfl
        refine ⟨fun _ => ⟨a, hfound, fun g => ?_⟩, fun h => ?_, ?_⟩
        · rw [hsame, hstored, hget]
          rfl
        · simp [htrue] at h
        · simp [LanesMatch, JitImpl.vectorizedLaneCount, hlanes, hsame, hstored]

/-- After `Compile` there is one program or none, exactly when there was no vector
function. -/
theorem oneProgramAfter_compile (signal : SignalDef D) (symbols : SymbolTable)
    (ans : LlvmAnswers) {st : JitImpl} (hst : LanesMatch st) :
    LanesMatch (JitSignalEngine.compile hasLlvm signal symbols ans st).impl ∧
    (OneProgramAfter (.compile signal symbols)
        (JitSignalEngine.compile hasLlvm signal symbols ans st) ↔
      st.get .programVectorizedFunction = none) := by
  have hdelivers : Delivers .function (resetForCompile st)
      (JitSignalEngine.compile hasLlvm signal symbols ans st) := by
    simp only [JitSignalEngine.compile]
    split
    · exact delivers_fail _ .rfl _
    · exact linkModule_delivers stores_setFn _ _ _ _
  have hreturns : (JitSignalEngine.compile hasLlvm signal symbols ans st).returned ≠ none := by
    simp only [JitSignalEngine.compile, linkModule]
    split
    · simp [JitImpl.fail]
    · split
      · simp [JitImpl.fail]
      · split
        · simp [JitImpl.fail]
        · split <;> simp [JitImpl.fail]
  have hreset : ∀ g, (resetForCompile st).get g =
      if g = .programVectorizedFunction then st.get .programVectorizedFunction else none :=
    fun g => by cases g <;> rfl
  generalize JitSignalEngine.compile hasLlvm signal symbols ans st = r at *
  rcases hdelivers with ⟨hfalse, hsame⟩ | ⟨a, htrue, hfound, hstored, hkept⟩
  · have hmatch : LanesMatch r.impl := by
      rw [LanesMatch, hsame.get, JitImpl.vectorizedLaneCount, hsame.lanes, hreset, if_pos rfl]
      exact hst
    have hfailed : r.returned = some false := by
      match hr : r.returned with
      | none => exact absurd hr hreturns
      | some true => exact absurd hr hfalse
      | some false => rfl
    refine ⟨hmatch, fun h => ?_, fun h => ⟨fun htrue => absurd htrue hfalse, fun _ g => ?_,
      hmatch⟩⟩
    · have := h.failed hfailed .programVectorizedFunction
      rwa [hsame.get, hreset, if_pos rfl] at this
    · rw [hsame.get, hreset, h, ite_self]
  · have hmatch : LanesMatch r.impl := by
      rw [LanesMatch, hstored, JitImpl.vectorizedLaneCount, hkept, hreset,
        if_neg (by decide), if_pos rfl]
      exact hst
    refine ⟨hmatch, fun h => ?_, fun h => ⟨fun _ => ⟨a, hfound, fun g => ?_⟩, fun hf => ?_,
      hmatch⟩⟩
    · obtain ⟨b, -, hget⟩ := h.succeeded htrue
      have := hget .programVectorizedFunction
      rwa [hstored, if_neg (by decide), hreset, if_pos rfl, if_neg nofun] at this
    · rw [hstored, hreset, h, ite_self]
      rfl
    · simp [htrue] at hf

/-- An event leaves one program or none, with its lane count. -/
def JitEvent.OneProgram (st : JitImpl) : JitEvent D → Prop
  | .call c ans => OneProgramAfter c (c.run hasLlvm ans st)
  | e => LanesMatch (e.next hasLlvm st)

/-- `Compile` is not called while there is a vector function. -/
def JitEvent.NoVectorAtCompile (st : JitImpl) : JitEvent D → Prop
  | .call (.compile _ _) _ => st.get .programVectorizedFunction = none
  | _ => True

theorem lanesMatch_next {st : JitImpl} (e : JitEvent D) (hst : LanesMatch st) :
    LanesMatch (e.next hasLlvm st) := by
  cases e with
  | call c ans =>
    cases c with
    | compile signal symbols => exact (oneProgramAfter_compile hasLlvm signal symbols ans hst).1
    | compileProgram _ _ => exact (oneProgramAfter_program hasLlvm (by simp) ans st).lanes
    | compileProgramSpecialized _ _ _ =>
      exact (oneProgramAfter_program hasLlvm (by simp) ans st).lanes
    | compileProgramGradient _ _ => exact (oneProgramAfter_program hasLlvm (by simp) ans st).lanes
    | compileProgramVectorized _ _ _ =>
      exact (oneProgramAfter_program hasLlvm (by simp) ans st).lanes
  | setStatefulLowering flags => exact hst
  | enableModuleCache cacheDir => exact hst
  | disableModuleCache => exact hst

/-- **One program per compiler.** In a run of a compiler the getters answer for the last
call, after every call, exactly when `Compile` is never called while the compiler has a
vector function. -/
theorem one_program_iff (lljit : Bool) (error : String) (lowering : StatefulLoweringFlags)
    (events : List (JitEvent D)) :
    Throughout hasLlvm (JitEvent.OneProgram hasLlvm) (.init lljit error lowering) events ↔
      Throughout hasLlvm JitEvent.NoVectorAtCompile (.init lljit error lowering) events := by
  have hinit : LanesMatch (.init lljit error lowering) := by
    simp [LanesMatch, JitImpl.vectorizedLaneCount, JitImpl.init, JitImpl.get]
  refine throughout_iff hasLlvm (fun st e => lanesMatch_next hasLlvm e) (fun st e hst => ?_)
    events hinit
  cases e with
  | call c ans =>
    cases c with
    | compile signal symbols => exact (oneProgramAfter_compile hasLlvm signal symbols ans hst).2
    | compileProgram _ _ => exact iff_of_true (oneProgramAfter_program hasLlvm (by simp) ans st) ⟨⟩
    | compileProgramSpecialized _ _ _ =>
      exact iff_of_true (oneProgramAfter_program hasLlvm (by simp) ans st) ⟨⟩
    | compileProgramGradient _ _ =>
      exact iff_of_true (oneProgramAfter_program hasLlvm (by simp) ans st) ⟨⟩
    | compileProgramVectorized _ _ _ =>
      exact iff_of_true (oneProgramAfter_program hasLlvm (by simp) ans st) ⟨⟩
  | setStatefulLowering flags => exact iff_of_true hst ⟨⟩
  | enableModuleCache cacheDir => exact iff_of_true hst ⟨⟩
  | disableModuleCache => exact iff_of_true hst ⟨⟩

end OneProgram

section Stale

open Concrete

/-- `s = mid(A)` -/
def midSignal : SignalDef (Exact ℚ) := ⟨"s", mid "A"⟩

/-- An LLVM that finds no errors. The code is at `a`. -/
def answersAt (a : Address) : LlvmAnswers where
  hasAvx2 := false
  inMemory := none
  cachedScalar := none
  cachedGradient := none
  verified := true
  cacheWriteThrows := false
  defineError := none
  addError := none
  symbolsNotFound := "Symbols not found"
  lookup := .ok a

/-- **A vector function outlives `Compile`.** -/
theorem vector_function_is_stale :
    ¬ Throughout true (JitEvent.OneProgram true) (.init true "" .all)
      [.call (.compileProgramVectorized [midSignal] symbols 4) (answersAt 1),
        .call (.compile midSignal symbols) (answersAt 2)] := by
  rintro ⟨-, hcompile, -⟩
  obtain ⟨a, -, hget⟩ := hcompile.succeeded (by decide +kernel)
  have hstale := hget .programVectorizedFunction
  rw [if_neg (by decide +kernel)] at hstale
  exact absurd hstale (by decide +kernel)

end Stale

/-! ## Registered symbols -/

/-- The symbols of two states agree. -/
structure SameSymbols (st st' : JitImpl) : Prop where
  registered : st'.runtimeSymbolsRegistered = st.runtimeSymbolsRegistered
  dylib : st'.mainDylib = st.mainDylib

theorem SameSymbols.rfl {st : JitImpl} : SameSymbols st st := ⟨Eq.refl _, Eq.refl _⟩

/-- A function that is stored changes no symbols. -/
def KeepsSymbols (setFn : Address → JitImpl → JitImpl) : Prop :=
  ∀ a st, SameSymbols st (setFn a st)

theorem keeps_setFn : KeepsSymbols JitImpl.setFn := fun _ _ => ⟨rfl, rfl⟩

theorem keeps_setProgramFn : KeepsSymbols JitImpl.setProgramFn := fun _ _ => ⟨rfl, rfl⟩

theorem keeps_setProgramGradientFn : KeepsSymbols JitImpl.setProgramGradientFn :=
  fun _ _ => ⟨rfl, rfl⟩

theorem keeps_setProgramFnVec : KeepsSymbols JitImpl.setProgramFnVec := fun _ _ => ⟨rfl, rfl⟩

/-- What a compile that brings `module` to the linker, if anything, does to the symbols. -/
def Links (symbols : List RuntimeSymbol) (module : Option Callees) (st : JitImpl)
    (r : Outcome) : Prop :=
  (r.handed = none ∧ SameSymbols st r.impl ∧
      (st.runtimeSymbolsRegistered = true → module = none)) ∨
    ∃ calls, module = some calls ∧ r.handed = some calls ∧
      SameSymbols (registerSymbols symbols st) r.impl

/-- The resets do not touch the symbols. -/
theorem Links.of_same {symbols : List RuntimeSymbol} {module : Option Callees}
    {st st' : JitImpl} {r : Outcome} (hsame : SameSymbols st st')
    (h : Links symbols module st' r) : Links symbols module st r := by
  have hregister : SameSymbols (registerSymbols symbols st) (registerSymbols symbols st') := by
    simp only [registerSymbols, hsame.registered]
    split
    · exact hsame
    · exact ⟨rfl, rfl⟩
  rcases h with ⟨hhanded, hkept, hnone⟩ | ⟨calls, hmodule, hhanded, hkept⟩
  · exact .inl ⟨hhanded, ⟨hkept.registered.trans hsame.registered,
      hkept.dylib.trans hsame.dylib⟩, fun h => hnone (hsame.registered.trans h)⟩
  · exact .inr ⟨calls, hmodule, hhanded, hkept.registered.trans hregister.registered,
      hkept.dylib.trans hregister.dylib⟩

theorem links_fail (symbols : List RuntimeSymbol) (st : JitImpl) (message : String) :
    Links symbols none st (st.fail message) :=
  .inl ⟨rfl, ⟨rfl, rfl⟩, fun _ => rfl⟩

/-- The linker registers before it takes the module. -/
theorem linkModule_links {setFn : Address → JitImpl → JitImpl}
    (hset : KeepsSymbols setFn) (symbols : List RuntimeSymbol)
    (ans : LlvmAnswers) (calls : Callees) (st : JitImpl) :
    Links symbols (some calls) st (linkModule symbols ans setFn calls st) := by
  rw [linkModule]
  split
  · rename_i hdefine
    refine .inl ⟨rfl, ⟨rfl, rfl⟩, fun h => ?_⟩
    rw [if_pos h] at hdefine
    cases hdefine
  · refine .inr ⟨calls, rfl, ?_⟩
    dsimp only
    split
    · exact ⟨rfl, rfl, rfl⟩
    · split
      · exact ⟨rfl, rfl, rfl⟩
      · exact ⟨rfl, (hset _ _).registered, (hset _ _).dylib⟩

/-- The module a prepared program brings to the linker. -/
def Prepared.toModule : Prepared → Option Callees
  | .module calls _ => some calls
  | _ => none

theorem finishProgram_links {setFn : Address → JitImpl → JitImpl}
    (hset : KeepsSymbols setFn) (symbols : List RuntimeSymbol)
    (prepared : Prepared) (ans : LlvmAnswers) (st : JitImpl) :
    Links symbols prepared.toModule st (finishProgram symbols setFn prepared ans st) := by
  cases prepared with
  | failed message => exact links_fail symbols st message
  | threw => exact .inl ⟨rfl, .rfl, fun _ => rfl⟩
  | inMemory a =>
    exact .inl ⟨rfl, ⟨(hset a st).registered, (hset a st).dylib⟩, fun _ => rfl⟩
  | module calls fromCache =>
    have hkeeps : KeepsSymbols fun a st => (setFn a st).setCacheHit fromCache :=
      fun a st => ⟨(hset a st).registered, (hset a st).dylib⟩
    exact linkModule_links hkeeps symbols ans calls st

/-- The runtime functions a registered compiler knows: those of one of the four blocks. -/
def DylibKnown (st : JitImpl) : Prop :=
  st.runtimeSymbolsRegistered = true →
    st.mainDylib = scalarSymbols ∨ st.mainDylib = compileProgramGradientSymbols

theorem dylibKnown_registerSymbols {symbols : List RuntimeSymbol} {st : JitImpl}
    (hsymbols : symbols = scalarSymbols ∨ symbols = compileProgramGradientSymbols)
    (hst : DylibKnown st) : DylibKnown (registerSymbols symbols st) := by
  rw [registerSymbols]
  split
  · exact hst
  · exact fun _ => hsymbols

theorem registerSymbols_registered (symbols : List RuntimeSymbol) (st : JitImpl) :
    (registerSymbols symbols st).runtimeSymbolsRegistered = true := by
  rw [registerSymbols]
  split
  · assumption
  · rfl

theorem dylibKnown_of_links {symbols : List RuntimeSymbol} {module : Option Callees}
    {st : JitImpl} {r : Outcome}
    (hsymbols : symbols = scalarSymbols ∨ symbols = compileProgramGradientSymbols)
    (hst : DylibKnown st) (h : Links symbols module st r) : DylibKnown r.impl := by
  rcases h with ⟨-, hsame, -⟩ | ⟨calls, -, -, hsame⟩
  · rw [DylibKnown, hsame.registered, hsame.dylib]
    exact hst
  · rw [DylibKnown, hsame.registered, hsame.dylib]
    exact dylibKnown_registerSymbols hsymbols hst

theorem scalar_mem_scalarSymbols (fn : ScalarFn) : .scalar fn ∈ scalarSymbols := by
  cases fn <;> decide

theorem gradient_not_mem_scalarSymbols (fn : GradientFn) : .gradient fn ∉ scalarSymbols := by
  cases fn <;> decide

/-- The block of the gradient programs lists every function. -/
theorem mem_compileProgramGradientSymbols (s : RuntimeSymbol) :
    s ∈ compileProgramGradientSymbols := by
  rcases s with fn | fn <;> cases fn <;> decide

/-- Every block lists the functions without gradients. -/
theorem scalar_mem_mainDylib {st : JitImpl} (hst : DylibKnown st)
    (hregistered : st.runtimeSymbolsRegistered = true) (fn : ScalarFn) :
    .scalar fn ∈ st.mainDylib := by
  rcases hst hregistered with h | h <;> rw [h]
  · exact scalar_mem_scalarSymbols fn
  · exact mem_compileProgramGradientSymbols _

/-- A module without `*_grad` helpers. -/
def CallsNoHelper (module : Option Callees) : Prop :=
  ∀ calls, module = some calls → ∀ fn, .gradient fn ∉ calls

theorem callsNoHelper_none : CallsNoHelper none := nofun

theorem verifyModule_scalar {ans : LlvmAnswers} {message : String}
    {emitted : Except String (List ScalarFn)} {calls : Callees}
    (h : verifyModule ans message (emitted.map (List.map .scalar)) = .ok calls) :
    ∀ fn, .gradient fn ∉ calls := by
  cases emitted with
  | error e => cases h
  | ok cs =>
    simp only [verifyModule, Except.map] at h
    split at h
    · cases h
      simp
    · cases h

section Registered

variable [Fp D] (hasLlvm : Bool)

/-- A program that is not a gradient program brings no helper to the linker. -/
theorem prepareProgram_callsNoHelper (assumeWarm : Bool) (signals : List (SignalDef D))
    (symbols : SymbolTable) (ans : LlvmAnswers) (st : JitImpl) :
    CallsNoHelper (prepareProgram hasLlvm assumeWarm signals symbols ans st).toModule := by
  rw [prepareProgram, prepareCached]
  repeat' split
  all_goals try exact callsNoHelper_none
  · -- from the cache
    rename_i calls hcached
    rintro _ ⟨⟩ fn
    split at hcached
    · cases hcached
    · obtain ⟨cs, -, rfl⟩ := Option.map_eq_some_iff.1 hcached
      simp
  · -- emitted
    rename_i calls hcalls _
    rintro _ ⟨⟩
    exact verifyModule_scalar hcalls

theorem prepareSignal_callsNoHelper (signal : SignalDef D) (symbols : SymbolTable)
    (ans : LlvmAnswers) (st : JitImpl) :
    CallsNoHelper (prepareSignal hasLlvm signal symbols ans st).toOption := by
  rw [prepareSignal]
  split
  · exact callsNoHelper_none
  · split
    · exact callsNoHelper_none
    · intro calls hcalls
      cases hv : verifyModule ans "LLVM verifyFunction failed" ((signalCalls
        ⟨symbols, st.statefulLowering, ans.hasAvx2, false, false⟩ signal).map
          (List.map .scalar)) with
      | error e => rw [hv] at hcalls; cases hcalls
      | ok cs =>
        rw [hv] at hcalls
        cases hcalls
        exact verifyModule_scalar hv

theorem prepareVectorized_callsNoHelper (signals : List (SignalDef D)) (symbols : SymbolTable)
    (laneCount : Nat) (ans : LlvmAnswers) (st : JitImpl) :
    CallsNoHelper (prepareVectorized hasLlvm signals symbols laneCount ans st).toOption := by
  rw [prepareVectorized]
  repeat' split
  all_goals try exact callsNoHelper_none
  intro calls hcalls
  cases hv : verifyModule ans "LLVM verifyFunction failed (program vec)" ((programCalls
    ⟨symbols, st.statefulLowering, ans.hasAvx2, false, true⟩ signals).map (List.map .scalar)) with
  | error e => rw [hv] at hcalls; cases hcalls
  | ok cs =>
    rw [hv] at hcalls
    cases hcalls
    exact verifyModule_scalar hv

/-- What a call does to the symbols: a gradient program goes through the block that lists
all functions, everything else through a block without helpers that it does not need. -/
theorem run_links (c : JitCall D) (ans : LlvmAnswers) (st : JitImpl) :
    (∃ signals symbols, c = .compileProgramGradient signals symbols ∧
      Links compileProgramGradientSymbols
        (prepareGradient hasLlvm signals symbols ans st).toModule st (c.run hasLlvm ans st)) ∨
    ∃ module, (∀ signals symbols, c ≠ .compileProgramGradient signals symbols) ∧
      CallsNoHelper module ∧ Links scalarSymbols module st (c.run hasLlvm ans st) := by
  have hcold : SameSymbols st
      ((resetForProgram st).setCacheHit (!hasLlvm && st.lastCacheHit)) := ⟨rfl, rfl⟩
  cases c with
  | compile signal symbols =>
    have hreset : SameSymbols st (resetForCompile st) := ⟨rfl, rfl⟩
    refine .inr ⟨_, nofun, prepareSignal_callsNoHelper hasLlvm signal symbols ans
      (resetForCompile st), .of_same hreset ?_⟩
    simp only [JitCall.run, compile]
    split
    · rename_i hprepared
      rw [hprepared]
      exact links_fail _ _ _
    · rename_i calls hprepared
      rw [hprepared]
      exact linkModule_links keeps_setFn _ ans calls _
  | compileProgram signals symbols =>
    exact .inr ⟨_, nofun, prepareProgram_callsNoHelper hasLlvm false signals symbols ans _,
      .of_same hcold (finishProgram_links keeps_setProgramFn _ _ ans _)⟩
  | compileProgramSpecialized signals symbols assumeWarm =>
    exact .inr ⟨_, nofun, prepareProgram_callsNoHelper hasLlvm assumeWarm signals symbols ans _,
      .of_same hcold (finishProgram_links keeps_setProgramFn _ _ ans _)⟩
  | compileProgramGradient signals symbols =>
    exact .inl ⟨signals, symbols, rfl,
      .of_same hcold (finishProgram_links keeps_setProgramGradientFn _ _ ans _)⟩
  | compileProgramVectorized signals symbols laneCount =>
    have hreset : SameSymbols st (resetForProgram st) := ⟨rfl, rfl⟩
    refine .inr ⟨_, nofun, prepareVectorized_callsNoHelper hasLlvm signals symbols laneCount ans
      (resetForProgram st), .of_same hreset ?_⟩
    simp only [JitCall.run, compileProgramVectorized]
    split
    · rename_i hprepared
      rw [hprepared]
      exact links_fail _ _ _
    · rename_i calls hprepared
      rw [hprepared]
      have hlinks := linkModule_links keeps_setProgramFnVec compileProgramVectorizedSymbols ans
        calls (resetForProgram st)
      split
      · rcases hlinks with ⟨hhanded, hsame, hnone⟩ | ⟨cs, hmodule, hhanded, hsame⟩
        · exact .inl ⟨hhanded, ⟨hsame.registered, hsame.dylib⟩, hnone⟩
        · exact .inr ⟨cs, hmodule, hhanded, hsame.registered, hsame.dylib⟩
      · exact hlinks

/-- Whenever an event hands a module to the linker, the functions the module calls are
defined in the main dylib. -/
def JitEvent.SymbolsRegistered (st : JitImpl) : JitEvent D → Prop
  | .call c ans => ∀ calls, (c.run hasLlvm ans st).handed = some calls →
      calls ⊆ (c.run hasLlvm ans st).impl.mainDylib
  | _ => True

/-- A gradient program with a `*_grad` helper comes to the linker before the symbols are
registered, or after a gradient program registered them. -/
def JitEvent.HelpersRegistered (st : JitImpl) : JitEvent D → Prop
  | .call (.compileProgramGradient signals symbols) ans =>
    ∀ calls, (prepareGradient hasLlvm signals symbols ans st).toModule = some calls →
      (∃ fn, .gradient fn ∈ calls) → st.runtimeSymbolsRegistered = true →
        ∀ fn, .gradient fn ∈ st.mainDylib
  | _ => True

theorem dylibKnown_next {st : JitImpl} (e : JitEvent D) (hst : DylibKnown st) :
    DylibKnown (e.next hasLlvm st) := by
  cases e with
  | call c ans =>
    rcases run_links hasLlvm c ans st with ⟨_, _, -, hlinks⟩ | ⟨_, -, -, hlinks⟩
    · exact dylibKnown_of_links (.inr rfl) hst hlinks
    · exact dylibKnown_of_links (.inl rfl) hst hlinks
  | setStatefulLowering flags => exact hst
  | enableModuleCache cacheDir => exact hst
  | disableModuleCache => exact hst

/-- A gradient program finds its functions exactly when it finds its helpers. -/
theorem gradient_registered_iff {module : Option Callees} {st : JitImpl} {r : Outcome}
    (hst : DylibKnown st) (hlinks : Links compileProgramGradientSymbols module st r) :
    (∀ calls, r.handed = some calls → calls ⊆ r.impl.mainDylib) ↔
      ∀ calls, module = some calls → (∃ fn, .gradient fn ∈ calls) →
        st.runtimeSymbolsRegistered = true → ∀ fn, .gradient fn ∈ st.mainDylib := by
  rcases hlinks with ⟨hnone, -, hmodule⟩ | ⟨calls, rfl, hhanded, hsame⟩
  · refine iff_of_true (fun calls h => ?_) fun calls h _ hregistered => ?_
    · rw [hnone] at h; cases h
    · rw [hmodule hregistered] at h; cases h
  · rw [hhanded, hsame.dylib]
    by_cases hregistered : st.runtimeSymbolsRegistered = true
    · rw [registerSymbols, if_pos hregistered]
      rcases hst hregistered with hdylib | hdylib
      · -- a block without helpers registered
        rw [hdylib]
        refine ⟨?_, ?_⟩
        · rintro h _ ⟨⟩ ⟨fn, hfn⟩
          exact absurd (h calls rfl hfn) (gradient_not_mem_scalarSymbols fn)
        · rintro h _ ⟨⟩ s hs
          cases s with
          | scalar fn => exact scalar_mem_scalarSymbols fn
          | gradient fn =>
            exact absurd (h calls rfl ⟨fn, hs⟩ hregistered fn) (gradient_not_mem_scalarSymbols fn)
      · rw [hdylib]
        exact iff_of_true (fun _ _ s _ => mem_compileProgramGradientSymbols s)
          fun _ _ _ _ fn => mem_compileProgramGradientSymbols _
    · rw [registerSymbols, if_neg hregistered]
      exact iff_of_true (fun _ _ s _ => mem_compileProgramGradientSymbols s)
        fun _ _ _ h => absurd h hregistered

/-- **Registration before lookup.** In a run of a compiler every module that is handed to
the linker finds the functions it calls, exactly when no gradient program with a `*_grad`
helper comes after another kind of program registered the symbols. -/
theorem symbols_registered_iff (lljit : Bool) (error : String)
    (lowering : StatefulLoweringFlags) (events : List (JitEvent D)) :
    Throughout hasLlvm (JitEvent.SymbolsRegistered hasLlvm) (.init lljit error lowering)
        events ↔
      Throughout hasLlvm (JitEvent.HelpersRegistered hasLlvm) (.init lljit error lowering)
        events := by
  have hinit : DylibKnown (.init lljit error lowering) := nofun
  refine throughout_iff hasLlvm (fun st e => dylibKnown_next hasLlvm e) (fun st e hst => ?_)
    events hinit
  cases e with
  | call c ans =>
    rcases run_links hasLlvm c ans st with ⟨signals, symbols, rfl, hlinks⟩ |
      ⟨module, hother, hscalar, hlinks⟩
    · exact gradient_registered_iff hst hlinks
    · have hcondition : JitEvent.HelpersRegistered hasLlvm st (.call c ans) := by
        cases c with
        | compileProgramGradient signals symbols => exact absurd rfl (hother signals symbols)
        | _ => trivial
      refine iff_of_true (fun calls hcalls s hs => ?_) hcondition
      rcases hlinks with ⟨hnone, -, -⟩ | ⟨cs, hmodule, hhanded, hsame⟩
      · rw [hnone] at hcalls; cases hcalls
      · rw [hhanded] at hcalls
        cases hcalls
        have hknown := dylibKnown_registerSymbols (.inl rfl) hst
        cases s with
        | scalar fn =>
          rw [hsame.dylib]
          exact scalar_mem_mainDylib hknown (registerSymbols_registered _ _) fn
        | gradient fn => exact absurd hs (hscalar _ hmodule fn)
  | setStatefulLowering flags => exact Iff.rfl
  | enableModuleCache cacheDir => exact Iff.rfl
  | disableModuleCache => exact Iff.rfl

end Registered

section Unregistered

open Concrete

/-- `s = sma(mid(A), 3)` -/
def smaProgram : List (SignalDef (Exact ℚ)) := [⟨"s", app "sma" [mid "A", num 3]⟩]

/-- **A helper nobody registered.** After a scalar program, a gradient program calls
`jit_rt_sma_grad`, which is not in the main dylib. -/
theorem helper_not_registered :
    ¬ Throughout true (JitEvent.SymbolsRegistered true) (.init true "" .all)
      [.call (.compileProgram smaProgram symbols) (answersAt 1),
        .call (.compileProgramGradient smaProgram symbols) (answersAt 2)] := by
  rintro ⟨-, hgradient, -⟩
  have hhelper := hgradient [.scalar .symbolCtx, .gradient .sma] (by decide +kernel)
    (by decide : RuntimeSymbol.gradient .sma ∈ _)
  exact absurd hhelper (by decide +kernel)

end Unregistered

end JitSignalEngine
