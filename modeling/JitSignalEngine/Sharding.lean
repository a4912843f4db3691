import Mathlib.Data.List.Basic
import Mathlib.Data.UInt
import Mathlib.Logic.Function.Basic

/-!
# Symbols over threads

`multithread_eval.cpp` splits the symbols over threads. Each thread runs the step function
of the program on its own arena of contexts and writes the rows of its symbols into one
output buffer.

* `computeSymbolShard` — the symbols of one thread, in the arithmetic of `std::size_t`.
* `evaluateAllSymbols`, `evaluateSymbolShard` — the two loops, with their errors.
* `runShards` — the shards one after the other, in a given order.
* `written` — an output buffer after the rows of some symbols.
* `sharded_eq_sequential` — any order of the shards is the sequential run.

The second loop takes a `std::uint32_t`, so it is about arenas of up to 2^32 contexts.
-/

namespace JitSignalEngine

variable {M C O : Type} {k : Nat}

/-! ## The shards -/

/-- What the two loops end with instead of a result. -/
inductive EvaluationFault where
  /-- `std::runtime_error` -/
  | runtimeError (message : String)
  /-- `std::out_of_range`, from the `at` of `PerSymbol` -/
  | outOfRange
  /-- an element of `per_symbol_market` past its end -/
  | undefinedBehaviour
deriving DecidableEq, Repr

/-- `SymbolShard` -/
structure SymbolShard where
  /-- the first symbol -/
  beginAt : UInt64
  /-- the symbol after the last -/
  endAt : UInt64
deriving DecidableEq, Repr

/-- `SymbolShard::Size` -/
def SymbolShard.size (shard : SymbolShard) : UInt64 := shard.endAt - shard.beginAt

/-- `ComputeSymbolShard` -/
def computeSymbolShard (nSymbols nThreads threadIndex : UInt64) :
    Except EvaluationFault SymbolShard :=
  if nThreads = 0 then
    .error (.runtimeError "ComputeSymbolShard: n_threads must be >= 1")
  else if nThreads ≤ threadIndex then
    .error (.runtimeError "ComputeSymbolShard: thread_index out of range")
  else
    let base := nSymbols / nThreads
    let rem := nSymbols % nThreads
    let beginAt := threadIndex * base + (if threadIndex < rem then threadIndex else rem)
    let extra : UInt64 := if threadIndex < rem then 1 else 0
    .ok { beginAt, endAt := beginAt + base + extra }

/-- Where the shard of a thread starts, over the numbers. -/
def shardStart (nSymbols nThreads threadIndex : Nat) : Nat :=
  threadIndex * (nSymbols / nThreads) + min threadIndex (nSymbols % nThreads)

theorem shardStart_zero (n T : Nat) : shardStart n T 0 = 0 := by simp [shardStart]

theorem shardStart_last (n T : Nat) (hT : 0 < T) : shardStart n T T = n := by
  rw [shardStart, min_eq_right (Nat.mod_lt n hT).le, Nat.div_add_mod]

/-- A shard has the quotient, and one more when the remainder reaches it. -/
theorem shardStart_succ (n T t : Nat) :
    shardStart n T (t + 1) = shardStart n T t + n / T + if t < n % T then 1 else 0 := by
  simp only [shardStart, Nat.add_mul, Nat.one_mul]
  split <;> omega

theorem shardStart_mono (n T : Nat) : Monotone (shardStart n T) :=
  monotone_nat_of_le_succ fun t => by
    rw [shardStart_succ, Nat.add_assoc]
    exact Nat.le_add_right _ _

theorem shardStart_le (n T t : Nat) (hT : 0 < T) (ht : t ≤ T) : shardStart n T t ≤ n :=
  (shardStart_mono n T ht).trans (shardStart_last n T hT).le

/-- **The arithmetic of `ComputeSymbolShard` is exact.** No operation of it wraps. -/
theorem computeSymbolShard_ok (nSymbols nThreads threadIndex : UInt64)
    (ht : threadIndex < nThreads) :
    ∃ shard, computeSymbolShard nSymbols nThreads threadIndex = .ok shard ∧
      shard.beginAt.toNat = shardStart nSymbols.toNat nThreads.toNat threadIndex.toNat ∧
      shard.endAt.toNat = shardStart nSymbols.toNat nThreads.toNat (threadIndex.toNat + 1) := by
  have ht' : threadIndex.toNat < nThreads.toNat := UInt64.lt_iff_toNat_lt.1 ht
  have hT : nThreads ≠ 0 := by rintro rfl; simp at ht'
  have hlast := shardStart_le nSymbols.toNat nThreads.toNat (threadIndex.toNat + 1)
    (by omega) (by omega)
  have hn := nSymbols.toNat_lt
  have hfirst := shardStart_le nSymbols.toNat nThreads.toNat threadIndex.toNat
    (by omega) ht'.le
  rw [shardStart_succ] at hlast
  have hrem : threadIndex < nSymbols % nThreads ↔
      threadIndex.toNat < nSymbols.toNat % nThreads.toNat := by
    rw [UInt64.lt_iff_toNat_lt, UInt64.toNat_mod]
  have hstart : (threadIndex * (nSymbols / nThreads) + (if threadIndex < nSymbols % nThreads
      then threadIndex else nSymbols % nThreads)).toNat =
        shardStart nSymbols.toNat nThreads.toNat threadIndex.toNat := by
    rw [UInt64.toNat_add, UInt64.toNat_mul, UInt64.toNat_div, apply_ite UInt64.toNat,
      UInt64.toNat_mod, if_congr hrem rfl rfl, ← min_def_lt]
    rw [Nat.mod_add_mod, Nat.mod_eq_of_lt (by rw [← shardStart]; exact hfirst.trans_lt hn), shardStart]
  refine ⟨_, by rw [computeSymbolShard, if_neg hT, if_neg (by simpa using ht)], hstart, ?_⟩
  rw [UInt64.toNat_add, UInt64.toNat_add, hstart, UInt64.toNat_div, apply_ite UInt64.toNat,
    if_congr hrem rfl rfl, shardStart_succ, Nat.mod_add_mod]
  exact Nat.mod_eq_of_lt (by simpa using hlast.trans_lt hn)

/-- Each symbol is in one shard, and in one only. -/
theorem shardStart_covers (n T g : Nat) (hT : 0 < T) (hg : g < n) :
    ∃! t, t < T ∧ shardStart n T t ≤ g ∧ g < shardStart n T (t + 1) := by
  have hmono := shardStart_mono n T
  have hexists : ∃ t, g < shardStart n T (t + 1) :=
    ⟨T - 1, by rwa [Nat.sub_add_cancel hT, shardStart_last n T hT]⟩
  refine ⟨Nat.find hexists, ⟨?_, ?_, Nat.find_spec hexists⟩, ?_⟩
  · have := Nat.find_min' hexists
      (by rwa [Nat.sub_add_cancel hT, shardStart_last n T hT] : g < shardStart n T (T - 1 + 1))
    omega
  · cases hfind : Nat.find hexists with
    | zero => simp [shardStart_zero]
    | succ t =>
      have := Nat.find_min hexists (by omega : t < Nat.find hexists)
      omega
  · rintro t ⟨-, hle, hlt⟩
    refine le_antisymm ?_ (Nat.find_min' hexists hlt)
    by_contra hlt'
    have := hmono (by omega : Nat.find hexists + 1 ≤ t)
    have := Nat.find_spec hexists
    omega

/-! ## The two loops -/

/-- One call of the step function of a program: the market and the context it is given, the
context it leaves, and what it writes to each of its output slots, if it does. -/
abbrev SymbolStep (M C O : Type) (k : Nat) := M → C → C × (Fin k → Option O)

/-- The contexts of an arena, and the output buffer. -/
structure ShardState (C O : Type) where
  /-- `MultiSymbolSignalContext` -/
  arena : List C
  /-- the doubles at `outputs` -/
  outputs : Nat → O

/-- The buffer after a step wrote its slots at `outputs + offset`. -/
def writeSlots (outputs : Nat → O) (offset : Nat) (slots : Fin k → Option O) : Nat → O :=
  fun a => if h : offset ≤ a ∧ a < offset + k then
    (slots ⟨a - offset, by omega⟩).getD (outputs a) else outputs a

/-- `fn(&per_symbol_market[symbol], &arena, index, outputs + symbol * outputs_per_symbol)` -/
def callStep (fn : SymbolStep M C O k) (perSymbolMarket : List M) (symbol index : Nat)
    (st : ShardState C O) : Except EvaluationFault (ShardState C O) :=
  match perSymbolMarket[symbol]? with
  | none => .error .undefinedBehaviour
  | some market =>
    match st.arena[index]? with
    | none => .error .outOfRange
    | some ctx =>
      let (ctx, slots) := fn market ctx
      .ok { arena := st.arena.set index ctx
            outputs := writeSlots st.outputs (symbol * k) slots }

/-- `static_cast<std::uint32_t>` -/
def castUint32 (n : Nat) : Nat := n % 2 ^ 32

/-- `EvaluateAllSymbols`, which `EvaluateAllSymbolsSequential` calls. -/
def evaluateAllSymbols (fn : SymbolStep M C O k) (perSymbolMarket : List M)
    (st : ShardState C O) : Except EvaluationFault (ShardState C O) :=
  if st.arena.length ≠ perSymbolMarket.length then
    .error (.runtimeError "EvaluateAllSymbols: arena size mismatch")
  else
    (List.range perSymbolMarket.length).foldlM
      (fun st s => callStep fn perSymbolMarket s (castUint32 s) st) st

/-- `EvaluateSymbolShard` -/
def evaluateSymbolShard (fn : SymbolStep M C O k) (perSymbolMarket : List M)
    (shard : SymbolShard) (st : ShardState C O) : Except EvaluationFault (ShardState C O) :=
  if st.arena.length ≠ shard.size.toNat then
    .error (.runtimeError "EvaluateSymbolShard: thread arena size mismatch")
  else
    (List.range' shard.beginAt.toNat (shard.endAt.toNat - shard.beginAt.toNat)).foldlM
      (fun st globalS =>
        callStep fn perSymbolMarket globalS (castUint32 (globalS - shard.beginAt.toNat)) st) st

/-- The threads of a run. -/
def threads (nThreads : UInt64) : List UInt64 := (List.range nThreads.toNat).map UInt64.ofNat

/-- The arenas of the threads, and the output buffer they share. -/
structure ThreadsState (C O : Type) where
  /-- the arena of each thread -/
  arenas : UInt64 → List C
  /-- the doubles at `outputs` -/
  outputs : Nat → O

/-- The work of one thread. -/
def runShard (fn : SymbolStep M C O k) (perSymbolMarket : List M) (nThreads t : UInt64)
    (st : ThreadsState C O) : Except EvaluationFault (ThreadsState C O) := do
  let shard ← computeSymbolShard (.ofNat perSymbolMarket.length) nThreads t
  let done ← evaluateSymbolShard fn perSymbolMarket shard ⟨st.arenas t, st.outputs⟩
  .ok { arenas := Function.update st.arenas t done.arena, outputs := done.outputs }

/-- The threads in the order in which they do their work. -/
def runShards (fn : SymbolStep M C O k) (perSymbolMarket : List M) (nThreads : UInt64)
    (order : List UInt64) (st : ThreadsState C O) :
    Except EvaluationFault (ThreadsState C O) :=
  order.foldlM (fun st t => runShard fn perSymbolMarket nThreads t st) st

/-- The arena of a thread that holds the contexts of its symbols. -/
def threadArena (contexts : List C) (nThreads t : UInt64) : List C :=
  match computeSymbolShard (.ofNat contexts.length) nThreads t with
  | .ok shard => (contexts.drop shard.beginAt.toNat).take shard.size.toNat
  | .error _ => []

/-! ## What a loop leaves -/

/-- The context a symbol ends with. -/
def nextContext (fn : SymbolStep M C O k) (m : M) (c : C) : C := (fn m c).1

/-- What the step of a symbol writes to one slot. -/
def slotOf (fn : SymbolStep M C O k) (markets : List M) (contexts : List C) (g : Nat)
    (j : Fin k) : Option O := do
  let m ← markets[g]?
  let c ← contexts[g]?
  (fn m c).2 j

/-- The buffer after the rows of some symbols. -/
def written (fn : SymbolStep M C O k) (markets : List M) (contexts : List C)
    (rows : Nat → Prop) [DecidablePred rows] (outputs : Nat → O) : Nat → O :=
  fun a => if h : 0 < k ∧ rows (a / k) then
    (slotOf fn markets contexts (a / k) ⟨a % k, Nat.mod_lt a h.1⟩).getD (outputs a)
  else outputs a

variable {fn : SymbolStep M C O k} {markets : List M} {contexts : List C}
  {outputs : Nat → O}

/-- A step writes the row of its symbol. -/
theorem writeSlots_row {g : Nat} {m : M} {c : C} (hm : markets[g]? = some m)
    (hc : contexts[g]? = some c) :
    writeSlots outputs (g * k) (fn m c).2 = written fn markets contexts (· = g) outputs := by
  funext a
  rcases Nat.eq_zero_or_pos k with rfl | hk
  · simp [writeSlots, written]
  · have hrow : (g * k ≤ a ∧ a < g * k + k) ↔ a / k = g := by
      rw [Nat.div_eq_iff hk]
      constructor <;> intro h <;> constructor <;> (try omega)
    by_cases h : a / k = g
    · subst h
      have hoff : a - a / k * k = a % k := by
        have := Nat.div_add_mod' a k
        omega
      rw [writeSlots, dif_pos (hrow.2 rfl), written, dif_pos ⟨hk, rfl⟩]
      simp only [slotOf, hm, hc, hoff, Option.bind_eq_bind, Option.bind_some]
    · rw [writeSlots, dif_neg (mt hrow.1 h), written, dif_neg (by tauto)]

/-- Rows after rows. What is written twice is written with the same values. -/
theorem written_written (p q : Nat → Prop) [DecidablePred p] [DecidablePred q] :
    written fn markets contexts q (written fn markets contexts p outputs) =
      written fn markets contexts (fun g => p g ∨ q g) outputs := by
  funext a
  by_cases hk : 0 < k
  · by_cases hp : p (a / k) <;> by_cases hq : q (a / k) <;> simp [written, hk, hp, hq]
    cases slotOf fn markets contexts (a / k) ⟨a % k, Nat.mod_lt a hk⟩ <;> rfl
  · simp [written, hk]

theorem written_congr {p q : Nat → Prop} [DecidablePred p] [DecidablePred q]
    (h : ∀ g, p g ↔ q g) :
    written fn markets contexts p outputs = written fn markets contexts q outputs := by
  funext a
  simp only [written, h]

theorem written_none {p : Nat → Prop} [DecidablePred p] (h : ∀ g, ¬ p g) :
    written fn markets contexts p outputs = outputs := by
  funext a
  simp [written, h]

theorem ok_bind {ε α β : Type} (a : α) (f : α → Except ε β) : (Except.ok a >>= f) = f a := rfl

variable (fn markets) in
/-- A loop whose calls are all inside the markets and the arena ends. -/
theorem callSteps_ok (index : Nat → Nat) (symbols : List Nat) (st : ShardState C O)
    (hsymbols : ∀ s ∈ symbols, s < markets.length)
    (hindex : ∀ s ∈ symbols, index s < st.arena.length) :
    ∃ done, symbols.foldlM (fun st s => callStep fn markets s (index s) st) st = .ok done ∧
      done.arena.length = st.arena.length := by
  induction symbols generalizing st with
  | nil => exact ⟨st, rfl, rfl⟩
  | cons s rest ih =>
    obtain ⟨hs, hrest⟩ := List.forall_mem_cons.1 hsymbols
    obtain ⟨hi, hirest⟩ := List.forall_mem_cons.1 hindex
    rw [List.foldlM_cons, callStep, List.getElem?_eq_getElem hs]
    simp only [List.getElem?_eq_getElem hi, ok_bind]
    obtain ⟨done, hdone, hlength⟩ := ih
      { arena := st.arena.set (index s) (fn markets[s] st.arena[index s]).1
        outputs := writeSlots st.outputs (s * k) (fn markets[s] st.arena[index s]).2 }
      hrest (by simpa using hirest)
    exact ⟨done, hdone, by simpa using hlength⟩

variable (fn outputs) in
/-- **The loop over a range.** As long as the index of a symbol is its distance from the
first, the contexts of the range are replaced one after the other. -/
theorem callSteps_range (b size : Nat) (hb : b + size ≤ markets.length)
    (hlength : contexts.length = markets.length) (index : Nat → Nat)
    (hindex : ∀ i < size, index (b + i) = i) (i : Nat) (hi : i ≤ size) :
    (List.range' b i).foldlM (fun st g => callStep fn markets g (index g) st)
        ⟨(contexts.drop b).take size, outputs⟩ =
      .ok { arena := (((List.zipWith (nextContext fn) markets contexts).drop b).take i) ++
              ((contexts.drop b).take size).drop i
            outputs := written fn markets contexts (fun g => b ≤ g ∧ g < b + i) outputs } := by
  induction i with
  | zero =>
    have hnone : ∀ g, ¬ (b ≤ g ∧ g < b + 0) := by omega
    simp only [List.range'_zero, List.foldlM_nil, written_none hnone]
    rfl
  | succ i ih =>
    have hbi : b + i < markets.length := by omega
    have hbc : b + i < contexts.length := by omega
    rw [List.range'_concat, List.foldlM_append, ih (by omega), Nat.one_mul, ok_bind,
      List.foldlM_cons, callStep, List.getElem?_eq_getElem hbi, hindex i (by omega)]
    have htake : (((List.zipWith (nextContext fn) markets contexts).drop b).take i).length =
        i := by
      simp
      omega
    have hctx : ((((List.zipWith (nextContext fn) markets contexts).drop b).take i) ++
        ((contexts.drop b).take size).drop i)[i]? = some contexts[b + i] := by
      rw [List.getElem?_append_right (by omega), htake, List.getElem?_drop, List.getElem?_take,
        if_pos (by omega), List.getElem?_drop, List.getElem?_eq_getElem (by omega)]
      simp
    simp only [hctx, ok_bind, List.foldlM_nil]
    show Except.ok _ = _
    congr 2
    · rw [List.set_append_right _ _ (by omega), htake, Nat.sub_self]
      have hnext : ((List.zipWith (nextContext fn) markets contexts).drop b).take (i + 1) =
          ((List.zipWith (nextContext fn) markets contexts).drop b).take i ++
            [nextContext fn markets[b + i] contexts[b + i]] := by
        rw [List.take_add_one, List.getElem?_drop, List.getElem?_eq_getElem (by simp; omega)]
        simp
      rw [hnext, List.append_assoc]
      congr 1
      rw [List.drop_eq_getElem_cons (by simp; omega), List.set_cons_zero]
      rfl
    · rw [writeSlots_row (List.getElem?_eq_getElem hbi) (List.getElem?_eq_getElem hbc),
        written_written]
      exact written_congr fun g => by omega

/-- `EvaluateAllSymbols` on as many contexts as a `std::uint32_t` counts. -/
theorem evaluateAllSymbols_ok (hlength : contexts.length = markets.length)
    (hn : markets.length ≤ 2 ^ 32) :
    evaluateAllSymbols fn markets ⟨contexts, outputs⟩ =
      .ok { arena := List.zipWith (nextContext fn) markets contexts
            outputs := written fn markets contexts (· < markets.length) outputs } := by
  have hrange := callSteps_range fn outputs 0 markets.length (by omega)
    hlength castUint32
    (fun i hi => by rw [Nat.zero_add]; exact Nat.mod_eq_of_lt (hi.trans_le hn))
    markets.length le_rfl
  rw [evaluateAllSymbols, if_neg (by simpa using hlength), List.range_eq_range']
  rw [List.drop_zero, List.take_of_length_le hlength.le] at hrange
  rw [hrange]
  congr 2
  · rw [List.drop_zero, List.take_of_length_le (by simp), List.drop_of_length_le hlength.le,
      List.append_nil]
  · exact written_congr fun g => by omega

/-! ## The shards of a run -/

theorem mem_threads {nThreads t : UInt64} : t ∈ threads nThreads ↔ t < nThreads := by
  rw [UInt64.lt_iff_toNat_lt]
  simp only [threads, List.mem_map, List.mem_range]
  constructor
  · rintro ⟨i, hi, rfl⟩
    exact lt_of_le_of_lt (by simpa using Nat.mod_le _ _) hi
  · exact fun h => ⟨t.toNat, h, by simp⟩

theorem nodup_threads (nThreads : UInt64) : (threads nThreads).Nodup := by
  refine List.Nodup.map_on (fun i hi j hj hij => ?_) List.nodup_range
  have hlt := nThreads.toNat_lt
  rw [List.mem_range] at hi hj
  have := congrArg UInt64.toNat hij
  rwa [UInt64.toNat_ofNat_of_lt' (by simpa [UInt64.size] using hi.trans hlt),
    UInt64.toNat_ofNat_of_lt' (by simpa [UInt64.size] using hj.trans hlt)] at this

/-- The symbols of a thread. -/
def InShard (n : Nat) (nThreads t : UInt64) (g : Nat) : Prop :=
  shardStart n nThreads.toNat t.toNat ≤ g ∧ g < shardStart n nThreads.toNat (t.toNat + 1)

instance (n : Nat) (nThreads t : UInt64) : DecidablePred (InShard n nThreads t) :=
  fun _ => inferInstanceAs (Decidable (_ ∧ _))

/-- The slice of the arena of a thread, over the numbers. -/
theorem threadArena_eq {nThreads t : UInt64} (ht : t < nThreads) (cs : List C)
    (hn : cs.length < 2 ^ 64) :
    threadArena cs nThreads t = (cs.drop (shardStart cs.length nThreads.toNat t.toNat)).take
      (shardStart cs.length nThreads.toNat (t.toNat + 1) -
        shardStart cs.length nThreads.toNat t.toNat) := by
  obtain ⟨shard, hshard, hbegin, hend⟩ := computeSymbolShard_ok (.ofNat cs.length) nThreads t ht
  rw [UInt64.toNat_ofNat_of_lt' (by simpa [UInt64.size] using hn)] at hbegin hend
  have hmono := shardStart_mono cs.length nThreads.toNat (Nat.le_succ t.toNat)
  have hle : shard.beginAt ≤ shard.endAt := by
    rw [UInt64.le_iff_toNat_le, hbegin, hend]
    exact hmono
  rw [threadArena, hshard]
  simp only [SymbolShard.size, UInt64.toNat_sub_of_le _ _ hle, hbegin, hend]

/-- **The work of one thread.** Its arena gets the next contexts of its symbols, and the
buffer their rows. -/
theorem runShard_ok {nThreads t : UInt64} (ht : t < nThreads)
    (hlength : contexts.length = markets.length) (hn : markets.length < 2 ^ 64)
    (hsize : (threadArena contexts nThreads t).length ≤ 2 ^ 32) {st : ThreadsState C O}
    (harena : st.arenas t = threadArena contexts nThreads t) :
    runShard fn markets nThreads t st = .ok
      { arenas := Function.update st.arenas t
          (threadArena (List.zipWith (nextContext fn) markets contexts) nThreads t)
        outputs := written fn markets contexts (InShard markets.length nThreads t)
          st.outputs } := by
  obtain ⟨shard, hshard, hbegin, hend⟩ :=
    computeSymbolShard_ok (.ofNat markets.length) nThreads t ht
  have hT : 0 < nThreads.toNat := Nat.zero_lt_of_lt (UInt64.lt_iff_toNat_lt.1 ht)
  have hlast := shardStart_le markets.length nThreads.toNat (t.toNat + 1) hT
    (UInt64.lt_iff_toNat_lt.1 ht)
  have hmono := shardStart_mono markets.length nThreads.toNat (Nat.le_succ t.toNat)
  rw [UInt64.toNat_ofNat_of_lt' (by simpa [UInt64.size] using hn)] at hbegin hend
  have hzip : (List.zipWith (nextContext fn) markets contexts).length = markets.length := by
    simp [hlength]
  have hle : shard.beginAt ≤ shard.endAt := by
    rw [UInt64.le_iff_toNat_le, hbegin, hend]
    exact hmono
  have hsizeNat : shard.size.toNat = shardStart markets.length nThreads.toNat (t.toNat + 1) -
      shardStart markets.length nThreads.toNat t.toNat := by
    rw [SymbolShard.size, UInt64.toNat_sub_of_le _ _ hle, hbegin, hend]
  have hslice : threadArena contexts nThreads t = _ :=
    threadArena_eq ht contexts (hlength ▸ hn)
  have hnext : threadArena (List.zipWith (nextContext fn) markets contexts) nThreads t = _ :=
    threadArena_eq ht _ (hzip ▸ hn)
  rw [hlength] at hslice
  rw [hzip] at hnext
  generalize hb : shardStart markets.length nThreads.toNat t.toNat = b at *
  generalize he : shardStart markets.length nThreads.toNat (t.toNat + 1) = e at *
  have hwidth : (threadArena contexts nThreads t).length = e - b := by
    rw [hslice, List.length_take, List.length_drop]
    omega
  have hloop := callSteps_range fn st.outputs b (e - b) (by omega) hlength
    (fun g => castUint32 (g - b))
    (fun i hi => by
      rw [Nat.add_sub_cancel_left]
      exact Nat.mod_eq_of_lt (by omega))
    (e - b) le_rfl
  rw [runShard, hshard]
  rw [ok_bind, evaluateSymbolShard, if_neg (by rw [harena, hwidth, hsizeNat]; simp), harena, hslice,
    hbegin, hend, hloop, ok_bind]
  have hover : (((contexts.drop b).take (e - b)).drop (e - b)) = [] :=
    List.drop_of_length_le (by simp)
  have hrows : written fn markets contexts (fun g => b ≤ g ∧ g < b + (e - b)) st.outputs =
      written fn markets contexts (InShard markets.length nThreads t) st.outputs :=
    written_congr fun g => by
      simp only [InShard, hb, he]
      omega
  rw [hnext, hover, List.append_nil, hrows]

variable (fn outputs) in
/-- **A run of some threads.** By induction on the work done: the threads that ran have
their next contexts, and the buffer has their rows. -/
theorem runShards_ok {nThreads : UInt64} (hlength : contexts.length = markets.length)
    (hn : markets.length < 2 ^ 64)
    (hsize : ∀ t < nThreads, (threadArena contexts nThreads t).length ≤ 2 ^ 32)
    (order : List UInt64) (horder : ∀ t ∈ order, t < nThreads) (hnodup : order.Nodup) :
    runShards fn markets nThreads order ⟨threadArena contexts nThreads, outputs⟩ = .ok
      { arenas := fun t => if t ∈ order then
          threadArena (List.zipWith (nextContext fn) markets contexts) nThreads t
          else threadArena contexts nThreads t
        outputs := written fn markets contexts
          (fun g => ∃ t ∈ order, InShard markets.length nThreads t g) outputs } := by
  induction order using List.reverseRecOn with
  | nil => simp [runShards, written_none, pure, Except.pure]
  | append_singleton done t ih =>
    obtain ⟨hdone, ht⟩ := List.forall_mem_append.1 horder
    have ht := List.forall_mem_singleton.1 ht
    obtain ⟨hnodup', -, hdisjoint⟩ := List.nodup_append.1 hnodup
    have hfresh : t ∉ done := fun h => hdisjoint t h t (by simp) rfl
    have ih := ih hdone hnodup'
    rw [runShards] at ih ⊢
    rw [List.foldlM_append, ih, ok_bind, List.foldlM_cons,
      runShard_ok ht hlength hn (hsize t ht) (if_neg hfresh), ok_bind]
    show Except.ok _ = _
    congr 2
    · funext t'
      by_cases h : t' = t
      · subst h; simp
      · simp [h]
    · rw [written_written]
      exact written_congr fun g => by simp [or_and_right, exists_or]

/-- Slices that follow each other make up the list. -/
theorem flatMap_slices {α : Type} (l : List α) (start : Nat → Nat) (hmono : Monotone start)
    (hzero : start 0 = 0) (n : Nat) :
    (List.range n).flatMap (fun t => (l.drop (start t)).take (start (t + 1) - start t)) =
      l.take (start n) := by
  induction n with
  | zero => simp [hzero]
  | succ n ih =>
    rw [List.range_succ, List.flatMap_append, ih, List.flatMap_singleton, ← List.take_add]
    congr 1
    exact Nat.add_sub_cancel' (hmono (Nat.le_succ n))

/-- The arenas of the threads, one after the other, are the arena of all symbols. -/
theorem flatMap_threadArena {nThreads : UInt64} (hT : 0 < nThreads) (cs : List C)
    (hn : cs.length < 2 ^ 64) :
    (threads nThreads).flatMap (threadArena cs nThreads) = cs := by
  have hT' : 0 < nThreads.toNat := by simpa using UInt64.lt_iff_toNat_lt.1 hT
  have hslices := flatMap_slices cs (shardStart cs.length nThreads.toNat)
    (shardStart_mono _ _) (shardStart_zero _ _) nThreads.toNat
  rw [shardStart_last _ _ hT', List.take_length] at hslices
  conv_rhs => rw [← hslices]
  rw [threads, List.flatMap_map]
  refine List.flatMap_congr fun i hi => ?_
  have hi := List.mem_range.1 hi
  have hnat : (UInt64.ofNat i).toNat = i :=
    UInt64.toNat_ofNat_of_lt' (by simpa [UInt64.size] using hi.trans nThreads.toNat_lt)
  rw [threadArena_eq (by rw [UInt64.lt_iff_toNat_lt, hnat]; exact hi) cs hn, hnat]

/-! ## Sharded and sequential -/

/-- The shards of all threads are consecutive, cover the symbols, and differ in size by at
most one. Their bounds are the exact ones, so no operation wrapped. -/
structure ShardsPartition (nSymbols nThreads : UInt64) (shard : Nat → SymbolShard) :
    Prop where
  computed : ∀ t < nThreads.toNat,
    computeSymbolShard nSymbols nThreads (.ofNat t) = .ok (shard t)
  /-- the first bound, over the numbers -/
  exact_begin : ∀ t < nThreads.toNat, (shard t).beginAt.toNat =
    t * (nSymbols.toNat / nThreads.toNat) + min t (nSymbols.toNat % nThreads.toNat)
  first : (shard 0).beginAt = 0
  consecutive : ∀ t, t + 1 < nThreads.toNat → (shard t).endAt = (shard (t + 1)).beginAt
  last : (shard (nThreads.toNat - 1)).endAt = nSymbols
  ordered : ∀ t < nThreads.toNat, (shard t).beginAt ≤ (shard t).endAt
  balanced : ∀ t < nThreads.toNat, (shard t).size.toNat = nSymbols.toNat / nThreads.toNat ∨
    (shard t).size.toNat = nSymbols.toNat / nThreads.toNat + 1
  /-- each symbol is in exactly one shard -/
  covers : ∀ g < nSymbols, ∃! t, t < nThreads.toNat ∧ (shard t).beginAt ≤ g ∧
    g < (shard t).endAt

/-- `ComputeSymbolShard` partitions the symbols. -/
theorem computeSymbolShard_partition (nSymbols nThreads : UInt64) (hT : 1 ≤ nThreads) :
    ∃ shard, ShardsPartition nSymbols nThreads shard := by
  have hT' : 0 < nThreads.toNat := UInt64.le_iff_toNat_le.1 hT
  have hok : ∀ t, ∃ shard : SymbolShard, t < nThreads.toNat →
      computeSymbolShard nSymbols nThreads (.ofNat t) = .ok shard ∧
        shard.beginAt.toNat = shardStart nSymbols.toNat nThreads.toNat t ∧
        shard.endAt.toNat = shardStart nSymbols.toNat nThreads.toNat (t + 1) := by
    intro t
    by_cases ht : t < nThreads.toNat
    · have hnat : (UInt64.ofNat t).toNat = t :=
        UInt64.toNat_ofNat_of_lt' (by simpa [UInt64.size] using ht.trans nThreads.toNat_lt)
      obtain ⟨shard, h⟩ := computeSymbolShard_ok nSymbols nThreads (.ofNat t)
        (by rwa [UInt64.lt_iff_toNat_lt, hnat])
      rw [hnat] at h
      exact ⟨shard, fun _ => h⟩
    · exact ⟨⟨0, 0⟩, fun h => absurd h ht⟩
  choose shard hshard using hok
  have hbegin := fun t ht => (hshard t ht).2.1
  have hend := fun t ht => (hshard t ht).2.2
  have hordered : ∀ t < nThreads.toNat, (shard t).beginAt ≤ (shard t).endAt := by
    intro t ht
    rw [UInt64.le_iff_toNat_le, hbegin t ht, hend t ht]
    exact shardStart_mono _ _ (Nat.le_succ t)
  refine ⟨shard, fun t ht => (hshard t ht).1, hbegin, ?_, ?_, ?_, hordered, ?_, ?_⟩
  · rw [← UInt64.toNat_inj, hbegin 0 hT', shardStart_zero]
    rfl
  · intro t ht
    rw [← UInt64.toNat_inj, hend t (by omega), hbegin (t + 1) ht]
  · rw [← UInt64.toNat_inj, hend _ (by omega), Nat.sub_add_cancel hT', shardStart_last _ _ hT']
  · intro t ht
    rw [SymbolShard.size, UInt64.toNat_sub_of_le _ _ (hordered t ht), hbegin t ht, hend t ht,
      shardStart_succ]
    split
    · right; rw [Nat.add_assoc, Nat.add_sub_cancel_left]
    · left; rw [Nat.add_zero, Nat.add_sub_cancel_left]
  · intro g hg
    obtain ⟨t, ⟨ht, hle, hlt⟩, hunique⟩ := shardStart_covers nSymbols.toNat nThreads.toNat
      g.toNat hT' (UInt64.lt_iff_toNat_lt.1 hg)
    refine ⟨t, ⟨ht, ?_, ?_⟩, ?_⟩
    · rwa [UInt64.le_iff_toNat_le, hbegin t ht]
    · rwa [UInt64.lt_iff_toNat_lt, hend t ht]
    · rintro t' ⟨ht', hle', hlt'⟩
      rw [UInt64.le_iff_toNat_le, hbegin t' ht'] at hle'
      rw [UInt64.lt_iff_toNat_lt, hend t' ht'] at hlt'
      exact hunique t' ⟨ht', hle', hlt'⟩

/-- One thread does what the sequential run does, whatever the number of symbols. -/
theorem runShards_one (hn : markets.length < 2 ^ 64)
    (hlength : contexts.length = markets.length) (final : ShardState C O)
    (hfinal : evaluateAllSymbols fn markets ⟨contexts, outputs⟩ = .ok final) :
    runShards fn markets 1 [0] ⟨threadArena contexts 1, outputs⟩ =
      .ok ⟨Function.update (threadArena contexts 1) 0 final.arena, final.outputs⟩ := by
  obtain ⟨shard, hshard, hbegin, hend⟩ :=
    computeSymbolShard_ok (.ofNat markets.length) 1 0 (by decide)
  have hcontexts : threadArena contexts 1 0 = contexts := by
    rw [threadArena_eq (by decide) contexts (hlength ▸ hn)]
    simp [shardStart]
  have hbegin : shard.beginAt.toNat = 0 := by rw [hbegin]; exact shardStart_zero _ _
  have hend : shard.endAt.toNat = markets.length := by
    rw [hend, UInt64.toNat_ofNat_of_lt' (by simpa [UInt64.size] using hn)]
    exact shardStart_last _ 1 (by decide)
  have hsame : evaluateSymbolShard fn markets shard ⟨contexts, outputs⟩ =
      evaluateAllSymbols fn markets ⟨contexts, outputs⟩ := by
    have hsize : shard.size.toNat = markets.length := by
      rw [SymbolShard.size, UInt64.toNat_sub_of_le _ _ (by
        rw [UInt64.le_iff_toNat_le, hbegin]
        exact Nat.zero_le _), hbegin, hend, Nat.sub_zero]
    rw [evaluateSymbolShard, evaluateAllSymbols, if_neg (by simpa [hsize] using hlength),
      if_neg (by simpa using hlength), hbegin, hend, Nat.sub_zero, List.range_eq_range']
    rfl
  rw [runShards, List.foldlM_cons, runShard, hshard, ok_bind]
  simp only [hcontexts, hsame, hfinal, ok_bind]
  rfl

/-- **Sharded evaluation is sequential evaluation.** The shards partition the symbols. With
as many symbols as a `std::uint32_t` counts, or with one thread, every order of the shards
leaves the buffer and the contexts of the sequential run. -/
theorem sharded_eq_sequential (fn : SymbolStep M C O k) (markets : List M)
    (contexts : List C) (outputs : Nat → O) (nThreads : UInt64) (hT : 1 ≤ nThreads)
    (hn : markets.length < 2 ^ 64) (hlength : contexts.length = markets.length) :
    (∃ shard, ShardsPartition (.ofNat markets.length) nThreads shard) ∧
    (markets.length ≤ 2 ^ 32 ∨ nThreads = 1 →
      ∃ final, evaluateAllSymbols fn markets ⟨contexts, outputs⟩ = .ok final ∧
        ∀ order : List UInt64, order.Perm (threads nThreads) →
          ∃ done, runShards fn markets nThreads order
              ⟨threadArena contexts nThreads, outputs⟩ = .ok done ∧
            done.outputs = final.outputs ∧
            (∀ t < nThreads, done.arenas t = threadArena final.arena nThreads t) ∧
            (threads nThreads).flatMap done.arenas = final.arena) := by
  refine ⟨computeSymbolShard_partition _ _ hT, ?_⟩
  have hflat : ∀ cs : List C, cs.length < 2 ^ 64 →
      (threads nThreads).flatMap (threadArena cs nThreads) = cs := fun cs hcs =>
    flatMap_threadArena (UInt64.lt_iff_toNat_lt.2 (UInt64.le_iff_toNat_le.1 hT)) cs hcs
  rintro (hindex | rfl)
  · refine ⟨_, evaluateAllSymbols_ok hlength hindex, fun order horder => ?_⟩
    have hmem : ∀ t, t ∈ order ↔ t < nThreads := fun t => horder.mem_iff.trans mem_threads
    have hsmall : ∀ t < nThreads, (threadArena contexts nThreads t).length ≤ 2 ^ 32 := by
      intro t ht
      rw [threadArena_eq ht contexts (hlength ▸ hn), List.length_take, List.length_drop]
      omega
    have hzip : (List.zipWith (nextContext fn) markets contexts).length < 2 ^ 64 := by
      simpa [hlength] using hn
    refine ⟨_, runShards_ok fn outputs hlength hn hsmall order (fun t ht => (hmem t).1 ht)
      (horder.nodup_iff.2 (nodup_threads nThreads)), ?_, ?_, ?_⟩
    · refine written_congr (p := fun g => ∃ t ∈ order, InShard markets.length nThreads t g)
        (q := fun g => g < markets.length) fun g => ⟨?_, fun hg => ?_⟩
      · rintro ⟨t, ht, hle, hlt⟩
        have ht' := UInt64.lt_iff_toNat_lt.1 ((hmem t).1 ht)
        exact hlt.trans_le (shardStart_le _ _ _ (Nat.zero_lt_of_lt ht') ht')
      · obtain ⟨t, ⟨ht, hin⟩, -⟩ := shardStart_covers markets.length nThreads.toNat g
          (UInt64.le_iff_toNat_le.1 hT) hg
        have hnat : (UInt64.ofNat t).toNat = t :=
          UInt64.toNat_ofNat_of_lt' (by simpa [UInt64.size] using ht.trans nThreads.toNat_lt)
        refine ⟨.ofNat t, (hmem _).2 (by rwa [UInt64.lt_iff_toNat_lt, hnat]), ?_⟩
        rwa [InShard, hnat]
    · intro t ht
      exact if_pos ((hmem t).2 ht)
    · conv_rhs => rw [← hflat _ hzip]
      exact List.flatMap_congr fun t ht => if_pos ((hmem t).2 (mem_threads.1 ht))
  · obtain ⟨final, hfinal, hkept⟩ := callSteps_ok fn markets castUint32
      (List.range markets.length) ⟨contexts, outputs⟩ (fun s hs => List.mem_range.1 hs)
      (fun s hs => (Nat.mod_le _ _).trans_lt ((List.mem_range.1 hs).trans_eq hlength.symm))
    have hseq : evaluateAllSymbols fn markets ⟨contexts, outputs⟩ = .ok final := by
      rw [evaluateAllSymbols, if_neg (by simpa using hlength), hfinal]
    have hone : threads 1 = [0] := by decide
    have hslice : threadArena final.arena 1 0 = final.arena := by
      have h := hflat final.arena (by rw [hkept]; exact hlength ▸ hn)
      rwa [hone, List.flatMap_singleton] at h
    refine ⟨final, hseq, fun order horder => ?_⟩
    rw [hone, List.perm_singleton] at horder
    subst horder
    refine ⟨_, runShards_one hn hlength final hseq, rfl, ?_, ?_⟩
    · intro t ht
      have ht : t = 0 := by
        rw [UInt64.lt_iff_toNat_lt] at ht
        rw [← UInt64.toNat_inj]
        exact Nat.lt_one_iff.1 ht
      rw [ht, hslice]
      exact Function.update_self 0 final.arena (threadArena contexts 1)
    · rw [hone, List.flatMap_singleton]
      exact Function.update_self 0 final.arena (threadArena contexts 1)

/-- A program with one output that adds the market to its context, on three symbols and two
threads. -/
theorem sharded_eq_sequential_three :
    (∃ shard, ShardsPartition (.ofNat 3) 2 shard) ∧
    ∃ final, evaluateAllSymbols (k := 1) (fun m c => (c + m, fun _ => some (c * m)))
        [10, 20, 30] ⟨[1, 2, 3], fun _ => 0⟩ = .ok final ∧
      ∃ done, runShards (k := 1) (fun m c => (c + m, fun _ => some (c * m))) [10, 20, 30] 2
          [1, 0] ⟨threadArena [1, 2, 3] 2, fun _ => 0⟩ = .ok done ∧
        done.outputs = final.outputs ∧ (threads 2).flatMap done.arenas = final.arena := by
  obtain ⟨hpartition, hrun⟩ := sharded_eq_sequential (k := 1)
    (fun m c : Nat => (c + m, fun _ => some (c * m))) [10, 20, 30] [1, 2, 3] (fun _ => 0) 2
    (by decide) (by decide) rfl
  obtain ⟨final, hfinal, horders⟩ := hrun (.inl (by decide))
  obtain ⟨done, hdone, houtputs, -, harenas⟩ := horders [1, 0] (by decide)
  exact ⟨hpartition, final, hfinal, done, hdone, houtputs, harenas⟩

/-! ## Past the index -/

/-- A loop leaves the contexts whose index it never passes. -/
theorem callSteps_untouched (index : Nat → Nat) (symbols : List Nat) (j : Nat)
    (hj : ∀ s ∈ symbols, index s ≠ j) {st done : ShardState C O}
    (h : symbols.foldlM (fun st s => callStep fn markets s (index s) st) st = .ok done) :
    done.arena[j]? = st.arena[j]? := by
  induction symbols generalizing st with
  | nil => cases h; rfl
  | cons s rest ih =>
    obtain ⟨hs, hrest⟩ := List.forall_mem_cons.1 hj
    rw [List.foldlM_cons, callStep] at h
    cases hm : markets[s]? with
    | none => simp [hm, bind, Except.bind] at h
    | some m =>
      cases hc : st.arena[index s]? with
      | none => simp [hm, hc, bind, Except.bind] at h
      | some c =>
        simp only [hm, hc, ok_bind] at h
        rw [ih hrest h, List.getElem?_set_ne hs]

/-- With more symbols than a `std::uint32_t` counts, the sequential run never reaches the
context after the last index, and two threads do. -/
theorem two_threads_past_index (n : Nat) (hn : 2 ^ 32 < n) (hn' : n < 2 ^ 33) :
    ∃ final done,
      evaluateAllSymbols (O := Unit) (k := 0) (fun _ _ => (true, Fin.elim0))
        (List.replicate n ()) ⟨List.replicate n false, fun _ => ()⟩ = .ok final ∧
      runShards (k := 0) (fun _ _ => (true, Fin.elim0)) (List.replicate n ()) 2 (threads 2)
        ⟨threadArena (List.replicate n false) 2, fun _ => ()⟩ = .ok done ∧
      final.arena[2 ^ 32]? = some false ∧
      ((threads 2).flatMap done.arenas)[2 ^ 32]? = some true := by
  let fn : SymbolStep Unit Bool Unit 0 := fun _ _ => (true, Fin.elim0)
  let start : ShardState Bool Unit := ⟨List.replicate n false, fun _ => ()⟩
  have hlength : (List.replicate n false).length = (List.replicate n ()).length := by simp
  obtain ⟨final, hfinal, -⟩ := callSteps_ok fn (List.replicate n ()) castUint32
    (List.range (List.replicate n ()).length) start
    (fun s hs => List.mem_range.1 hs)
    (fun s hs => (Nat.mod_le _ _).trans_lt ((List.mem_range.1 hs).trans_eq hlength.symm))
  have hsmall : ∀ t < (2 : UInt64), (threadArena (List.replicate n false) 2 t).length ≤ 2 ^ 32 := by
    intro t ht
    have hsucc := shardStart_succ n 2 t.toNat
    rw [threadArena_eq ht _ (by simp; omega), List.length_take, List.length_replicate]
    have htwo : (2 : UInt64).toNat = 2 := rfl
    rw [htwo]
    split at hsucc <;> omega
  have hrun := runShards_ok fn (fun _ => ()) hlength
    (by simp; omega) hsmall (threads 2) (fun t ht => mem_threads.1 ht) (nodup_threads 2)
  refine ⟨final, _, ?_, hrun, ?_, ?_⟩
  · rw [evaluateAllSymbols, if_neg (by simp)]
    exact hfinal
  · rw [callSteps_untouched castUint32 _ (2 ^ 32)
      (fun s _ => (Nat.mod_lt s (by decide : 0 < 2 ^ 32)).ne) hfinal]
    exact List.getElem?_replicate_of_lt hn
  · have hzip : List.zipWith (nextContext fn) (List.replicate n ()) (List.replicate n false) =
        List.replicate n true := by
      rw [List.zipWith_replicate, min_self]
      rfl
    rw [hzip, List.flatMap_congr (fun t ht => if_pos ht),
      flatMap_threadArena (by decide) _ (by simp; omega)]
    exact List.getElem?_replicate_of_lt hn

/-- **One symbol too many.** At 2^32 + 1 symbols and two threads, the sharded run and the
sequential run leave different contexts. -/
theorem sharded_differs_past_uint32 :
    ∃ final done,
      evaluateAllSymbols (O := Unit) (k := 0) (fun _ _ => (true, Fin.elim0))
        (List.replicate (2 ^ 32 + 1) ()) ⟨List.replicate (2 ^ 32 + 1) false, fun _ => ()⟩ =
          .ok final ∧
      runShards (k := 0) (fun _ _ => (true, Fin.elim0)) (List.replicate (2 ^ 32 + 1) ()) 2
        (threads 2) ⟨threadArena (List.replicate (2 ^ 32 + 1) false) 2, fun _ => ()⟩ =
          .ok done ∧
      (threads 2).flatMap done.arenas ≠ final.arena := by
  obtain ⟨final, done, hfinal, hdone, hfalse, htrue⟩ :=
    two_threads_past_index (2 ^ 32 + 1) (by decide) (by decide)
  refine ⟨final, done, hfinal, hdone, fun heq => ?_⟩
  rw [heq, hfalse] at htrue
  cases htrue

end JitSignalEngine
