import JitSignalEngine.Lowered
import JitSignalEngine.OperatorRuns
import JitSignalEngine.RingStatsHistory
import Mathlib.Algebra.BigOperators.Intervals

/-!
# The three moving averages

`sma` in the interpreter and in `jit_rt_sma`, which keep a running sum, and in the emitted AVX2
code, which adds the ring up again at every tick. The samples are numbers or NaN.

* `sum_lanes` — a sum in lanes is the sum.
* `vectorSum_eq_sum` — what the AVX2 code adds up.
* `evalSma_run`, `jitRtSma_run`, `avx2Sma_run` — what the three return over a stream: the running
  sum stays NaN after a NaN, the ring forgets it.
* `avx2Sma_agrees_iff` — where that is the same.
-/

namespace JitSignalEngine

open Fp Widen Interpreter Exact

/-! ## Sums in lanes -/

/-- A sum over lanes and a rest, of `m` steps of `w` lanes. By induction on the steps. -/
theorem sum_lanes {M : Type} [AddCommMonoid M] (g : Nat → M) (w m r : Nat) :
    ∑ l ∈ Finset.range w, ∑ c ∈ Finset.range m, g (w * c + l) +
        ∑ t ∈ Finset.range r, g (w * m + t) = ∑ i ∈ Finset.range (w * m + r), g i := by
  have hlanes : ∑ l ∈ Finset.range w, ∑ c ∈ Finset.range m, g (w * c + l) =
      ∑ i ∈ Finset.range (w * m), g i := by
    induction m with
    | zero => simp
    | succ m ih =>
      simp only [Finset.sum_range_succ, Finset.sum_add_distrib]
      rw [ih, Nat.mul_succ, Finset.sum_range_add]
  rw [hlanes, Finset.sum_range_add]

theorem sum_range_getD {M : Type} [AddCommMonoid M] (xs : List M) :
    ∑ i ∈ Finset.range xs.length, xs.getD i 0 = xs.sum := by
  induction xs with
  | nil => simp
  | cons x xs ih =>
    rw [List.length_cons, Finset.sum_range_succ', List.sum_cons, ← ih, add_comm]
    simp

variable {K : Type} [Field K] [LinearOrder K] [Transcendental K]

namespace Exact

instance : Zero (Exact K) := ⟨val 0⟩

instance : Add (Exact K) := ⟨Fp.add⟩

/-- The addition of the engine, over numbers and NaN. -/
instance : AddCommMonoid (Exact K) where
  nsmul := nsmulRec
  add_assoc x y z := by
    cases x <;> cases y <;> cases z <;> try rfl
    exact congrArg val (add_assoc _ _ _)
  zero_add x := by
    cases x
    · rfl
    · exact congrArg val (zero_add _)
  add_zero x := by
    cases x
    · rfl
    · exact congrArg val (add_zero _)
  add_comm x y := by
    cases x <;> cases y <;> try rfl
    exact congrArg val (add_comm _ _)

theorem ofNat_zero_eq : (Fp.ofNat 0 : Exact K) = 0 := by
  rw [ofNat_val, Nat.cast_zero]
  rfl

theorem sum_map_val (vs : List K) : (vs.map val).sum = val (total id vs) := by
  induction vs with
  | nil => rfl
  | cons v vs ih =>
    rw [List.map_cons, List.sum_cons, ih, total_cons]
    rfl

theorem sum_nan {xs : List (Exact K)} (h : Exact.nan ∈ xs) : xs.sum = .nan := by
  induction xs with
  | nil => cases h
  | cons x xs ih =>
    rw [List.sum_cons]
    rcases List.mem_cons.1 h with rfl | h
    · rfl
    · rw [ih h]
      cases x <;> rfl

end Exact

/-- A summation loop. -/
theorem foldl_range_add (f : Nat → Exact K) (a : Exact K) (m : Nat) :
    (List.range m).foldl (fun sum c => Fp.add sum (f c)) a = a + ∑ c ∈ Finset.range m, f c := by
  induction m with
  | zero => simp
  | succ m ih =>
    rw [List.range_succ, List.foldl_append, ih, Finset.sum_range_succ, ← add_assoc]
    rfl

/-- **The vector sum** adds the ring up. -/
theorem vectorSum_eq_sum (buffer : List (Exact K)) :
    vectorSum buffer.length buffer = buffer.sum := by
  have hlanes := sum_lanes (fun i => buffer.getD i (0 : Exact K)) 4 (buffer.length / 4)
    (buffer.length % 4)
  rw [Nat.div_add_mod, sum_range_getD] at hlanes
  simp only [vectorSum, foldl_range_add, ofNat_zero_eq, zero_add]
  exact hlanes

/-! ## What is returned -/

/-- The mean of the last `n` samples. -/
def windowMean (n : Nat) (xs : List (Exact K)) : Exact K := Fp.div (window n xs).sum (ofNat n)

/-- `sma` from the ring: the mean of a full window. -/
def ringMean (n : Nat) (xs : List (Exact K)) : Exact K :=
  if n ≤ xs.length then windowMean n xs else .nan

/-- `sma` from the running sum: the same, until there was a NaN. -/
def runningMean (n : Nat) (xs : List (Exact K)) : Exact K :=
  if n ≤ xs.length ∧ Exact.nan ∉ xs then windowMean n xs else .nan

section Readout

variable [IsStrictOrderedRing K] {n : Nat} {xs : List (Exact K)}
  {st : RingStatsState (Exact K) (Exact K)}

theorem windowMean_eq_nan_iff (hn : 0 < n) : windowMean n xs = .nan ↔ Exact.nan ∈ window n xs := by
  have hne : (n : K) ≠ 0 := Nat.cast_ne_zero.2 hn.ne'
  rw [windowMean]
  rcases numbers_or_nan (window n xs) with ⟨vs, hvs⟩ | hmem
  · rw [hvs, sum_map_val, ofNat_val, div_val _ hne]
    simp
  · rw [sum_nan hmem]
    simpa using hmem

theorem ringMean_eq_runningMean_iff (hn : 0 < n) :
    ringMean n xs = runningMean n xs ↔
      (n ≤ xs.length → Exact.nan ∈ xs → Exact.nan ∈ window n xs) := by
  rw [ringMean, runningMean]
  by_cases hfull : n ≤ xs.length
  · by_cases hmem : Exact.nan ∈ xs
    · rw [if_pos hfull, if_neg (by simp [hmem]), windowMean_eq_nan_iff hn]
      exact ⟨fun h _ _ => h, fun h => h hfull hmem⟩
    · rw [if_pos hfull, if_pos ⟨hfull, hmem⟩]
      exact ⟨fun _ _ h => absurd h hmem, fun _ => rfl⟩
  · rw [if_neg hfull, if_neg fun h => hfull h.1]
    exact ⟨fun _ h => absurd h hfull, fun _ => rfl⟩

/-- The running sum. -/
theorem RingStatsState.Holds.smaReadout_eq (h : st.Holds n xs) (hn : 0 < n) :
    smaReadout st = runningMean n xs := by
  rw [smaReadout, h.ringStatsFull_eq hn, runningMean]
  by_cases hfull : n ≤ xs.length
  · rcases numbers_or_nan xs with ⟨vs, rfl⟩ | hmem
    · have hfull' : n ≤ vs.length := by simpa using hfull
      have hne : (n : K) ≠ 0 := Nat.cast_ne_zero.2 hn.ne'
      simp only [hfull, decide_true, Bool.not_true, Bool.false_eq_true, if_false, true_and,
        nan_notMem_map, not_false_eq_true, if_true]
      rw [h.mean_numbers hn hfull', windowMean, window_map, sum_map_val, ofNat_val, div_val _ hne,
        JitSignalEngine.mean, length_window, Nat.min_eq_right hfull']
    · simp only [hfull, decide_true, Bool.not_true, Bool.false_eq_true, if_false, hmem,
        not_true_eq_false, and_false]
      exact h.mean_nan hmem
  · simp only [hfull, decide_false, Bool.not_false, if_true, false_and, if_false]
    rfl

omit [IsStrictOrderedRing K] in
/-- The ring. -/
theorem RingStatsState.Holds.vectorMean_eq (h : st.Holds n xs) (hn : 0 < n) :
    (if ringStatsFull st then Fp.div (vectorSum n st.buffer) (ofNat n) else Fp.nan) =
      ringMean n xs := by
  rw [h.ringStatsFull_eq hn, ringMean]
  by_cases hfull : n ≤ xs.length
  · obtain ⟨zs, hperm, hbuffer⟩ := h.buffer.exists_perm hfull (List.map_id _).symm
    rw [List.map_id] at hbuffer
    have hsum : vectorSum n st.buffer = (window n xs).sum := by
      have hlanes := vectorSum_eq_sum st.buffer
      rwa [h.buffer.length_eq, hbuffer, hperm.sum_eq, ← hbuffer] at hlanes
    rw [if_pos (decide_eq_true hfull), if_pos hfull, hsum, windowMean]
  · simp only [hfull, decide_false, Bool.false_eq_true, if_false]
    rfl

end Readout

/-! ## The three runs -/

section Runs

variable {D L : Type} [Fp D] [Fp L] [Widen D L]

/-- `EvalSma` over a stream, with the period literal `v`. -/
def evalSmaRun (id : Nat) (v : D) (ctx : SignalContext D (NodeSlot D L)) (xs : List D) :
    Except String (List D) :=
  runValues (fun ctx x => evalTick (evalSma (operandCall id [x, v])) ctx) ctx xs

/-- `jit_rt_sma` over a stream. -/
def jitSmaRun (id : Nat) (ctx : SignalContext D (NodeSlot D L)) (xs : List D) :
    Except String (List D) :=
  runValues (fun ctx x => slotTick id (fun slot => jitRtSma slot x) ctx) ctx xs

/-- The AVX2 code over a stream, emitted for the period `n`. -/
def avx2SmaRun (n id : Nat) (ctx : SignalContext D (NodeSlot D L)) (xs : List D) :
    Except String (List D) :=
  runValues (fun ctx x => slotTick id (fun slot => avx2Sma n slot x) ctx) ctx xs

end Runs

section Agreement

variable [IsStrictOrderedRing K] {n : Nat} {slot : NodeSlot (Exact K) (Exact K)}
  {xs : List (Exact K)}

/-- The state of `sma` after a history of samples. -/
def NodeSlot.SmaHolds (n : Nat) (xs : List (Exact K)) (slot : NodeSlot (Exact K) (Exact K)) : Prop :=
  slot.sma.Holds n xs

/-- The interpreter keeps a running sum. -/
theorem evalSma_run (hn : 0 < n) (h : slot.SmaHolds n []) (xs : List (Exact K)) :
    runValues (fun slot x => smaStep n x slot) slot xs = .ok (prefixValues (runningMean n) xs) := by
  refine runValues_history (fun is slot x (hslot : slot.SmaHolds n is) => ?_) h xs
  have hnext := RingStatsState.Holds.slide hslot hn x
  refine ⟨{ slot with sma := ringStatsSlide slot.sma x }, ?_, hnext⟩
  rw [smaStep, (RingStatsState.Holds.push_eq hslot hn x).1, ← hnext.smaReadout_eq hn]
  rfl

/-- So does compiled code. -/
theorem jitRtSma_run (hn : 0 < n) (h : slot.SmaHolds n []) (xs : List (Exact K)) :
    runValues jitRtSma slot xs = .ok (prefixValues (runningMean n) xs) := by
  refine runValues_history (fun is slot x (hslot : slot.SmaHolds n is) => ?_) h xs
  have hnext := RingStatsState.Holds.slide hslot hn x
  refine ⟨{ slot with sma := ringStatsSlide slot.sma x }, ?_, hnext⟩
  rw [jitRtSma, (RingStatsState.Holds.push_eq hslot hn x).2, ← hnext.smaReadout_eq hn]
  rfl

omit [IsStrictOrderedRing K] in
/-- The AVX2 code adds the ring up. -/
theorem avx2Sma_run (hn : 0 < n) (h : slot.SmaHolds n []) (xs : List (Exact K)) :
    runValues (avx2Sma n) slot xs = .ok (prefixValues (ringMean n) xs) := by
  refine runValues_history (fun is slot x (hslot : slot.SmaHolds n is) => ?_) h xs
  have hnext := RingStatsState.Holds.slide hslot hn x
  refine ⟨{ slot with sma := ringStatsSlide slot.sma x }, ?_, hnext⟩
  rw [avx2Sma, (RingStatsState.Holds.push_eq hslot hn x).2, ← hnext.vectorMean_eq hn]
  rfl

end Agreement

/-- **Where the AVX2 path agrees.** From a prewarmed context, over every stream of numbers and NaN,
the interpreter and `jit_rt_sma` return the same, and the AVX2 code does, too, exactly if at every
tick at which the window is full a NaN among the samples so far is still in the window. -/
theorem avx2Sma_agrees_iff {K : Type} [Field K] [LinearOrder K] [IsStrictOrderedRing K]
    [Transcendental K] {n : Nat} (hn : 4 ≤ n) {v : Exact K}
    (hperiod : parsePreparedPeriod (some v) = n) (id : Nat)
    (ctx : SignalContext (Exact K) (NodeSlot (Exact K) (Exact K)))
    (hctx : ctx.slots id = NodeSlot.empty.prewarm .sma (some v)) (xs : List (Exact K)) :
    evalSmaRun id v ctx xs = jitSmaRun id ctx xs ∧
      (avx2SmaRun n id ctx xs = jitSmaRun id ctx xs ↔
        ∀ t < xs.length, n ≤ t + 1 → Exact.nan ∈ xs.take (t + 1) →
          Exact.nan ∈ window n (xs.take (t + 1))) := by
  have hpos : 0 < n := by omega
  have hslot : (ctx.slots id).SmaHolds n [] := by
    have hprewarm : (ctx.slots id).sma = RingStatsState.init.prewarm n := by
      rw [hctx]
      simp only [NodeSlot.prewarm, hperiod]
      rfl
    rw [NodeSlot.SmaHolds, hprewarm, RingStatsState.prewarm_init hpos]
    exact RingStatsState.holds_reset n
  have heval : evalSmaRun id v ctx xs = .ok (prefixValues (runningMean n) xs) := by
    rw [evalSmaRun, evalSma,
      runValues_congr fun x _ ctx => evalTick_windowed .sma _ _ smaStep hpos hperiod x ctx,
      runValues_slotTick id fun x => smaStep n x, evalSma_run hpos hslot]
  have hjit : jitSmaRun id ctx xs = .ok (prefixValues (runningMean n) xs) := by
    rw [jitSmaRun, runValues_slotTick id fun x slot => jitRtSma slot x]
    exact jitRtSma_run hpos hslot xs
  have havx : avx2SmaRun n id ctx xs = .ok (prefixValues (ringMean n) xs) := by
    rw [avx2SmaRun, runValues_slotTick id fun x slot => avx2Sma n slot x]
    exact avx2Sma_run hpos hslot xs
  refine ⟨heval.trans hjit.symm, ?_⟩
  rw [havx, hjit, Except.ok.injEq, prefixValues_eq_iff]
  refine forall₂_congr fun t ht => ?_
  rw [ringMean_eq_runningMean_iff hpos, List.length_take, Nat.min_eq_left ht]

/-- A context prewarmed for a window of four. -/
def fourSamples : SignalContext (Exact ℚ) (NodeSlot (Exact ℚ) (Exact ℚ)) :=
  ⟨[], fun _ => NodeSlot.empty.prewarm .sma (some (.val 4))⟩

/-- The NaN is in the last window. -/
theorem avx2Sma_agrees_iff_lateNaN :
    avx2SmaRun 4 1 fourSamples [.val 1, .val 2, .val 3, .val 4, .nan, .val 6] =
      jitSmaRun 1 fourSamples [.val 1, .val 2, .val 3, .val 4, .nan, .val 6] := by
  have hperiod : parsePreparedPeriod (some (.val 4) : Option (Exact ℚ)) = 4 := by decide +kernel
  refine (avx2Sma_agrees_iff le_rfl hperiod 1 fourSamples rfl _).2.2 ?_
  decide +kernel

/-- Four numbers after a NaN. -/
theorem avx2_forgets_nan :
    ¬ avx2SmaRun 4 1 fourSamples [.nan, .val 1, .val 1, .val 1, .val 1] =
      jitSmaRun 1 fourSamples [.nan, .val 1, .val 1, .val 1, .val 1] := by
  decide +kernel

end JitSignalEngine
