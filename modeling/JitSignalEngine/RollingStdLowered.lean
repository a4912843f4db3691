import JitSignalEngine.Lowered
import JitSignalEngine.OperatorRuns
import JitSignalEngine.RingStatsHistory

/-!
# Rolling standard deviations, called and lowered

The runtime keeps mean and `m2` of a window and recomputes them from the ring at every `n`-th
sample. `EmitLoweredRollingStd` keeps a sum and a sum of squares and never recomputes them. Over
numbers the two agree. A NaN stays in the lowered sums for good, and in the runtime until a refresh
finds the ring free of it.

* `RollingStdStateLowered.Holds` — the lowered state after a history of samples;
  `RollingStdStateLowered.Holds.push` that a push keeps it.
* `recalledStddev`, `summedStddev` — what the two return after a history.
* `Unforgotten` — no block of `n` samples without a NaN comes behind a NaN.
* `loweredRollingStd_agrees_iff` — the two return the same over a stream exactly if it is
  `Unforgotten`.
-/

namespace JitSignalEngine

open Fp Widen Interpreter Exact

/-! ## The three runs -/

section Runs

variable {D L : Type} [Fp D]

/-- `EmitLoweredRollingStd` over a stream, emitted for the period `n`. -/
def loweredRollingStdRun (n : Nat) (slot : LoweredSlot D) (xs : List D) : Except String (List D) :=
  runValues (fun st x => .ok (loweredRollingStd n st x)) slot.rollingStd xs

variable [Fp L] [Widen D L]

/-- `EvalRollingStd` over a stream, with the period literal `v`. -/
def evalRollingStdRun (id : Nat) (v : D) (ctx : SignalContext D (NodeSlot D L)) (xs : List D) :
    Except String (List D) :=
  runValues (fun ctx x => evalTick (evalRollingStd (operandCall id [x, v])) ctx) ctx xs

/-- `jit_rt_rolling_std` over a stream. -/
def jitRollingStdRun (id : Nat) (ctx : SignalContext D (NodeSlot D L)) (xs : List D) :
    Except String (List D) :=
  runValues (fun ctx x => slotTick id (fun slot => jitRtRollingStd slot x) ctx) ctx xs

end Runs

variable {K : Type} [Field K] [LinearOrder K] [IsStrictOrderedRing K] [Transcendental K]

/-! ## The lowered state -/

/-- Ring, counters and sums after a history of samples. -/
structure RollingStdStateLowered.Holds (n : Nat) (xs : List (Exact K))
    (st : RollingStdStateLowered (Exact K)) : Prop where
  head : st.head = xs.length % n
  count : st.count = min xs.length n
  buffer : HoldsWindow n xs st.buffer
  sum : RunningSum n xs st.sum
  m2 : RunningSum n (xs.map fun x => mul x x) st.m2

section State

variable {n : Nat} {xs : List (Exact K)} {st : RollingStdStateLowered (Exact K)}

omit [IsStrictOrderedRing K] in
theorem RollingStdStateLowered.holds_reset (n : Nat) :
    RollingStdStateLowered.Holds n [] (.reset n : RollingStdStateLowered (Exact K)) := by
  have hring : HoldsWindow n ([] : List (Exact K)) (List.replicate n (ofNat 0)) := by
    simpa using HoldsWindow.empty (List.replicate n (ofNat 0 : Exact K))
  exact ⟨by simp [reset], by simp [reset], hring, .empty, .empty⟩

namespace RollingStdStateLowered.Holds

omit [IsStrictOrderedRing K] in
theorem full_iff (h : st.Holds n xs) : st.count = n ↔ n ≤ xs.length := by
  rw [h.count]
  omega

omit [IsStrictOrderedRing K] in
/-- **A push.** Before the window is full, the term that leaves is zero. -/
theorem push (h : st.Holds n xs) (hn : 0 < n) (x : Exact K) :
    (loweredMoments n st x).Holds n (xs ++ [x]) := by
  have hold : n ≤ xs.length → xs[xs.length - n]? = some (st.buffer.getD st.head (ofNat 0)) := by
    rw [h.head]
    exact fun hfull => h.buffer.oldest_getD hn hfull _
  have hsum := h.sum.exchange hn x hold
  have hm2 := h.m2.exchange_map hn x hold
  have hsquare : ∀ old : Exact K, mul (if n ≤ xs.length then old else ofNat 0)
      (if n ≤ xs.length then old else ofNat 0) =
        if n ≤ xs.length then mul old old else ofNat 0 := by
    intro old
    split
    · rfl
    · simp
  simp only [loweredMoments, h.full_iff, hsquare]
  refine ⟨by simp [h.head], ?_, ?_, hsum, hm2⟩
  · change (if n ≤ xs.length then st.count else st.count + 1) = _
    rw [h.count, List.length_append, List.length_singleton]
    split <;> omega
  · rw [h.head]
    exact h.buffer.push x hn

omit [IsStrictOrderedRing K] in
theorem stddev_nan (h : st.Holds n xs) (hmem : Exact.nan ∈ xs) : loweredStddev n st = .nan := by
  simp only [loweredStddev, h.sum.nan hmem]
  simp

/-- **Over numbers** the two sums give the standard deviation of the window. -/
theorem stddev_numbers {vs : List K} (h : st.Holds n (vs.map val)) (hn : 1 < n)
    (hfull : n ≤ vs.length) : loweredStddev n st = sampleStddev (window n vs) := by
  have hlength : (window n vs).length = n := by rw [length_window, Nat.min_eq_right hfull]
  have hne : (n : K) ≠ 0 := Nat.cast_ne_zero.2 (by omega)
  have hone : (1 : K) < n := by exact_mod_cast hn
  have hpred : ((n - 1 : Nat) : K) = n - 1 := by rw [Nat.cast_sub (by omega), Nat.cast_one]
  have hne' : (n : K) - 1 ≠ 0 := sub_ne_zero.2 hone.ne'
  have hsum := h.sum.numbers vs rfl
  have hm2 := h.m2
  rw [List.map_map] at hm2
  have hsquares := hm2.numbers_map (f := fun v => v * v) fun _ => rfl
  have hss : total (fun v => v * v) (window n vs) -
      n * (total id (window n vs) / n * (total id (window n vs) / n)) =
        comoment id id (window n vs) := by
    rw [comoment_eq, hlength]
    simp only [id]
    field_simp
  have hnonneg : 0 ≤ comoment id id (window n vs) / ((n : K) - 1) :=
    div_nonneg (comoment_self_nonneg _ _) (sub_nonneg.2 hone.le)
  simp only [loweredStddev, hsum, hsquares, ofNat_val, div_val _ hne, mul_val, sub_val, hss, hpred,
    div_val _ hne', Nat.cast_zero, clamp_val, max_eq_right hnonneg, sampleStddev, hlength]

end RollingStdStateLowered.Holds

end State

/-! ## What is returned -/

/-- The numbers among some samples. -/
def Exact.numbers (xs : List (Exact K)) : List K :=
  xs.filterMap fun
    | .val v => some v
    | .nan => none

/-- `rolling_std` from mean and `m2`: NaN while one is remembered. -/
def recalledStddev (n : Nat) (xs : List (Exact K)) : Exact K :=
  if n ≤ xs.length ∧ Exact.nan ∉ remembered n xs then sampleStddev (numbers (window n xs)) else .nan

/-- `rolling_std` from the two sums: NaN after a NaN. -/
def summedStddev (n : Nat) (xs : List (Exact K)) : Exact K :=
  if n ≤ xs.length ∧ Exact.nan ∉ xs then sampleStddev (numbers (window n xs)) else .nan

/-- **What makes the two agree.** No complete block of `n` samples without a NaN comes behind a
NaN. The blocks are those between the refreshes. -/
def Unforgotten (n : Nat) (xs : List (Exact K)) : Prop :=
  ∀ j, (j + 1) * n ≤ xs.length → Exact.nan ∈ xs.take (j * n) →
    Exact.nan ∈ (xs.take ((j + 1) * n)).drop (j * n)

section Readout

variable {n : Nat} {xs : List (Exact K)}

omit [Field K] [LinearOrder K] [IsStrictOrderedRing K] [Transcendental K] in
theorem Exact.numbers_map (vs : List K) : numbers (vs.map val) = vs := by
  rw [numbers, List.filterMap_map]
  exact List.filterMap_some

/-- The runtime. -/
theorem RingStatsState.Holds.rollingStdReadout_eq {st : RingStatsState (Exact K) (Exact K)}
    (h : st.Holds n xs) (hrecalls : st.Recalls n xs) (hn : 1 < n) :
    rollingStdReadout st = recalledStddev n xs := by
  rw [rollingStdReadout, h.ringStatsFull_eq (by omega), recalledStddev]
  by_cases hfull : n ≤ xs.length
  · by_cases hmem : Exact.nan ∈ remembered n xs
    · simp only [hfull, hmem, decide_true, Bool.not_true, Bool.false_eq_true, if_false,
        not_true_eq_false, and_false]
      exact (hrecalls.nan hmem).stddev
    · obtain ⟨ws, hws⟩ := RingStatsState.Recalls.exists_numbers hmem
      have hlength : ws.length = n := by
        rw [← List.length_map val, ← hws, length_window, Nat.min_eq_right hfull]
      simp only [hfull, hmem, decide_true, Bool.not_true, Bool.false_eq_true, if_false,
        not_false_eq_true, and_self, if_true, hws, numbers_map]
      exact (hrecalls.numbers hmem ws hws).stddev (by rw [h.count, Nat.min_eq_right hfull, hlength])
        (by omega)
  · simp only [hfull, decide_false, Bool.not_false, if_true, false_and, if_false]
    rfl

/-- The lowered operator. -/
theorem RollingStdStateLowered.Holds.stddev_eq {st : RollingStdStateLowered (Exact K)}
    (h : st.Holds n xs) (hn : 1 < n) :
    (if st.count = n then loweredStddev n st else .nan) = summedStddev n xs := by
  simp only [h.full_iff, summedStddev]
  by_cases hfull : n ≤ xs.length
  · rcases numbers_or_nan xs with ⟨vs, rfl⟩ | hmem
    · rw [if_pos hfull, if_pos ⟨hfull, nan_notMem_map vs⟩, window_map, numbers_map]
      exact h.stddev_numbers hn (by simpa using hfull)
    · rw [if_pos hfull, if_neg fun hnot => hnot.2 hmem]
      exact h.stddev_nan hmem
  · rw [if_neg hfull, if_neg fun hnot => hfull hnot.1]

/-- A full window of numbers has a standard deviation. -/
theorem sampleStddev_ne_nan {ws : List K} (hws : 1 < ws.length) : sampleStddev ws ≠ .nan := by
  rw [sampleStddev_eq hws]
  exact fun h => by cases h

/-- After one history. -/
theorem recalledStddev_eq_summedStddev_iff (hn : 1 < n) :
    recalledStddev n xs = summedStddev n xs ↔
      (n ≤ xs.length → Exact.nan ∈ xs → Exact.nan ∈ remembered n xs) := by
  by_cases hfull : n ≤ xs.length
  · by_cases hmem : Exact.nan ∈ xs
    · have hsummed : summedStddev n xs = .nan := if_neg fun hnot => hnot.2 hmem
      rw [hsummed]
      refine ⟨fun h _ _ => ?_, fun h => if_neg fun hnot => hnot.2 (h hfull hmem)⟩
      by_contra hforgotten
      obtain ⟨ws, hws⟩ := RingStatsState.Recalls.exists_numbers hforgotten
      have hlength : ws.length = n := by
        rw [← List.length_map val, ← hws, length_window, Nat.min_eq_right hfull]
      rw [recalledStddev, if_pos ⟨hfull, hforgotten⟩, hws, numbers_map] at h
      exact sampleStddev_ne_nan (by omega) h
    · have hforgotten : Exact.nan ∉ remembered n xs := fun h => hmem (List.mem_of_mem_drop h)
      rw [recalledStddev, if_pos ⟨hfull, hforgotten⟩, summedStddev, if_pos ⟨hfull, hmem⟩]
      exact ⟨fun _ _ h => absurd h hmem, fun _ => rfl⟩
  · have hearly : ∀ P : Prop, ¬ (n ≤ xs.length ∧ P) := fun _ hnot => hfull hnot.1
    rw [recalledStddev, if_neg (hearly _), summedStddev, if_neg (hearly _)]
    exact ⟨fun _ h => absurd h hfull, fun _ => rfl⟩

omit [Field K] [LinearOrder K] [IsStrictOrderedRing K] [Transcendental K] in
/-- At every tick. The first tick at which a NaN is forgotten is a refresh. -/
theorem unforgotten_iff (hn : 0 < n) :
    Unforgotten n xs ↔ ∀ t < xs.length, n ≤ (xs.take (t + 1)).length →
      Exact.nan ∈ xs.take (t + 1) → Exact.nan ∈ remembered n (xs.take (t + 1)) := by
  constructor
  · intro h t ht hfull hmem
    rw [List.length_take, Nat.min_eq_left (by omega)] at hfull
    obtain ⟨j, hj⟩ : ∃ j, (t + 1) / n = j + 1 :=
      Nat.exists_eq_add_of_le' (Nat.div_pos hfull hn)
    have hblock : (j + 1) * n ≤ t + 1 := hj ▸ Nat.div_mul_le_self (t + 1) n
    have hstart : remembered n (xs.take (t + 1)) = (xs.take (t + 1)).drop (j * n) := by
      rw [remembered, List.length_take, Nat.min_eq_left (by omega), hj, Nat.add_sub_cancel]
    rw [hstart]
    by_contra hforgotten
    rw [← List.take_append_drop (j * n) (xs.take (t + 1)), List.mem_append] at hmem
    have hbefore := hmem.resolve_right hforgotten
    rw [List.take_take, Nat.min_eq_left (by rw [Nat.add_mul, Nat.one_mul] at hblock; omega)]
      at hbefore
    have hmem' := h j (by omega) hbefore
    refine hforgotten (List.Sublist.mem hmem' (List.Sublist.drop ?_ _))
    rw [← Nat.min_eq_left hblock, ← List.take_take]
    exact List.take_sublist _ _
  · intro h j hblock hmem
    have hpos : 0 < (j + 1) * n := Nat.mul_pos j.succ_pos hn
    have hle : n ≤ (j + 1) * n := Nat.le_mul_of_pos_left n j.succ_pos
    have hsub : xs.take (j * n) <+: xs.take ((j + 1) * n) :=
      List.take_prefix_take_left (Nat.mul_le_mul_right n j.le_succ)
    have htick := h ((j + 1) * n - 1) (by omega)
    rw [Nat.sub_add_cancel hpos, List.length_take, Nat.min_eq_left hblock] at htick
    have hremembered := htick hle (hsub.subset hmem)
    rwa [remembered, List.length_take, Nat.min_eq_left hblock, Nat.mul_div_cancel _ hn,
      Nat.add_sub_cancel] at hremembered

end Readout

/-! ## Agreement -/

section Agreement

variable {n : Nat} {slot : NodeSlot (Exact K) (Exact K)}

/-- The state of `rolling_std` after a history of samples. -/
def NodeSlot.RollingStdHolds (n : Nat) (xs : List (Exact K))
    (slot : NodeSlot (Exact K) (Exact K)) : Prop :=
  slot.rollingStd.Holds n xs ∧ slot.rollingStd.Recalls n xs

/-- The interpreter. -/
theorem rollingStdStep_run (hn : 1 < n) (h : slot.RollingStdHolds n []) (xs : List (Exact K)) :
    runValues (fun slot x => rollingStdStep n x slot) slot xs =
      .ok (prefixValues (recalledStddev n) xs) := by
  refine runValues_history (fun is slot x (hslot : slot.RollingStdHolds n is) => ?_) h xs
  have hnext := hslot.1.slide (by omega) x
  have hrecalls := hslot.2.slide hslot.1 hn x
  refine ⟨{ slot with rollingStd := ringStatsSlide slot.rollingStd x }, ?_, hnext, hrecalls⟩
  rw [rollingStdStep, (hslot.1.push_eq (by omega) x).1, ← hnext.rollingStdReadout_eq hrecalls hn]
  rfl

/-- Compiled code that calls the runtime. -/
theorem jitRtRollingStd_run (hn : 1 < n) (h : slot.RollingStdHolds n []) (xs : List (Exact K)) :
    runValues jitRtRollingStd slot xs = .ok (prefixValues (recalledStddev n) xs) := by
  refine runValues_history (fun is slot x (hslot : slot.RollingStdHolds n is) => ?_) h xs
  have hnext := hslot.1.slide (by omega) x
  have hrecalls := hslot.2.slide hslot.1 hn x
  refine ⟨{ slot with rollingStd := ringStatsSlide slot.rollingStd x }, ?_, hnext, hrecalls⟩
  rw [jitRtRollingStd, (hslot.1.push_eq (by omega) x).2, ← hnext.rollingStdReadout_eq hrecalls hn]
  rfl

/-- Compiled code that has the operator inlined. -/
theorem loweredRollingStd_run (hn : 1 < n) {st : RollingStdStateLowered (Exact K)}
    (h : st.Holds n []) (xs : List (Exact K)) :
    (runValues (fun st x => .ok (loweredRollingStd n st x)) st xs : Except String (List (Exact K))) =
      .ok (prefixValues (summedStddev n) xs) := by
  refine runValues_history (fun is st x (hst : st.Holds n is) => ?_) h xs
  have hnext := hst.push (by omega) x
  refine ⟨loweredMoments n st x, ?_, hnext⟩
  rw [← hnext.stddev_eq hn]
  rfl

end Agreement

/-- **Where the lowered operator agrees.** From prewarmed states, over every stream of numbers and
NaN, the interpreter and `jit_rt_rolling_std` return the same, and the lowered operator does, too,
exactly if the stream is `Unforgotten`. -/
theorem loweredRollingStd_agrees_iff {K : Type} [Field K] [LinearOrder K] [IsStrictOrderedRing K]
    [Transcendental K] {n : Nat} (hn : 2 ≤ n) {v : Exact K}
    (hperiod : parsePreparedPeriod (some v) = n) (id : Nat)
    (ctx : SignalContext (Exact K) (NodeSlot (Exact K) (Exact K)))
    (hctx : ctx.slots id = NodeSlot.empty.prewarm .rollingStd (some v)) (xs : List (Exact K)) :
    evalRollingStdRun id v ctx xs = jitRollingStdRun id ctx xs ∧
      (loweredRollingStdRun n (LoweredSlot.empty.prewarm .rollingStd (some v)) xs =
        jitRollingStdRun id ctx xs ↔ Unforgotten n xs) := by
  have hpos : 0 < n := by omega
  have hslot : (ctx.slots id).RollingStdHolds n [] := by
    have hprewarm : (ctx.slots id).rollingStd = RingStatsState.init.prewarm n := by
      rw [hctx]
      simp only [NodeSlot.prewarm, hperiod]
      rfl
    rw [NodeSlot.RollingStdHolds, hprewarm, RingStatsState.prewarm_init hpos]
    exact ⟨RingStatsState.holds_reset n, RingStatsState.recalls_reset n⟩
  have hlowered : (LoweredSlot.empty.prewarm .rollingStd (some v)).rollingStd.Holds n [] := by
    simp only [LoweredSlot.prewarm, hperiod, hpos, if_true]
    exact RollingStdStateLowered.holds_reset n
  have heval : evalRollingStdRun id v ctx xs = .ok (prefixValues (recalledStddev n) xs) := by
    rw [evalRollingStdRun, evalRollingStd,
      runValues_congr fun x _ ctx =>
        evalTick_windowedTwo .rollingStd _ _ _ rollingStdStep hn hperiod x ctx,
      runValues_slotTick id fun x => rollingStdStep n x, rollingStdStep_run hn hslot]
  have hjit : jitRollingStdRun id ctx xs = .ok (prefixValues (recalledStddev n) xs) := by
    rw [jitRollingStdRun, runValues_slotTick id fun x slot => jitRtRollingStd slot x]
    exact jitRtRollingStd_run hn hslot xs
  have hir := loweredRollingStd_run hn hlowered xs
  refine ⟨heval.trans hjit.symm, ?_⟩
  rw [loweredRollingStdRun, hir, hjit, Except.ok.injEq, eq_comm, prefixValues_eq_iff,
    unforgotten_iff hpos]
  exact forall₂_congr fun t _ => recalledStddev_eq_summedStddev_iff hn

/-- A context prewarmed for a window of two. -/
def twoSamples : SignalContext (Exact ℚ) (NodeSlot (Exact ℚ) (Exact ℚ)) :=
  ⟨[], fun _ => NodeSlot.empty.prewarm .rollingStd (some (.val 2))⟩

/-- The second block is not complete. -/
theorem loweredRollingStd_agrees_iff_threeSamples :
    loweredRollingStdRun 2 (LoweredSlot.empty.prewarm .rollingStd (some (.val 2)))
        [.nan, .val 1, .val 3] =
      jitRollingStdRun 1 twoSamples [.nan, .val 1, .val 3] := by
  have hperiod : parsePreparedPeriod (some (.val 2) : Option (Exact ℚ)) = 2 := by decide +kernel
  refine (loweredRollingStd_agrees_iff le_rfl hperiod 1 twoSamples rfl _).2.2 ?_
  intro j hblock hmem
  have hfirst : j = 0 := by
    simp only [List.length_cons, List.length_nil] at hblock
    omega
  rw [hfirst, Nat.zero_mul, List.take_zero] at hmem
  exact absurd hmem List.not_mem_nil

/-- `rolling_std(lag(x, 1), 2)`: two numbers after a block with a NaN. -/
theorem lowered_keeps_nan :
    ¬ loweredRollingStdRun 2 (LoweredSlot.empty.prewarm .rollingStd (some (.val 2)))
        [.nan, .val 1, .val 1, .val 3] =
      jitRollingStdRun 1 twoSamples [.nan, .val 1, .val 1, .val 3] := by
  decide +kernel

end JitSignalEngine
