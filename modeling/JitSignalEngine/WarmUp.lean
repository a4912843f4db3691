import JitSignalEngine.MonoDequeWords
import JitSignalEngine.RollingPairWindow
import JitSignalEngine.RollingStatsWindow
import JitSignalEngine.RollingStdLowered
import JitSignalEngine.SmaPaths

/-!
# Windows behind a warm-up

A windowed operator returns NaN until its window is full. An operator around it gets these NaNs as
samples. Here is what the windowed operators of the interpreter return `2 * n` numbers later.

* `SeriesOp`, `PairOp` — the operators of one and of two series, their values on a window and the
  windows on which they have one.
* `RollingMinMaxState.FollowsSince` — a deque after a history of numbers and NaN.
* `SeriesOp.Holds`, `PairOp.Holds` — the state of an operator after such a history.
* `windowed_compose_iff` — `rolling_std`, `rolling_min` and `rolling_max` forget a NaN, the others
  return the value of the window only where there never was one.
-/

namespace JitSignalEngine

open Fp Widen Interpreter Exact

/-! ## The operators -/

/-- The windowed operators of one series. -/
inductive SeriesOp where
  | sma
  | rollingStd
  | zscore
  | rollingMin
  | rollingMax
deriving DecidableEq, Repr

/-- The windowed operators of two series. -/
inductive PairOp where
  | rollingCorr
  | rollingBeta
deriving DecidableEq, Repr

/-- The operator it is. -/
def SeriesOp.fn : SeriesOp → StatefulFn
  | .sma => .sma
  | .rollingStd => .rollingStd
  | .zscore => .zscore
  | .rollingMin => .rollingMin
  | .rollingMax => .rollingMax

/-- The operator it is. -/
def PairOp.fn : PairOp → StatefulFn
  | .rollingCorr => .rollingCorr
  | .rollingBeta => .rollingBeta

section Runs

variable {D L : Type} [Fp D] [Fp L] [Widen D L]

/-- What the interpreter does about a sample. -/
def SeriesOp.step : SeriesOp → Nat → D → NodeSlot D L → Except String (D × NodeSlot D L)
  | .sma => smaStep
  | .rollingStd => rollingStdStep
  | .zscore => zscoreStep
  | .rollingMin => rollingMinStep
  | .rollingMax => rollingMaxStep

/-- What the interpreter does about a pair. -/
def PairOp.step : PairOp → Nat → D → D → NodeSlot D L → Except String (D × NodeSlot D L)
  | .rollingCorr => rollingCorrStep
  | .rollingBeta => rollingBetaStep

/-- The `Eval…` member of an operator over a stream, with the period literal `v`. -/
def evalSeriesRun (symbols : SymbolTable) (market : MarketState D) (op : SeriesOp) (id : Nat)
    (v : D) (ctx : SignalContext D (NodeSlot D L)) (xs : List D) : Except String (List D) :=
  runValues (fun ctx x => evalTick (evalStateful symbols market op.fn (operandCall id [x, v])) ctx)
    ctx xs

/-- The same over a stream of pairs. -/
def evalPairRun (symbols : SymbolTable) (market : MarketState D) (op : PairOp) (id : Nat) (v : D)
    (ctx : SignalContext D (NodeSlot D L)) (ps : List (D × D)) : Except String (List D) :=
  runValues
    (fun ctx p => evalTick (evalStateful symbols market op.fn (operandCall id [p.1, p.2, v])) ctx)
    ctx ps

variable {symbols : SymbolTable} {market : MarketState D} {id n : Nat} {v : D}

theorem evalTick_series (op : SeriesOp) (hn : 0 < n) (hop : op.fn.minPeriod ≤ n)
    (hperiod : parsePreparedPeriod (some v) = n) (x : D) (ctx : SignalContext D (NodeSlot D L)) :
    evalTick (evalStateful symbols market op.fn (operandCall id [x, v])) ctx =
      slotTick id (op.step n x) ctx := by
  cases op <;> simp only [SeriesOp.fn, evalStateful, SeriesOp.step]
  case sma => exact evalTick_windowed .sma "sma()" _ smaStep hn hperiod x ctx
  case rollingStd =>
    exact evalTick_windowedTwo .rollingStd "rolling_std()" _ _ rollingStdStep hop hperiod x ctx
  case zscore => exact evalTick_windowedTwo .zscore "zscore()" _ _ zscoreStep hop hperiod x ctx
  case rollingMin =>
    exact evalTick_windowed .rollingMin "rolling_min()" _ rollingMinStep hn hperiod x ctx
  case rollingMax =>
    exact evalTick_windowed .rollingMax "rolling_max()" _ rollingMaxStep hn hperiod x ctx

theorem evalTick_pair (op : PairOp) (hn : 0 < n) (hperiod : parsePreparedPeriod (some v) = n)
    (x y : D) (ctx : SignalContext D (NodeSlot D L)) :
    evalTick (evalStateful symbols market op.fn (operandCall id [x, y, v])) ctx =
      slotTick id (op.step n x y) ctx := by
  have hpair : ∀ fn label usage
      (step : Nat → D → D → NodeSlot D L → Except String (D × NodeSlot D L)),
      evalTick (evalPair fn label usage step (operandCall id [x, y, v])) ctx =
        slotTick id (step n x y) ctx := by
    intro fn label usage step
    rw [← evalTick_updateSlot fn label [x, y, v]]
    simp only [evalPair, operandCall, List.map_cons, List.map_nil, CallArg.value,
      parsePositiveIntegerPeriod_literal hn hperiod, EvalM.lift_ok, EvalM.pure_bind]
  cases op <;> simp only [PairOp.fn, evalStateful, PairOp.step]
  case rollingCorr => exact hpair .rollingCorr "rolling_corr()" _ rollingCorrStep
  case rollingBeta => exact hpair .rollingBeta "rolling_beta()" _ rollingBetaStep

end Runs

/-! ## Deques after a NaN -/

section Deque

variable {K : Type} [Field K] [LinearOrder K] [Transcendental K]

/-- **A deque after a history of numbers and NaN.** Position `k` is the one behind the last NaN. -/
structure RollingMinMaxState.FollowsSince (kind : MonoDequeKind) (p : Nat) (xs : List (Exact K))
    (st : RollingMinMaxState (Exact K)) : Prop where
  ok : st.dq.Ok
  cap_eq : st.dq.cap = p + 1
  idx_eq : st.idx = xs.length
  since : ∃ k old es, st.dq.entries = old ++ es.map (shiftEntry k) ∧
    SurvivorsSince kind.pops xs p k old es ∧ Exact.nan ∉ xs.drop k ∧
    (k = 0 ∨ xs[k - 1]? = some Exact.nan)

variable {kind : MonoDequeKind} {p : Nat} {xs : List (Exact K)} {st : RollingMinMaxState (Exact K)}

theorem Exact.comparable (h : Exact.nan ∉ xs) : Comparable kind.pops xs := by
  obtain ⟨vs, rfl⟩ := (numbers_or_nan xs).resolve_right h
  exact comparable_pops (comparable_val vs)

/-- NaN is not popped, and pops nothing. -/
theorem MonoDequeKind.pops_nan (kind : MonoDequeKind) (x : Exact K) :
    kind.pops .nan x = false ∧ kind.pops x .nan = false := by
  cases kind <;> cases x <;> exact ⟨rfl, rfl⟩

namespace RollingMinMaxState.FollowsSince

theorem nil (kind : MonoDequeKind) (p : Nat) :
    RollingMinMaxState.FollowsSince kind p [] (⟨MonoDequeState.init.monoInit p, 0⟩ :
      RollingMinMaxState (Exact K)) := by
  have h := RollingMinMaxState.follows_nil (D := Exact K) kind p
  have hnil : (MonoDequeState.init.monoInit p : MonoDequeState (Exact K)).entries = [] :=
    List.eq_nil_of_length_eq_zero (by rw [h.ok.length_entries]; rfl)
  exact ⟨h.ok, h.cap_eq, rfl, 0, [], [], by simpa using hnil, .nil _ _, by simp, .inl rfl⟩

theorem fits (h : st.FollowsSince kind p xs) : st.Fits p := by
  obtain ⟨k, old, es, hentries, hsince, -⟩ := h.since
  exact ⟨h.ok, h.cap_eq, hentries ▸ hsince.length_le⟩

/-- **One sample more.** -/
theorem update (h : st.FollowsSince kind p xs) (hp : 0 < p) (x : Exact K) :
    (updateRolling kind st p x).2.FollowsSince kind p (xs ++ [x]) := by
  obtain ⟨hok, hcap, hupdate⟩ := h.fits.update kind x
  obtain ⟨k, old, es, hentries, hsince, hnumbers, hbehind⟩ := h.since
  refine ⟨hok, hcap, by simp [updateRolling, h.idx_eq], ?_⟩
  rw [hupdate, h.idx_eq, hentries]
  cases x with
  | nan =>
    refine ⟨xs.length + 1, _, [], (List.append_nil _).symm, hsince.interrupt hp
      (fun y => (kind.pops_nan y).1) (fun y => (kind.pops_nan y).2), by simp, .inr (by simp)⟩
  | val v =>
    have hnumbers' : Exact.nan ∉ xs.drop k ++ [Exact.val v] := by simp [hnumbers]
    refine ⟨k, _, _, hsince.slide_eq (.val v), hsince.slide hp (comparable hnumbers'), ?_, ?_⟩
    · rwa [List.drop_append_of_le_length hsince.le_length]
    · refine hbehind.imp_right fun hnan => ?_
      rw [List.getElem?_append_left (List.getElem?_eq_some_iff.1 hnan).1, hnan]

/-- **Reading** from a window of numbers. -/
theorem front (h : st.FollowsSince kind p xs) (hp : 0 < p) (hfull : p ≤ xs.length)
    (hwindow : Exact.nan ∉ window p xs) :
    ∃ v, st.dq.monoFront.2 = .val v ∧ kind.IsExtremum (numbers (window p xs)) v := by
  obtain ⟨k, old, es, hentries, hsince, hnumbers, hbehind⟩ := h.since
  have hk : k + p ≤ xs.length := by
    rcases hbehind with rfl | hnan
    · omega
    · by_contra hlt
      refine hwindow (List.mem_of_getElem? (i := k - 1 - (xs.length - p)) ?_)
      have hle := hsince.le_length
      rw [window, List.getElem?_drop, ← hnan]
      congr 1
      omega
  obtain ⟨rfl, e, rest, rfl, hvalue, hbest⟩ := hsince.front (comparable hnumbers) hp hk
  have hfront : st.dq.monoFront = shiftEntry k e := by
    have hpos : 0 < st.dq.count := by rw [← h.ok.length_entries, hentries]; simp
    have hhead := h.ok.front hpos
    rw [hentries] at hhead
    exact (Option.some.inj hhead).symm
  obtain ⟨vs, hvs⟩ := (numbers_or_nan (xs.drop k)).resolve_right hnumbers
  have hsince' : window p xs = window p (xs.drop k) := by
    rw [window, window, List.length_drop, List.drop_drop]
    congr 1
    omega
  rw [hvs] at hvalue hbest
  obtain ⟨v, hv, hev⟩ := Option.map_eq_some_iff.1 (List.getElem?_map ▸ hvalue)
  refine ⟨v, by rw [hfront, shiftEntry, hev], ?_⟩
  rw [hsince', hvs, window_map, numbers_map]
  exact hbest.isExtremum (fun _ _ => rfl) hv

end RollingMinMaxState.FollowsSince

end Deque

/-! ## The values of a window -/

section Values

variable {K : Type} [Field K] [LinearOrder K] [Transcendental K]

/-- The value of an operator on a window of numbers. -/
def SeriesOp.IsValue (op : SeriesOp) (ws : List K) (o : Exact K) : Prop :=
  match op with
  | .sma => o = val (mean id ws)
  | .rollingStd => o = sampleStddev ws
  | .zscore => ∃ w ∈ ws.getLast?, o = div (sub (val w) (val (mean id ws))) (sampleStddev ws)
  | .rollingMin => ∃ m, o = val m ∧ MonoDequeKind.min.IsExtremum ws m
  | .rollingMax => ∃ m, o = val m ∧ MonoDequeKind.max.IsExtremum ws m

/-- The guard of the operator passes on a window. -/
def SeriesOp.NonDegenerate (op : SeriesOp) (ws : List K) : Prop :=
  match op with
  | .zscore => lt (fabs (sampleStddev ws)) stddevFloor = false
  | _ => True

/-- The operators that get rid of a NaN. -/
def SeriesOp.Forgets : SeriesOp → Prop
  | .rollingStd | .rollingMin | .rollingMax => True
  | .sma | .zscore => False

/-- The last `2 * n` samples are numbers. -/
def Recovered (n : Nat) (xs : List (Exact K)) : Prop :=
  2 * n ≤ xs.length ∧ Exact.nan ∉ window (2 * n) xs

/-- What the claim is about at one tick: the output, when it is due. -/
def SeriesOp.Outputs (op : SeriesOp) (n : Nat) (xs : List (Exact K)) (o : Exact K) : Prop :=
  Recovered n xs → op.NonDegenerate (numbers (window n xs)) →
    (op.IsValue (numbers (window n xs)) o ↔ op.Forgets ∨ Exact.nan ∉ xs)

variable {n : Nat} {xs : List (Exact K)}

omit [Field K] [LinearOrder K] [Transcendental K] in
/-- The window, and that nothing before it is remembered. -/
theorem Recovered.numbers (h : Recovered n xs) (hn : 0 < n) :
    n ≤ xs.length ∧ Exact.nan ∉ remembered n xs ∧ Exact.nan ∉ window n xs ∧
      ∃ ws : List K, window n xs = ws.map val ∧ ws.length = n := by
  have hfull : n ≤ xs.length := by
    have := h.1
    omega
  have hremembered : Exact.nan ∉ remembered n xs := fun hmem =>
    h.2 ((remembered_suffix hn xs).subset hmem)
  obtain ⟨ws, hws⟩ := RingStatsState.Recalls.exists_numbers hremembered
  refine ⟨hfull, hremembered, hws ▸ nan_notMem_map ws, ws, hws, ?_⟩
  rw [← List.length_map val, ← hws, length_window, Nat.min_eq_right hfull]

end Values

/-! ## The operators of one series -/

section Series

variable {K : Type} [Field K] [LinearOrder K] [IsStrictOrderedRing K] [Transcendental K]

/-- The deque an update works on: set up anew when the capacity differs. -/
def RollingMinMaxState.ready {D : Type} [Fp D] (n : Nat) (st : RollingMinMaxState D) :
    RollingMinMaxState D := { st with dq := st.dq.monoInit n }

omit [IsStrictOrderedRing K] in
theorem RollingMinMaxState.FollowsSince.ready_eq {kind : MonoDequeKind} {n : Nat}
    {xs : List (Exact K)} {st : RollingMinMaxState (Exact K)} (h : st.FollowsSince kind n xs) :
    st.ready n = st := by
  rw [ready, MonoDequeState.monoInit, if_pos h.cap_eq]

/-- The state of an operator after a history of samples. -/
def SeriesOp.Holds (op : SeriesOp) (n : Nat) (xs : List (Exact K))
    (slot : NodeSlot (Exact K) (Exact K)) : Prop :=
  match op with
  | .sma => (slot.sma.ready n).Holds n xs
  | .rollingStd => (slot.rollingStd.ready n).Holds n xs ∧ (slot.rollingStd.ready n).Recalls n xs
  | .zscore => (slot.zscore.ready n).Holds n xs ∧ (slot.zscore.ready n).Recalls n xs
  | .rollingMin => (slot.rollingMin.ready n).FollowsSince .min n xs
  | .rollingMax => (slot.rollingMax.ready n).FollowsSince .max n xs

variable {n : Nat} {xs : List (Exact K)} {st : RingStatsState (Exact K) (Exact K)}

omit [IsStrictOrderedRing K] in
/-- A push leaves a ring that is set up. -/
theorem RingStatsState.Holds.push_ready (h : (st.ready n).Holds n xs) (hn : 0 < n) (x : Exact K) :
    ringStatsPush st n x = .ok (ringStatsSlide (st.ready n) x) ∧
      (ringStatsSlide (st.ready n) x).ready n = ringStatsSlide (st.ready n) x :=
  ⟨if_neg hn.ne', if_pos (h.slide hn x).capacity⟩

theorem RingStatsState.Holds.sma_outputs (h : st.Holds n xs) (hn : 0 < n) :
    SeriesOp.sma.Outputs n xs (smaReadout st) := by
  intro hrecovered _
  obtain ⟨hfull, -, -, ws, hws, hlength⟩ := hrecovered.numbers hn
  have hne : (n : K) ≠ 0 := Nat.cast_ne_zero.2 hn.ne'
  have hvalue : windowMean n xs = val (JitSignalEngine.mean id ws) := by
    rw [windowMean, hws, sum_map_val, ofNat_val, div_val _ hne, JitSignalEngine.mean, hlength]
  rw [SeriesOp.IsValue, SeriesOp.Forgets, false_or, hws, numbers_map, h.smaReadout_eq hn,
    runningMean, ← hvalue]
  by_cases hmem : Exact.nan ∈ xs
  · rw [if_neg fun hnot => hnot.2 hmem, hvalue]
    simp [hmem]
  · rw [if_pos ⟨hfull, hmem⟩]
    simp [hmem]

theorem RingStatsState.Holds.rollingStd_outputs (h : st.Holds n xs) (hrecalls : st.Recalls n xs)
    (hn : 1 < n) : SeriesOp.rollingStd.Outputs n xs (rollingStdReadout st) := by
  intro hrecovered _
  obtain ⟨hfull, hremembered, -⟩ := hrecovered.numbers (by omega)
  rw [SeriesOp.IsValue, SeriesOp.Forgets, h.rollingStdReadout_eq hrecalls hn, recalledStddev,
    if_pos ⟨hfull, hremembered⟩]
  simp

/-- A standard deviation that passes the guard is a number other than zero. -/
theorem SeriesOp.nonDegenerate_zscore {ws : List K} (hws : 1 < ws.length)
    (h : SeriesOp.zscore.NonDegenerate ws) : ∃ s : K, sampleStddev ws = val s ∧ s ≠ 0 := by
  refine ⟨_, sampleStddev_eq hws, fun hzero => ?_⟩
  rw [NonDegenerate, sampleStddev_eq hws, hzero] at h
  have hlt : lt (fabs (val (0 : K))) stddevFloor = true := by
    change decide (max (0 : K) (-0) < _) = true
    simp
  rw [hlt] at h
  exact absurd h (by decide)

theorem RingStatsState.Holds.zscore_outputs {x : Exact K} (h : st.Holds n (xs ++ [x]))
    (hrecalls : st.Recalls n (xs ++ [x])) (hn : 1 < n) :
    SeriesOp.zscore.Outputs n (xs ++ [x]) (zscoreReadout st x) := by
  intro hrecovered hguard
  obtain ⟨hfull, hremembered, -, ws, hws, hlength⟩ := hrecovered.numbers (by omega)
  rw [hws, numbers_map] at hguard ⊢
  obtain ⟨s, hs, hne⟩ := SeriesOp.nonDegenerate_zscore (by omega) hguard
  have hstddev : ringStatsStddevSample st = val s := by
    rw [← hs]
    exact (hrecalls.numbers hremembered ws hws).stddev
      (by rw [h.count, Nat.min_eq_right hfull, hlength]) (by omega)
  have hread : zscoreReadout st x = div (sub x (ringStatsMean st)) (val s) := by
    rw [SeriesOp.NonDegenerate, hs] at hguard
    simp only [zscoreReadout, h.ringStatsFull_eq (by omega), hfull, hstddev, hguard, isnan, eq_val,
      decide_true, Bool.not_true, Bool.false_eq_true, if_false, Bool.or_false]
  -- the sample is the last one of the window
  have hlast : window n (xs ++ [x]) = xs.drop ((xs ++ [x]).length - n) ++ [x] :=
    List.drop_append_of_le_length (by simp; omega)
  obtain ⟨us, v, -, rfl, rfl⟩ := map_val_append (hlast.symm.trans hws)
  rw [hread, SeriesOp.IsValue, SeriesOp.Forgets, false_or, hs, List.getLast?_concat]
  by_cases hmem : Exact.nan ∈ xs ++ [val v]
  · rw [h.mean_nan hmem, sub_nan_right, div_nan_left]
    simp [hmem, div_val _ hne]
  · obtain ⟨vs, hvs⟩ := (numbers_or_nan _).resolve_right hmem
    have hwindow : window n vs = us ++ [v] := by
      rw [hvs, window_map] at hws
      exact List.map_injective_iff.2 (fun _ _ => Exact.val.inj) hws
    have hfull' : n ≤ vs.length := by simpa [hvs] using hfull
    rw [hvs] at h
    rw [h.mean_numbers (by omega) hfull', hwindow]
    simp [hmem]

omit [IsStrictOrderedRing K] in
theorem RollingMinMaxState.FollowsSince.outputs {kind : MonoDequeKind}
    {st : RollingMinMaxState (Exact K)} (h : st.FollowsSince kind n xs) (hn : 0 < n)
    (hrecovered : Recovered n xs) (front : Exact K) (hfront : st.dq.monoFront.2 = front) :
    ∃ m, (minMaxReadout n (front, st)).1 = val m ∧
      kind.IsExtremum (numbers (window n xs)) m := by
  obtain ⟨hfull, -, hwindow, -⟩ := hrecovered.numbers hn
  obtain ⟨m, hm, hextremum⟩ := h.front hn hfull hwindow
  have hlate : ¬ st.idx < n := by rw [h.idx_eq]; omega
  exact ⟨m, by rw [minMaxReadout, if_neg hlate, ← hfront, hm], hextremum⟩

/-- **A tick** of an operator. -/
theorem SeriesOp.tick (op : SeriesOp) {slot : NodeSlot (Exact K) (Exact K)} (hn : 0 < n)
    (hop : op.fn.minPeriod ≤ n) (h : op.Holds n xs slot) (x : Exact K) :
    ∃ o slot', op.step n x slot = .ok (o, slot') ∧ op.Holds n (xs ++ [x]) slot' ∧
      op.Outputs n (xs ++ [x]) o := by
  cases op with
  | sma =>
    obtain ⟨hpush, hready⟩ := h.push_ready hn x
    have hnext := RingStatsState.Holds.slide h hn x
    refine ⟨_, _, by rw [step, smaStep, hpush]; rfl, ?_, hnext.sma_outputs hn⟩
    simpa only [Holds, hready] using hnext
  | rollingStd =>
    obtain ⟨hholds, hrecalls⟩ := h
    obtain ⟨hpush, hready⟩ := hholds.push_ready hn x
    have hnext := hholds.slide hn x
    have hrecalls' := hrecalls.slide hholds hop x
    refine ⟨_, _, by rw [step, rollingStdStep, hpush]; rfl, ?_,
      hnext.rollingStd_outputs hrecalls' hop⟩
    simpa only [Holds, hready] using ⟨hnext, hrecalls'⟩
  | zscore =>
    obtain ⟨hholds, hrecalls⟩ := h
    obtain ⟨hpush, hready⟩ := hholds.push_ready hn x
    have hnext := hholds.slide hn x
    have hrecalls' := hrecalls.slide hholds hop x
    refine ⟨_, _, by rw [step, zscoreStep, hpush]; rfl, ?_, hnext.zscore_outputs hrecalls' hop⟩
    simpa only [Holds, hready] using ⟨hnext, hrecalls'⟩
  | rollingMin =>
    have hnext := RollingMinMaxState.FollowsSince.update h hn x
    refine ⟨_, { slot with rollingMin := (updateRolling .min (slot.rollingMin.ready n) n x).2 },
      rfl, ?_, fun hrecovered _ => ?_⟩
    · simpa only [Holds, hnext.ready_eq] using hnext
    · simp only [IsValue, Forgets, true_or, iff_true]
      exact hnext.outputs hn hrecovered _ rfl
  | rollingMax =>
    have hnext := RollingMinMaxState.FollowsSince.update h hn x
    refine ⟨_, { slot with rollingMax := (updateRolling .max (slot.rollingMax.ready n) n x).2 },
      rfl, ?_, fun hrecovered _ => ?_⟩
    · simpa only [Holds, hnext.ready_eq] using hnext
    · simp only [IsValue, Forgets, true_or, iff_true]
      exact hnext.outputs hn hrecovered _ rfl

end Series

/-! ## The operators of two series -/

section Pairs

/-- Both components are numbers, everywhere. -/
def PairsOfNumbers (ps : List (Exact ℝ × Exact ℝ)) : Prop := ∀ p ∈ ps, p.1 ≠ .nan ∧ p.2 ≠ .nan

/-- The pairs of numbers among some pairs. -/
def pairNumbers (ps : List (Exact ℝ × Exact ℝ)) : List (ℝ × ℝ) :=
  ps.filterMap fun
    | (.val x, .val y) => some (x, y)
    | _ => none

/-- The value of an operator on a window of pairs. -/
def PairOp.IsValue (op : PairOp) (ws : List (ℝ × ℝ)) (o : Exact ℝ) : Prop :=
  match op with
  | .rollingCorr => o = val (pearson ws)
  | .rollingBeta => o = val (slope ws)

/-- The guards of the operator pass on a window: what it divides by varies. -/
def PairOp.NonDegenerate (op : PairOp) (ws : List (ℝ × ℝ)) : Prop :=
  match op with
  | .rollingCorr => ¬ AllEqual Prod.fst ws ∧ ¬ AllEqual Prod.snd ws
  | .rollingBeta => ¬ AllEqual Prod.fst ws

/-- The last `2 * n` pairs are pairs of numbers. -/
def RecoveredPairs (n : Nat) (ps : List (Exact ℝ × Exact ℝ)) : Prop :=
  2 * n ≤ ps.length ∧ PairsOfNumbers (window (2 * n) ps)

/-- The output at one tick, when it is due. -/
def PairOp.Outputs (op : PairOp) (n : Nat) (ps : List (Exact ℝ × Exact ℝ)) (o : Exact ℝ) : Prop :=
  RecoveredPairs n ps → op.NonDegenerate (pairNumbers (window n ps)) →
    (op.IsValue (pairNumbers (window n ps)) o ↔ PairsOfNumbers ps)

/-- The state of an operator after a history of pairs. -/
def PairOp.Holds (op : PairOp) (n : Nat) (ps : List (Exact ℝ × Exact ℝ))
    (slot : NodeSlot (Exact ℝ) (Exact ℝ)) : Prop :=
  match op with
  | .rollingCorr => (slot.rollingCorr.ready n).Holds n ps
  | .rollingBeta => (slot.rollingBeta.ready n).Holds n ps

/-- What is read from a state of pairs. -/
noncomputable def PairOp.read (op : PairOp) (st : RollingPairState (Exact ℝ) (Exact ℝ)) : Exact ℝ :=
  match op with
  | .rollingCorr => rollingPairCorrelation st
  | .rollingBeta => rollingPairBeta st

variable {n : Nat} {ps : List (Exact ℝ × Exact ℝ)} {st : RollingPairState (Exact ℝ) (Exact ℝ)}

theorem pairNumbers_map (vs : List (ℝ × ℝ)) : pairNumbers (vs.map pairVal) = vs := by
  rw [pairNumbers, List.filterMap_map]
  exact List.filterMap_some

/-- Pairs of numbers, or one with a NaN. -/
theorem pairs_or_nan (ps : List (Exact ℝ × Exact ℝ)) :
    (∃ vs : List (ℝ × ℝ), ps = vs.map pairVal ∧ PairsOfNumbers ps) ∨
      ¬ PairsOfNumbers ps ∧ Exact.nan ∈ ps.map fun p => mul p.1 p.2 := by
  induction ps with
  | nil => exact .inl ⟨[], rfl, by simp [PairsOfNumbers]⟩
  | cons p ps ih =>
    obtain ⟨x, y⟩ := p
    cases x with
    | nan => exact .inr ⟨fun h => (h _ List.mem_cons_self).1 rfl, List.mem_cons_self⟩
    | val x =>
      cases y with
      | nan => exact .inr ⟨fun h => (h _ List.mem_cons_self).2 rfl, List.mem_cons_self⟩
      | val y =>
        rcases ih with ⟨vs, rfl, hall⟩ | ⟨hnot, hmem⟩
        · refine .inl ⟨(x, y) :: vs, rfl, fun p hp => ?_⟩
          rcases List.mem_cons.1 hp with rfl | hp
          · simp
          · exact hall p hp
        · exact .inr ⟨fun h => hnot fun p hp => h p (List.mem_cons_of_mem _ hp),
            List.mem_cons_of_mem _ hmem⟩

/-- A NaN among the pairs is one in the covariance. -/
theorem RollingPairState.Holds.read_nan (h : st.Holds n ps)
    (hmem : Exact.nan ∈ ps.map fun p => mul p.1 p.2) (op : PairOp) : op.read st = .nan := by
  have hcov : ∀ x y k : Exact ℝ, unnormalized st.sumXy x y k = .nan := by
    intro x y k
    rw [unnormalized, h.sumXy.nan hmem, sub_nan_left]
  cases op with
  | rollingCorr =>
    simp only [PairOp.read, rollingPairCorrelation, hcov, div_nan_left, lt_nan_left, lt_nan_right,
      Bool.false_eq_true, if_false, narrow_eq]
    split
    · rfl
    · split
      · rfl
      · split <;> rfl
  | rollingBeta =>
    simp only [PairOp.read, rollingPairBeta, hcov, div_nan_left, narrow_eq]
    split
    · rfl
    · split <;> rfl

theorem RollingPairState.Holds.pair_outputs (h : st.Holds n ps) (hn : 0 < n) (op : PairOp) :
    op.Outputs n ps (op.read st) := by
  intro hrecovered hguard
  have hfull : n ≤ ps.length := by
    have := hrecovered.1
    omega
  rcases pairs_or_nan ps with ⟨vs, rfl, hall⟩ | ⟨hnot, hmem⟩
  · rw [window_map, pairNumbers_map] at hguard ⊢
    rw [List.length_map] at hfull
    have hlength : st.count = (window n vs).length := by
      rw [h.count, length_window, List.length_map]
    have hread : rollingPairFull st = true := by simpa [hfull] using h.full_eq hn
    have hne : window n vs ≠ [] := List.ne_nil_of_length_pos (by rw [length_window]; omega)
    have hreads := h.sums.reads hread hlength hne
    cases op with
    | rollingCorr => exact iff_of_true (hreads.correlation hguard.1 hguard.2) hall
    | rollingBeta => exact iff_of_true (hreads.beta hguard) hall
  · rw [h.read_nan hmem]
    refine iff_of_false ?_ hnot
    cases op <;> simp [PairOp.IsValue]

/-- **A tick** of an operator of two series. -/
theorem PairOp.tick (op : PairOp) {slot : NodeSlot (Exact ℝ) (Exact ℝ)} (hn : 0 < n)
    (h : op.Holds n ps slot) (p : Exact ℝ × Exact ℝ) :
    ∃ o slot', op.step n p.1 p.2 slot = .ok (o, slot') ∧ op.Holds n (ps ++ [p]) slot' ∧
      op.Outputs n (ps ++ [p]) o := by
  have hready : ∀ st : RollingPairState (Exact ℝ) (Exact ℝ), (st.ready n).Holds n ps →
      rollingPairPush st n p.1 p.2 = .ok (rollingPairSlide (st.ready n) p.1 p.2) ∧
        (rollingPairSlide (st.ready n) p.1 p.2).ready n =
          rollingPairSlide (st.ready n) p.1 p.2 := by
    intro st hst
    exact ⟨if_neg hn.ne', if_pos (hst.slide hn p).capacity⟩
  cases op with
  | rollingCorr =>
    obtain ⟨hpush, hkeeps⟩ := hready slot.rollingCorr h
    have hnext := RollingPairState.Holds.slide h hn p
    refine ⟨_, _, by rw [step, rollingCorrStep, hpush]; rfl, ?_,
      hnext.pair_outputs hn .rollingCorr⟩
    simpa only [Holds, hkeeps] using hnext
  | rollingBeta =>
    obtain ⟨hpush, hkeeps⟩ := hready slot.rollingBeta h
    have hnext := RollingPairState.Holds.slide h hn p
    refine ⟨_, _, by rw [step, rollingBetaStep, hpush]; rfl, ?_,
      hnext.pair_outputs hn .rollingBeta⟩
    simpa only [Holds, hkeeps] using hnext

end Pairs

/-! ## Streams -/

section Streams

variable {K : Type} [Field K] [LinearOrder K] [IsStrictOrderedRing K] [Transcendental K]

/-- An operator composes over a stream: at every tick at which a value is due, it returns that of
the window. -/
def SeriesOp.Composes (op : SeriesOp) (n : Nat) (xs outs : List (Exact K)) : Prop :=
  ∀ t < xs.length, Recovered n (xs.take (t + 1)) →
    op.NonDegenerate (numbers (window n (xs.take (t + 1)))) →
    ∃ o, outs[t]? = some o ∧ op.IsValue (numbers (window n (xs.take (t + 1)))) o

/-- When it does: it forgets, or no NaN came before such a tick. -/
def SeriesOp.ComposesWhen (op : SeriesOp) (n : Nat) (xs : List (Exact K)) : Prop :=
  op.Forgets ∨ ∀ t < xs.length, Recovered n (xs.take (t + 1)) →
    op.NonDegenerate (numbers (window n (xs.take (t + 1)))) → Exact.nan ∉ xs.take (t + 1)

/-- The same for two series. -/
def PairOp.Composes (op : PairOp) (n : Nat) (ps : List (Exact ℝ × Exact ℝ))
    (outs : List (Exact ℝ)) : Prop :=
  ∀ t < ps.length, RecoveredPairs n (ps.take (t + 1)) →
    op.NonDegenerate (pairNumbers (window n (ps.take (t + 1)))) →
    ∃ o, outs[t]? = some o ∧ op.IsValue (pairNumbers (window n (ps.take (t + 1)))) o

/-- When it does: no NaN came before such a tick. -/
def PairOp.ComposesWhen (op : PairOp) (n : Nat) (ps : List (Exact ℝ × Exact ℝ)) : Prop :=
  ∀ t < ps.length, RecoveredPairs n (ps.take (t + 1)) →
    op.NonDegenerate (pairNumbers (window n (ps.take (t + 1)))) → PairsOfNumbers (ps.take (t + 1))

variable {n : Nat} {v : Exact K} {ctx : SignalContext (Exact K) (NodeSlot (Exact K) (Exact K))}
  {id : Nat}

/-- A slot of a new context, prewarmed or not. -/
def NodeSlot.IsFresh {D L : Type} [Fp D] [Fp L] [Widen D L] (fn : StatefulFn) (v : D)
    (slot : NodeSlot D L) : Prop :=
  slot = .empty ∨ slot = NodeSlot.empty.prewarm fn (some v)

omit [IsStrictOrderedRing K] in
theorem SeriesOp.holds_fresh (op : SeriesOp) (hn : 0 < n)
    (hperiod : parsePreparedPeriod (some v) = n) {slot : NodeSlot (Exact K) (Exact K)}
    (h : slot.IsFresh op.fn v) : op.Holds n [] slot := by
  have hring : (RingStatsState.init : RingStatsState (Exact K) (Exact K)).ready n = .reset n :=
    if_neg hn.ne
  have hprewarmed : ((RingStatsState.init : RingStatsState (Exact K) (Exact K)).prewarm n).ready n =
      .reset n := by
    rw [RingStatsState.prewarm_init hn]
    exact if_pos rfl
  have hreset := RingStatsState.holds_reset (K := K) n
  have hrecalls := RingStatsState.recalls_reset (K := K) n
  have hmin := RollingMinMaxState.FollowsSince.nil (K := K) .min n
  have hmax := RollingMinMaxState.FollowsSince.nil (K := K) .max n
  rcases h with rfl | rfl
  · cases op <;> simp only [Holds, NodeSlot.empty, hring]
    case sma => exact hreset
    case rollingStd => exact ⟨hreset, hrecalls⟩
    case zscore => exact ⟨hreset, hrecalls⟩
    case rollingMin => exact hmin
    case rollingMax => exact hmax
  · cases op <;>
      simp only [Holds, fn, NodeSlot.prewarm, NodeSlot.empty, hperiod, hn, if_true, hprewarmed]
    case sma => exact hreset
    case rollingStd => exact ⟨hreset, hrecalls⟩
    case zscore => exact ⟨hreset, hrecalls⟩
    case rollingMin => exact hmin.ready_eq.symm ▸ hmin
    case rollingMax => exact hmax.ready_eq.symm ▸ hmax

/-- **A stream** of samples. -/
theorem SeriesOp.run (op : SeriesOp) (hn : 0 < n) (hop : op.fn.minPeriod ≤ n)
    (hperiod : parsePreparedPeriod (some v) = n) (symbols : SymbolTable)
    (market : MarketState (Exact K)) (hctx : (ctx.slots id).IsFresh op.fn v)
    (xs : List (Exact K)) :
    ∃ outs, evalSeriesRun symbols market op id v ctx xs = .ok outs ∧
      ∀ t < xs.length, ∃ o, outs[t]? = some o ∧ op.Outputs n (xs.take (t + 1)) o := by
  rw [evalSeriesRun, runValues_congr fun x _ ctx => evalTick_series op hn hop hperiod x ctx,
    runValues_slotTick id fun x => op.step n x]
  have htick := fun (is : List (Exact K)) slot x (hslot : op.Holds n is slot) =>
    op.tick hn hop hslot x
  obtain ⟨outs, slot, hrun, -, -, hall⟩ :=
    runTicks_history htick (op.holds_fresh hn hperiod hctx) xs
  exact ⟨outs, by rw [runValues, hrun]; rfl, by simpa using hall⟩

end Streams

section PairStreams

variable {n : Nat} {v : Exact ℝ} {ctx : SignalContext (Exact ℝ) (NodeSlot (Exact ℝ) (Exact ℝ))}
  {id : Nat}

theorem PairOp.holds_fresh (op : PairOp) (hn : 0 < n) (hperiod : parsePreparedPeriod (some v) = n)
    {slot : NodeSlot (Exact ℝ) (Exact ℝ)} (h : slot.IsFresh op.fn v) : op.Holds n [] slot := by
  have hreset := RollingPairState.holds_reset (K := ℝ) n
  have hfresh : (RollingPairState.init : RollingPairState (Exact ℝ) (Exact ℝ)).ready n = .reset n :=
    if_neg hn.ne
  have hready : (RollingPairState.reset n : RollingPairState (Exact ℝ) (Exact ℝ)).ready n =
      .reset n := if_pos rfl
  -- the prewarm takes the period over, or finds none
  have hpair : parsePreparedPairPeriod (some v) = n ∨ parsePreparedPairPeriod (some v) = 0 := by
    simp only [parsePreparedPeriod] at hperiod
    simp only [parsePreparedPairPeriod]
    split at hperiod
    · omega
    · split
      · exact .inl hperiod
      · exact .inr rfl
  have hprewarmed : ∀ p, p = n ∨ p = 0 →
      (if 0 < p ∧ (RollingPairState.init : RollingPairState (Exact ℝ) (Exact ℝ)).capacity ≠ p then
        .reset p else .init : RollingPairState (Exact ℝ) (Exact ℝ)).ready n = .reset n := by
    rintro p (rfl | rfl)
    · rw [if_pos ⟨hn, hn.ne⟩, hready]
    · rw [if_neg fun h => absurd h.1 (lt_irrefl 0), hfresh]
  rcases h with rfl | rfl
  · cases op <;> simp only [Holds, NodeSlot.empty, hfresh] <;> exact hreset
  · rw [← hprewarmed _ hpair] at hreset
    cases op <;> simp only [Holds, fn, NodeSlot.prewarm]
    case rollingCorr => rwa [apply_ite NodeSlot.rollingCorr]
    case rollingBeta => rwa [apply_ite NodeSlot.rollingBeta]

/-- A stream of pairs. -/
theorem PairOp.run (op : PairOp) (hn : 0 < n) (hperiod : parsePreparedPeriod (some v) = n)
    (symbols : SymbolTable) (market : MarketState (Exact ℝ)) (hctx : (ctx.slots id).IsFresh op.fn v)
    (ps : List (Exact ℝ × Exact ℝ)) :
    ∃ outs, evalPairRun symbols market op id v ctx ps = .ok outs ∧
      ∀ t < ps.length, ∃ o, outs[t]? = some o ∧ op.Outputs n (ps.take (t + 1)) o := by
  have hstep : ∀ p ∈ ps, ∀ ctx,
      evalTick (evalStateful symbols market op.fn (operandCall id [p.1, p.2, v])) ctx =
        slotTick id (op.step n p.1 p.2) ctx :=
    fun p _ ctx => evalTick_pair op hn hperiod p.1 p.2 ctx
  have htick := fun (is : List (Exact ℝ × Exact ℝ)) slot p (hslot : op.Holds n is slot) =>
    op.tick hn hslot p
  obtain ⟨outs, slot, hrun, -, -, hall⟩ :=
    runTicks_history htick (op.holds_fresh hn hperiod hctx) ps
  rw [evalPairRun, runValues_congr hstep,
    runValues_slotTick id fun p : Exact ℝ × Exact ℝ => op.step n p.1 p.2]
  exact ⟨outs, by rw [runValues, hrun]; rfl, by simpa using hall⟩

end PairStreams

/-- **What comes through a warm-up.** Over every stream of numbers and NaN, from a new context, the
interpreter's operator returns the value of the last `n` samples at every tick at which the last
`2 * n` are numbers and its guards pass, exactly if the operator is `rolling_std`, `rolling_min` or
`rolling_max`, or no NaN came before such a tick. -/
theorem windowed_compose_iff {n : Nat} (hn : 1 ≤ n) {v : Exact ℝ}
    (hperiod : parsePreparedPeriod (some v) = n) (symbols : SymbolTable)
    (market : MarketState (Exact ℝ)) (id : Nat)
    (ctx : SignalContext (Exact ℝ) (NodeSlot (Exact ℝ) (Exact ℝ))) :
    (∀ op : SeriesOp, op.fn.minPeriod ≤ n → (ctx.slots id).IsFresh op.fn v →
      ∀ xs, ∃ outs, evalSeriesRun symbols market op id v ctx xs = .ok outs ∧
        (op.Composes n xs outs ↔ op.ComposesWhen n xs)) ∧
    ∀ op : PairOp, (ctx.slots id).IsFresh op.fn v →
      ∀ ps, ∃ outs, evalPairRun symbols market op id v ctx ps = .ok outs ∧
        (op.Composes n ps outs ↔ op.ComposesWhen n ps) := by
  refine ⟨fun op hop hfresh xs => ?_, fun op hfresh ps => ?_⟩
  · obtain ⟨outs, hrun, hall⟩ := op.run hn hop hperiod symbols market hfresh xs
    refine ⟨outs, hrun, fun h => or_iff_not_imp_left.2 fun hforgets t ht hrecovered hguard => ?_,
      fun h t ht hrecovered hguard => ?_⟩
    · obtain ⟨o, ho, hvalue⟩ := h t ht hrecovered hguard
      obtain ⟨o', ho', hout⟩ := hall t ht
      obtain rfl := Option.some.inj (ho.symm.trans ho')
      exact ((hout hrecovered hguard).1 hvalue).resolve_left hforgets
    · obtain ⟨o, ho, hout⟩ := hall t ht
      exact ⟨o, ho, (hout hrecovered hguard).2 (h.imp_right fun h => h t ht hrecovered hguard)⟩
  · obtain ⟨outs, hrun, hall⟩ := op.run hn hperiod symbols market hfresh ps
    refine ⟨outs, hrun, fun h t ht hrecovered hguard => ?_, fun h t ht hrecovered hguard => ?_⟩
    · obtain ⟨o, ho, hvalue⟩ := h t ht hrecovered hguard
      obtain ⟨o', ho', hout⟩ := hall t ht
      obtain rfl := Option.some.inj (ho.symm.trans ho')
      exact (hout hrecovered hguard).1 hvalue
    · obtain ⟨o, ho, hout⟩ := hall t ht
      exact ⟨o, ho, (hout hrecovered hguard).2 (h t ht hrecovered hguard)⟩

/-- A NaN and four numbers: the samples of `sma(lag(x, 1), 2)` over a constant stream. -/
def laggedOnes : List (Exact ℝ) := [.nan, .val 1, .val 1, .val 1, .val 1]

/-- `rolling_std` forgets the NaN. -/
theorem windowed_compose_iff_laggedOnes :
    ∃ outs, evalSeriesRun Concrete.symbols (fun _ => ⟨.nan, .nan, .nan⟩) .rollingStd 1
        (.val ((2 : Nat) : ℝ)) (.fresh [] : SignalContext (Exact ℝ) (NodeSlot (Exact ℝ) (Exact ℝ)))
        laggedOnes = .ok outs ∧ SeriesOp.rollingStd.Composes 2 laggedOnes outs := by
  obtain ⟨hseries, -⟩ := windowed_compose_iff (by decide) (parsePreparedPeriod_natCast 2)
    Concrete.symbols (fun _ => ⟨.nan, .nan, .nan⟩) 1 (.fresh [])
  obtain ⟨outs, hrun, hcomposes⟩ := hseries .rollingStd (by decide) (.inl rfl) laggedOnes
  exact ⟨outs, hrun, hcomposes.2 (.inl trivial)⟩

/-- `sma` does not. -/
theorem sma_keeps_nan :
    ¬ ∃ outs, evalSeriesRun Concrete.symbols (fun _ => ⟨.nan, .nan, .nan⟩) .sma 1
        (.val ((2 : Nat) : ℝ)) (.fresh [] : SignalContext (Exact ℝ) (NodeSlot (Exact ℝ) (Exact ℝ)))
        laggedOnes = .ok outs ∧ SeriesOp.sma.Composes 2 laggedOnes outs := by
  rintro ⟨outs, hrun, hcomposes⟩
  have hfresh : NodeSlot.IsFresh SeriesOp.sma.fn (.val ((2 : Nat) : ℝ))
      ((.fresh [] : SignalContext (Exact ℝ) (NodeSlot (Exact ℝ) (Exact ℝ))).slots 1) := .inl rfl
  obtain ⟨outs', hrun', hall⟩ := SeriesOp.run .sma Nat.two_pos (by decide)
    (parsePreparedPeriod_natCast 2) Concrete.symbols (fun _ => ⟨.nan, .nan, .nan⟩) hfresh laggedOnes
  obtain rfl := Except.ok.inj (hrun.symm.trans hrun')
  have hrecovered : Recovered 2 (laggedOnes.take (4 + 1)) :=
    ⟨by decide, by simp [laggedOnes, window]⟩
  obtain ⟨o, ho, hvalue⟩ := hcomposes 4 (by decide) hrecovered trivial
  obtain ⟨o', ho', hout⟩ := hall 4 (by decide)
  obtain rfl := Option.some.inj (ho.symm.trans ho')
  exact ((hout hrecovered trivial).1 hvalue).resolve_left id List.mem_cons_self

end JitSignalEngine
