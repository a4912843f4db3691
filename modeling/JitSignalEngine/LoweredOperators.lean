import JitSignalEngine.KalmanEnvelope
import JitSignalEngine.LoweredMonoDeque
import JitSignalEngine.PreparedOperators
import JitSignalEngine.RollingPairWindow
import JitSignalEngine.RollingStdLowered
import JitSignalEngine.SmaPaths
import JitSignalEngine.VwapWindow

/-!
# Lowered operators refine the runtime

Every operator that `StatefulLoweringFlags` can lower has a second state and a second update in IR.
Over numbers, from prewarmed states, it returns what the runtime and the interpreter return.

* `LagState.lowered` and its companions — the fields a lowered state shares with the state of the
  runtime. `sma`, `rolling_std` and `zscore` share the history only.
* `StatefulOp.Agrees` — how the two states of an operator belong together, and
  `StatefulOp.lowered_tick` that a tick keeps it and returns the same.
* `lowered_refines_runtime` — every stream.
-/

namespace JitSignalEngine

open Fp Widen Interpreter Exact

/-! ## Shared fields -/

section Shared

variable {D : Type}

/-- What `EmaStateLowered` keeps. -/
def EMAState.lowered (st : EMAState D) : EmaStateLowered D := ⟨st.value, st.initialized⟩

/-- What `LagStateLowered` keeps. -/
def LagState.lowered (st : LagState D) : LagStateLowered D := ⟨st.buffer, st.head, st.count⟩

/-- What `Kalman1dStateLowered` keeps. -/
def Kalman1dState.lowered (st : Kalman1dState D) : Kalman1dStateLowered D :=
  ⟨st.xHat, st.p, st.initialized⟩

/-- What `VwapStateLowered` keeps. -/
def VwapState.lowered (st : VwapState D D) : VwapStateLowered D :=
  ⟨st.priceBuf, st.volBuf, st.head, st.count, st.sumPv, st.sumVol⟩

/-- What `RollingPairStateLowered` keeps. -/
def RollingPairState.lowered (st : RollingPairState D D) : RollingPairStateLowered D :=
  ⟨st.xBuf, st.yBuf, st.head, st.count, st.sumX, st.sumY, st.sumXy, st.sumXx, st.sumYy⟩

variable [Fp D]

/-- `ema`, with the factor of the period in the slot. -/
theorem loweredEma_lowered (period : Nat) (st : EMAState D)
    (halpha : st.alpha = emaAlphaOfPeriod period) (x : D) (p : Int) :
    let out := loweredEma false period st.lowered x
    let value := if !st.initialized then x else emaBlend st.alpha x st.value
    out = (value, EMAState.lowered ⟨value, st.alpha, p, true⟩) := by
  cases hinit : st.initialized <;> simp [loweredEma, EMAState.lowered, hinit, halpha]

/-- `lag`: reading the cell before it is overwritten. -/
theorem loweredLag_lowered (st : LagState D) (hpos : 0 < st.capacity)
    (hcount : st.count ≤ st.capacity) (x : D) :
    loweredLag false st.capacity st.lowered x = (lagValue st, (lagSlide st x).lowered) ∧
      (lagSlide st x).count ≤ st.capacity := by
  by_cases hfull : st.count = st.capacity
  · have hlt : ¬ st.count < st.capacity := by omega
    have hguard : ¬ (st.capacity = 0 ∨ st.count < st.capacity) := by omega
    simp [loweredLag, lagValue, lagSlide, LagState.lowered, hfull, hpos.ne']
  · have hlt : st.count < st.capacity := by omega
    simp [loweredLag, lagValue, lagSlide, LagState.lowered, hfull, hlt]

/-- The crossings keep the same state. -/
theorem loweredCross_eq (event : D → D → D → D → Bool) (st : CrossState D) (a b : D) :
    loweredCross event st a b = crossStep event st a b := by
  cases hinit : st.initialized <;> simp [loweredCross, crossStep, hinit]

/-- So do the deques, on numbers that do not wrap. -/
theorem loweredMonoDequeRolling_eq (kind : MonoDequeKind) (period : Nat) (st : RollingMinMaxState D)
    (x : D) :
    loweredMonoDequeRolling kind period st x = minMaxReadout period (updateRolling kind st period x) := by
  simp only [loweredMonoDequeRolling, minMaxReadout, ← not_lt, ite_not]

end Shared

/-! ## Shared histories -/

section Histories

variable {K : Type} [Field K] [LinearOrder K] [IsStrictOrderedRing K] [Transcendental K] {n : Nat}

/-- Ring, counters and sum of a lowered `sma` after a history of samples. -/
structure SmaStateLowered.Holds (n : Nat) (xs : List (Exact K)) (st : SmaStateLowered (Exact K)) :
    Prop where
  head : st.head = xs.length % n
  count : st.count = min xs.length n
  buffer : HoldsWindow n xs st.buffer
  sum : RunningSum n xs st.sum

omit [IsStrictOrderedRing K] in
theorem SmaStateLowered.holds_reset (n : Nat) :
    SmaStateLowered.Holds n [] (.reset n : SmaStateLowered (Exact K)) := by
  have hring : HoldsWindow n ([] : List (Exact K)) (List.replicate n (ofNat 0)) := by
    simpa using HoldsWindow.empty (List.replicate n (ofNat 0 : Exact K))
  exact ⟨by simp [reset], by simp [reset], hring, .empty⟩

/-- The mean of a full window, from its running sum. -/
theorem RunningSum.mean_eq {xs : List (Exact K)} {s : Exact K} (h : RunningSum n xs s)
    (hn : 0 < n) : (if n ≤ xs.length then div s (ofNat n) else .nan) = runningMean n xs := by
  have hne : (n : K) ≠ 0 := Nat.cast_ne_zero.2 hn.ne'
  rw [runningMean]
  by_cases hfull : n ≤ xs.length
  · rcases numbers_or_nan xs with ⟨vs, rfl⟩ | hmem
    · rw [if_pos hfull, if_pos ⟨hfull, nan_notMem_map vs⟩, h.numbers vs rfl, windowMean, window_map,
        sum_map_val]
    · rw [if_pos hfull, if_neg fun hnot => hnot.2 hmem, h.nan hmem, div_nan_left]
  · rw [if_neg hfull, if_neg fun hnot => hfull hnot.1]

/-- A push, and what it returns. -/
theorem SmaStateLowered.Holds.push {xs : List (Exact K)} {st : SmaStateLowered (Exact K)}
    (h : st.Holds n xs) (hn : 0 < n) (x : Exact K) :
    (loweredSma false n st x).2.Holds n (xs ++ [x]) ∧
      (loweredSma false n st x).1 = runningMean n (xs ++ [x]) := by
  have hold : n ≤ xs.length → xs[xs.length - n]? = some (st.buffer.getD st.head (ofNat 0)) := by
    rw [h.head]
    exact fun hfull => h.buffer.oldest_getD hn hfull _
  have hwas : st.count = n ↔ n ≤ xs.length := by
    rw [h.count]
    omega
  have hcount : (if n ≤ xs.length then st.count else st.count + 1) = min (xs ++ [x]).length n := by
    rw [h.count, List.length_append, List.length_singleton]
    split <;> omega
  have hnow : min (xs ++ [x]).length n = n ↔ n ≤ (xs ++ [x]).length := by omega
  have hsum := h.sum.exchange hn x hold
  simp only [loweredSma, Bool.false_eq_true, if_false, hwas, hcount, hnow]
  refine ⟨⟨by simp [h.head], rfl, ?_, hsum⟩, hsum.mean_eq hn⟩
  rw [h.head]
  exact h.buffer.push x hn

/-- The distance of the sample just pushed, over numbers. -/
theorem RollingStdStateLowered.Holds.zscore_eq {vs : List K}
    {low : RollingStdStateLowered (Exact K)} (hlow : low.Holds n (vs.map val))
    {st : RingStatsState (Exact K) (Exact K)} (h : st.Holds n (vs.map val))
    (hrecalls : st.Recalls n (vs.map val)) (hn : 1 < n) (x : Exact K) :
    (if low.count = n then
      if le stddevFloor (fabs (loweredStddev n low)) then
        div (sub x (div low.sum (ofNat n))) (loweredStddev n low)
      else .nan
    else .nan) = zscoreReadout st x := by
  have hpos : 0 < n := by omega
  have hne : (n : K) ≠ 0 := Nat.cast_ne_zero.2 hpos.ne'
  rw [zscoreReadout, h.ringStatsFull_eq hpos, List.length_map]
  simp only [hlow.full_iff, List.length_map]
  by_cases hfull : n ≤ vs.length
  · have hlength : (window n vs).length = n := by rw [length_window, Nat.min_eq_right hfull]
    have hnumbers : Exact.nan ∉ remembered n (vs.map val) := fun hmem =>
      nan_notMem_map vs (List.mem_of_mem_drop hmem)
    have hstddev := (hrecalls.numbers hnumbers (window n vs) (window_map n val vs)).stddev
      (by rw [h.count, List.length_map, Nat.min_eq_right hfull, hlength]) (by omega)
    have hmean : div low.sum (ofNat n) = val (JitSignalEngine.mean id (window n vs)) := by
      rw [hlow.sum.numbers vs rfl, ofNat_val, div_val _ hne, JitSignalEngine.mean, hlength]
    -- one operator asks whether the deviation is large enough, the other whether it is too small
    have hguard : ∀ s : K, (isnan (val s) || lt (fabs (val s)) stddevFloor) =
        !le stddevFloor (fabs (val s)) := by
      intro s
      change (!decide (s = s) || decide (max s (-s) < _)) = !decide (_ ≤ max s (-s))
      rw [decide_eq_true rfl, Bool.not_true, Bool.false_or, ← decide_not, decide_eq_decide, not_le]
    obtain ⟨s, hs⟩ : ∃ s, sampleStddev (window n vs) = val s := ⟨_, sampleStddev_eq (by omega)⟩
    rw [hstddev, h.mean_numbers hpos hfull, hlow.stddev_numbers hn hfull, hmean, hs, hguard]
    simp only [hfull, decide_true, Bool.not_true, Bool.false_eq_true, if_false, if_true]
    cases le stddevFloor (fabs (val s)) <;> rfl
  · simp only [hfull, decide_false, Bool.not_false, if_true, if_false]
    rfl

end Histories

/-! ## Shared sums -/

section Sums

variable {K : Type} [Field K] [LinearOrder K] [IsStrictOrderedRing K] [Transcendental K] {n : Nat}

omit [IsStrictOrderedRing K] in
/-- `vwap`: the same push, and a readout that asks for a positive volume. -/
theorem loweredVwap_lowered (st : VwapState (Exact K) (Exact K)) (ins : InstrumentState (Exact K)) :
    let st' := vwapSlide st ins.mid ins.weight
    loweredVwap st.capacity st.lowered ins.bid ins.ask ins.volume =
      (if st'.count = st.capacity ∧ lt (ofNat 0) st'.sumVol then div st'.sumPv st'.sumVol else .nan,
        st'.lowered) :=
  rfl

/-- Every volume in the window is positive, and so is their sum. -/
theorem VwapState.Holds.lowered_readout {qs : List (Quote K)} {st : VwapState (Exact K) (Exact K)}
    (h : st.Holds n (qs.map fun q => q.state.sample)) (hn : 0 < n) :
    (if st.count = n ∧ lt (ofNat 0) st.sumVol then div st.sumPv st.sumVol else .nan) =
      vwapReadout st := by
  have hfull : st.count = n ↔ n ≤ qs.length := by
    rw [h.count, List.length_map]
    omega
  obtain ⟨hpv, hvol⟩ := h.sums_eq
  rw [h.readout hn, hpv, hvol]
  by_cases hlong : n ≤ qs.length
  · have hpos := total_weight_pos hn (List.ne_nil_of_length_pos (by omega : 0 < qs.length))
    have hguard : lt (ofNat 0) (val (total Quote.weight (window n qs))) = true := by
      rw [ofNat_val, Nat.cast_zero, lt_val, decide_eq_true hpos]
    rw [if_pos ⟨hfull.2 hlong, hguard⟩, if_pos hlong, div_val _ hpos.ne', weightedMean]
  · rw [if_neg fun hboth => hlong (hfull.1 hboth.1), if_neg hlong]

omit [IsStrictOrderedRing K] in
/-- The push of `rolling_corr` and `rolling_beta`. -/
theorem loweredPairPush_lowered (st : RollingPairState (Exact K) (Exact K)) (x y : Exact K) :
    loweredPairPush st.capacity st.lowered x y = (rollingPairSlide st x y).lowered :=
  rfl

end Sums

section Roots

/-- The guards of `rolling_corr`: what is positive is neither zero nor negative, and a square root
of it is positive, too. -/
theorem correlation_guards (cov varX varY : Exact ℝ) :
    (if (lt (ofNat 0) varX && lt (ofNat 0) varY) && lt (ofNat 0) (sqrt (mul varX varY)) then
      let r := div cov (sqrt (mul varX varY))
      if lt (ofNat 1) r then ofNat 1 else if lt r (ofRat (-1)) then ofRat (-1) else r
    else .nan) =
      if le varX (ofNat 0) || le varY (ofNat 0) then .nan
      else if eq (sqrt (mul varX varY)) (ofNat 0) then .nan
      else
        let r := div cov (sqrt (mul varX varY))
        let r := if lt (ofNat 1) r then ofNat 1 else r
        if lt r (ofRat (-1)) then ofRat (-1) else r := by
  cases varX with
  | nan => simp
  | val a =>
    cases varY with
    | nan => simp
    | val b =>
      rcases le_or_gt a 0 with ha | ha
      · simp [ha]
      rcases le_or_gt b 0 with hb | hb
      · simp [hb]
      have hroot : sqrt (mul (val a) (val b)) = val (Real.sqrt (a * b)) :=
        if_neg (not_lt.2 (mul_pos ha hb).le)
      have hpos : 0 < Real.sqrt (a * b) := Real.sqrt_pos.2 (mul_pos ha hb)
      -- the second clamp does not undo the first one
      have hclamp : lt (ofNat 1) (ofRat (-1) : Exact ℝ) = false := by
        rw [ofNat_val, ofRat_val, lt_val, decide_eq_false_iff_not]
        norm_num
      simp only [hroot, ofNat_val, Nat.cast_zero, lt_val, le_val, eq_val, decide_eq_true ha,
        decide_eq_true hb, decide_eq_true hpos, decide_eq_false (not_le.2 ha),
        decide_eq_false (not_le.2 hb), decide_eq_false hpos.ne', Bool.and_self, Bool.or_self,
        Bool.false_eq_true, if_true, if_false]
      split
      · rw [ofNat_val] at hclamp
        rw [hclamp, if_neg Bool.false_ne_true]
      · rfl

/-- The guard of `rolling_beta`. -/
theorem slope_guard (cov varX : Exact ℝ) :
    (if lt (ofNat 0) varX then div cov varX else .nan) =
      if le varX (ofNat 0) then .nan else div cov varX := by
  cases varX with
  | nan => simp
  | val a => simp only [ofNat_val, Nat.cast_zero, lt_val, le_val, ← not_lt, decide_not,
      Bool.not_eq_true', decide_eq_false_iff_not, decide_eq_true_eq, ite_not]

/-- `rolling_corr`: the same push, and the guards the other way. -/
theorem loweredRollingCorr_lowered (st : RollingPairState (Exact ℝ) (Exact ℝ))
    (hpos : 0 < st.capacity) (x y : Exact ℝ) :
    loweredRollingCorr st.capacity st.lowered x y =
      (rollingPairCorrelation (rollingPairSlide st x y), (rollingPairSlide st x y).lowered) := by
  have hcapacity : (rollingPairSlide st x y).capacity = st.capacity := rfl
  rw [loweredRollingCorr, loweredPairPush_lowered, rollingPairCorrelation, rollingPairFull]
  generalize rollingPairSlide st x y = st' at hcapacity ⊢
  rw [hcapacity, decide_eq_true hpos, Bool.and_true]
  by_cases hfull : st'.count = st.capacity
  · have hguards := correlation_guards
      (unnormalized st'.sumXy st'.sumX st'.sumY (ofNat st.capacity))
      (unnormalized st'.sumXx st'.sumX st'.sumX (ofNat st.capacity))
      (unnormalized st'.sumYy st'.sumY st'.sumY (ofNat st.capacity))
    simp only [RollingPairState.lowered, hfull, decide_true, Bool.true_and, Bool.not_true,
      Bool.false_eq_true, if_false, narrow_eq]
    exact Prod.ext hguards rfl
  · simp only [RollingPairState.lowered, hfull, decide_false, Bool.false_and, Bool.not_false,
      Bool.false_eq_true, if_true, if_false]

/-- `rolling_beta` -/
theorem loweredRollingBeta_lowered (st : RollingPairState (Exact ℝ) (Exact ℝ))
    (hpos : 0 < st.capacity) (x y : Exact ℝ) :
    loweredRollingBeta st.capacity st.lowered x y =
      (rollingPairBeta (rollingPairSlide st x y), (rollingPairSlide st x y).lowered) := by
  have hcapacity : (rollingPairSlide st x y).capacity = st.capacity := rfl
  rw [loweredRollingBeta, loweredPairPush_lowered, rollingPairBeta, rollingPairFull]
  generalize rollingPairSlide st x y = st' at hcapacity ⊢
  rw [hcapacity, decide_eq_true hpos, Bool.and_true]
  by_cases hfull : st'.count = st.capacity
  · have hguard := slope_guard (unnormalized st'.sumXy st'.sumX st'.sumY (ofNat st.capacity))
      (unnormalized st'.sumXx st'.sumX st'.sumX (ofNat st.capacity))
    simp only [RollingPairState.lowered, hfull, decide_true, true_and, Bool.not_true,
      Bool.false_eq_true, if_false, narrow_eq]
    exact Prod.ext hguard rfl
  · simp only [RollingPairState.lowered, hfull, decide_false, false_and, Bool.not_false,
      if_true, if_false]

end Roots

/-! ## The filter -/

section Filter

variable {K : Type} [Field K] [LinearOrder K] [IsStrictOrderedRing K] [Transcendental K]

/-- `kalman1d`: the denominator is positive. -/
theorem Kalman1dState.Tracks.lowered_step {xs : List K} {st : Kalman1dState (Exact K)}
    {i : Kalman1dInput K} (h : st.Tracks xs) (hi : i.Accepted) :
    loweredKalman1d st.lowered (val i.x) (val i.q) (val i.r) =
      ((st.push i.val).1, (st.push i.val).2.lowered) := by
  have hsteps := h.steps hi
  cases hinit : st.initialized with
  | false => simp [loweredKalman1d, lowered, hinit, push, kalman1dStep, Kalman1dInput.val]
  | true =>
    have hne : xs ≠ [] := by
      rintro rfl
      rw [h.initialized] at hinit
      exact Bool.false_ne_true hinit
    obtain ⟨_, p, -, hp, hpos, -⟩ := h.numbers hne
    have hdenom : lt (ofNat 0) (kalman1dDenom st i.val) = true := by
      have hsum : 0 < p + i.q + i.r := add_pos_of_nonneg_of_pos (add_nonneg hpos hi.1) hi.2
      rw [kalman1dDenom, hp, ofNat_val, Nat.cast_zero]
      exact decide_eq_true hsum
    have hclamp := hsteps.clamp hinit
    rw [push_update hinit (hsteps.denom hinit) hclamp]
    simp only [kalman1dVariance, kalman1dGain, kalman1dDenom, Kalman1dInput.val] at hdenom hclamp ⊢
    simp only [loweredKalman1d, lowered, hinit, hdenom, hclamp, if_true, Bool.false_eq_true, if_false]

end Filter

/-! ## Ticks -/

/-- What a call is evaluated on at a tick: the quotes of all instruments and its operands. -/
structure OperatorInput (K : Type) where
  /-- the market -/
  quotes : Nat → Quote K
  /-- the operands, for `kalman1d` the noises among them -/
  operands : List K

namespace OperatorInput

variable {K : Type}

/-- The market of the tick. -/
def market (i : OperatorInput K) : MarketState (Exact K) := fun symbol => (i.quotes symbol).state

/-- The operands as samples. -/
def values (i : OperatorInput K) : List (Exact K) := i.operands.map val

theorem values_one {i : OperatorInput K} (h : i.operands.length = 1) : ∃ x, i.values = [val x] := by
  obtain ⟨x, hx⟩ := List.length_eq_one_iff.1 h
  exact ⟨x, by rw [values, hx]; rfl⟩

theorem values_two {i : OperatorInput K} (h : i.operands.length = 2) :
    ∃ x y, i.values = [val x, val y] := by
  obtain ⟨x, y, hx⟩ := List.length_eq_two.1 h
  exact ⟨x, y, by rw [values, hx]; rfl⟩

/-- What the IR works on. That of `vwap` loads the fields of the instrument. -/
def loweredValues (op : StatefulOp (Exact K)) (i : OperatorInput K) : List (Exact K) :=
  match op.fn with
  | .vwap => [(i.market op.symbol).bid, (i.market op.symbol).ask, (i.market op.symbol).volume]
  | _ => i.values

/-- As many operands as the operator takes, and noises that `kalman1d` accepts. -/
structure Accepted [Zero K] [LT K] [LE K] (fn : StatefulFn) (i : OperatorInput K) : Prop where
  arity : i.operands.length = fn.arity
  process : fn = .kalman1d → ∀ q ∈ i.operands[1]?, 0 ≤ q
  noise : fn = .kalman1d → ∀ r ∈ i.operands[2]?, 0 < r

end OperatorInput

section Runs

variable {K : Type} [Field K] [LinearOrder K] [Transcendental K]

/-- The interpreter's operator at a tick. -/
def interpreterTick (op : StatefulOp (Exact K)) (slot : NodeSlot (Exact K) (Exact K))
    (i : OperatorInput K) : Except String (Exact K × NodeSlot (Exact K) (Exact K)) :=
  operatorStep op i.market i.values slot

/-- The `jit_rt_*` function. -/
def runtimeTick (op : StatefulOp (Exact K)) (slot : NodeSlot (Exact K) (Exact K))
    (i : OperatorInput K) : Except String (Exact K × NodeSlot (Exact K) (Exact K)) :=
  runtimeStep op i.market i.values slot

/-- The IR, with the guards of states that may not be filled. -/
def loweredTick (op : StatefulOp (Exact K)) (slot : LoweredSlot (Exact K)) (i : OperatorInput K) :
    Except String (Exact K × LoweredSlot (Exact K)) :=
  match loweredStep op false (i.loweredValues op) slot with
  | some out => .ok out
  | none => .error "arity"

end Runs

/-- An operator that can be lowered, with a period that all readers of the literal accept. The
prewarm of the operators of two series has a check of its own. -/
structure StatefulOp.Legal {D : Type} [Fp D] (op : StatefulOp D) : Prop where
  lowered : op.fn ≠ .emaAlpha
  sized : op.Sized
  /-- a deviation needs two samples -/
  deviation : op.fn = .rollingStd ∨ op.fn = .zscore → 2 ≤ op.period
  /-- an `int` -/
  period_lt : op.period < 2 ^ 31
  prepared : parsePreparedPeriod op.literal = op.period
  pair : op.fn = .rollingCorr ∨ op.fn = .rollingBeta →
    parsePreparedPairPeriod op.literal = op.period

/-- **How the two states of an operator belong together.** -/
def StatefulOp.Agrees (op : StatefulOp (Exact ℝ)) (slot : NodeSlot (Exact ℝ) (Exact ℝ))
    (low : LoweredSlot (Exact ℝ)) : Prop :=
  match op.fn with
  | .sma => ∃ xs, slot.sma.Holds op.period xs ∧ low.sma.Holds op.period xs
  | .ema => low.ema = slot.ema.lowered
  | .emaAlpha => True
  | .lag => low.lag = slot.lag.lowered ∧ slot.lag.count ≤ op.period
  | .rollingStd => ∃ vs : List ℝ, slot.rollingStd.Holds op.period (vs.map val) ∧
      slot.rollingStd.Recalls op.period (vs.map val) ∧
      low.rollingStd.Holds op.period (vs.map val)
  | .zscore => ∃ vs : List ℝ, slot.zscore.Holds op.period (vs.map val) ∧
      slot.zscore.Recalls op.period (vs.map val) ∧ low.zscore.Holds op.period (vs.map val)
  | .rollingMin => low.rollingMin = slot.rollingMin
  | .rollingMax => low.rollingMax = slot.rollingMax
  | .vwap => low.vwap = slot.vwap.lowered ∧
      ∃ qs : List (Quote ℝ), slot.vwap.Holds op.period (qs.map fun q => q.state.sample)
  | .crossAbove | .crossBelow => low.cross = slot.cross
  | .rollingCorr => low.rollingCorr = slot.rollingCorr.lowered ∧
      slot.rollingCorr.capacity = op.period
  | .rollingBeta => low.rollingBeta = slot.rollingBeta.lowered ∧
      slot.rollingBeta.capacity = op.period
  | .kalman1d => low.kalman1d = slot.kalman1d.lowered ∧ ∃ xs : List ℝ, slot.kalman1d.Tracks xs

section Tick

variable {op : StatefulOp (Exact ℝ)} {factor : Exact ℝ} {slot : NodeSlot (Exact ℝ) (Exact ℝ)}
  {low : LoweredSlot (Exact ℝ)} {i : OperatorInput ℝ}

/-- **A tick** of the interpreter and of the IR. -/
theorem StatefulOp.Agrees.tick (h : op.Agrees slot low) (hop : op.Legal)
    (hslot : slot.Prepared op factor) (hi : i.Accepted op.fn) :
    ∃ v slot' low', interpreterTick op slot i = .ok (v, slot') ∧
      loweredTick op low i = .ok (v, low') ∧ op.Agrees slot' low' := by
  have hsized := hop.sized
  obtain ⟨harity, hprocess, hnoise⟩ := hi
  unfold interpreterTick operatorStep loweredTick loweredStep OperatorInput.loweredValues
  unfold StatefulOp.Agrees at h ⊢
  unfold NodeSlot.Prepared at hslot
  have hdeviation := hop.deviation
  cases hfn : op.fn <;>
    simp only [StatefulOp.Sized, hfn] at hsized hslot harity hprocess hnoise hdeviation h ⊢
  case emaAlpha => exact absurd hfn hop.lowered
  case sma =>
    obtain ⟨x, hvalues⟩ := i.values_one harity
    obtain ⟨xs, hst, hlow⟩ := h
    have hst' := hst.slide hsized (val x)
    obtain ⟨hlow', hvalue⟩ := hlow.push hsized (val x)
    refine ⟨runningMean op.period (xs ++ [val x]),
      { slot with sma := ringStatsSlide slot.sma (val x) },
      { low with sma := (loweredSma false op.period low.sma (val x)).2 }, ?_, ?_,
      xs ++ [val x], hst', hlow'⟩
    · simp only [hvalues, smaStep, (hslot.push hsized (val x)).1, Except.map,
        hst'.smaReadout_eq hsized]
    · simp only [hvalues, hvalue]
  case ema =>
    obtain ⟨x, hvalues⟩ := i.values_one harity
    have hema := loweredEma_lowered op.period slot.ema hslot.1 (val x) slot.ema.period
    cases hinit : slot.ema.initialized <;>
      simp only [hinit, Bool.not_true, Bool.not_false, if_true, if_false, Bool.false_eq_true] at hema
    · simp only [hvalues, emaStep, hinit, Bool.not_false, if_true, h, hema]
      exact ⟨_, _, _, rfl, rfl, rfl⟩
    · simp only [hvalues, emaStep, hinit, Bool.not_true, Bool.false_eq_true, if_false, h, hema,
        hslot.1]
      exact ⟨_, _, _, rfl, rfl, rfl⟩
  case rollingStd =>
    obtain ⟨x, hvalues⟩ := i.values_one harity
    obtain ⟨vs, hst, hrecalls, hlow⟩ := h
    have hlong := hdeviation (.inl trivial)
    have hnext : vs.map val ++ [val x] = (vs ++ [x]).map val := by simp
    have hst' := hnext ▸ hst.slide hsized (val x)
    have hrecalls' := hnext ▸ hrecalls.slide hst hlong (val x)
    have hlow' := hnext ▸ hlow.push hsized (val x)
    have hagree : recalledStddev op.period ((vs ++ [x]).map val) = summedStddev op.period _ :=
      (recalledStddev_eq_summedStddev_iff hlong).2 fun _ hmem => absurd hmem (nan_notMem_map _)
    refine ⟨summedStddev op.period ((vs ++ [x]).map val),
      { slot with rollingStd := ringStatsSlide slot.rollingStd (val x) },
      { low with rollingStd := loweredMoments op.period low.rollingStd (val x) }, ?_, ?_,
      vs ++ [x], hst', hrecalls', hlow'⟩
    · simp only [hvalues, rollingStdStep, (hslot.push hsized (val x)).1, Except.map,
        hst'.rollingStdReadout_eq hrecalls' hlong, hagree]
    · simp only [hvalues, loweredRollingStd, ← hlow'.stddev_eq hlong]
      rfl
  case zscore =>
    obtain ⟨x, hvalues⟩ := i.values_one harity
    obtain ⟨vs, hst, hrecalls, hlow⟩ := h
    have hlong := hdeviation (.inr trivial)
    have hnext : vs.map val ++ [val x] = (vs ++ [x]).map val := by simp
    have hst' := hnext ▸ hst.slide hsized (val x)
    have hrecalls' := hnext ▸ hrecalls.slide hst hlong (val x)
    have hlow' := hnext ▸ hlow.push hsized (val x)
    refine ⟨zscoreReadout (ringStatsSlide slot.zscore (val x)) (val x),
      { slot with zscore := ringStatsSlide slot.zscore (val x) },
      { low with zscore := loweredMoments op.period low.zscore (val x) }, ?_, ?_,
      vs ++ [x], hst', hrecalls', hlow'⟩
    · simp only [hvalues, zscoreStep, (hslot.push hsized (val x)).1, Except.map]
    · simp only [hvalues, loweredZscore, ← hlow'.zscore_eq hst' hrecalls' hlong]
      rfl
  case vwap =>
    have hvalues : i.values = [] := by rw [OperatorInput.values, List.length_eq_zero_iff.1 harity]; rfl
    obtain ⟨hlow, qs, hst⟩ := h
    have hnext : (qs.map fun q => q.state.sample) ++ [(i.market op.symbol).sample] =
        (qs ++ [i.quotes op.symbol]).map fun q => q.state.sample := by simp [OperatorInput.market]
    have hst' : (vwapSlide slot.vwap (i.market op.symbol).mid (i.market op.symbol).weight).Holds
        op.period ((qs ++ [i.quotes op.symbol]).map fun q => q.state.sample) :=
      hnext ▸ hst.slide hsized (i.market op.symbol).sample
    have hvwap := loweredVwap_lowered slot.vwap (i.market op.symbol)
    rw [hslot.1] at hvwap
    refine ⟨vwapReadout (vwapSlide slot.vwap (i.market op.symbol).mid (i.market op.symbol).weight),
      { slot with vwap := vwapSlide slot.vwap (i.market op.symbol).mid (i.market op.symbol).weight },
      { low with vwap := (vwapSlide slot.vwap (i.market op.symbol).mid
        (i.market op.symbol).weight).lowered }, ?_, ?_, rfl, qs ++ [i.quotes op.symbol], hst'⟩
    · simp only [hvalues, vwapStep, (hslot.push hsized _ _).1, Except.map]
    · simp only [hlow, hvwap, hst'.lowered_readout hsized]
  case lag =>
    obtain ⟨x, hvalues⟩ := i.values_one harity
    obtain ⟨hlow, hcount⟩ := h
    have hlag := loweredLag_lowered slot.lag (hslot.1 ▸ hsized) (hslot.1 ▸ hcount) (val x)
    rw [hslot.1] at hlag
    refine ⟨lagValue slot.lag, { slot with lag := lagSlide slot.lag (val x) },
      { low with lag := (lagSlide slot.lag (val x)).lowered }, ?_, ?_, rfl, hlag.2⟩
    · simp only [hvalues, lagStep, (hslot.push hsized (val x)).1, Except.map]
    · simp only [hvalues, hlow, hlag.1]
  case crossAbove =>
    obtain ⟨a, b, hvalues⟩ := i.values_two harity
    simp only [hvalues, crossAboveStep, loweredCross_eq, h]
    exact ⟨_, _, _, rfl, rfl, rfl⟩
  case crossBelow =>
    obtain ⟨a, b, hvalues⟩ := i.values_two harity
    simp only [hvalues, crossBelowStep, loweredCross_eq, h]
    exact ⟨_, _, _, rfl, rfl, rfl⟩
  case rollingMin =>
    obtain ⟨x, hvalues⟩ := i.values_one harity
    simp only [hvalues, rollingMinStep, (updateRolling_prepared .min hslot (val x)).1,
      loweredMonoDequeRolling_eq, h]
    exact ⟨_, _, _, rfl, rfl, rfl⟩
  case rollingMax =>
    obtain ⟨x, hvalues⟩ := i.values_one harity
    simp only [hvalues, rollingMaxStep, (updateRolling_prepared .max hslot (val x)).1,
      loweredMonoDequeRolling_eq, h]
    exact ⟨_, _, _, rfl, rfl, rfl⟩
  case rollingCorr =>
    obtain ⟨x, y, hvalues⟩ := i.values_two harity
    obtain ⟨hlow, hcapacity⟩ := h
    have hcorr := loweredRollingCorr_lowered slot.rollingCorr (hcapacity ▸ hsized) (val x) (val y)
    rw [hcapacity] at hcorr
    simp only [hvalues, rollingCorrStep, rollingPairPush, if_neg hsized.ne', if_pos hcapacity,
      Except.map, hlow, hcorr]
    exact ⟨_, _, _, rfl, rfl, rfl, hcapacity⟩
  case rollingBeta =>
    obtain ⟨x, y, hvalues⟩ := i.values_two harity
    obtain ⟨hlow, hcapacity⟩ := h
    have hbeta := loweredRollingBeta_lowered slot.rollingBeta (hcapacity ▸ hsized) (val x) (val y)
    rw [hcapacity] at hbeta
    simp only [hvalues, rollingBetaStep, rollingPairPush, if_neg hsized.ne', if_pos hcapacity,
      Except.map, hlow, hbeta]
    exact ⟨_, _, _, rfl, rfl, rfl, hcapacity⟩
  case kalman1d =>
    obtain ⟨x, q, r, hx⟩ := List.length_eq_three.1 harity
    have hvalues : i.values = [val x, val q, val r] := by rw [OperatorInput.values, hx]; rfl
    obtain ⟨hlow, xs, hst⟩ := h
    have haccepted : Kalman1dInput.Accepted ⟨x, q, r⟩ :=
      ⟨hprocess trivial q (by simp [hx]), hnoise trivial r (by simp [hx])⟩
    have hguard : (lt (val q) (ofNat 0) || le (val r) (ofNat 0)) = false := by
      rw [ofNat_val, Nat.cast_zero, lt_val, le_val, decide_eq_false (not_lt.2 haccepted.1),
        decide_eq_false (not_le.2 haccepted.2)]
      rfl
    have hstep := hst.lowered_step haccepted
    have hst' := hst.next haccepted
    simp only [hvalues, hguard, Bool.false_eq_true, if_false, kalmanStep, hlow, hstep]
    exact ⟨_, _, _, rfl, rfl, rfl, xs ++ [x], hst'⟩

/-- Both states are prewarmed in one walk. -/
theorem StatefulOp.Legal.agrees_prewarm (hop : op.Legal) :
    op.Agrees (NodeSlot.empty.prewarm op.fn op.literal)
      (LoweredSlot.empty.prewarm op.fn op.literal) := by
  have hsized := hop.sized
  have hpair := hop.pair
  unfold StatefulOp.Agrees
  cases hfn : op.fn <;> simp only [StatefulOp.Sized, hfn] at hsized hpair <;>
    simp only [NodeSlot.prewarm, LoweredSlot.prewarm, hop.prepared]
  case ema =>
    rw [if_pos hsized, if_pos hsized]
    rfl
  case sma =>
    rw [if_pos hsized, NodeSlot.empty, RingStatsState.prewarm_init hsized]
    exact ⟨[], RingStatsState.holds_reset _, SmaStateLowered.holds_reset _⟩
  case rollingStd =>
    rw [if_pos hsized, NodeSlot.empty, RingStatsState.prewarm_init hsized]
    exact ⟨[], RingStatsState.holds_reset _, RingStatsState.recalls_reset _,
      RollingStdStateLowered.holds_reset _⟩
  case zscore =>
    rw [if_pos hsized, NodeSlot.empty, RingStatsState.prewarm_init hsized]
    exact ⟨[], RingStatsState.holds_reset _, RingStatsState.recalls_reset _,
      RollingStdStateLowered.holds_reset _⟩
  case vwap =>
    have hfresh : (NodeSlot.empty : NodeSlot (Exact ℝ) (Exact ℝ)).vwap.capacity ≠ op.period :=
      hsized.ne
    rw [if_pos hsized, if_pos ⟨hsized, hfresh⟩]
    exact ⟨rfl, [], VwapState.holds_reset _⟩
  case lag =>
    have hfresh : (NodeSlot.empty : NodeSlot (Exact ℝ) (Exact ℝ)).lag.capacity ≠ op.period :=
      hsized.ne
    rw [if_pos hsized, if_pos ⟨hsized, hfresh⟩]
    exact ⟨rfl, Nat.zero_le _⟩
  case rollingMin =>
    rw [if_pos hsized, if_pos hsized, NodeSlot.empty, RollingMinMaxState.init,
      MonoDequeState.monoInit_init]
    rfl
  case rollingMax =>
    rw [if_pos hsized, if_pos hsized, NodeSlot.empty, RollingMinMaxState.init,
      MonoDequeState.monoInit_init]
    rfl
  case rollingCorr =>
    have hfresh : (NodeSlot.empty : NodeSlot (Exact ℝ) (Exact ℝ)).rollingCorr.capacity ≠ op.period :=
      hsized.ne
    rw [hpair (.inl trivial), if_pos hsized, if_pos ⟨hsized, hfresh⟩]
    exact ⟨rfl, rfl⟩
  case rollingBeta =>
    have hfresh : (NodeSlot.empty : NodeSlot (Exact ℝ) (Exact ℝ)).rollingBeta.capacity ≠ op.period :=
      hsized.ne
    rw [hpair (.inr trivial), if_pos hsized, if_pos ⟨hsized, hfresh⟩]
    exact ⟨rfl, rfl⟩
  case kalman1d => exact ⟨rfl, [], rfl, fun h => absurd rfl h⟩

end Tick

/-! ## Streams -/

section Streams

variable {op : StatefulOp (Exact ℝ)} {is : List (OperatorInput ℝ)}

/-- The interpreter and the IR. -/
theorem StatefulOp.Legal.lowered_run (hop : op.Legal) (his : ∀ i ∈ is, i.Accepted op.fn) :
    ∃ outs, runValues (interpreterTick op) (NodeSlot.empty.prewarm op.fn op.literal) is = .ok outs ∧
      runValues (loweredTick op) (LoweredSlot.empty.prewarm op.fn op.literal) is = .ok outs := by
  refine runValues_agree
    (R := fun _ slot low => slot.Prepared op .nan ∧ op.Agrees slot low) (fun js i slot low hbefore h => ?_)
    ⟨NodeSlot.prepared_prewarm hop.sized hop.prepared, hop.agrees_prewarm⟩
  have hi := his i (hbefore.subset (List.mem_append_right _ List.mem_cons_self))
  obtain ⟨v, slot', low', hslot, hlow, hnext⟩ := h.2.tick hop h.1 hi
  have hprepared := (operatorStep_runtimeStep hop.sized h.1 (fun hfn => absurd hfn hop.lowered)
    hslot).2
  exact ⟨v, slot', low', hslot, hlow, hprepared, hnext⟩

/-- The interpreter and the runtime, which stay in one state. -/
theorem StatefulOp.Legal.runtime_run (hop : op.Legal) (his : ∀ i ∈ is, i.Accepted op.fn) :
    ∃ outs, runValues (interpreterTick op) (NodeSlot.empty.prewarm op.fn op.literal) is = .ok outs ∧
      runValues (runtimeTick op) (NodeSlot.empty.prewarm op.fn op.literal) is = .ok outs := by
  refine runValues_agree
    (R := fun _ slot slot' => slot = slot' ∧ slot.Prepared op .nan ∧ ∃ low, op.Agrees slot low)
    (fun js i slot slot' hbefore h => ?_)
    ⟨rfl, NodeSlot.prepared_prewarm hop.sized hop.prepared, _, hop.agrees_prewarm⟩
  obtain ⟨rfl, hslot, low, hagrees⟩ := h
  have hi := his i (hbefore.subset (List.mem_append_right _ List.mem_cons_self))
  obtain ⟨v, slot', low', hinterpreter, -, hnext⟩ := hagrees.tick hop hslot hi
  obtain ⟨hruntime, hprepared⟩ := operatorStep_runtimeStep hop.sized hslot
    (fun hfn => absurd hfn hop.lowered) hinterpreter
  exact ⟨v, slot', slot', hinterpreter, hruntime, rfl, hprepared, low', hnext⟩

end Streams

/-! ## Deques in words -/

/-- The deque of a slot. -/
def NodeSlot.minMax {D L : Type} (slot : NodeSlot D L) : MonoDequeKind → RollingMinMaxState D
  | .min => slot.rollingMin
  | .max => slot.rollingMax

/-- `EmitLoweredMonoDequeRolling` at a tick. -/
def emittedMonoDequeTick {K : Type} [Field K] [LinearOrder K] [Transcendental K]
    (kind : MonoDequeKind) (period : UInt64) (st : RollingMinMaxWords (Exact K))
    (i : OperatorInput K) : Except String (Exact K × RollingMinMaxWords (Exact K)) :=
  match i.values with
  | [x] => emittedMonoDequeRolling kind period st x
  | _ => .error "arity"

section Words

variable {op : StatefulOp (Exact ℝ)} {is : List (OperatorInput ℝ)} {kind : MonoDequeKind}

/-- The interpreter's deque at a tick. -/
theorem interpreterTick_minMax {factor : Exact ℝ} {slot : NodeSlot (Exact ℝ) (Exact ℝ)}
    {i : OperatorInput ℝ} {x : Exact ℝ} (hfn : op.fn = kind.fn) (hslot : slot.Prepared op factor)
    (hvalues : i.values = [x]) :
    ∃ slot', interpreterTick op slot i =
        .ok ((minMaxReadout op.period (updateRolling kind (slot.minMax kind) op.period x)).1, slot') ∧
      slot'.minMax kind = (updateRolling kind (slot.minMax kind) op.period x).2 ∧
      slot'.Prepared op factor := by
  unfold NodeSlot.Prepared at hslot ⊢
  unfold interpreterTick operatorStep
  cases kind <;> simp only [hfn, MonoDequeKind.fn] at hslot ⊢ <;>
    simp only [hvalues, rollingMinStep, rollingMaxStep, (updateRolling_prepared _ hslot x).1]
  case min =>
    exact ⟨_, rfl, rfl, (updateRolling_cap .min slot.rollingMin op.period x).trans hslot⟩
  case max =>
    exact ⟨_, rfl, rfl, (updateRolling_cap .max slot.rollingMax op.period x).trans hslot⟩

/-- The interpreter and the blocks of the IR. -/
theorem StatefulOp.Legal.words_run (hop : op.Legal) (his : ∀ i ∈ is, i.Accepted op.fn)
    (hlength : is.length < 2 ^ 63) (hfn : op.fn = kind.fn) :
    ∃ outs, runValues (interpreterTick op) (NodeSlot.empty.prewarm op.fn op.literal) is = .ok outs ∧
      runValues (emittedMonoDequeTick kind (.ofNat op.period)) (.resetLowered (.ofNat op.period)) is =
        .ok outs := by
  have hlt := hop.period_lt
  have hp : (UInt64.ofNat op.period).toNat = op.period :=
    UInt64.toNat_ofNat_of_lt' (hlt.trans (by decide))
  have hpos : 0 < op.period := by
    have hsized := hop.sized
    cases kind <;> simpa only [StatefulOp.Sized, hfn, MonoDequeKind.fn] using hsized
  have hstart := RollingMinMaxWords.refines_resetLowered (D := Exact ℝ) kind
    (p := .ofNat op.period) (by omega)
  refine runValues_agree
    (R := fun js slot st => slot.Prepared op .nan ∧ ∃ xs : List ℝ, xs.length = js.length ∧
      st.Refines kind (.ofNat op.period) (xs.map val) ∧ st.toState = slot.minMax kind)
    (fun js i slot st hbefore h => ?_) ⟨NodeSlot.prepared_prewarm hop.sized hop.prepared, [], rfl, ?_, ?_⟩
  · obtain ⟨hslot, xs, hxs, hst, hstate⟩ := h
    have hi := his i (hbefore.subset (List.mem_append_right _ List.mem_cons_self))
    have hle := hbefore.length_le
    rw [List.length_append, List.length_singleton] at hle
    obtain ⟨x, hvalues⟩ := i.values_one (hi.arity.trans (by cases kind <;> rw [hfn] <;> rfl))
    have hnext : xs.map val ++ [val x] = (xs ++ [x]).map val := by simp
    obtain ⟨st', hemitted, hstate', hst'⟩ := hst.emitted (by rw [hp]; exact hpos) (by omega)
      (by rw [List.length_map]; omega) (hnext ▸ comparable_pops (comparable_val (xs ++ [x])))
    obtain ⟨slot', hslot', hdeque, hprepared⟩ := interpreterTick_minMax hfn hslot hvalues
    rw [hp, hstate] at hemitted hstate'
    refine ⟨_, slot', st', hslot', ?_, hprepared, xs ++ [x], by simp [hxs], hnext ▸ hst',
      hstate'.trans hdeque.symm⟩
    rw [emittedMonoDequeTick, hvalues]
    exact hemitted
  · exact hstart.1
  · rw [hstart.2, hp]
    cases kind <;> simp only [hfn, MonoDequeKind.fn, NodeSlot.minMax, NodeSlot.prewarm,
      hop.prepared, if_pos hpos] <;> rfl

end Words

/-- **The lowered operators refine the runtime.** -/
theorem lowered_refines_runtime (op : StatefulOp (Exact ℝ)) (hop : op.Legal)
    (is : List (OperatorInput ℝ)) (his : ∀ i ∈ is, i.Accepted op.fn) (hlength : is.length < 2 ^ 63) :
    ∃ outs, runValues (interpreterTick op) (NodeSlot.empty.prewarm op.fn op.literal) is = .ok outs ∧
      runValues (runtimeTick op) (NodeSlot.empty.prewarm op.fn op.literal) is = .ok outs ∧
      runValues (loweredTick op) (LoweredSlot.empty.prewarm op.fn op.literal) is = .ok outs ∧
      ∀ kind : MonoDequeKind, op.fn = kind.fn →
        runValues (emittedMonoDequeTick kind (.ofNat op.period)) (.resetLowered (.ofNat op.period))
          is = .ok outs := by
  obtain ⟨outs, hinterpreter, hlowered⟩ := hop.lowered_run his
  obtain ⟨outs', hinterpreter', hruntime⟩ := hop.runtime_run his
  obtain rfl := Except.ok.inj (hinterpreter.symm.trans hinterpreter')
  refine ⟨outs, hinterpreter, hruntime, hlowered, fun kind hfn => ?_⟩
  obtain ⟨outs', hinterpreter', hwords⟩ := hop.words_run his hlength hfn
  obtain rfl := Except.ok.inj (hinterpreter.symm.trans hinterpreter')
  exact hwords

/-- `rolling_min(x, 2)` -/
def minOfTwo : StatefulOp (Exact ℝ) := ⟨.rollingMin, some (.val ((2 : Nat) : ℝ)), 0, .lowered⟩

theorem minOfTwo_period : minOfTwo.period = 2 := congrArg Int.toNat (toInt_natCast 2)

theorem minOfTwo_legal : minOfTwo.Legal := by
  have hsized : 0 < minOfTwo.period := by rw [minOfTwo_period]; exact Nat.two_pos
  refine ⟨by decide, hsized, ?_, by rw [minOfTwo_period]; decide, ?_, ?_⟩
  · rintro (h | h) <;> cases h
  · rw [minOfTwo_period]
    exact parsePreparedPeriod_natCast 2
  · rintro (h | h) <;> cases h

/-- Two samples on a market at rest. -/
def fallingSamples : List (OperatorInput ℝ) :=
  [⟨fun _ => ⟨1, 1, 0⟩, [3]⟩, ⟨fun _ => ⟨1, 1, 0⟩, [1]⟩]

theorem lowered_refines_runtime_fallingSamples :
    ∃ outs, runValues (interpreterTick minOfTwo)
        (NodeSlot.empty.prewarm minOfTwo.fn minOfTwo.literal) fallingSamples = .ok outs ∧
      runValues (runtimeTick minOfTwo)
        (NodeSlot.empty.prewarm minOfTwo.fn minOfTwo.literal) fallingSamples = .ok outs ∧
      runValues (loweredTick minOfTwo)
        (LoweredSlot.empty.prewarm minOfTwo.fn minOfTwo.literal) fallingSamples = .ok outs ∧
      ∀ kind : MonoDequeKind, minOfTwo.fn = kind.fn →
        runValues (emittedMonoDequeTick kind (.ofNat minOfTwo.period))
          (.resetLowered (.ofNat minOfTwo.period)) fallingSamples = .ok outs := by
  refine lowered_refines_runtime minOfTwo minOfTwo_legal fallingSamples (fun i hi => ?_) (by decide)
  rcases List.mem_pair.1 hi with rfl | rfl <;>
    exact ⟨rfl, fun h => absurd h (by decide), fun h => absurd h (by decide)⟩

end JitSignalEngine
