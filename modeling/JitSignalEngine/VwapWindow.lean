import JitSignalEngine.Averages
import JitSignalEngine.OperatorRuns
import JitSignalEngine.RunningSum

/-!
# The volume-weighted average price

A `VwapState` after a stream of prices and volumes, and what both `vwap`s return over a stream of
quotes.

* `VwapState.Holds` — rings, counters and the two sums; `VwapState.Holds.slide` that a push keeps
  them.
* `Quote.mid`, `Quote.weight` — the price of a quote, and the volume it counts with.
* `weightedMean` — the average of a window, between its smallest and its largest price.
* `vwap_window` — both operators return it from the `n`-th tick on.
-/

namespace JitSignalEngine

open Fp Widen Interpreter Exact

/-! ## The two runs -/

section Runs

variable {D L : Type} [Fp D] [Fp L] [Widen D L]

/-- `EvalVwap` over a stream of markets, of the instrument in the slot `symbol`. -/
def evalVwapRun (symbols : SymbolTable) (ticker period : CallArg D L) (id symbol : Nat)
    (ctx : SignalContext D (NodeSlot D L)) (ms : List (MarketState D)) : Except String (List D) :=
  runValues (fun ctx m => evalTick (evalVwap symbols m ⟨[ticker, period], id, symbol⟩) ctx) ctx ms

/-- `jit_rt_vwap` over a stream of markets. -/
def jitVwapRun (id symbol : Nat) (ctx : SignalContext D (NodeSlot D L))
    (ms : List (MarketState D)) : Except String (List D) :=
  runValues (fun ctx m => slotTick id (jitRtVwap (m symbol)) ctx) ctx ms

/-- What a push takes of an instrument. -/
def InstrumentState.sample (ins : InstrumentState D) : D × D := (ins.mid, ins.weight)

/-- The state a push works on: set up anew when the capacity differs. -/
def VwapState.ready (n : Nat) (st : VwapState D L) : VwapState D L :=
  if st.capacity = n then st else .reset n

end Runs

/-! ## The sums -/

section Sums

variable {K : Type} [Field K] [LinearOrder K] [Transcendental K]

/-- Rings, counters and sums after a history of prices and volumes. -/
structure VwapState.Holds (n : Nat) (ps : List (Exact K × Exact K))
    (st : VwapState (Exact K) (Exact K)) : Prop where
  capacity : st.capacity = n
  head : st.head = ps.length % n
  count : st.count = min ps.length n
  priceBuf : HoldsWindow n (ps.map Prod.fst) st.priceBuf
  volBuf : HoldsWindow n (ps.map Prod.snd) st.volBuf
  sumPv : RunningSum n (ps.map fun p => mul p.1 p.2) st.sumPv
  sumVol : RunningSum n (ps.map fun p => p.2) st.sumVol

variable {n : Nat} {ps : List (Exact K × Exact K)} {st : VwapState (Exact K) (Exact K)}

theorem VwapState.holds_reset (n : Nat) :
    VwapState.Holds n [] (.reset n : VwapState (Exact K) (Exact K)) := by
  have hring : HoldsWindow n ([] : List (Exact K)) (List.replicate n (ofNat 0)) := by
    simpa using HoldsWindow.empty (List.replicate n (ofNat 0 : Exact K))
  exact ⟨rfl, by simp [reset], by simp [reset], hring, hring, .empty, .empty⟩

namespace VwapState.Holds

theorem full_iff (h : st.Holds n ps) : st.count = st.capacity ↔ n ≤ ps.length := by
  rw [h.count, h.capacity]
  omega

theorem vwapFull_eq (h : st.Holds n ps) (hn : 0 < n) : vwapFull st = decide (n ≤ ps.length) := by
  rw [vwapFull, h.capacity, decide_eq_true hn, Bool.and_true, ← h.capacity]
  exact decide_eq_decide.2 (h.full_iff.trans (by rw [h.capacity]))

/-- **A push** takes the oldest price and volume off both sums and puts the new ones on. -/
theorem slide (h : st.Holds n ps) (hn : 0 < n) (p : Exact K × Exact K) :
    (vwapSlide st p.1 p.2).Holds n (ps ++ [p]) := by
  have hold : n ≤ ps.length → ps[ps.length - n]? =
      some (st.priceBuf.getD st.head (ofNat 0), st.volBuf.getD st.head (ofNat 0)) := by
    rw [h.head]
    exact fun hfull => h.priceBuf.oldest_pair h.volBuf hn hfull _ _
  have hlength : (ps ++ [p]).length = ps.length + 1 := by simp
  have hprice := h.priceBuf.push p.1 hn
  have hvol := h.volBuf.push p.2 hn
  rw [List.length_map, ← h.head] at hprice hvol
  simp only [vwapSlide, h.full_iff, widen_eq]
  refine ⟨h.capacity, ?_, ?_, by simpa using hprice, by simpa using hvol,
    h.sumPv.push_map hn p hold, h.sumVol.push_map hn p hold⟩
  · rw [h.head, h.capacity, hlength, Nat.mod_add_mod]
  · change (if n ≤ ps.length then st.count else st.count + 1) = _
    rw [hlength, h.count]
    split <;> omega

end VwapState.Holds

/-! ## Ticks -/

/-- One call, past its checks. -/
def vwapTick (n : Nat) (ins : InstrumentState (Exact K)) (slot : NodeSlot (Exact K) (Exact K)) :
    Exact K × NodeSlot (Exact K) (Exact K) :=
  let st := vwapSlide (slot.vwap.ready n) ins.mid ins.weight
  (vwapReadout st, { slot with vwap := st })

theorem vwapStep_eq (hn : 0 < n) (ins : InstrumentState (Exact K))
    (slot : NodeSlot (Exact K) (Exact K)) : vwapStep ins n slot = .ok (vwapTick n ins slot) := by
  rw [vwapStep, vwapPush, if_neg hn.ne']
  rfl

/-- The compiled call finds its rings set up. -/
theorem jitRtVwap_eq (hn : 0 < n) (ins : InstrumentState (Exact K))
    {slot : NodeSlot (Exact K) (Exact K)} (hcapacity : slot.vwap.capacity = n)
    (h : (slot.vwap.ready n).Holds n ps) : jitRtVwap ins slot = .ok (vwapTick n ins slot) := by
  have hready : slot.vwap.ready n = slot.vwap := if_pos hcapacity
  rw [hready] at h
  have hprice : slot.vwap.priceBuf ≠ [] :=
    List.ne_nil_of_length_pos (by rw [h.priceBuf.length_eq]; exact hn)
  have hvol : slot.vwap.volBuf ≠ [] :=
    List.ne_nil_of_length_pos (by rw [h.volBuf.length_eq]; exact hn)
  have hguard : ¬ (slot.vwap.capacity = 0 ∨ slot.vwap.priceBuf = [] ∨ slot.vwap.volBuf = []) := by
    rw [hcapacity]
    exact not_or.2 ⟨hn.ne', not_or.2 ⟨hprice, hvol⟩⟩
  rw [jitRtVwap, vwapPushPrepared, if_neg hguard, vwapTick, hready]
  rfl

/-- What has been pushed after some markets. -/
def vwapSamples (symbol : Nat) (ms : List (MarketState (Exact K))) : List (Exact K × Exact K) :=
  ms.map fun m => (m symbol).sample

/-- A value read from the state after some markets. -/
def VwapReads (n symbol : Nat) (ms : List (MarketState (Exact K))) (o : Exact K) : Prop :=
  ∃ st : VwapState (Exact K) (Exact K), st.Holds n (vwapSamples symbol ms) ∧ o = vwapReadout st

/-- **A stream of calls**, each of which is such a tick. -/
theorem vwap_history (hn : 0 < n) (symbol : Nat)
    {step : NodeSlot (Exact K) (Exact K) → MarketState (Exact K) →
      Except String (Exact K × NodeSlot (Exact K) (Exact K))}
    {Ready : NodeSlot (Exact K) (Exact K) → Prop}
    (hstep : ∀ slot m ps, Ready slot → (slot.vwap.ready n).Holds n ps →
      step slot m = .ok (vwapTick n (m symbol) slot))
    (hready : ∀ slot, slot.vwap.capacity = n → Ready slot) {slot : NodeSlot (Exact K) (Exact K)}
    (hslot : Ready slot) (hfresh : slot.vwap.ready n = .reset n) (ms : List (MarketState (Exact K))) :
    ∃ outs, runValues step slot ms = .ok outs ∧ outs.length = ms.length ∧
      ∀ t < ms.length, ∃ o, outs[t]? = some o ∧ VwapReads n symbol (ms.take (t + 1)) o := by
  have htick : ∀ (ms : List (MarketState (Exact K))) slot m,
      Ready slot ∧ (slot.vwap.ready n).Holds n (vwapSamples symbol ms) →
      ∃ o slot', step slot m = .ok (o, slot') ∧
        (Ready slot' ∧ (slot'.vwap.ready n).Holds n (vwapSamples symbol (ms ++ [m]))) ∧
        VwapReads n symbol (ms ++ [m]) o := by
    rintro ms slot m ⟨hslot, hholds⟩
    have hnext := hholds.slide hn (m symbol).sample
    have hsamples : vwapSamples symbol (ms ++ [m]) = vwapSamples symbol ms ++ [(m symbol).sample] := by
      simp [vwapSamples]
    rw [← hsamples] at hnext
    refine ⟨_, _, hstep slot m _ hslot hholds, ⟨hready _ hnext.capacity, ?_⟩, _, hnext, rfl⟩
    rw [VwapState.ready, if_pos]
    · exact hnext
    · exact hnext.capacity
  have hstart : Ready slot ∧ (slot.vwap.ready n).Holds n (vwapSamples symbol []) :=
    ⟨hslot, hfresh ▸ VwapState.holds_reset n⟩
  obtain ⟨outs, slot', hrun, -, hlength, hall⟩ := runTicks_history htick hstart ms
  exact ⟨outs, by rw [runValues, hrun]; rfl, hlength, hall⟩

end Sums

/-! ## Quotes -/

/-- A quote in numbers. -/
structure Quote (K : Type) where
  /-- best bid -/
  bid : K
  /-- best ask -/
  ask : K
  /-- traded volume, of any sign -/
  volume : K

section Quotes

variable {K : Type} [Field K] [LinearOrder K]

namespace Quote

/-- The instrument that is quoted. -/
def state (q : Quote K) : InstrumentState (Exact K) := ⟨val q.bid, val q.ask, val q.volume⟩

/-- The mid price. -/
def mid (q : Quote K) : K := (q.bid + q.ask) / 2

/-- The volume a quote counts with: one, if there is none. -/
def weight (q : Quote K) : K := if 0 < q.volume then q.volume else 1

end Quote

/-- The volume-weighted mean of the mid prices. -/
def weightedMean (qs : List (Quote K)) : K :=
  total (fun q => q.mid * q.weight) qs / total Quote.weight qs

/-- What `vwap` returns over a stream: NaN before the `n`-th tick, then the average of the window,
between its smallest and its largest price. -/
structure VwapOutputs (n : Nat) (qs : List (Quote K)) (outs : List (Exact K)) : Prop where
  length_eq : outs.length = qs.length
  early : ∀ t < qs.length, t + 1 < n → outs[t]? = some .nan
  average : ∀ t < qs.length, n ≤ t + 1 →
    outs[t]? = some (val (weightedMean (window n (qs.take (t + 1))))) ∧
    Between ((window n (qs.take (t + 1))).map Quote.mid)
      (weightedMean (window n (qs.take (t + 1))))

variable [IsStrictOrderedRing K] [Transcendental K]

omit [Transcendental K] in
theorem Quote.weight_pos (q : Quote K) : 0 < q.weight := by
  rw [Quote.weight]
  split
  · assumption
  · exact one_pos

theorem Quote.sample_state (q : Quote K) : q.state.sample = (val q.mid, val q.weight) := by
  have hmid : (q.bid + q.ask) * ((1 / 2 : ℚ) : K) = q.mid := by
    rw [Quote.mid]
    push_cast
    ring
  have hweight : q.state.weight = val q.weight := by
    simp only [InstrumentState.weight, Quote.state, Quote.weight, ofNat_val, Nat.cast_zero,
      Nat.cast_one, lt_val, decide_eq_true_iff, apply_ite val]
  rw [InstrumentState.sample, hweight, ← hmid]
  rfl

/-- The sums over quotes in numbers. -/
theorem VwapState.Holds.sums_eq {n : Nat} {qs : List (Quote K)}
    {st : VwapState (Exact K) (Exact K)} (h : st.Holds n (qs.map fun q => q.state.sample)) :
    st.sumPv = val (total (fun q => q.mid * q.weight) (window n qs)) ∧
      st.sumVol = val (total Quote.weight (window n qs)) := by
  have hsumPv := h.sumPv
  have hsumVol := h.sumVol
  rw [List.map_map] at hsumPv hsumVol
  exact ⟨hsumPv.numbers_map fun q => by simp [Quote.sample_state],
    hsumVol.numbers_map fun q => by simp [Quote.sample_state]⟩

omit [Transcendental K] in
/-- The sum of the volumes of a window is positive. -/
theorem total_weight_pos {n : Nat} (hn : 0 < n) {qs : List (Quote K)} (hne : qs ≠ []) :
    0 < total Quote.weight (window n qs) := by
  refine total_pos (fun q _ => q.weight_pos) (List.ne_nil_of_length_pos ?_)
  have hpos := List.length_pos_iff.2 hne
  rw [length_window]
  omega

/-- **Reading the state.** -/
theorem VwapState.Holds.readout {n : Nat} {qs : List (Quote K)}
    {st : VwapState (Exact K) (Exact K)} (h : st.Holds n (qs.map fun q => q.state.sample))
    (hn : 0 < n) :
    vwapReadout st = if n ≤ qs.length then val (weightedMean (window n qs)) else .nan := by
  rw [vwapReadout, h.vwapFull_eq hn, List.length_map]
  by_cases hfull : n ≤ qs.length
  · obtain ⟨hpv, hvol⟩ := h.sums_eq
    have hpos := total_weight_pos hn (List.ne_nil_of_length_pos (by omega : 0 < qs.length))
    have hcount : ¬ st.count = 0 := by
      rw [h.count, List.length_map]
      omega
    have hguard : eq (val (total Quote.weight (window n qs))) (ofNat 0 : Exact K) = false := by
      rw [ofNat_val, Nat.cast_zero, eq_val, decide_eq_false hpos.ne']
    simp only [hfull, decide_true, Bool.not_true, Bool.false_eq_true, if_false, if_true, vwapValue,
      decide_eq_false hcount, hguard, Bool.or_false, hpv, hvol, div_val _ hpos.ne', narrow_eq,
      weightedMean]
  · simp only [hfull, decide_false, Bool.not_false, if_true, if_false]
    rfl

/-- Reading at every tick. -/
theorem VwapReads.outputs {n symbol : Nat} (hn : 0 < n) {ms : List (MarketState (Exact K))}
    {qs : List (Quote K)} (hquotes : ms.map (fun m => m symbol) = qs.map Quote.state)
    {outs : List (Exact K)} (hlength : outs.length = ms.length)
    (hall : ∀ t < ms.length, ∃ o, outs[t]? = some o ∧ VwapReads n symbol (ms.take (t + 1)) o) :
    VwapOutputs n qs outs := by
  have hms : ms.length = qs.length := by simpa using congrArg List.length hquotes
  have hread : ∀ t < qs.length, outs[t]? = some
      (if n ≤ t + 1 then val (weightedMean (window n (qs.take (t + 1)))) else .nan) := by
    intro t ht
    obtain ⟨o, ho, st, hholds, rfl⟩ := hall t (hms ▸ ht)
    have hsamples : vwapSamples symbol (ms.take (t + 1)) =
        (qs.take (t + 1)).map fun q => q.state.sample := by
      have htake := congrArg (fun l => (List.take (t + 1) l).map InstrumentState.sample) hquotes
      simpa [vwapSamples, List.map_take, Function.comp_def] using htake
    rw [hsamples] at hholds
    rw [ho, hholds.readout hn, List.length_take, Nat.min_eq_left (by omega)]
  refine ⟨hlength.trans hms, fun t ht hearly => ?_, fun t ht hfull => ⟨?_, ?_⟩⟩
  · rw [hread t ht, if_neg (by omega)]
  · rw [hread t ht, if_pos hfull]
  · refine between_weighted Quote.mid (fun q _ => q.weight_pos) (List.ne_nil_of_length_pos ?_)
    rw [length_window, List.length_take]
    omega

end Quotes

/-- **The price is a weighted average of the window.** Over every stream of quotes in numbers both
operators return NaN before the `n`-th tick and from then on the volume-weighted mean of the last
`n` mid prices, every volume that is not positive counted as one. -/
theorem vwap_window {K : Type} [Field K] [LinearOrder K] [IsStrictOrderedRing K]
    [Transcendental K] {n : Nat} (hn : 1 ≤ n) {v : Exact K}
    (hperiod : parsePreparedPeriod (some v) = n) (symbols : SymbolTable)
    (ticker : CallArg (Exact K) (Exact K)) (id symbol : Nat) (ms : List (MarketState (Exact K)))
    (qs : List (Quote K)) (hquotes : ms.map (fun m => m symbol) = qs.map Quote.state) :
    (∀ ctx : SignalContext (Exact K) (NodeSlot (Exact K) (Exact K)),
      ctx.slots id = .empty ∨ ctx.slots id = NodeSlot.empty.prewarm .vwap (some v) →
      ∃ outs, evalVwapRun symbols ticker (.value v) id symbol ctx ms = .ok outs ∧
        VwapOutputs n qs outs) ∧
    ∀ ctx : SignalContext (Exact K) (NodeSlot (Exact K) (Exact K)),
      ctx.slots id = NodeSlot.empty.prewarm .vwap (some v) →
      ∃ outs, jitVwapRun id symbol ctx ms = .ok outs ∧ VwapOutputs n qs outs := by
  have hprewarmed : (NodeSlot.empty.prewarm .vwap (some v) : NodeSlot (Exact K) (Exact K)).vwap =
      .reset n := by
    have hcapacity : 0 < n ∧ (NodeSlot.empty : NodeSlot (Exact K) (Exact K)).vwap.capacity ≠ n :=
      ⟨hn, (Nat.pos_iff_ne_zero.1 hn).symm⟩
    simp only [NodeSlot.prewarm, hperiod, if_pos hcapacity]
  constructor
  · intro ctx hctx
    have hfresh : (ctx.slots id).vwap.ready n = .reset n := by
      rcases hctx with hctx | hctx
      · rw [hctx]
        exact if_neg (Nat.pos_iff_ne_zero.1 hn).symm
      · rw [hctx, hprewarmed]
        exact if_pos rfl
    rw [evalVwapRun, runValues_congr fun m _ ctx => evalTick_vwap symbols m symbol ticker hn hperiod ctx,
      runValues_slotTick id fun m : MarketState (Exact K) => vwapStep (m symbol) n]
    obtain ⟨outs, hrun, hlength, hall⟩ := vwap_history hn symbol
      (fun slot m _ (_ : True) _ => vwapStep_eq hn (m symbol) slot)
      (fun _ _ => trivial) trivial hfresh ms
    exact ⟨outs, hrun, VwapReads.outputs hn hquotes hlength hall⟩
  · intro ctx hctx
    have hfresh : (ctx.slots id).vwap.ready n = .reset n := by
      rw [hctx, hprewarmed]
      exact if_pos rfl
    rw [jitVwapRun, runValues_slotTick id fun m : MarketState (Exact K) => jitRtVwap (m symbol)]
    obtain ⟨outs, hrun, hlength, hall⟩ := vwap_history hn symbol
      (fun slot m _ hready hholds => jitRtVwap_eq hn (m symbol) hready hholds)
      (fun _ hcapacity => hcapacity) (by rw [hctx, hprewarmed]; rfl) hfresh ms
    exact ⟨outs, hrun, VwapReads.outputs hn hquotes hlength hall⟩

/-- Two quotes, the first one without a volume. -/
def twoQuotes : List (Quote ℚ) := [⟨1, 3, -1⟩, ⟨4, 6, 3⟩]

theorem vwap_window_twoQuotes :
    ∃ outs, evalVwapRun Concrete.symbols (.value (.val 0)) (.value (.val 2)) 1 0
        (.fresh [] : SignalContext (Exact ℚ) (NodeSlot (Exact ℚ) (Exact ℚ)))
        (twoQuotes.map fun q _ => q.state) = .ok outs ∧ VwapOutputs 2 twoQuotes outs := by
  have hperiod : parsePreparedPeriod (some (.val 2) : Option (Exact ℚ)) = 2 := by decide +kernel
  have hquotes : (twoQuotes.map fun q (_ : Nat) => q.state).map (fun m => m 0) =
      twoQuotes.map Quote.state := by simp
  have hmain := vwap_window (by decide) hperiod Concrete.symbols (.value (.val 0)) 1 0 _ twoQuotes
    hquotes
  exact hmain.1 _ (.inl rfl)

end JitSignalEngine
