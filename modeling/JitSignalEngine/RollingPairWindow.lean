import JitSignalEngine.RealArithmetic
import JitSignalEngine.RunningSum
import JitSignalEngine.TickRun

/-!
# Rolling correlation and beta

A `RollingPairState` after a stream of pairs, and what is read out of it over the reals.

* `RollingPairState.Holds` — rings, counters and the five sums; `RollingPairState.Holds.slide`
  that a push keeps them.
* `pearson`, `slope` — correlation and regression slope of a window.
* `rollingPairRatio` — the ratio before the clamps of `RollingPairCorrelation`.
* `rollingPair_window` — what is read after every stream.
-/

namespace JitSignalEngine

open Fp Widen Exact

/-! ## Pushing a stream -/

section Pushes

variable {D L : Type} [Fp D] [Fp L] [Widen D L]

/-- `RollingPairPush` over a stream. -/
def rollingPairPushAll (n : Nat) (st : RollingPairState D L) (ps : List (D × D)) :
    Except String (RollingPairState D L) :=
  ps.foldlM (fun st p => rollingPairPush st n p.1 p.2) st

/-- `r` before the clamps. -/
def rollingPairRatio (st : RollingPairState D L) : L :=
  let n : L := ofNat st.count
  div (unnormalized st.sumXy st.sumX st.sumY n)
    (sqrt (mul (unnormalized st.sumXx st.sumX st.sumX n)
      (unnormalized st.sumYy st.sumY st.sumY n)))

end Pushes

/-! ## The sums -/

section Sums

variable {K : Type} [Field K] [LinearOrder K] [Transcendental K]

/-- Rings, counters and sums after a history of pairs. -/
structure RollingPairState.Holds (n : Nat) (ps : List (Exact K × Exact K))
    (st : RollingPairState (Exact K) (Exact K)) : Prop where
  capacity : st.capacity = n
  head : st.head = ps.length % n
  count : st.count = min ps.length n
  xBuf : HoldsWindow n (ps.map Prod.fst) st.xBuf
  yBuf : HoldsWindow n (ps.map Prod.snd) st.yBuf
  sumX : RunningSum n (ps.map fun p => p.1) st.sumX
  sumY : RunningSum n (ps.map fun p => p.2) st.sumY
  sumXy : RunningSum n (ps.map fun p => mul p.1 p.2) st.sumXy
  sumXx : RunningSum n (ps.map fun p => mul p.1 p.1) st.sumXx
  sumYy : RunningSum n (ps.map fun p => mul p.2 p.2) st.sumYy

variable {n : Nat} {ps : List (Exact K × Exact K)} {st : RollingPairState (Exact K) (Exact K)}

theorem RollingPairState.holds_reset (n : Nat) :
    RollingPairState.Holds n [] (.reset n : RollingPairState (Exact K) (Exact K)) := by
  have hring : HoldsWindow n ([] : List (Exact K)) (List.replicate n (ofNat 0)) := by
    simpa using HoldsWindow.empty (List.replicate n (ofNat 0 : Exact K))
  exact ⟨rfl, by simp [reset], by simp [reset], hring, hring, .empty, .empty, .empty, .empty, .empty⟩

namespace RollingPairState.Holds

theorem full_iff (h : st.Holds n ps) : st.count = st.capacity ↔ n ≤ ps.length := by
  rw [h.count, h.capacity]
  omega

/-- **A push** takes the oldest pair off every sum and puts the new one on. -/
theorem slide (h : st.Holds n ps) (hn : 0 < n) (p : Exact K × Exact K) :
    (rollingPairSlide st p.1 p.2).Holds n (ps ++ [p]) := by
  have hold : n ≤ ps.length → ps[ps.length - n]? =
      some (st.xBuf.getD st.head (ofNat 0), st.yBuf.getD st.head (ofNat 0)) := by
    rw [h.head]
    exact fun hfull => h.xBuf.oldest_pair h.yBuf hn hfull _ _
  have hlength : (ps ++ [p]).length = ps.length + 1 := by simp
  have hx := h.xBuf.push p.1 hn
  have hy := h.yBuf.push p.2 hn
  rw [List.length_map, ← h.head] at hx hy
  simp only [rollingPairSlide, h.full_iff, widen_eq]
  refine ⟨h.capacity, ?_, ?_, by simpa using hx, by simpa using hy, h.sumX.push_map hn p hold,
    h.sumY.push_map hn p hold, h.sumXy.push_map hn p hold, h.sumXx.push_map hn p hold,
    h.sumYy.push_map hn p hold⟩
  · rw [h.head, h.capacity, hlength, Nat.mod_add_mod]
  · change (if n ≤ ps.length then st.count else st.count + 1) = _
    rw [hlength, h.count]
    split <;> omega

end RollingPairState.Holds

/-- The state a push works on: set up anew when the capacity differs. -/
def RollingPairState.ready {D L : Type} [Fp D] [Fp L] (n : Nat) (st : RollingPairState D L) :
    RollingPairState D L :=
  if st.capacity = n then st else .reset n

/-- The state after a stream, set up by the first pair. -/
def RollingPairState.HoldsFromInit (n : Nat) (ps : List (Exact K × Exact K))
    (st : RollingPairState (Exact K) (Exact K)) : Prop :=
  (st.ready n).Holds n ps ∧ (st = st.ready n ∨ ps = [] ∧ st = .init)

theorem rollingPairPushAll_holds (hn : 0 < n) (ps : List (Exact K × Exact K)) :
    ∃ st, rollingPairPushAll n (.init : RollingPairState (Exact K) (Exact K)) ps = .ok st ∧
      st.HoldsFromInit n ps := by
  refine foldlM_history (motive := RollingPairState.HoldsFromInit n) (fun ps p st _ hst => ?_) ?_
  · have hnext := hst.1.slide hn p
    have hready : (rollingPairSlide (st.ready n) p.1 p.2).ready n =
        rollingPairSlide (st.ready n) p.1 p.2 := if_pos hnext.capacity
    exact ⟨_, if_neg hn.ne', hready.symm ▸ hnext, .inl hready.symm⟩
  · have hready : (.init : RollingPairState (Exact K) (Exact K)).ready n = .reset n := if_neg hn.ne
    exact ⟨hready.symm ▸ RollingPairState.holds_reset n, .inr ⟨rfl, rfl⟩⟩

end Sums

/-! ## Reading the state -/

section Readout

variable {n : Nat} {ps ws : List (ℝ × ℝ)} {st : RollingPairState (Exact ℝ) (Exact ℝ)}

/-- A pair of numbers. -/
def pairVal (p : ℝ × ℝ) : Exact ℝ × Exact ℝ := (val p.1, val p.2)

/-- Pearson's correlation of some pairs. -/
noncomputable def pearson (ws : List (ℝ × ℝ)) : ℝ :=
  comoment Prod.fst Prod.snd ws /
    (Real.sqrt (comoment Prod.fst Prod.fst ws) * Real.sqrt (comoment Prod.snd Prod.snd ws))

/-- The slope of the regression line of `y` on `x`. -/
noncomputable def slope (ws : List (ℝ × ℝ)) : ℝ :=
  comoment Prod.fst Prod.snd ws / comoment Prod.fst Prod.fst ws

/-- The members of a component are all equal. -/
def AllEqual (f : ℝ × ℝ → ℝ) (ws : List (ℝ × ℝ)) : Prop := ∀ v ∈ ws, ∀ w ∈ ws, f v = f w

/-- The five sums over some pairs. -/
structure RollingPairState.SumsOf (ws : List (ℝ × ℝ))
    (st : RollingPairState (Exact ℝ) (Exact ℝ)) : Prop where
  sumX : st.sumX = val (total Prod.fst ws)
  sumY : st.sumY = val (total Prod.snd ws)
  sumXy : st.sumXy = val (total (fun w => w.1 * w.2) ws)
  sumXx : st.sumXx = val (total (fun w => w.1 * w.1) ws)
  sumYy : st.sumYy = val (total (fun w => w.2 * w.2) ws)

/-- The correlation is at most one, by Cauchy–Schwarz. -/
theorem abs_pearson_le_one (ws : List (ℝ × ℝ)) : |pearson ws| ≤ 1 := by
  have hx := comoment_self_nonneg (K := ℝ) Prod.fst ws
  have hcov : |comoment Prod.fst Prod.snd ws| ≤
      Real.sqrt (comoment Prod.fst Prod.fst ws) * Real.sqrt (comoment Prod.snd Prod.snd ws) := by
    rw [← Real.sqrt_mul hx]
    refine Real.abs_le_sqrt ?_
    rw [sq]
    exact comoment_mul_self_le Prod.fst Prod.snd ws
  have hpos := mul_nonneg (Real.sqrt_nonneg (comoment Prod.fst Prod.fst ws))
    (Real.sqrt_nonneg (comoment Prod.snd Prod.snd ws))
  rw [pearson, abs_div, abs_of_nonneg hpos]
  exact div_le_one_of_le₀ hcov hpos

theorem comoment_pos (f : ℝ × ℝ → ℝ) (h : ¬ AllEqual f ws) : 0 < comoment f f ws :=
  lt_of_le_of_ne (comoment_self_nonneg f ws) fun hzero =>
    h ((comoment_self_eq_zero_iff f ws).1 hzero.symm)

theorem RollingPairState.Holds.sums (h : st.Holds n (ps.map pairVal)) :
    st.SumsOf (window n ps) := by
  obtain ⟨-, -, -, -, -, hx, hy, hxy, hxx, hyy⟩ := h
  rw [List.map_map] at hx hy hxy hxx hyy
  exact ⟨hx.numbers_map fun _ => rfl, hy.numbers_map fun _ => rfl, hxy.numbers_map fun _ => rfl,
    hxx.numbers_map fun _ => rfl, hyy.numbers_map fun _ => rfl⟩

theorem RollingPairState.Holds.full_eq {qs : List (Exact ℝ × Exact ℝ)} (h : st.Holds n qs)
    (hn : 0 < n) : rollingPairFull st = decide (n ≤ qs.length) := by
  rw [rollingPairFull, h.capacity, decide_eq_true hn, Bool.and_true, ← h.capacity]
  exact decide_eq_decide.2 (h.full_iff.trans (by rw [h.capacity]))

/-- A sum of products of deviations without the means. -/
theorem unnormalized_val (f g : ℝ × ℝ → ℝ) (hne : ws ≠ []) :
    unnormalized (val (total (fun w => f w * g w) ws)) (val (total f ws)) (val (total g ws))
      (ofNat ws.length) = val (comoment f g ws) := by
  have hlength : (ws.length : ℝ) ≠ 0 := Nat.cast_ne_zero.2 (by simpa using hne)
  rw [unnormalized, ofNat_val, mul_val, div_val _ hlength, sub_val, comoment_eq]

/-- What is read from the sums of a full window. -/
structure RollingPairState.ReadsOf (ws : List (ℝ × ℝ))
    (st : RollingPairState (Exact ℝ) (Exact ℝ)) : Prop where
  undefined : AllEqual Prod.fst ws ∨ AllEqual Prod.snd ws → rollingPairCorrelation st = .nan
  ratio : ¬ AllEqual Prod.fst ws → ¬ AllEqual Prod.snd ws → rollingPairRatio st = val (pearson ws)
  correlation : ¬ AllEqual Prod.fst ws → ¬ AllEqual Prod.snd ws →
    rollingPairCorrelation st = val (pearson ws)
  vertical : AllEqual Prod.fst ws → rollingPairBeta st = .nan
  beta : ¬ AllEqual Prod.fst ws → rollingPairBeta st = val (slope ws)

theorem RollingPairState.SumsOf.reads (h : st.SumsOf ws) (hfull : rollingPairFull st = true)
    (hcount : st.count = ws.length) (hne : ws ≠ []) : st.ReadsOf ws := by
  have hcov : unnormalized st.sumXy st.sumX st.sumY (ofNat st.count) =
      val (comoment Prod.fst Prod.snd ws) := by
    rw [h.sumXy, h.sumX, h.sumY, hcount, unnormalized_val Prod.fst Prod.snd hne]
  have hx : unnormalized st.sumXx st.sumX st.sumX (ofNat st.count) =
      val (comoment Prod.fst Prod.fst ws) := by
    rw [h.sumXx, h.sumX, hcount, unnormalized_val Prod.fst Prod.fst hne]
  have hy : unnormalized st.sumYy st.sumY st.sumY (ofNat st.count) =
      val (comoment Prod.snd Prod.snd ws) := by
    rw [h.sumYy, h.sumY, hcount, unnormalized_val Prod.snd Prod.snd hne]
  -- the guards
  have hguard : ∀ f : ℝ × ℝ → ℝ,
      le (val (comoment f f ws)) (ofNat 0) = true ↔ AllEqual f ws := by
    intro f
    rw [ofNat_val, Nat.cast_zero, le_val, decide_eq_true_iff,
      (comoment_self_nonneg f ws).ge_iff_eq', comoment_self_eq_zero_iff, AllEqual]
  have hratio : ¬ AllEqual Prod.fst ws → ¬ AllEqual Prod.snd ws →
      eq (Fp.sqrt (mul (val (comoment Prod.fst Prod.fst ws)) (val (comoment Prod.snd Prod.snd ws))))
        (ofNat 0) = false ∧ rollingPairRatio st = val (pearson ws) := by
    intro hxs hys
    have hxpos := comoment_pos Prod.fst hxs
    have hypos := comoment_pos Prod.snd hys
    have hsqrt : Fp.sqrt (mul (val (comoment Prod.fst Prod.fst ws))
        (val (comoment Prod.snd Prod.snd ws))) = val (Real.sqrt (comoment Prod.fst Prod.fst ws) *
          Real.sqrt (comoment Prod.snd Prod.snd ws)) := by
      rw [← Real.sqrt_mul hxpos.le, mul_val]
      exact if_neg (not_lt.2 (mul_pos hxpos hypos).le)
    have hdenom := (mul_pos (Real.sqrt_pos.2 hxpos) (Real.sqrt_pos.2 hypos)).ne'
    refine ⟨?_, ?_⟩
    · rw [hsqrt, ofNat_val, Nat.cast_zero, eq_val, decide_eq_false hdenom]
    · simp only [rollingPairRatio, hcov, hx, hy, hsqrt, div_val _ hdenom, pearson]
  obtain ⟨hlo, hhi⟩ := abs_le.1 (abs_pearson_le_one ws)
  refine ⟨fun hequal => ?_, fun hxs hys => (hratio hxs hys).2, fun hxs hys => ?_, fun hequal => ?_,
    fun hxs => ?_⟩
  · have hnan : (le (val (comoment Prod.fst Prod.fst ws)) (ofNat 0) ||
        le (val (comoment Prod.snd Prod.snd ws)) (ofNat 0)) = true := by
      rwa [Bool.or_eq_true, hguard, hguard]
    simp only [rollingPairCorrelation, hfull, hx, hy, hnan, Bool.not_true, Bool.false_eq_true,
      if_false, if_true]
    rfl
  · have hdefined : (le (val (comoment Prod.fst Prod.fst ws)) (ofNat 0) ||
        le (val (comoment Prod.snd Prod.snd ws)) (ofNat 0)) = false := by
      rw [Bool.eq_false_iff, ne_eq, Bool.or_eq_true, hguard, hguard]
      exact not_or.2 ⟨hxs, hys⟩
    obtain ⟨hdenom, hr⟩ := hratio hxs hys
    simp only [rollingPairRatio, hcov, hx, hy] at hr
    -- the clamps
    have habove : lt (ofNat 1) (val (pearson ws)) = false := by simpa using hhi
    have hbelow : lt (val (pearson ws)) (ofRat (-1)) = false := by simpa using hlo
    simp only [rollingPairCorrelation, hfull, hcov, hx, hy, hdefined, hdenom, hr, habove, hbelow,
      Bool.not_true, Bool.false_eq_true, if_false, narrow_eq]
  · simp only [rollingPairBeta, hfull, hx, (hguard Prod.fst).2 hequal, Bool.not_true,
      Bool.false_eq_true, if_false, if_true]
    rfl
  · have hdefined : le (val (comoment Prod.fst Prod.fst ws)) (ofNat 0) = false := by
      rwa [Bool.eq_false_iff, ne_eq, hguard]
    have hpos := comoment_pos Prod.fst hxs
    simp only [rollingPairBeta, hfull, hcov, hx, hdefined, Bool.not_true, Bool.false_eq_true,
      if_false, div_val _ hpos.ne', narrow_eq, slope]

/-- The sums of a state that was not set up yet. -/
theorem RollingPairState.sumsOf_init : (init : RollingPairState (Exact ℝ) (Exact ℝ)).SumsOf [] := by
  constructor <;> simp [init]

theorem rollingPair_notFull (h : rollingPairFull st = false) :
    rollingPairCorrelation st = .nan ∧ rollingPairBeta st = .nan := by
  simp only [rollingPairCorrelation, rollingPairBeta, h, Bool.not_false, if_true]
  exact ⟨rfl, rfl⟩

end Readout

/-- **Rolling correlation and beta are those of the window.** After any stream of pairs of reals the
sums are over the last `min (t, n)` pairs. The correlation is NaN exactly before the `n`-th pair and
on a window with a component that does not vary, else Pearson's, and in `[-1, 1]` before the
clamps; beta is NaN exactly before the `n`-th pair and on a window whose `x` does not vary, else the
slope. -/
theorem rollingPair_window {n : Nat} (hn : 1 ≤ n) (ps : List (ℝ × ℝ)) :
    ∃ st, rollingPairPushAll n .init (ps.map pairVal) = .ok st ∧ st.SumsOf (window n ps) ∧
      (rollingPairCorrelation st = .nan ↔ ps.length < n ∨ AllEqual Prod.fst (window n ps) ∨
        AllEqual Prod.snd (window n ps)) ∧
      (rollingPairCorrelation st ≠ .nan →
        rollingPairCorrelation st = val (pearson (window n ps)) ∧
        rollingPairRatio st = val (pearson (window n ps)) ∧
        -1 ≤ pearson (window n ps) ∧ pearson (window n ps) ≤ 1) ∧
      (rollingPairBeta st = .nan ↔ ps.length < n ∨ AllEqual Prod.fst (window n ps)) ∧
      (rollingPairBeta st ≠ .nan → rollingPairBeta st = val (slope (window n ps))) := by
  obtain ⟨st, hrun, hholds, hready⟩ := rollingPairPushAll_holds hn (ps.map pairVal)
  have hsums : st.SumsOf (window n ps) := by
    rcases hready with hready | ⟨hnil, rfl⟩
    · rw [hready]
      exact hholds.sums
    · rw [List.map_eq_nil_iff.1 hnil, window_nil]
      exact RollingPairState.sumsOf_init
  refine ⟨st, hrun, hsums, ?_⟩
  by_cases hfull : n ≤ ps.length
  · have hst : st = st.ready n := by
      rcases hready with hready | ⟨hnil, -⟩
      · exact hready
      · rw [List.map_eq_nil_iff.1 hnil] at hfull
        exact absurd hfull (by simp; omega)
    rw [← hst] at hholds
    have hlength : st.count = (window n ps).length := by
      rw [hholds.count, length_window, List.length_map]
    have hread : rollingPairFull st = true := by simpa [hfull] using hholds.full_eq hn
    have hne : window n ps ≠ [] := List.ne_nil_of_length_pos (by rw [length_window]; omega)
    have hreads := hsums.reads hread hlength hne
    obtain ⟨hlo, hhi⟩ := abs_le.1 (abs_pearson_le_one (window n ps))
    have hnot : ¬ ps.length < n := not_lt.2 hfull
    refine ⟨⟨fun hnan => .inr ?_, fun h => hreads.undefined (h.resolve_left hnot)⟩, fun hdefined => ?_,
      ⟨fun hnan => .inr ?_, fun h => hreads.vertical (h.resolve_left hnot)⟩, fun hdefined => ?_⟩
    · by_contra hvary
      obtain ⟨hxs, hys⟩ := not_or.1 hvary
      rw [hreads.correlation hxs hys] at hnan
      cases hnan
    · obtain ⟨hxs, hys⟩ := not_or.1 (mt hreads.undefined hdefined)
      exact ⟨hreads.correlation hxs hys, hreads.ratio hxs hys, hlo, hhi⟩
    · by_contra hxs
      rw [hreads.beta hxs] at hnan
      cases hnan
    · exact hreads.beta (mt hreads.vertical hdefined)
  · have hread : rollingPairFull st = false := by
      rcases hready with hready | ⟨-, rfl⟩
      · rw [hready, hholds.full_eq hn]
        simpa using hfull
      · rfl
    obtain ⟨hcorrelation, hbeta⟩ := rollingPair_notFull hread
    have hlt := not_le.1 hfull
    exact ⟨⟨fun _ => .inl hlt, fun _ => hcorrelation⟩, fun h => absurd hcorrelation h,
      ⟨fun _ => .inl hlt, fun _ => hbeta⟩, fun h => absurd hbeta h⟩

/-- A window of two pairs, after a slide. -/
theorem rollingPair_window_two :
    ∃ st, rollingPairPushAll 2 .init ([(1, 5), (2, 4), (3, 9)].map pairVal) = .ok st ∧
      st.SumsOf (window 2 [(1, 5), (2, 4), (3, 9)]) := by
  obtain ⟨st, hrun, hsums, -⟩ := rollingPair_window (by decide : 1 ≤ 2) [(1, 5), (2, 4), (3, 9)]
  exact ⟨st, hrun, hsums⟩

end JitSignalEngine
