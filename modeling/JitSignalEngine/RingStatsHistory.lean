import JitSignalEngine.PreparedOperators
import JitSignalEngine.RunningSum

/-!
# What a window of statistics remembers

A `RingStatsState` after a history of samples, some of them NaN. The ring and the counters depend
on how many samples there were, the sum on all of them, mean and `m2` on those that came since the
block of the last refresh.

* `RingStatsState.Holds` — ring, counters and sum.
* `remembered` — the samples that mean and `m2` still depend on, at least the window and fewer
  than two windows.
* `RingStatsState.Recalls` — mean and `m2` are those of the window while no NaN is remembered, and
  NaN while one is.
* `RingStatsState.Holds.slide`, `RingStatsState.Recalls.slide` — a push keeps both.
* `sampleStddev` — the standard deviation of a window, which is what the state reads out.
-/

namespace JitSignalEngine

open Fp Widen Exact

/-! ## The samples since the last refresh -/

section Remembered

variable {α : Type} {n : Nat} {xs : List α}

/-- **What is remembered.** The refresh at sample number `(j + 1) * n` reads the samples from
number `j * n` on, and forgets those before. -/
def remembered (n : Nat) (xs : List α) : List α := xs.drop ((xs.length / n - 1) * n)

/-- The window is remembered. -/
theorem window_suffix_remembered (n : Nat) (xs : List α) : window n xs <:+ remembered n xs := by
  have hle : (xs.length / n - 1) * n ≤ xs.length - n := by
    rw [Nat.sub_mul, Nat.one_mul]
    exact Nat.sub_le_sub_right (Nat.div_mul_le_self _ _) _
  obtain ⟨d, hd⟩ := Nat.exists_eq_add_of_le hle
  rw [window, remembered, hd, ← List.drop_drop]
  exact List.drop_suffix _ _

/-- Two windows are enough. -/
theorem remembered_suffix (hn : 0 < n) (xs : List α) : remembered n xs <:+ window (2 * n) xs := by
  have hle : xs.length - 2 * n ≤ (xs.length / n - 1) * n := by
    have hdiv := Nat.lt_div_mul_add (a := xs.length) hn
    rw [Nat.sub_mul, Nat.one_mul]
    omega
  obtain ⟨d, hd⟩ := Nat.exists_eq_add_of_le hle
  rw [window, remembered, hd, ← List.drop_drop]
  exact List.drop_suffix _ _

/-- A sample that is no refresh is remembered with those before. -/
theorem remembered_append (hn : 0 < n) (h : xs.length < n ∨ ¬ n ∣ xs.length + 1) (x : α) :
    remembered n (xs ++ [x]) = remembered n xs ++ [x] := by
  have hstart : ((xs.length + 1) / n - 1) * n = (xs.length / n - 1) * n := by
    rcases h with hfills | hdvd
    · have hnext : (xs.length + 1) / n ≤ 1 := (Nat.div_le_iff_le_mul hn).2 (by omega)
      rw [Nat.div_eq_of_lt hfills, Nat.sub_eq_zero_of_le hnext]
    · rw [Nat.succ_div_of_not_dvd hdvd]
  have hle : (xs.length / n - 1) * n ≤ xs.length :=
    (Nat.mul_le_mul_right n (Nat.sub_le _ 1)).trans (Nat.div_mul_le_self _ _)
  rw [remembered, List.length_append, List.length_singleton, hstart,
    List.drop_append_of_le_length hle, remembered]

/-- A refresh remembers the window. -/
theorem remembered_refresh (hdvd : n ∣ xs.length) : remembered n xs = window n xs := by
  rw [remembered, window, Nat.sub_mul, Nat.one_mul, Nat.div_mul_cancel hdvd]

end Remembered

variable {K : Type} [Field K] [LinearOrder K] [IsStrictOrderedRing K] [Transcendental K]

/-! ## The ring, the counters and the sum -/

/-- Ring, counters and running sum after a history of samples. -/
structure RingStatsState.Holds (n : Nat) (xs : List (Exact K))
    (st : RingStatsState (Exact K) (Exact K)) : Prop where
  capacity : st.capacity = n
  head : st.head = xs.length % n
  count : st.count = min xs.length n
  buffer : HoldsWindow n xs st.buffer
  /-- the refresh is due at every `n`-th sample, except that a window of one has none -/
  slides : 1 < n → st.slidesSinceRefresh = (xs.length - n) % n
  sum : RunningSum n xs st.sum

/-- Mean and `m2` after a history of samples. -/
structure RingStatsState.Recalls (n : Nat) (xs : List (Exact K))
    (st : RingStatsState (Exact K) (Exact K)) : Prop where
  numbers : Exact.nan ∉ remembered n xs → ∀ ws : List K, window n xs = ws.map val →
    MomentsOf id ws st
  nan : Exact.nan ∈ remembered n xs → NaNMoments st

section Ring

variable {n : Nat} {xs : List (Exact K)} {st : RingStatsState (Exact K) (Exact K)} {x : Exact K}

omit [IsStrictOrderedRing K] in
theorem RingStatsState.holds_reset (n : Nat) :
    RingStatsState.Holds n [] (.reset n : RingStatsState (Exact K) (Exact K)) := by
  refine ⟨rfl, by simp [RingStatsState.reset], by simp [RingStatsState.reset], ?_,
    by simp [RingStatsState.reset], RunningSum.empty⟩
  have h := HoldsWindow.empty (List.replicate n (ofNat 0 : Exact K))
  rwa [List.length_replicate] at h

omit [IsStrictOrderedRing K] in
theorem RingStatsState.recalls_reset (n : Nat) :
    RingStatsState.Recalls n [] (.reset n : RingStatsState (Exact K) (Exact K)) := by
  refine ⟨fun _ ws hws => ?_, fun h => absurd h (by simp [remembered])⟩
  obtain rfl := List.map_eq_nil_iff.1 ((window_nil n).symm.trans hws).symm
  exact ⟨by simp [RingStatsState.reset, JitSignalEngine.mean],
    by simp [RingStatsState.reset, comoment]⟩

namespace RingStatsState.Holds

omit [LinearOrder K] [IsStrictOrderedRing K] [Transcendental K] in
theorem full_iff (h : st.Holds n xs) : st.count = st.capacity ↔ n ≤ xs.length := by
  rw [h.count, h.capacity]
  omega

omit [LinearOrder K] [IsStrictOrderedRing K] [Transcendental K] in
theorem ringStatsFull_eq (h : st.Holds n xs) (hn : 0 < n) :
    ringStatsFull st = decide (n ≤ xs.length) := by
  rw [ringStatsFull, h.capacity, decide_eq_true hn, Bool.and_true, ← h.capacity]
  exact decide_eq_decide.2 (h.full_iff.trans (by rw [h.capacity]))

omit [IsStrictOrderedRing K] in
/-- The sample that leaves a full window. -/
theorem oldest (h : st.Holds n xs) (hn : 0 < n) (hfull : n ≤ xs.length) :
    xs[xs.length - n]? = some (st.buffer.getD st.head (ofNat 0)) := by
  rw [h.head]
  exact h.buffer.oldest_getD hn hfull _

omit [IsStrictOrderedRing K] in
/-- What a sample does to the state up to the refresh. -/
theorem admitted (h : st.Holds n xs) (x : Exact K) :
    ∃ mean m2, ringStatsAdmit st x = { st with
        count := min (xs ++ [x]).length n
        sum := if n ≤ xs.length then sub st.sum (st.buffer.getD st.head (ofNat 0)) else st.sum
        mean := mean
        m2 := m2 } := by
  rw [ringStatsAdmit, List.length_append, List.length_singleton]
  by_cases hfull : n ≤ xs.length
  · have hcount : st.count = min (xs.length + 1) n := by rw [h.count]; omega
    rw [if_pos (h.full_iff.2 hfull), if_pos hfull, ← hcount]
    simp only [ringStatsUpdateMeanM2OnSlide, widen_eq]
    split <;> exact ⟨_, _, rfl⟩
  · have hcount : st.count + 1 = min (xs.length + 1) n := by rw [h.count]; omega
    rw [if_neg (h.full_iff.not.2 hfull), if_neg hfull, ← hcount]
    exact ⟨_, _, rfl⟩

omit [IsStrictOrderedRing K] in
/-- A push, with what the refresh counter is then. -/
theorem slide (h : st.Holds n xs) (hn : 0 < n) (x : Exact K) :
    (ringStatsSlide st x).Holds n (xs ++ [x]) := by
  obtain ⟨mean, m2, hst'⟩ := h.admitted x
  have hlength : (xs ++ [x]).length = xs.length + 1 := by simp
  have hhead : (st.head + 1) % n = (xs ++ [x]).length % n := by simp [h.head]
  have hbuffer : HoldsWindow n (xs ++ [x]) (st.buffer.set st.head x) :=
    h.head ▸ h.buffer.push x hn
  have hsum := h.sum.push hn x (h.oldest hn)
  rw [ringStatsSlide, hst']
  by_cases hfull : n ≤ xs.length
  · rw [if_pos (h.full_iff.2 hfull)]
    rw [if_pos hfull] at hsum
    simp only [ringStatsTick, ringStatsWrite, ringStatsRefreshInterval, h.capacity, widen_eq]
    split
    case isTrue hdue =>
      -- the refresh leaves ring and sum alone
      refine ⟨rfl, hhead, rfl, hbuffer, fun hone => ?_, hsum⟩
      rw [h.slides hone] at hdue
      rcases refresh_cases hn hfull with ⟨-, -, hnext⟩ | ⟨hlt, -, -⟩
      · rw [hlength, hnext]
        rfl
      · omega
    case isFalse hearly =>
      refine ⟨rfl, hhead, rfl, hbuffer, fun hone => ?_, hsum⟩
      rw [h.slides hone] at hearly ⊢
      rcases refresh_cases hn hfull with ⟨hdue, -, -⟩ | ⟨-, -, hnext⟩
      · omega
      · rw [hlength, hnext]
  · rw [if_neg (h.full_iff.not.2 hfull)]
    rw [if_neg hfull] at hsum
    simp only [ringStatsWrite, h.capacity, if_neg hfull, widen_eq]
    refine ⟨rfl, hhead, rfl, hbuffer, fun hone => ?_, hsum⟩
    rw [h.slides hone, hlength, Nat.sub_eq_zero_of_le (by omega), Nat.sub_eq_zero_of_le (by omega)]

omit [IsStrictOrderedRing K] in
/-- On a ring that is set up both pushes are the slide. -/
theorem push_eq (h : st.Holds n xs) (hn : 0 < n) (x : Exact K) :
    ringStatsPush st n x = .ok (ringStatsSlide st x) ∧
      ringStatsPushPrepared st x = .ok (ringStatsSlide st x) := by
  have hbuffer : st.buffer ≠ [] := List.ne_nil_of_length_pos (by rw [h.buffer.length_eq]; exact hn)
  have hguard : ¬ (st.capacity = 0 ∨ st.buffer = []) := by
    rw [h.capacity]
    exact not_or.2 ⟨hn.ne', hbuffer⟩
  constructor
  · rw [ringStatsPush, if_neg hn.ne', if_pos h.capacity]
  · rw [ringStatsPushPrepared, if_neg hguard]

end RingStatsState.Holds

namespace RingStatsState.Recalls

omit [Field K] [LinearOrder K] [IsStrictOrderedRing K] [Transcendental K] in
/-- A window without a NaN among what is remembered. -/
theorem exists_numbers (h : Exact.nan ∉ remembered n xs) :
    ∃ ws : List K, window n xs = ws.map val := by
  rcases numbers_or_nan (window n xs) with hws | hmem
  · exact hws
  · exact absurd ((window_suffix_remembered n xs).subset hmem) h

/-- Mean and `m2` before the refresh: what was remembered and the new sample. -/
theorem admitted (h : st.Recalls n xs) (hst : st.Holds n xs) (hn : 1 < n) (x : Exact K) :
    (Exact.nan ∉ remembered n xs ++ [x] → ∀ ws : List K, window n (xs ++ [x]) = ws.map val →
      MomentsOf id ws (ringStatsAdmit st x)) ∧
    (Exact.nan ∈ remembered n xs ++ [x] → NaNMoments (ringStatsAdmit st x)) := by
  refine ⟨fun hmem ws hws => ?_, fun hmem => ?_⟩
  · rw [List.mem_append, not_or] at hmem
    obtain ⟨us, hus⟩ := exists_numbers hmem.1
    have hmoments := h.numbers hmem.1 us hus
    have hcount : st.count = us.length := by
      rw [hst.count, ← length_window, hus, List.length_map]
    by_cases hfull : n ≤ xs.length
    · obtain ⟨old, rest, hold, hwindow, hnext⟩ := window_slide x (by omega) hfull
      obtain ⟨u, ts, rfl, rfl, rfl⟩ := List.map_eq_cons_iff.1 (hus.symm.trans hwindow)
      obtain ⟨ts', v, hts, rfl, rfl⟩ := map_val_append (hnext.symm.trans hws)
      obtain rfl := List.map_injective_iff.2 (fun _ _ => Exact.val.inj) hts
      have hlength : ts.length + 1 = n := by
        have := length_window n xs
        rw [hwindow, List.length_cons, List.length_map] at this
        omega
      have hread : st.buffer.getD st.head (val 0) = val u := by
        have := (hst.oldest (by omega) hfull).symm.trans hold
        simpa using this
      rw [show (val v : Exact K) = val (id v) from rfl, ringStatsAdmit_slide hmoments
        (by rintro rfl; simp at hlength; omega) (by simpa using hcount)
        (by rw [hst.capacity, hlength]) hread v]
      exact ⟨rfl, rfl⟩
    · rw [window_fill x (by omega)] at hws
      obtain ⟨us', v, hus', rfl, rfl⟩ := map_val_append hws
      obtain rfl := List.map_injective_iff.2 (fun _ _ => Exact.val.inj) (hus.symm.trans hus')
      rw [show (val v : Exact K) = val (id v) from rfl,
        ringStatsAdmit_fill hmoments hcount (hst.full_iff.not.2 hfull) v]
      exact ⟨rfl, rfl⟩
  · refine ringStatsAdmit_nan ?_ (by rw [hst.capacity]; omega)
    rcases List.mem_append.1 hmem with hxs | hx
    · exact .inr (h.nan hxs)
    · exact .inl (List.mem_singleton.1 hx).symm

/-- **A push.** A refresh forgets what is no longer in the window. -/
theorem slide (h : st.Recalls n xs) (hst : st.Holds n xs) (hn : 1 < n) (x : Exact K) :
    (ringStatsSlide st x).Recalls n (xs ++ [x]) := by
  have hpos : 0 < n := by omega
  obtain ⟨hnumbers, hnan⟩ := h.admitted hst hn x
  -- without a refresh
  have hkeeps : (xs.length < n ∨ ¬ n ∣ xs.length + 1) →
      (ringStatsSlide st x).mean = (ringStatsAdmit st x).mean →
      (ringStatsSlide st x).m2 = (ringStatsAdmit st x).m2 →
      (ringStatsSlide st x).Recalls n (xs ++ [x]) := by
    intro hkept hmean hm2
    rw [← remembered_append hpos hkept x] at hnumbers hnan
    refine ⟨fun hmem ws hws => ?_, fun hmem => ?_⟩
    · exact ⟨hmean.trans (hnumbers hmem ws hws).mean_eq, hm2.trans (hnumbers hmem ws hws).m2_eq⟩
    · exact ⟨hmean.trans (hnan hmem).mean_eq, hm2.trans (hnan hmem).m2_eq⟩
  by_cases hfull : n ≤ xs.length
  · have hslide : ringStatsSlide st x = ringStatsTick (ringStatsWrite (ringStatsAdmit st x) x) :=
      if_pos (hst.full_iff.2 hfull)
    obtain ⟨_, _, hst'⟩ := hst.admitted x
    have hcounters : (ringStatsWrite (ringStatsAdmit st x) x).capacity = n ∧
        (ringStatsWrite (ringStatsAdmit st x) x).slidesSinceRefresh = (xs.length - n) % n := by
      rw [hst']
      exact ⟨hst.capacity, hst.slides hn⟩
    rw [ringStatsTick, ringStatsRefreshInterval] at hslide
    simp only [hcounters.1, hcounters.2] at hslide
    rcases refresh_cases hpos hfull with ⟨hdue, hdvd, -⟩ | ⟨hearly, hdvd, -⟩
    · rw [if_pos ⟨hdue.ge, hn⟩] at hslide
      obtain ⟨st', hslide⟩ : ∃ st', ringStatsSlide st x = ringStatsRefreshMeanM2FromBuffer st' :=
        ⟨_, hslide⟩
      have hdvd' : n ∣ (xs ++ [x]).length := by simpa using hdvd
      have hlength : n ≤ (xs ++ [x]).length := by simp; omega
      have hholds := hst.slide hpos x
      rw [hslide] at hholds ⊢
      have hring : HoldsWindow n (xs ++ [x]) st'.buffer := hholds.buffer
      have hcount : st'.count = n := hholds.count.trans (Nat.min_eq_right hlength)
      refine ⟨fun _ ws hws => ?_, fun hmem => ?_⟩
      · obtain ⟨zs, hperm, hbuffer⟩ := hring.exists_perm hlength hws
        have hzs : zs.length = n := by rw [← hring.length_eq, hbuffer, List.length_map]
        have hcells : st'.buffer.take st'.count = zs.map val := by
          rw [hbuffer, hcount, List.take_of_length_le (by simp [hzs])]
        rw [ringStatsRefresh_val (f := id) hcells (hcount.trans hzs.symm)
          (by rintro rfl; simp at hzs; omega)]
        exact ⟨congrArg val (mean_perm id hperm), congrArg val (comoment_perm id id hperm)⟩
      · obtain ⟨zs, hperm, hbuffer⟩ := hring.exists_perm hlength (List.map_id _).symm
        rw [remembered_refresh hdvd', ← hperm.mem_iff, ← List.map_id zs, ← hbuffer] at hmem
        refine ringStatsRefresh_nan ?_
        rwa [List.take_of_length_le (by rw [hring.length_eq, hcount])]
    · rw [if_neg fun hdue => absurd hdue.1 (by omega)] at hslide
      exact hkeeps (.inr hdvd) (by rw [hslide]; rfl) (by rw [hslide]; rfl)
  · have hslide : ringStatsSlide st x = ringStatsWrite (ringStatsAdmit st x) x :=
      if_neg (hst.full_iff.not.2 hfull)
    exact hkeeps (.inl (by omega)) (by rw [hslide]; rfl) (by rw [hslide]; rfl)

end RingStatsState.Recalls

end Ring

/-! ## Reading the state -/

section Readout

variable {n : Nat} {xs : List (Exact K)} {st : RingStatsState (Exact K) (Exact K)}

/-- The sample standard deviation of numbers. -/
def sampleStddev (ws : List K) : Exact K :=
  Fp.sqrt (val (comoment id id ws / ((ws.length : K) - 1)))

theorem sampleStddev_eq {ws : List K} (hws : 1 < ws.length) :
    sampleStddev ws = val (Transcendental.sqrt (comoment id id ws / ((ws.length : K) - 1))) := by
  have hone : (1 : K) < ws.length := by exact_mod_cast hws
  have hnonneg : 0 ≤ comoment id id ws / ((ws.length : K) - 1) :=
    div_nonneg (comoment_self_nonneg _ _) (sub_nonneg.2 hone.le)
  exact if_neg (not_lt.2 hnonneg)

omit [IsStrictOrderedRing K] in
/-- Reading from NaN moments. -/
theorem NaNMoments.stddev (h : NaNMoments st) : ringStatsStddevSample st = .nan := by
  rw [ringStatsStddevSample]
  split
  · rfl
  · rw [h.m2_eq, stddevOfVariance]
    simp

/-- Reading from the moments of a window: the variance is not negative, so nothing is clamped. -/
theorem MomentsOf.stddev {ws : List K} (h : MomentsOf id ws st) (hcount : st.count = ws.length)
    (hws : 1 < ws.length) : ringStatsStddevSample st = sampleStddev ws := by
  have hone : (1 : K) < ws.length := by exact_mod_cast hws
  have hne : (ws.length : K) - 1 ≠ 0 := sub_ne_zero.2 hone.ne'
  have hnonneg : 0 ≤ comoment id id ws / ((ws.length : K) - 1) :=
    div_nonneg (comoment_self_nonneg _ _) (sub_nonneg.2 hone.le)
  have hlt : lt (val (comoment id id ws / ((ws.length : K) - 1))) (ofNat 0 : Exact K) = false := by
    simpa using hnonneg
  rw [ringStatsStddevSample, if_neg (by omega), h.m2_eq, hcount]
  simp only [stddevOfVariance, ofNat_val, sub_val, Nat.cast_one, div_val _ hne] at hlt ⊢
  simp only [hlt, Bool.false_and, Bool.false_eq_true, if_false, narrow_eq]
  rfl

namespace RingStatsState.Holds

omit [IsStrictOrderedRing K] in
theorem mean_nan (h : st.Holds n xs) (hmem : Exact.nan ∈ xs) : ringStatsMean st = .nan := by
  rw [ringStatsMean]
  split
  · rfl
  · rw [h.sum.nan hmem]
    simp

/-- The mean of a full window. -/
theorem mean_numbers {vs : List K} (h : st.Holds n (vs.map val)) (hn : 0 < n)
    (hfull : n ≤ vs.length) : ringStatsMean st = val (JitSignalEngine.mean id (window n vs)) := by
  have hcount : st.count = n := by rw [h.count, List.length_map, Nat.min_eq_right hfull]
  have hne : (n : K) ≠ 0 := Nat.cast_ne_zero.2 (by omega)
  rw [ringStatsMean, if_neg (by omega), h.sum.numbers vs rfl, hcount, ofNat_val, div_val _ hne,
    JitSignalEngine.mean, length_window, Nat.min_eq_right hfull, narrow_eq]

end RingStatsState.Holds

end Readout

end JitSignalEngine
