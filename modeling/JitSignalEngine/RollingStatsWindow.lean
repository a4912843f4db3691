import JitSignalEngine.RingStatsHistory

/-!
# Rolling statistics of a stream of numbers

A `RingStatsState` after a stream of numbers: ring, counters and accumulators are those of the
window, and the two devices against rounding do nothing.

* `ringStatsSlideBare` — a push with neither the clamp nor the refresh.
* `ringStatsSlide_bare` — on numbers a push is that, but for the refresh counter.
* `RingStatsState.Tracks` — what the state is after a stream.
* `ringStats_track_window` — every stream, from a default and from a prewarmed state.
-/

namespace JitSignalEngine

open Fp Widen Exact

/-! ## Pushing a stream -/

section Pushes

variable {D L : Type} [Fp D] [Fp L] [Widen D L]

/-- `RingStatsStddevSampleTwoPassReference` -/
def ringStatsStddevSampleTwoPassReference (st : RingStatsState D L) : D :=
  if st.count < 2 then nan
  else
    let n : L := ofNat st.count
    let mean := div (ringStatsBufferSum (st.buffer.take st.count)) n
    let ss := ringStatsBufferSquares mean (st.buffer.take st.count)
    stddevOfVariance (div ss (sub n (ofNat 1))) ss

/-- `RingStatsPush` over a stream. -/
def ringStatsPushAll (n : Nat) (st : RingStatsState D L) (xs : List D) :
    Except String (RingStatsState D L) :=
  xs.foldlM (fun st x => ringStatsPush st n x) st

/-- `RingStatsPushPrepared` over a stream. -/
def ringStatsPushAllPrepared (st : RingStatsState D L) (xs : List D) :
    Except String (RingStatsState D L) :=
  xs.foldlM ringStatsPushPrepared st

/-- `ringStatsAdmit` without the clamp. -/
def ringStatsAdmitBare (st : RingStatsState D L) (sample : D) : RingStatsState D L :=
  if st.count = st.capacity then
    let old := st.buffer.getD st.head (ofNat 0)
    ringStatsMoveMeanM2 { st with sum := sub st.sum (widen old) } old sample
  else
    ringStatsUpdateMeanM2OnAdd { st with count := st.count + 1 } sample

/-- A push with neither the clamp nor the refresh. -/
def ringStatsSlideBare (st : RingStatsState D L) (sample : D) : RingStatsState D L :=
  ringStatsWrite (ringStatsAdmitBare st sample) sample

/-- The state a push works on: set up anew when the capacity differs. -/
def RingStatsState.ready (n : Nat) (st : RingStatsState D L) : RingStatsState D L :=
  if st.capacity = n then st else .reset n

/-- A stream of bare pushes. -/
def ringStatsPushAllBare (n : Nat) (st : RingStatsState D L) (xs : List D) : RingStatsState D L :=
  xs.foldl (fun st x => ringStatsSlideBare (st.ready n) x) st

/-- The states agree but for the refresh counter. -/
def RingStatsState.SameBut (st st' : RingStatsState D L) : Prop :=
  st = { st' with slidesSinceRefresh := st.slidesSinceRefresh }

omit [Fp D] [Fp L] [Widen D L] in
theorem RingStatsState.SameBut.trans {st st' st'' : RingStatsState D L} (h : st.SameBut st')
    (h' : st'.SameBut st'') : st.SameBut st'' := by
  rw [SameBut] at h h' ⊢
  rw [h, h']

/-- A bare push does not look at the counter. -/
theorem RingStatsState.SameBut.slideBare {st st' : RingStatsState D L} (h : st.SameBut st')
    (n : Nat) (x : D) :
    (ringStatsSlideBare (st.ready n) x).SameBut (ringStatsSlideBare (st'.ready n) x) := by
  rw [h]
  simp only [ready]
  split
  · simp only [ringStatsSlideBare, ringStatsAdmitBare, ringStatsMoveMeanM2,
      ringStatsUpdateMeanM2OnAdd, ringStatsWrite, SameBut]
    split <;> (try split) <;> rfl
  · rfl

end Pushes

variable {K : Type} [Field K] [LinearOrder K] [IsStrictOrderedRing K] [Transcendental K]

/-! ## One push -/

section Slide

theorem window_append_ne_nil {α : Type} {n : Nat} (hn : 0 < n) (xs : List α) (x : α) :
    window n (xs ++ [x]) ≠ [] := by
  refine List.ne_nil_of_length_pos ?_
  rw [length_window, List.length_append, List.length_singleton]
  omega

variable {n : Nat} {vs : List K} {st : RingStatsState (Exact K) (Exact K)}

omit [LinearOrder K] [IsStrictOrderedRing K] [Transcendental K] in
/-- The cells in use. -/
theorem RingStatsState.Holds.cells {xs : List (Exact K)} (h : st.Holds n xs) :
    (xs.length < n → st.buffer.take st.count = xs) ∧
      (n ≤ xs.length → st.buffer.rotate st.head = window n xs) := by
  refine ⟨fun hfills => ?_, fun hfull => ?_⟩
  · rw [h.count, Nat.min_eq_left hfills.le, h.buffer.take_eq hfills.le]
  · rw [h.head, h.buffer.rotate_eq hfull]

omit [LinearOrder K] [IsStrictOrderedRing K] [Transcendental K] in
/-- In some order they are the window. -/
theorem RingStatsState.Holds.exists_perm (h : st.Holds n (vs.map val)) :
    ∃ zs : List K, zs.Perm (window n vs) ∧ st.buffer.take st.count = zs.map val ∧
      st.count = zs.length := by
  rcases Nat.lt_or_ge vs.length n with hfills | hfull
  · refine ⟨vs, by rw [window_of_length_le hfills.le], ?_, ?_⟩
    · rw [h.cells.1 (by simpa using hfills)]
    · rw [h.count, List.length_map, Nat.min_eq_left hfills.le]
  · obtain ⟨zs, hperm, hbuffer⟩ := h.buffer.map_eq hfull
    have hlength : st.count = zs.length := by
      rw [h.count, hperm.length_eq, length_window, List.length_map]
    refine ⟨zs, hperm, ?_, hlength⟩
    rw [hbuffer, hlength, List.take_of_length_le (by simp)]

/-- **A refresh at any time** finds mean and `m2` as they are. -/
theorem MomentsOf.refresh (h : MomentsOf id (window n vs) st) (hne : window n vs ≠ [])
    {zs : List K} (hperm : zs.Perm (window n vs)) (hcells : st.buffer.take st.count = zs.map val)
    (hcount : st.count = zs.length) :
    ringStatsRefreshMeanM2FromBuffer st = { st with slidesSinceRefresh := 0 } := by
  have hzs : zs ≠ [] := by
    rintro rfl
    exact hne hperm.symm.eq_nil
  rw [ringStatsRefresh_val (f := id) hcells hcount hzs, mean_perm id hperm,
    comoment_perm id id hperm, ← h.mean_eq, ← h.m2_eq]

omit [IsStrictOrderedRing K] in
theorem ringStatsTick_ring (st : RingStatsState (Exact K) (Exact K)) :
    (ringStatsTick st).buffer = st.buffer ∧ (ringStatsTick st).count = st.count := by
  rw [ringStatsTick]
  split <;> exact ⟨rfl, rfl⟩

/-- The end of a push, refresh or not. -/
theorem MomentsOf.tick (h : MomentsOf id (window n vs) st) (hne : window n vs ≠ [])
    (hst : (ringStatsTick st).Holds n (vs.map val)) :
    (ringStatsTick st).SameBut st ∧ MomentsOf id (window n vs) (ringStatsTick st) := by
  obtain ⟨zs, hperm, hcells, hcount⟩ := hst.exists_perm
  rw [(ringStatsTick_ring st).1, (ringStatsTick_ring st).2] at hcells
  rw [(ringStatsTick_ring st).2] at hcount
  obtain ⟨k, hk⟩ : ∃ k, ringStatsTick st = { st with slidesSinceRefresh := k } := by
    rw [ringStatsTick]
    split
    · exact ⟨0, MomentsOf.refresh ⟨h.mean_eq, h.m2_eq⟩ hne hperm hcells hcount⟩
    · exact ⟨_, rfl⟩
  rw [hk]
  exact ⟨rfl, h.mean_eq, h.m2_eq⟩

/-- The accumulators up to the refresh, without the clamp and with it. -/
theorem MomentsOf.admitted (h : MomentsOf id (window n vs) st) (hst : st.Holds n (vs.map val))
    (hn : 0 < n) (v : K) :
    ringStatsAdmit st (val v) = ringStatsAdmitBare st (val v) ∧
      MomentsOf id (window n (vs ++ [v])) (ringStatsAdmit st (val v)) := by
  have hcount : st.count = (window n vs).length := by rw [hst.count, length_window, List.length_map]
  by_cases hfull : n ≤ vs.length
  · have hslides : st.count = st.capacity := hst.full_iff.2 (by simpa using hfull)
    obtain ⟨old, rest, hold, hwindow, hnext⟩ := window_slide v hn hfull
    have hlength : rest.length + 1 = n := by
      have hwidth := length_window n vs
      rw [hwindow, List.length_cons] at hwidth
      omega
    have hread : st.buffer.getD st.head (ofNat 0) = val old := by
      have hcell := hst.oldest hn (by simpa using hfull)
      rw [List.length_map, List.getElem?_map, hold] at hcell
      exact (Option.some.inj hcell).symm
    rw [hwindow] at h hcount
    rw [hnext]
    by_cases hone : rest = []
    · subst hone
      have hcapacity : st.capacity ≤ 1 := by rw [hst.capacity, ← hlength]; simp
      simp only [ringStatsAdmit, ringStatsAdmitBare, if_pos hslides, ringStatsUpdateMeanM2OnSlide,
        ringStatsMoveMeanM2, if_pos hcapacity, true_and]
      exact ⟨by simp [mean], by simp [comoment, mean]⟩
    · have hcapacity : st.capacity = rest.length + 1 := by rw [hst.capacity, hlength]
      have hadmitted := ringStatsAdmit_slide h hone hcount hcapacity (by simpa using hread) v
      have hmove := ringStatsMove_slide (h.withSum (sub st.sum (val old))) hone hcount hcapacity v
      refine ⟨?_, ?_⟩
      · rw [show (val v : Exact K) = val (id v) from rfl, hadmitted, ringStatsAdmitBare,
          if_pos hslides, hread]
        exact hmove.symm
      · rw [show (val v : Exact K) = val (id v) from rfl, hadmitted]
        exact ⟨rfl, rfl⟩
  · have hfills : ¬ st.count = st.capacity := hst.full_iff.not.2 (by simpa using hfull)
    rw [window_fill v (by omega)]
    refine ⟨by rw [ringStatsAdmit, ringStatsAdmitBare, if_neg hfills, if_neg hfills], ?_⟩
    rw [show (val v : Exact K) = val (id v) from rfl, ringStatsAdmit_fill h hcount hfills v]
    exact ⟨rfl, rfl⟩

/-- **A push.** What it does beyond a bare one leaves all but the counter as it is. -/
theorem ringStatsSlide_bare (h : MomentsOf id (window n vs) st) (hst : st.Holds n (vs.map val))
    (hn : 0 < n) (v : K) :
    (ringStatsSlide st (val v)).SameBut (ringStatsSlideBare st (val v)) ∧
      MomentsOf id (window n (vs ++ [v])) (ringStatsSlide st (val v)) := by
  obtain ⟨hbare, hadmitted⟩ := h.admitted hst hn v
  have hmoments : MomentsOf id (window n (vs ++ [v]))
      (ringStatsWrite (ringStatsAdmit st (val v)) (val v)) := ⟨hadmitted.mean_eq, hadmitted.m2_eq⟩
  rw [ringStatsSlideBare, ← hbare]
  by_cases hslides : st.count = st.capacity
  · have hslide : ringStatsSlide st (val v) =
        ringStatsTick (ringStatsWrite (ringStatsAdmit st (val v)) (val v)) := if_pos hslides
    have hholds := hst.slide hn (val v)
    rw [hslide, ← List.map_singleton, ← List.map_append] at hholds
    rw [hslide]
    exact hmoments.tick (window_append_ne_nil hn vs v) hholds
  · have hslide : ringStatsSlide st (val v) =
        ringStatsWrite (ringStatsAdmit st (val v)) (val v) := if_neg hslides
    rw [hslide]
    exact ⟨rfl, hmoments⟩

end Slide

/-! ## A stream -/

section Stream

variable {n : Nat} {vs : List K} {st start : RingStatsState (Exact K) (Exact K)}

/-- **The state after a stream of numbers.** -/
structure RingStatsState.Tracks (n : Nat) (vs : List K)
    (st : RingStatsState (Exact K) (Exact K)) : Prop where
  count : st.count = min vs.length n
  head : st.head = vs.length % n
  /-- while it fills, the ring holds the samples in order -/
  filling : vs.length < n → st.buffer.take st.count = (window n vs).map val
  /-- a full ring holds the window, `head` pointing at the oldest sample -/
  full : n ≤ vs.length → st.buffer.rotate st.head = (window n vs).map val
  sum : st.sum = val (total id (window n vs))
  moments : MomentsOf id (window n vs) st
  /-- a window of one has no deviations -/
  single : n = 1 → st.m2 = val 0
  /-- recomputing mean and `m2` changes neither -/
  refresh : vs ≠ [] → ringStatsRefreshMeanM2FromBuffer st = { st with slidesSinceRefresh := 0 }
  stddev : ringStatsStddevSample st = ringStatsStddevSampleTwoPassReference st

/-- The two ways to the standard deviation, if `m2` and the cells in use are of the same
samples. -/
theorem MomentsOf.twoPass (h : MomentsOf id (window n vs) st) {zs : List K}
    (hperm : zs.Perm (window n vs)) (hcells : st.buffer.take st.count = zs.map val)
    (hcount : st.count = zs.length) :
    ringStatsStddevSample st = ringStatsStddevSampleTwoPassReference st := by
  rw [ringStatsStddevSample, ringStatsStddevSampleTwoPassReference]
  split
  case isTrue => rfl
  case isFalse htwo =>
    have hn0 : (zs.length : K) ≠ 0 := Nat.cast_ne_zero.2 (by omega)
    have hmean : div (ringStatsBufferSum (zs.map val)) (ofNat st.count) = val (mean id zs) := by
      have hsum : ringStatsBufferSum (zs.map val) = val (total id zs) := ringStatsBufferSum_val id zs
      rw [hsum, hcount, ofNat_val, div_val _ hn0, mean]
    have hss : ringStatsBufferSquares (val (mean id zs)) (zs.map val) = val (comoment id id zs) :=
      ringStatsBufferSquares_val id zs
    simp only [hcells, hmean, hss]
    rw [h.m2_eq, comoment_perm id id hperm]

theorem RingStatsState.Holds.tracks (h : st.Holds n (vs.map val))
    (hmoments : MomentsOf id (window n vs) st) (hn : 0 < n) : st.Tracks n vs := by
  obtain ⟨zs, hperm, hcells, hcount⟩ := h.exists_perm
  refine ⟨by rw [h.count, List.length_map], by rw [h.head, List.length_map], fun hfills => ?_,
    fun hfull => ?_, h.sum.numbers vs rfl, hmoments, fun hone => ?_, fun hne => ?_,
    hmoments.twoPass hperm hcells hcount⟩
  · rw [h.cells.1 (by simpa using hfills), window_of_length_le hfills.le]
  · rw [h.cells.2 (by simpa using hfull), window_map]
  · rw [hmoments.m2_eq, comoment_of_length_le_one id id (by rw [length_window]; omega)]
  · have hpos : 0 < vs.length := List.length_pos_iff.2 hne
    exact hmoments.refresh (List.ne_nil_of_length_pos (by rw [length_window]; omega)) hperm hcells
      hcount

omit [IsStrictOrderedRing K] in
theorem RingStatsState.tracks_init (hn : 0 < n) :
    (.init : RingStatsState (Exact K) (Exact K)).Tracks n [] := by
  refine ⟨by simp [init], by simp [init], fun _ => by simp [init], fun hfull => ?_, by simp [init],
    ⟨by simp [init, JitSignalEngine.mean], by simp [init, comoment]⟩, fun _ => by simp [init],
    fun hne => absurd rfl hne, by simp [init, ringStatsStddevSample,
      ringStatsStddevSampleTwoPassReference]⟩
  exact absurd hfull (by simp; omega)

/-- A default state, or one the prewarm set up. -/
def RingStatsState.IsStart (n : Nat) (st : RingStatsState (Exact K) (Exact K)) : Prop :=
  st = .init ∨ st = .reset n

/-- **Every stream.** By induction on the stream from the right: a push works on the state it
finds, the first one on a ring it sets up. -/
theorem ringStatsPushAll_tracks (hn : 0 < n) (hstart : start.IsStart n) (vs : List K) :
    ∃ st, ringStatsPushAll n start (vs.map val) = .ok st ∧ st.Tracks n vs ∧
      st.SameBut (ringStatsPushAllBare n start (vs.map val)) ∧
      (st.ready n).Holds n (vs.map val) ∧ MomentsOf id (window n vs) (st.ready n) := by
  induction vs using List.reverseRecOn with
  | nil =>
    have hready : start.ready n = .reset n := by
      rcases hstart with rfl | rfl
      · exact if_neg hn.ne
      · exact if_pos rfl
    have hholds := RingStatsState.holds_reset (K := K) n
    have hmoments : MomentsOf id (window n []) (.reset n : RingStatsState (Exact K) (Exact K)) := by
      rw [window_nil]
      exact (RingStatsState.recalls_reset n).numbers (by simp [remembered]) [] (window_nil n)
    refine ⟨start, rfl, ?_, rfl, hready ▸ hholds, hready ▸ hmoments⟩
    rcases hstart with rfl | rfl
    · exact RingStatsState.tracks_init hn
    · exact hholds.tracks hmoments hn
  | append_singleton vs v ih =>
    obtain ⟨st, hrun, -, hbare, hholds, hmoments⟩ := ih
    obtain ⟨hslide, hmoments'⟩ := ringStatsSlide_bare hmoments hholds hn v
    have hholds' := hholds.slide hn (val v)
    rw [← List.map_singleton, ← List.map_append] at hholds'
    have hready : (ringStatsSlide (st.ready n) (val v)).ready n = ringStatsSlide (st.ready n) (val v) :=
      if_pos hholds'.capacity
    have hpush : ringStatsPush st n (val v) = .ok (ringStatsSlide (st.ready n) (val v)) :=
      if_neg hn.ne'
    refine ⟨ringStatsSlide (st.ready n) (val v), ?_, hholds'.tracks hmoments' hn, ?_,
      hready.symm ▸ hholds', hready.symm ▸ hmoments'⟩
    · rw [ringStatsPushAll, List.map_append, List.map_singleton, List.foldlM_append,
        ← ringStatsPushAll, hrun]
      simp [bind, Except.bind, hpush, pure, Except.pure]
    · rw [ringStatsPushAllBare, List.map_append, List.map_singleton, List.foldl_append,
        ← ringStatsPushAllBare]
      exact hslide.trans (hbare.slideBare n (val v))

omit [IsStrictOrderedRing K] in
/-- On a ring that is set up the two pushes do the same. -/
theorem RingStatsState.Holds.pushAllPrepared_eq {xs : List (Exact K)} (h : st.Holds n xs)
    (hn : 0 < n) (ys : List (Exact K)) :
    ringStatsPushAllPrepared st ys = ringStatsPushAll n st ys := by
  induction ys generalizing st xs with
  | nil => rfl
  | cons y ys ih =>
    obtain ⟨hpush, hprepared⟩ := h.push_eq hn y
    have hrest := ih (h.slide hn y)
    rw [ringStatsPushAllPrepared, ringStatsPushAll] at hrest ⊢
    rw [List.foldlM_cons, List.foldlM_cons, hprepared, hpush]
    exact hrest

end Stream

/-- **Rolling statistics track their window.** After any stream of numbers the state is that of the
window, and it is the one bare pushes reach, so that neither the clamp nor a refresh ever changed
anything. From a default state with `RingStatsPush`, and from a prewarmed one with
`RingStatsPushPrepared`. -/
theorem ringStats_track_window {n : Nat} (hn : 0 < n) (vs : List K) :
    (∃ st, ringStatsPushAll n .init (vs.map val) = .ok st ∧ st.Tracks n vs ∧
      st.SameBut (ringStatsPushAllBare n .init (vs.map val))) ∧
    ∃ st, ringStatsPushAllPrepared (RingStatsState.init.prewarm n) (vs.map val) = .ok st ∧
      st.Tracks n vs ∧
      st.SameBut (ringStatsPushAllBare n (RingStatsState.init.prewarm n) (vs.map val)) := by
  constructor
  · obtain ⟨st, hrun, htracks, hbare, -⟩ := ringStatsPushAll_tracks hn (.inl rfl) vs
    exact ⟨st, hrun, htracks, hbare⟩
  · rw [RingStatsState.prewarm_init hn, (RingStatsState.holds_reset n).pushAllPrepared_eq hn]
    obtain ⟨st, hrun, htracks, hbare, -⟩ := ringStatsPushAll_tracks hn (.inr rfl) vs
    exact ⟨st, hrun, htracks, hbare⟩

/-- Two slides of a window of two. -/
theorem ringStats_track_window_two :
    ∃ st, ringStatsPushAll 2 .init ([1, 2, 4, 3].map (val : ℚ → Exact ℚ)) = .ok st ∧
      st.Tracks 2 [1, 2, 4, 3] ∧
      st.SameBut (ringStatsPushAllBare 2 .init ([1, 2, 4, 3].map val)) :=
  (ringStats_track_window Nat.two_pos [1, 2, 4, 3]).1

end JitSignalEngine
