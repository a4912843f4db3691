import JitSignalEngine.Exact
import JitSignalEngine.RingBuffer
import JitSignalEngine.SampleMoments

/-!
# Welford's update in exact arithmetic

Mean and `m2` of a `RingStatsState`, over samples `f w` that are numbers.

* `MomentsOf` — mean and `m2` are those of a window.
* `ringStatsMoveMeanM2` — the update of a full window without the clamp at its end.
* `ringStatsAdmit_fill`, `ringStatsAdmit_slide` — a push keeps that, while the window fills and
  when it slides. The clamp does nothing.
* `ringStatsRefresh_val` — mean and `m2` recomputed from the ring.
* `ringStatsAdmit_nan`, `ringStatsRefresh_nan` — a NaN among them makes both NaN.
-/

namespace JitSignalEngine

open Fp Widen Exact

variable {ι K : Type} [Field K] [LinearOrder K] [IsStrictOrderedRing K] [Transcendental K]

omit [LinearOrder K] [IsStrictOrderedRing K] [Transcendental K] in
/-- A summation loop of the source over numbers. -/
theorem foldl_add_val (f : ι → K) (step : Exact K → ι → Exact K)
    (hstep : ∀ a i, step (val a) i = val (a + f i)) (is : List ι) (a : K) :
    is.foldl step (val a) = val (a + total f is) := by
  induction is generalizing a with
  | nil => simp
  | cons i is ih => rw [List.foldl_cons, hstep, ih, total_cons, add_assoc]

omit [IsStrictOrderedRing K] in
/-- The clamps of the source. -/
theorem clamp_val (x : K) :
    (if lt (val x) (val 0) then val 0 else val x) = val (max 0 x) := by
  rw [lt_val]
  rcases lt_or_ge x 0 with h | h
  · rw [if_pos (by simpa using h), max_eq_left h.le]
  · rw [if_neg (by simpa using h), max_eq_right h]

/-- The refresh counter after one push more: it is due at every `n`-th sample. -/
theorem refresh_cases {n k : Nat} (hn : 0 < n) (hk : n ≤ k) :
    ((k - n) % n + 1 = n ∧ n ∣ k + 1 ∧ (k + 1 - n) % n = 0) ∨
      ((k - n) % n + 1 < n ∧ ¬ n ∣ k + 1 ∧ (k + 1 - n) % n = (k - n) % n + 1) := by
  obtain ⟨j, rfl⟩ := Nat.exists_eq_add_of_le hk
  rw [Nat.add_assoc, Nat.add_sub_cancel_left, Nat.add_sub_cancel_left,
    Nat.dvd_add_right (Nat.dvd_refl n)]
  have hj : (j + 1) % n = (j % n + 1) % n := by rw [Nat.add_mod, Nat.add_mod (j % n)]; simp
  rw [Nat.dvd_iff_mod_eq_zero, hj]
  rcases Nat.lt_or_eq_of_le (Nat.succ_le_of_lt (Nat.mod_lt j hn)) with hlt | heq
  · rw [Nat.mod_eq_of_lt hlt]
    exact .inr ⟨hlt, Nat.succ_ne_zero _, rfl⟩
  · rw [show j % n + 1 = n from heq, Nat.mod_self]
    exact .inl ⟨rfl, rfl, rfl⟩

/-! ## Without the clamp -/

section Bare

variable {D L : Type} [Fp L] [Widen D L]

/-- `RingStatsUpdateMeanM2OnSlide` without the clamp at its end. -/
def ringStatsMoveMeanM2 (st : RingStatsState D L) (oldSample newSample : D) : RingStatsState D L :=
  if st.capacity ≤ 1 then { st with mean := widen newSample, m2 := ofNat 0 }
  else
    let delta := sub (widen oldSample) st.mean
    let mean := sub st.mean (div delta (sub (ofNat st.count) (ofNat 1)))
    let m2 := sub st.m2 (mul delta (sub (widen oldSample) mean))
    let delta := sub (widen newSample) mean
    let mean := add mean (div delta (ofNat st.count))
    { st with mean := mean, m2 := add m2 (mul delta (sub (widen newSample) mean)) }

/-- The clamp. -/
theorem ringStatsUpdateMeanM2OnSlide_eq (st : RingStatsState D L) (old new : D)
    (hcapacity : ¬ st.capacity ≤ 1) :
    ringStatsUpdateMeanM2OnSlide st old new = { ringStatsMoveMeanM2 st old new with
      m2 := if lt (ringStatsMoveMeanM2 st old new).m2 (ofNat 0) then ofNat 0
        else (ringStatsMoveMeanM2 st old new).m2 } := by
  simp only [ringStatsUpdateMeanM2OnSlide, ringStatsMoveMeanM2, if_neg hcapacity]

end Bare

/-! ## Numbers -/

section Numbers

variable {f : ι → K} {st : RingStatsState (Exact K) (Exact K)} {w rest : List ι} {old : ι}

/-- Mean and `m2` belong to a window. -/
structure MomentsOf (f : ι → K) (w : List ι) (st : RingStatsState (Exact K) (Exact K)) : Prop where
  mean_eq : st.mean = val (mean f w)
  m2_eq : st.m2 = val (comoment f f w)

omit [LinearOrder K] [IsStrictOrderedRing K] [Transcendental K] in
theorem MomentsOf.withSum (h : MomentsOf f w st) (sum : Exact K) :
    MomentsOf f w { st with sum := sum } := ⟨h.mean_eq, h.m2_eq⟩

/-- One sample more in a window that fills. -/
theorem ringStatsAdmit_fill (h : MomentsOf f w st) (hcount : st.count = w.length)
    (hfills : ¬ st.count = st.capacity) (p : ι) :
    ringStatsAdmit st (val (f p)) = { st with
      count := st.count + 1
      mean := val (mean f (w ++ [p]))
      m2 := val (comoment f f (w ++ [p])) } := by
  have hpos : ((w.length + 1 : Nat) : K) ≠ 0 := Nat.cast_ne_zero.2 (Nat.succ_ne_zero _)
  rw [ringStatsAdmit, if_neg hfills]
  simp only [ringStatsUpdateMeanM2OnAdd, h.mean_eq, h.m2_eq, hcount, ofNat_val, widen_eq, sub_val,
    div_val _ hpos, add_val, mul_val, ← mean_append, ← comoment_append]

/-- A new sample in a full window, without the clamp. -/
theorem ringStatsMove_slide (h : MomentsOf f (old :: rest) st) (hrest : rest ≠ [])
    (hcount : st.count = rest.length + 1) (hcapacity : st.capacity = rest.length + 1) (p : ι) :
    ringStatsMoveMeanM2 st (val (f old)) (val (f p)) = { st with
      mean := val (mean f (rest ++ [p]))
      m2 := val (comoment f f (rest ++ [p])) } := by
  have hpos : 0 < rest.length := List.length_pos_of_ne_nil hrest
  have hone : ¬ rest.length + 1 ≤ 1 := by omega
  have hn0 : ((rest.length + 1 : Nat) : K) ≠ 0 := Nat.cast_ne_zero.2 (by omega)
  have hn1 : ((rest.length + 1 : Nat) : K) - 1 ≠ 0 :=
    sub_ne_zero.2 (Nat.cast_eq_one.not.2 (by omega))
  -- the accumulators without the oldest sample, and with the new one
  have hmeanR := mean_remove f old rest hrest
  have hm2R := comoment_remove f f old rest
  have hmeanA := mean_append f rest p
  have hm2A := comoment_append f f rest p
  rw [List.length_cons] at hmeanR
  simp only [ringStatsMoveMeanM2, hcapacity, if_neg hone, h.mean_eq, h.m2_eq, hcount, ofNat_val,
    Nat.cast_one, widen_eq, sub_val, div_val _ hn0, div_val _ hn1, add_val, mul_val, ← hmeanR,
    ← hm2R, ← hmeanA, ← hm2A]

/-- A new sample in a full window, over the oldest one. -/
theorem ringStatsAdmit_slide (h : MomentsOf f (old :: rest) st) (hrest : rest ≠ [])
    (hcount : st.count = rest.length + 1) (hcapacity : st.capacity = rest.length + 1)
    (hold : st.buffer.getD st.head (val 0) = val (f old)) (p : ι) :
    ringStatsAdmit st (val (f p)) = { st with
      sum := sub st.sum (val (f old))
      mean := val (mean f (rest ++ [p]))
      m2 := val (comoment f f (rest ++ [p])) } := by
  have hone : ¬ st.capacity ≤ 1 := by
    have := List.length_pos_of_ne_nil hrest
    omega
  rw [ringStatsAdmit, if_pos (hcount.trans hcapacity.symm)]
  simp only [ofNat_val, Nat.cast_zero, hold, widen_eq]
  rw [ringStatsUpdateMeanM2OnSlide_eq { st with sum := sub st.sum (val (f old)) } _ _ hone,
    ringStatsMove_slide (h.withSum (sub st.sum (val (f old)))) hrest hcount hcapacity p]
  simp only [ofNat_val, Nat.cast_zero, clamp_val, max_eq_right (comoment_self_nonneg _ _)]

omit [IsStrictOrderedRing K] in
/-- The summation loop over some cells. -/
theorem ringStatsBufferSum_val (f : ι → K) (xs : List ι) :
    ringStatsBufferSum (xs.map fun p => val (f p)) = (val (total f xs) : Exact K) := by
  rw [ringStatsBufferSum, List.foldl_map, ofNat_val, Nat.cast_zero, ← zero_add (total _ xs)]
  exact foldl_add_val f _ (fun _ _ => rfl) xs 0

omit [IsStrictOrderedRing K] in
/-- The deviation loop over some cells. -/
theorem ringStatsBufferSquares_val (f : ι → K) (xs : List ι) :
    ringStatsBufferSquares (val (mean f xs)) (xs.map fun p => val (f p)) =
      (val (comoment f f xs) : Exact K) := by
  rw [ringStatsBufferSquares, List.foldl_map, ofNat_val, Nat.cast_zero, comoment,
    ← zero_add (total _ xs)]
  exact foldl_add_val _ _ (fun _ _ => rfl) xs 0

/-- Mean and `m2` recomputed from the cells in use. -/
theorem ringStatsRefresh_val {xs : List ι}
    (hcells : st.buffer.take st.count = xs.map fun p => val (f p)) (hcount : st.count = xs.length)
    (hne : xs ≠ []) :
    ringStatsRefreshMeanM2FromBuffer st = { st with
      mean := val (mean f xs)
      m2 := val (comoment f f xs)
      slidesSinceRefresh := 0 } := by
  have hn0 : (xs.length : K) ≠ 0 := Nat.cast_ne_zero.2 (by simpa using hne)
  have hmean : div (val (total f xs)) (ofNat st.count) = (val (mean f xs) : Exact K) := by
    rw [hcount, ofNat_val, div_val _ hn0, mean]
  simp only [ringStatsRefreshMeanM2FromBuffer, hcells, ringStatsBufferSum_val, hmean,
    ringStatsBufferSquares_val]
  rw [ofNat_val, Nat.cast_zero, clamp_val, max_eq_right (comoment_self_nonneg _ _)]

end Numbers

/-! ## NaN -/

section NaN

variable {st : RingStatsState (Exact K) (Exact K)}

omit [IsStrictOrderedRing K] in
@[simp] theorem Exact.add_nan_left (x : Exact K) : add Exact.nan x = Exact.nan := rfl

omit [IsStrictOrderedRing K] in
@[simp] theorem Exact.add_nan_right (x : Exact K) : add x Exact.nan = Exact.nan := by
  cases x <;> rfl

omit [IsStrictOrderedRing K] in
@[simp] theorem Exact.sub_nan_left (x : Exact K) : sub Exact.nan x = Exact.nan := rfl

omit [IsStrictOrderedRing K] in
@[simp] theorem Exact.sub_nan_right (x : Exact K) : sub x Exact.nan = Exact.nan := by
  cases x <;> rfl

omit [IsStrictOrderedRing K] in
@[simp] theorem Exact.mul_nan_left (x : Exact K) : mul Exact.nan x = Exact.nan := rfl

omit [IsStrictOrderedRing K] in
@[simp] theorem Exact.mul_nan_right (x : Exact K) : mul x Exact.nan = Exact.nan := by
  cases x <;> rfl

omit [IsStrictOrderedRing K] in
@[simp] theorem Exact.div_nan_left (x : Exact K) : div Exact.nan x = Exact.nan := rfl

omit [IsStrictOrderedRing K] in
@[simp] theorem Exact.div_nan_right (x : Exact K) : div x Exact.nan = Exact.nan := by
  cases x <;> rfl

omit [IsStrictOrderedRing K] in
@[simp] theorem Exact.lt_nan_left (x : Exact K) : lt Exact.nan x = false := rfl

omit [IsStrictOrderedRing K] in
@[simp] theorem Exact.lt_nan_right (x : Exact K) : lt x Exact.nan = false := by
  cases x <;> rfl

omit [IsStrictOrderedRing K] in
@[simp] theorem Exact.le_nan_left (x : Exact K) : le Exact.nan x = false := rfl

omit [IsStrictOrderedRing K] in
@[simp] theorem Exact.eq_nan_left (x : Exact K) : eq Exact.nan x = false := rfl

omit [IsStrictOrderedRing K] in
@[simp] theorem Exact.sqrt_nan : sqrt (Exact.nan : Exact K) = Exact.nan := rfl

/-- Mean and `m2` are NaN. -/
structure NaNMoments (st : RingStatsState (Exact K) (Exact K)) : Prop where
  mean_eq : st.mean = .nan
  m2_eq : st.m2 = .nan

omit [IsStrictOrderedRing K] in
/-- **NaN stays**: a NaN sample, or any sample after it. -/
theorem ringStatsAdmit_nan {x : Exact K} (h : x = .nan ∨ NaNMoments st)
    (hcapacity : ¬ st.capacity ≤ 1) : NaNMoments (ringStatsAdmit st x) := by
  rw [ringStatsAdmit]
  split
  · simp only [ringStatsUpdateMeanM2OnSlide, if_neg hcapacity, widen_eq]
    rcases h with rfl | h
    · exact ⟨by simp, by simp⟩
    · exact ⟨by simp [h.mean_eq], by simp [h.m2_eq]⟩
  · simp only [ringStatsUpdateMeanM2OnAdd, widen_eq]
    rcases h with rfl | h
    · exact ⟨by simp, by simp⟩
    · exact ⟨by simp [h.mean_eq], by simp [h.m2_eq]⟩

omit [Field K] [LinearOrder K] [IsStrictOrderedRing K] [Transcendental K] in
/-- A summation loop over a NaN. -/
theorem foldl_nan {α : Type} (step : Exact K → α → Exact K) (hstep : ∀ x, step .nan x = .nan)
    {x : α} (hx : ∀ a, step a x = .nan) {xs : List α} (hmem : x ∈ xs) (a : Exact K) :
    xs.foldl step a = .nan := by
  have hrest : ∀ ys : List α, ys.foldl step .nan = .nan := by
    intro ys
    induction ys with
    | nil => rfl
    | cons y ys ih => rw [List.foldl_cons, hstep, ih]
  induction xs generalizing a with
  | nil => cases hmem
  | cons y ys ih =>
    rcases List.mem_cons.mp hmem with rfl | hmem
    · rw [List.foldl_cons, hx, hrest]
    · exact ih hmem _

omit [IsStrictOrderedRing K] in
/-- A refresh from a ring that holds a NaN. -/
theorem ringStatsRefresh_nan (hmem : (Exact.nan : Exact K) ∈ st.buffer.take st.count) :
    NaNMoments (ringStatsRefreshMeanM2FromBuffer st) := by
  have hsum : ringStatsBufferSum (st.buffer.take st.count) = (.nan : Exact K) :=
    foldl_nan _ (fun _ => rfl) (fun _ => Exact.add_nan_right _) hmem _
  have hss : ∀ m, ringStatsBufferSquares m (st.buffer.take st.count) = (.nan : Exact K) :=
    fun m => foldl_nan _ (fun _ => rfl) (fun _ => by simp) hmem _
  simp only [ringStatsRefreshMeanM2FromBuffer, hsum, hss]
  exact ⟨by simp, by simp⟩

end NaN

end JitSignalEngine
