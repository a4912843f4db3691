import JitSignalEngine.GradientOps
import JitSignalEngine.RollingMoments
import Mathlib.Algebra.Order.BigOperators.Group.List

/-!
# The tangent of a rolling variance

`rolling_std` and `zscore` keep the mean of a window and the sum `m2` of its squared
deviations, and the gradient step keeps their derivatives. In exact arithmetic:

* `Accumulates` — both rings hold the window, and mean, `m2` and the derivative of the mean
  are those of the window.
* `DerivesWindow.push` — every push keeps that, and it moves the derivative of `m2` by the
  right amount, except that a push that slides the window without a refresh replaces a
  negative result by zero.
* `rolling_std_tangent_iff` — so the derivative of `m2` is right after every push exactly if it
  is never negative where that replacement is made.

A derivative of `m2` is negative as soon as a window tightens.
-/

namespace JitSignalEngine

open Fp Widen Exact

variable {K : Type} [Field K] [LinearOrder K] [IsStrictOrderedRing K]

/-! ## What the step should keep -/

/-- `Σ 2 (x_i - mean) (x'_i - mean')` over a window, the derivative of `Σ (x_i - mean)²`. -/
def squaresTangent (w : List (K × K)) : K :=
  total (fun p => 2 * (p.1 - mean Prod.fst w) * (p.2 - mean Prod.snd w)) w

omit [LinearOrder K] [IsStrictOrderedRing K] in
theorem squaresTangent_eq (w : List (K × K)) :
    squaresTangent w = 2 * comoment Prod.fst Prod.snd w := by
  rw [squaresTangent, comoment, total, total, ← List.sum_map_mul_left]
  simp only [mul_assoc]

omit [LinearOrder K] [IsStrictOrderedRing K] in
/-- It is the derivative: the coefficient of `t` when every sample moves by `t` times its
tangent. -/
theorem squaresTangent_derivative (w : List (K × K)) (t : K) :
    comoment (fun p => p.1 + t * p.2) (fun p => p.1 + t * p.2) w =
      comoment Prod.fst Prod.fst w + t * squaresTangent w +
        t ^ 2 * comoment Prod.snd Prod.snd w := by
  rw [squaresTangent_eq, comoment_moved]

/-- Welford's update with tangents: one pair more. -/
theorem squaresTangent_append (w : List (K × K)) (p : K × K) :
    squaresTangent (w ++ [p]) = squaresTangent w +
      ((p.2 - mean Prod.snd w) * (p.1 - mean Prod.fst (w ++ [p])) +
        (p.1 - mean Prod.fst w) * (p.2 - mean Prod.snd (w ++ [p]))) := by
  have hfst := comoment_append Prod.fst Prod.snd w p
  have hsnd := comoment_append Prod.snd Prod.fst w p
  rw [comoment_comm Prod.snd _ w, comoment_comm Prod.snd] at hsnd
  rw [squaresTangent_eq, squaresTangent_eq]
  linear_combination hfst + hsnd

/-- Welford's update with tangents: one pair less. -/
theorem squaresTangent_remove (p : K × K) (w : List (K × K)) :
    squaresTangent w = squaresTangent (p :: w) -
      (p.2 - mean Prod.snd (p :: w)) * (p.1 - mean Prod.fst w) -
      (p.1 - mean Prod.fst (p :: w)) * (p.2 - mean Prod.snd w) := by
  have hfst := comoment_remove Prod.fst Prod.snd p w
  have hsnd := comoment_remove Prod.snd Prod.fst p w
  rw [comoment_comm Prod.snd _ w, comoment_comm Prod.snd] at hsnd
  rw [squaresTangent_eq, squaresTangent_eq]
  linear_combination hfst + hsnd

/-- The states of `rolling_std` or `zscore` at one node and one parameter. -/
abbrev RollingStdGradState (K : Type) : Type :=
  WithTangent (RingStatsState (Exact K) (Exact K)) (RollingStdSensitivityState (Exact K))

/-- A sample and its tangent. -/
def sample (p : K × K) : ValueGradient (Exact K) := ⟨.val p.1, .val p.2⟩

omit [Field K] [LinearOrder K] [IsStrictOrderedRing K] in
@[simp] theorem sample_value (p : K × K) : (sample p).value = .val p.1 := rfl

omit [Field K] [LinearOrder K] [IsStrictOrderedRing K] in
@[simp] theorem sample_gradient (p : K × K) : (sample p).gradient = .val p.2 := rfl

variable [Transcendental K]

/-- The states after a stream of samples. -/
def rollingStdGradRun (n : Nat) (st : RollingStdGradState K) (ps : List (K × K)) :
    RollingStdGradState K :=
  ps.foldl (fun st p => rollingStdGradStep st n (sample p)) st

/-- `grad.mean` and `grad.m2` belong to a window. -/
def TangentOf (w : List (K × K)) (grad : RollingStdSensitivityState (Exact K)) : Prop :=
  grad.mean = .val (mean Prod.snd w) ∧ grad.m2 = .val (squaresTangent w)

/-- Everything but the derivative of `m2` and the refresh counters is that of the last `n` of
`ps`. -/
structure Accumulates (n : Nat) (ps : List (K × K)) (st : RollingStdGradState K) : Prop where
  primal_capacity : st.primal.capacity = n
  grad_capacity : st.grad.capacity = n
  primal_head : st.primal.head = ps.length % n
  grad_head : st.grad.head = ps.length % n
  count : st.primal.count = min ps.length n
  values : HoldsWindow n (ps.map fun p => Exact.val p.1) st.primal.buffer
  tangents : HoldsWindow n (ps.map fun p => Exact.val p.2) st.grad.buffer
  mean_eq : st.primal.mean = .val (mean Prod.fst (window n ps))
  m2_eq : st.primal.m2 = .val (comoment Prod.fst Prod.fst (window n ps))
  meanPrime_eq : st.grad.mean = .val (mean Prod.snd (window n ps))

/-! ## One push -/

variable {n : Nat} {ps : List (K × K)} {st : RollingStdGradState K}

omit [LinearOrder K] [IsStrictOrderedRing K] [Transcendental K] in
theorem Accumulates.moments (h : Accumulates n ps st) :
    MomentsOf Prod.fst (window n ps) st.primal := ⟨h.mean_eq, h.m2_eq⟩

omit [IsStrictOrderedRing K] in
/-- The write of a sample, once the accumulators count it. -/
theorem Accumulates.write (h : Accumulates n ps st) (hn : 0 < n) (p : K × K)
    {primal : RingStatsState (Exact K) (Exact K)} {grad : RollingStdSensitivityState (Exact K)}
    {sum m2Prime : Exact K} {count : Nat}
    (hprimal : primal = { st.primal with
      count := min (ps.length + 1) n
      sum := sum
      mean := .val (mean Prod.fst (window n (ps ++ [p])))
      m2 := .val (comoment Prod.fst Prod.fst (window n (ps ++ [p]))) })
    (hgrad : grad = { st.grad with
      count := count
      mean := .val (mean Prod.snd (window n (ps ++ [p])))
      m2 := m2Prime }) :
    Accumulates n (ps ++ [p])
      ⟨ringStatsWrite primal (.val p.1), rollingStdGradWrite grad (Exact.val p.2)⟩ := by
  have hvalues := h.values.push (.val p.1) hn
  have htangents := h.tangents.push (.val p.2) hn
  rw [List.length_map] at hvalues htangents
  subst hprimal hgrad
  constructor
  case primal_capacity => exact h.primal_capacity
  case grad_capacity => exact h.grad_capacity
  case primal_head => simp [ringStatsWrite, h.primal_capacity, h.primal_head]
  case grad_head => simp [rollingStdGradWrite, h.grad_capacity, h.grad_head]
  case count => simp [ringStatsWrite]
  case values => simpa [ringStatsWrite, h.primal_head] using hvalues
  case tangents => simpa [rollingStdGradWrite, h.grad_head] using htangents
  case mean_eq => rfl
  case m2_eq => rfl
  case meanPrime_eq => rfl

omit [LinearOrder K] [Transcendental K] [IsStrictOrderedRing K] in
theorem Accumulates.buffer_nonempty (h : Accumulates n ps st) (hn : 0 < n) :
    st.grad.buffer.isEmpty = false := by
  rw [List.isEmpty_eq_false_iff, ← List.length_pos_iff, h.tangents.length_eq]
  exact hn

/-- A push while the window fills. What `grad.m2` is off by, `e`, stays. -/
theorem Accumulates.fill (h : Accumulates n ps st) (hlt : ps.length < n) (p : K × K) {e : K}
    (he : st.grad.m2 = .val (squaresTangent (window n ps) + e)) :
    Accumulates n (ps ++ [p]) (rollingStdGradSlide st (sample p)) ∧
      (rollingStdGradSlide st (sample p)).grad.m2 =
        .val (squaresTangent (window n (ps ++ [p])) + e) ∧
      (rollingStdGradSlide st (sample p)).grad.slidesSinceRefresh =
        st.grad.slidesSinceRefresh := by
  have hcount : st.primal.count = ps.length := by rw [h.count]; omega
  have hfills : ¬ st.primal.count = st.primal.capacity := by rw [hcount, h.primal_capacity]; omega
  have hpos : ((ps.length + 1 : Nat) : K) ≠ 0 := Nat.cast_ne_zero.2 (by omega)
  have hlength : (window n ps).length = ps.length := by rw [length_window]; omega
  have hmean := mean_append Prod.fst (window n ps) p
  have hmeanPrime := mean_append Prod.snd (window n ps) p
  have htangent := squaresTangent_append (window n ps) p
  rw [← window_fill p hlt] at hmean hmeanPrime htangent
  rw [hlength] at hmean hmeanPrime
  have hprimal : ringStatsAdmit st.primal (.val p.1) = { st.primal with
      count := min (ps.length + 1) n
      sum := st.primal.sum
      mean := .val (mean Prod.fst (window n (ps ++ [p])))
      m2 := .val (comoment Prod.fst Prod.fst (window n (ps ++ [p]))) } := by
    rw [ringStatsAdmit_fill h.moments (hcount.trans hlength.symm) hfills, ← window_fill p hlt, hcount,
      Nat.min_eq_left hlt]
  have hgrad : rollingStdGradOnAdd st.primal st.grad (sample p) = { st.grad with
      count := st.grad.count + 1
      mean := .val (mean Prod.snd (window n (ps ++ [p])))
      m2 := .val (squaresTangent (window n (ps ++ [p])) + e) } := by
    simp only [rollingStdGradOnAdd, sample_value, sample_gradient, h.mean_eq, h.meanPrime_eq, he,
      hcount, ofNat_val, widen_eq, sub_val, div_val _ hpos, add_val, mul_val, ← hmean, ← hmeanPrime]
    rw [htangent, add_right_comm]
  have hwrite := h.write (by omega) p hprimal hgrad
  have hslide : rollingStdGradSlide st (sample p) =
      ⟨ringStatsWrite (ringStatsAdmit st.primal (.val p.1)) (.val p.1),
        rollingStdGradWrite (rollingStdGradOnAdd st.primal st.grad (sample p)) (Exact.val p.2)⟩ := by
    have hempty : (rollingStdGradOnAdd st.primal st.grad (sample p)).buffer.isEmpty = false :=
      h.buffer_nonempty (by omega)
    simp only [rollingStdGradSlide, if_neg hfills, hempty, sample_value, sample_gradient,
      Bool.false_eq_true, if_false]
  rw [hslide]
  exact ⟨hwrite, by rw [hgrad]; rfl, rfl⟩

/-- A push into a full window, up to the refresh. A negative `grad.m2` is replaced by zero. -/
theorem Accumulates.slide (h : Accumulates n ps st) (hn : 2 ≤ n) (hfull : n ≤ ps.length)
    (p : K × K) {e : K} (he : st.grad.m2 = .val (squaresTangent (window n ps) + e)) :
    ∃ st' : RollingStdGradState K, rollingStdGradSlide st (sample p) = rollingStdGradTick st' ∧
      Accumulates n (ps ++ [p]) st' ∧
      st'.grad.m2 = .val (max 0 (squaresTangent (window n (ps ++ [p])) + e)) ∧
      st'.grad.slidesSinceRefresh = st.grad.slidesSinceRefresh := by
  have hcount : st.primal.count = n := by rw [h.count]; omega
  have hslid : st.primal.count = st.primal.capacity := by rw [hcount, h.primal_capacity]
  have hone : ¬ n ≤ 1 := by omega
  obtain ⟨old, rest, hold, hw, hw'⟩ := window_slide p (by omega) hfull
  have hlength : rest.length + 1 = n := by
    have := length_window n ps
    rw [hw, List.length_cons] at this
    omega
  have hn0 : (n : K) ≠ 0 := Nat.cast_ne_zero.2 (by omega)
  have hn1 : (n : K) - 1 ≠ 0 := sub_ne_zero.2 (Nat.cast_eq_one.not.2 (by omega))
  have hrest : rest ≠ [] := List.ne_nil_of_length_pos (by omega)
  -- what the ring cells to be written over hold
  have hvalue : st.primal.buffer.getD st.primal.head (.val 0) = .val old.1 := by
    have hcell := h.values.oldest (by omega) (by simpa using hfull)
    rw [List.length_map, List.getElem?_map, hold] at hcell
    rw [h.primal_head, List.getD_eq_getElem?_getD, hcell]
    rfl
  have htangent : st.grad.buffer.getD st.grad.head (.val 0) = .val old.2 := by
    have hcell := h.tangents.oldest (by omega) (by simpa using hfull)
    rw [List.length_map, List.getElem?_map, hold] at hcell
    rw [h.grad_head, List.getD_eq_getElem?_getD, hcell]
    rfl
  -- the accumulators without the oldest sample, and with the new one
  have hlast : (((old :: rest).length : Nat) : K) = n := by rw [List.length_cons, hlength]
  have hmeanR := mean_remove Prod.fst old rest hrest
  have hmeanRPrime := mean_remove Prod.snd old rest hrest
  have htangentR := squaresTangent_remove old rest
  have hmeanA := mean_append Prod.fst rest p
  have hmeanAPrime := mean_append Prod.snd rest p
  have htangentA := squaresTangent_append rest p
  rw [hlast, ← hw] at hmeanR hmeanRPrime
  rw [← hw] at htangentR
  rw [hlength] at hmeanA hmeanAPrime
  rw [← hw'] at hmeanA hmeanAPrime htangentA
  have hprimal : ringStatsAdmit st.primal (.val p.1) = { st.primal with
      count := min (ps.length + 1) n
      sum := sub st.primal.sum (.val old.1)
      mean := .val (mean Prod.fst (window n (ps ++ [p])))
      m2 := .val (comoment Prod.fst Prod.fst (window n (ps ++ [p]))) } := by
    have hcount' : min (ps.length + 1) n = st.primal.count := by omega
    have hmoments : MomentsOf Prod.fst (old :: rest) st.primal := hw ▸ h.moments
    rw [ringStatsAdmit_slide hmoments hrest (hcount.trans hlength.symm)
      (h.primal_capacity.trans hlength.symm) hvalue, ← hw', hcount']
  have hgrad : rollingStdGradOnSlide st.primal st.grad (sample p) = { st.grad with
      count := st.grad.count
      mean := .val (mean Prod.snd (window n (ps ++ [p])))
      m2 := .val (max 0 (squaresTangent (window n (ps ++ [p])) + e)) } := by
    simp only [rollingStdGradOnSlide, h.primal_capacity, if_neg hone, sample_value, sample_gradient,
      h.mean_eq, h.meanPrime_eq, he, hcount, ofNat_val, Nat.cast_zero, Nat.cast_one, hvalue,
      htangent, widen_eq, sub_val, div_val _ hn0, div_val _ hn1, add_val, mul_val, ← hmeanR,
      ← hmeanRPrime, ← hmeanA, ← hmeanAPrime, clamp_val]
    congr 3
    linear_combination -htangentA - htangentR
  refine ⟨⟨ringStatsWrite (ringStatsAdmit st.primal (.val p.1)) (.val p.1),
    rollingStdGradWrite (rollingStdGradOnSlide st.primal st.grad (sample p)) (Exact.val p.2)⟩,
    ?_, h.write (by omega) p hprimal hgrad, by rw [hgrad]; rfl, by rw [hgrad]; rfl⟩
  have hempty : (rollingStdGradOnSlide st.primal st.grad (sample p)).buffer.isEmpty = false := by
    rw [hgrad]
    exact h.buffer_nonempty (by omega)
  simp only [rollingStdGradSlide, if_pos hslid, hempty, sample_value, sample_gradient,
    Bool.false_eq_true, if_false]

/-! ## The refresh -/

/-- Mean and `m2` recomputed from a full ring, with the tangents. -/
theorem Accumulates.refresh (h : Accumulates n ps st) (hn : 2 ≤ n) (hfull : n ≤ ps.length)
    {primal : RingStatsState (Exact K) (Exact K)} {grad : RollingStdSensitivityState (Exact K)}
    (hprimal : primal = ringStatsRefreshMeanM2FromBuffer st.primal)
    (hgrad : grad = rollingStdRefreshSensitivity st.grad primal) :
    Accumulates n ps ⟨primal, grad⟩ ∧ grad.m2 = .val (squaresTangent (window n ps)) := by
  have hcount : st.primal.count = n := by rw [h.count]; omega
  have hn0 : (n : K) ≠ 0 := Nat.cast_ne_zero.2 (by omega)
  have hlength : (window n ps).length = n := by rw [length_window]; omega
  have hall' : st.grad.buffer.take n = st.grad.buffer :=
    List.take_of_length_le h.tangents.length_eq.le
  have hboth : HoldsWindow n (ps.map fun p => (Exact.val p.1, Exact.val p.2))
      (st.primal.buffer.zip st.grad.buffer) :=
    .zip (by simpa [Function.comp_def] using h.values) (by simpa [Function.comp_def] using h.tangents)
  have hall'' := List.take_of_length_le hboth.length_eq.le
  obtain ⟨xs, hxs, hvalues⟩ := h.values.map_eq hfull
  obtain ⟨ys, hys, htangents⟩ := h.tangents.map_eq hfull
  obtain ⟨zs, hzs, hzip⟩ := hboth.map_eq hfull
  -- the loops over the tangents
  have hsum' : (st.grad.buffer.take st.primal.count).foldl add (ofNat 0) =
      Exact.val (total Prod.snd (window n ps)) := by
    rw [hcount, hall', htangents, List.foldl_map, ofNat_val, Nat.cast_zero, ← total_perm _ hys,
      ← zero_add (total _ ys)]
    exact foldl_add_val Prod.snd _ (fun _ _ => rfl) ys 0
  have hcells : st.primal.buffer.take st.primal.count = xs.map fun p => .val p.1 := by
    rw [hvalues, hcount, List.take_of_length_le (by simp [hxs.length_eq, hlength])]
  have hprimal' : primal = { st.primal with
      mean := .val (mean Prod.fst (window n ps))
      m2 := .val (comoment Prod.fst Prod.fst (window n ps))
      slidesSinceRefresh := 0 } := by
    have hxsLength : xs.length = n := hxs.length_eq.trans hlength
    have hne : xs ≠ [] := List.ne_nil_of_length_pos (by omega)
    rw [hprimal, ringStatsRefresh_val hcells (hcount.trans hxsLength.symm) hne, mean_perm _ hxs,
      comoment_perm _ _ hxs]
  have hgrad' : grad = { st.grad with
      mean := .val (mean Prod.snd (window n ps))
      m2 := .val (squaresTangent (window n ps))
      slidesSinceRefresh := 0 } := by
    have hmean : div (.val (total Prod.snd (window n ps))) (ofNat st.primal.count) =
        Exact.val (mean Prod.snd (window n ps)) := by
      rw [hcount, ofNat_val, div_val _ hn0, mean, hlength]
    rw [hgrad, hprimal']
    simp only [rollingStdRefreshSensitivity, hsum', hmean]
    rw [hcount, hall'', hzip, List.foldl_map, ofNat_val, ofNat_val, Nat.cast_zero, Nat.cast_two,
      squaresTangent, ← total_perm _ hzs, ← zero_add (total _ zs)]
    congr 1
    exact foldl_add_val _ _ (fun _ _ => rfl) zs 0
  subst hprimal' hgrad'
  exact ⟨⟨h.primal_capacity, h.grad_capacity, h.primal_head, h.grad_head, h.count, h.values,
    h.tangents, rfl, rfl, rfl⟩, rfl⟩

/-- The end of a push into a full window. -/
theorem Accumulates.tick {p : K × K} (h : Accumulates n (ps ++ [p]) st) (hn : 2 ≤ n)
    (hfull : n ≤ ps.length) {b : K} (hb : st.grad.m2 = .val b)
    (hslides : st.grad.slidesSinceRefresh = (ps.length - n) % n) :
    Accumulates n (ps ++ [p]) (rollingStdGradTick st) ∧
      (rollingStdGradTick st).grad.m2 =
        .val (if n ∣ ps.length + 1 then squaresTangent (window n (ps ++ [p])) else b) ∧
      (rollingStdGradTick st).grad.slidesSinceRefresh = (ps.length + 1 - n) % n := by
  have hcounted : Accumulates n (ps ++ [p])
      ⟨{ st.primal with slidesSinceRefresh := st.primal.slidesSinceRefresh + 1 },
        { st.grad with slidesSinceRefresh := st.grad.slidesSinceRefresh + 1 }⟩ :=
    ⟨h.primal_capacity, h.grad_capacity, h.primal_head, h.grad_head, h.count, h.values, h.tangents,
      h.mean_eq, h.m2_eq, h.meanPrime_eq⟩
  have hcap := h.grad_capacity
  simp only [rollingStdGradTick]
  rcases refresh_cases (by omega) hfull with ⟨hdue, hdvd, hmod⟩ | ⟨hearly, hdvd, hmod⟩
  · obtain ⟨hacc, hm2⟩ := hcounted.refresh hn (by simp; omega) rfl rfl
    rw [if_pos (by omega), if_pos hdvd]
    exact ⟨hacc, hm2, hmod.symm⟩
  · rw [if_neg (by omega), if_neg hdvd, hmod]
    exact ⟨hcounted, hb, by rw [hslides]⟩

/-! ## Whole streams -/

/-- Everything the gradient step keeps: the accumulators, the refresh counter, and `grad.m2`
if it was right. -/
structure DerivesWindow (n : Nat) (ps : List (K × K)) (st : RollingStdGradState K) : Prop
    extends Accumulates n ps st where
  slides : st.grad.slidesSinceRefresh = (ps.length - n) % n

/-- **One push.** What `grad.m2` is off by stays while the window fills. In a full window the
sum of the two is clamped, and the refresh ends it. -/
theorem DerivesWindow.push (h : DerivesWindow n ps st) (hn : 2 ≤ n) (p : K × K) {e : K}
    (he : st.grad.m2 = .val (squaresTangent (window n ps) + e)) :
    DerivesWindow n (ps ++ [p]) (rollingStdGradSlide st (sample p)) ∧
      (rollingStdGradSlide st (sample p)).grad.m2 = .val
        (if ps.length < n then squaresTangent (window n (ps ++ [p])) + e
          else if n ∣ ps.length + 1 then squaresTangent (window n (ps ++ [p]))
          else max 0 (squaresTangent (window n (ps ++ [p])) + e)) := by
  by_cases hlt : ps.length < n
  · obtain ⟨hacc, hm2, hslides⟩ := h.fill hlt p he
    refine ⟨⟨hacc, ?_⟩, by rw [hm2, if_pos hlt]⟩
    have hnone : ps.length - n = 0 ∧ (ps ++ [p]).length - n = 0 := by simp; omega
    rw [hslides, h.slides, hnone.1, hnone.2]
  · have hfull : n ≤ ps.length := Nat.le_of_not_lt hlt
    obtain ⟨st', hst', hacc, hm2, hslides⟩ := h.toAccumulates.slide hn hfull p he
    obtain ⟨hacc', hm2', hslides'⟩ := hacc.tick hn hfull hm2 (hslides.trans h.slides)
    rw [hst', if_neg hlt]
    exact ⟨⟨hacc', by simpa using hslides'⟩, hm2'⟩

omit [IsStrictOrderedRing K] in
/-- Between two pushes the assignments at the start of the step change nothing. -/
theorem Accumulates.prepare (h : Accumulates n ps st) : rollingStdGradPrepare st n = st := by
  rw [rollingStdGradPrepare, if_pos h.primal_capacity, if_pos]
  rw [h.grad_capacity, h.primal_capacity]

/-- The states of a new context, prewarmed or not. -/
structure RollingStdGradState.Fresh (n : Nat) (st : RollingStdGradState K) : Prop where
  primal : st.primal = .init ∨ st.primal = .reset n
  grad : st.grad = .init

omit [IsStrictOrderedRing K] in
/-- The first push finds empty rings of the right size. -/
theorem RollingStdGradState.Fresh.prepare (h : st.Fresh n) (hn : 0 < n) :
    rollingStdGradPrepare st n = ⟨.reset n, .reset n⟩ := by
  obtain ⟨primal, grad⟩ := st
  obtain ⟨hprimal, hgrad⟩ := h
  simp only at hprimal hgrad
  subst hgrad
  have hnone : ¬ (0 : Nat) = n := by omega
  rcases hprimal with rfl | rfl
  · simp [rollingStdGradPrepare, RingStatsState.init, RingStatsState.reset,
      RollingStdSensitivityState.init, hnone]
  · simp [rollingStdGradPrepare, RingStatsState.reset, RollingStdSensitivityState.init, hnone]

omit [IsStrictOrderedRing K] in
theorem derivesWindow_nil :
    DerivesWindow n ([] : List (K × K)) ⟨.reset n, .reset n⟩ := by
  have hring : HoldsWindow n ([] : List (Exact K)) (List.replicate n (.val 0)) := by
    simpa using HoldsWindow.empty (List.replicate n (Exact.val (0 : K)))
  constructor
  case toAccumulates =>
    constructor <;> simp [RingStatsState.reset, RollingStdSensitivityState.reset, mean, comoment,
      hring]
  case slides => simp [RollingStdSensitivityState.reset]

omit [IsStrictOrderedRing K] in
theorem rollingStdGradRun_append (st : RollingStdGradState K) (ps : List (K × K)) (p : K × K) :
    rollingStdGradRun n st (ps ++ [p]) =
      rollingStdGradSlide (rollingStdGradPrepare (rollingStdGradRun n st ps) n) (sample p) := by
  rw [rollingStdGradRun, List.foldl_append]
  rfl

/-- **A stream.** The accumulators are right after every push, and `grad.m2` is a number. -/
theorem run_derives (h : st.Fresh n) (hn : 2 ≤ n) (ps : List (K × K)) :
    DerivesWindow n ps (rollingStdGradPrepare (rollingStdGradRun n st ps) n) ∧
      ∃ e, (rollingStdGradPrepare (rollingStdGradRun n st ps) n).grad.m2 =
        .val (squaresTangent (window n ps) + e) := by
  induction ps using List.reverseRecOn with
  | nil =>
    rw [rollingStdGradRun, List.foldl_nil, h.prepare (by omega)]
    refine ⟨derivesWindow_nil, 0, ?_⟩
    simp [RollingStdSensitivityState.reset, squaresTangent]
  | append_singleton ps p ih =>
    obtain ⟨hderives, e, he⟩ := ih
    obtain ⟨hnext, hm2⟩ := hderives.push hn p he
    rw [rollingStdGradRun_append, hnext.prepare]
    exact ⟨hnext, _ - _, by rw [hm2, add_sub_cancel]⟩

/-- The assignments at the start of the step matter to the first push only. -/
theorem prepare_run (h : st.Fresh n) (hn : 2 ≤ n) {ps : List (K × K)} (hps : ps ≠ []) :
    rollingStdGradPrepare (rollingStdGradRun n st ps) n = rollingStdGradRun n st ps := by
  obtain ⟨q, p, rfl⟩ := (List.eq_nil_or_concat' ps).resolve_left hps
  obtain ⟨hderives, e, he⟩ := run_derives h hn q
  rw [rollingStdGradRun_append]
  exact (hderives.push hn p he).1.prepare

/-- The pushes that clamp `grad.m2`: those that slide the window and do not refresh. -/
def Clamped (n k : Nat) : Prop := n < k ∧ ¬ n ∣ k

/-- As long as the clamp never meets a negative derivative, `grad.m2` is right. -/
theorem run_exact (h : st.Fresh n) (hn : 2 ≤ n) (ps : List (K × K))
    (hnonneg : ∀ k ≤ ps.length, Clamped n k → 0 ≤ squaresTangent (window n (ps.take k))) :
    (rollingStdGradPrepare (rollingStdGradRun n st ps) n).grad.m2 =
      .val (squaresTangent (window n ps)) := by
  induction ps using List.reverseRecOn with
  | nil =>
    rw [rollingStdGradRun, List.foldl_nil, h.prepare (by omega)]
    simp [RollingStdSensitivityState.reset, squaresTangent]
  | append_singleton ps p ih =>
    have hlast := hnonneg (ps.length + 1) (by simp)
    rw [List.take_of_length_le (by simp)] at hlast
    have hm2 := ih fun k hk hclamped => by
      have hk' := hnonneg k (by simp; omega) hclamped
      rwa [List.take_append_of_le_length hk] at hk'
    obtain ⟨hderives, -⟩ := run_derives h hn ps
    obtain ⟨hnext, hnew⟩ := hderives.push hn p (e := 0) (by rw [hm2, add_zero])
    rw [rollingStdGradRun_append, hnext.prepare, hnew, add_zero]
    split_ifs with hlt hdvd
    · rfl
    · rfl
    · rw [max_eq_right (hlast ⟨by omega, hdvd⟩)]

/-- Where the clamp is applied, `grad.m2` is not negative. -/
theorem run_nonneg (h : st.Fresh n) (hn : 2 ≤ n) {ps : List (K × K)}
    (hclamped : Clamped n ps.length) :
    ∃ b, 0 ≤ b ∧ (rollingStdGradRun n st ps).grad.m2 = .val b := by
  obtain ⟨hlt, hdvd⟩ := hclamped
  rcases List.eq_nil_or_concat' ps with rfl | ⟨q, p, rfl⟩
  · simp at hlt
  · obtain ⟨hderives, e, he⟩ := run_derives h hn q
    obtain ⟨-, hm2⟩ := hderives.push hn p he
    rw [List.length_append, List.length_singleton] at hlt hdvd
    rw [if_neg (by omega), if_neg hdvd] at hm2
    rw [rollingStdGradRun_append]
    exact ⟨_, le_max_left _ _, hm2⟩

/-- **When the tangent is right.** -/
theorem run_tangent_iff (h : st.Fresh n) (hn : 2 ≤ n) (ps : List (K × K)) :
    (∀ k ≤ ps.length, 0 < k →
        TangentOf (window n (ps.take k)) (rollingStdGradRun n st (ps.take k)).grad) ↔
      ∀ k ≤ ps.length, Clamped n k → 0 ≤ squaresTangent (window n (ps.take k)) := by
  constructor
  · intro hexact k hk hclamped
    have hclamped' : Clamped n (ps.take k).length := by simpa [hk] using hclamped
    obtain ⟨b, hb, hm2⟩ := run_nonneg h hn hclamped'
    have htangent := (hexact k hk (by have := hclamped.1; omega)).2
    rw [hm2] at htangent
    exact (val.inj htangent) ▸ hb
  · intro hnonneg k hk hpos
    have hne : ps.take k ≠ [] := by
      rw [← List.length_pos_iff, List.length_take]
      omega
    have hm2 := run_exact h hn (ps.take k) fun j hj hclamped => by
      rw [List.length_take] at hj
      rw [List.take_take, Nat.min_eq_left (by omega)]
      exact hnonneg j (by omega) hclamped
    obtain ⟨hderives, -⟩ := run_derives h hn (ps.take k)
    rw [prepare_run h hn hne] at hm2 hderives
    exact ⟨hderives.meanPrime_eq, hm2⟩

/-! ## The two operators -/

/-- The pair of states `RollingStdOrZscoreGradStep` picks. -/
def GradSlots.welford (zscore : Bool) (slots : GradSlots (Exact K) (Exact K)) :
    RollingStdGradState K :=
  if zscore then ⟨slots.primal.zscore, slots.grad.zscore⟩
  else ⟨slots.primal.rollingStd, slots.grad.rollingStd⟩

/-- `RollingStdOrZscoreGradStep` with the flag its two callers pass. -/
def rollingStdOrZscoreGradStep (zscore : Bool) (period : Nat)
    (slots : GradSlots (Exact K) (Exact K)) (x : ValueGradient (Exact K)) :
    ValueGradient (Exact K) × GradSlots (Exact K) (Exact K) :=
  if zscore then jitRtZscoreGrad slots x period else jitRtRollingStdGrad slots x period

/-- The slots after a stream of samples. -/
def welfordRun (zscore : Bool) (n : Nat) (slots : GradSlots (Exact K) (Exact K))
    (ps : List (K × K)) : GradSlots (Exact K) (Exact K) :=
  ps.foldl (fun slots p => (rollingStdOrZscoreGradStep zscore n slots (sample p)).2) slots

/-- The slots of one node and one parameter in a new context, prewarmed with the period `n` or
not. -/
structure GradSlots.Fresh (zscore : Bool) (n : Nat) (slots : GradSlots (Exact K) (Exact K)) :
    Prop where
  primal : slots.primal = .empty ∨ ∃ literal : Option (Exact K), parsePreparedPeriod literal = n ∧
    slots.primal = NodeSlot.empty.prewarm (if zscore then .zscore else .rollingStd) literal
  grad : slots.grad = .empty

omit [IsStrictOrderedRing K] in
theorem welford_welfordRun (zscore : Bool) (slots : GradSlots (Exact K) (Exact K))
    (ps : List (K × K)) :
    (welfordRun zscore n slots ps).welford zscore =
      rollingStdGradRun n (slots.welford zscore) ps := by
  induction ps generalizing slots with
  | nil => rfl
  | cons p ps ih =>
    rw [welfordRun, List.foldl_cons, ← welfordRun, ih, rollingStdGradRun, rollingStdGradRun,
      List.foldl_cons]
    cases zscore <;> rfl

omit [IsStrictOrderedRing K] in
theorem GradSlots.Fresh.welford {zscore : Bool} {slots : GradSlots (Exact K) (Exact K)}
    (h : slots.Fresh zscore n) (hn : 0 < n) : (slots.welford zscore).Fresh n := by
  obtain ⟨primal, grad⟩ := slots
  obtain ⟨hprimal, hgrad⟩ := h
  simp only at hprimal hgrad
  subst hgrad
  have hnone : ¬ (0 : Nat) = n := by omega
  rcases hprimal with rfl | ⟨literal, hperiod, rfl⟩
  · cases zscore <;> exact ⟨.inl rfl, rfl⟩
  · cases zscore
    · refine ⟨.inr ?_, rfl⟩
      simp [GradSlots.welford, NodeSlot.prewarm, hperiod, NodeSlot.empty, RingStatsState.prewarm, hn,
        RingStatsState.init, hnone, RingStatsState.reset]
    · refine ⟨.inr ?_, rfl⟩
      simp [GradSlots.welford, NodeSlot.prewarm, hperiod, NodeSlot.empty, RingStatsState.prewarm, hn,
        RingStatsState.init, hnone, RingStatsState.reset]

/-- **When `rolling_std` and `zscore` differentiate their window.** From a new context,
`grad.mean` and `grad.m2` are the derivatives of mean and `m2` of the window after every push
of a stream exactly if the derivative of `m2` is never negative after a push that slides the
window without a refresh. -/
theorem rolling_std_tangent_iff (zscore : Bool) (n : Nat) (hn : 2 ≤ n)
    (slots : GradSlots (Exact K) (Exact K)) (hslots : slots.Fresh zscore n) (ps : List (K × K)) :
    (∀ k ≤ ps.length, 0 < k → TangentOf (window n (ps.take k))
        ((welfordRun zscore n slots (ps.take k)).welford zscore).grad) ↔
      ∀ k ≤ ps.length, n < k ∧ ¬ n ∣ k → 0 ≤ squaresTangent (window n (ps.take k)) := by
  simp only [welford_welfordRun]
  exact run_tangent_iff (hslots.welford (by omega)) hn ps

/-- Three samples whose window of two tightens as the parameter grows. -/
def tightening : List (ℚ × ℚ) := [(0, 0), (1, 0), (2, -1)]

theorem rolling_std_tangent_iff_tightening :
    (∀ k ≤ tightening.length, 0 < k → TangentOf (window 2 (tightening.take k))
        ((welfordRun false 2 .empty (tightening.take k)).welford false).grad) ↔
      ∀ k ≤ tightening.length, 2 < k ∧ ¬ 2 ∣ k → 0 ≤ squaresTangent (window 2 (tightening.take k)) :=
  rolling_std_tangent_iff false 2 le_rfl .empty ⟨.inl rfl, rfl⟩ tightening

/-- **The clamp loses the derivative.** The sum over the window is `-1`, and `grad.m2` is `0`. -/
theorem rolling_std_tangent_clamped :
    squaresTangent (window 2 tightening) = -1 ∧
      ((welfordRun false 2 .empty tightening).welford false).grad.m2 = .val 0 ∧
      ¬ TangentOf (window 2 tightening)
        ((welfordRun false 2 .empty tightening).welford false).grad := by
  have htrue : squaresTangent (window 2 tightening) = -1 := by decide +kernel
  have hcode : ((welfordRun false 2 .empty tightening).welford false).grad.m2 = .val 0 := by
    decide +kernel
  refine ⟨htrue, hcode, fun h => ?_⟩
  have hm2 := h.2
  rw [htrue, hcode] at hm2
  exact absurd (val.inj hm2) (by decide)

end JitSignalEngine
