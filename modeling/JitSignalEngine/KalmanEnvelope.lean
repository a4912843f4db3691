import JitSignalEngine.Averages
import JitSignalEngine.Exact

/-!
# The envelope of the Kalman filter

`Kalman1dStep` in exact arithmetic, over measurements whose noises pass the check of
`EvalKalman1d`.

* `kalman1dAfter` — the state after a stream, from the default state.
* `kalman1dDenom`, `kalman1dGain`, `kalman1dVariance` — the values a step computes on the way.
* `Kalman1dState.Tracks` — the invariant: the variance is a number that is not negative, and the
  estimate lies between the measurements so far.
* `kalman1d_envelope` — with it no guard of the step is ever taken.
-/

namespace JitSignalEngine

open Fp Exact

/-- The arguments of one call. -/
structure Kalman1dInput (D : Type) where
  /-- the measurement -/
  x : D
  /-- the process noise -/
  q : D
  /-- the measurement noise -/
  r : D

/-- Numbers as arguments. -/
def Kalman1dInput.val {K : Type} (i : Kalman1dInput K) : Kalman1dInput (Exact K) :=
  ⟨.val i.x, .val i.q, .val i.r⟩

section Step

variable {D : Type} [Fp D]

/-- `Kalman1dStep` -/
def Kalman1dState.push (st : Kalman1dState D) (i : Kalman1dInput D) : D × Kalman1dState D :=
  kalman1dStep st i.x i.q i.r

/-- The state after a stream. -/
def kalman1dAfter (is : List (Kalman1dInput D)) : Kalman1dState D :=
  is.foldl (fun st i => (st.push i).2) .init

theorem kalman1dAfter_append (is : List (Kalman1dInput D)) (i : Kalman1dInput D) :
    kalman1dAfter (is ++ [i]) = ((kalman1dAfter is).push i).2 := by
  rw [kalman1dAfter, List.foldl_append, List.foldl_cons, List.foldl_nil, ← kalman1dAfter]

/-- `denom` -/
def kalman1dDenom (st : Kalman1dState D) (i : Kalman1dInput D) : D := add (add st.p i.q) i.r

/-- `k_gain` -/
def kalman1dGain (st : Kalman1dState D) (i : Kalman1dInput D) : D :=
  div (add st.p i.q) (kalman1dDenom st i)

/-- `p_new` before the clamp. -/
def kalman1dVariance (st : Kalman1dState D) (i : Kalman1dInput D) : D :=
  mul (sub (ofNat 1) (kalman1dGain st i)) (add st.p i.q)

/-- A step past the first one whose guards are not taken. -/
theorem Kalman1dState.push_update {st : Kalman1dState D} {i : Kalman1dInput D}
    (hinit : st.initialized = true) (hdenom : le (kalman1dDenom st i) (ofNat 0) = false)
    (hclamp : lt (kalman1dVariance st i) (ofNat 0) = false) :
    st.push i = (add st.xHat (mul (kalman1dGain st i) (sub i.x st.xHat)),
      ⟨add st.xHat (mul (kalman1dGain st i) (sub i.x st.xHat)), kalman1dVariance st i, i.q, i.r,
        true⟩) := by
  simp only [kalman1dVariance, kalman1dGain, kalman1dDenom] at hdenom hclamp ⊢
  simp only [push, kalman1dStep, hinit, hdenom, hclamp, Bool.not_true, Bool.false_eq_true, if_false]

end Step

variable {K : Type} [Field K] [LinearOrder K] [IsStrictOrderedRing K] [Transcendental K]

/-- The noises `EvalKalman1d` lets through. -/
def Kalman1dInput.Accepted (i : Kalman1dInput K) : Prop := 0 ≤ i.q ∧ 0 < i.r

/-- **The invariant**, after the measurements `xs`. -/
structure Kalman1dState.Tracks (xs : List K) (st : Kalman1dState (Exact K)) : Prop where
  initialized : st.initialized = !xs.isEmpty
  numbers : xs ≠ [] → ∃ xHat p, st.xHat = val xHat ∧ st.p = val p ∧ 0 ≤ p ∧ Between xs xHat

/-- What one step computes: the guards, the gain, the new variance and the estimate. -/
structure Kalman1dState.Steps (xs : List K) (st : Kalman1dState (Exact K)) (i : Kalman1dInput K) :
    Prop where
  /-- `denom <= 0` does not hold -/
  denom : st.initialized = true → le (kalman1dDenom st i.val) (ofNat 0) = false
  /-- the gain is in `[0, 1)` -/
  gain : st.initialized = true → ∃ k, kalman1dGain st i.val = val k ∧ 0 ≤ k ∧ k < 1
  /-- `p_new < 0` does not hold -/
  clamp : st.initialized = true → lt (kalman1dVariance st i.val) (ofNat 0) = false
  /-- the new variance is in `[0, r]` -/
  variance : ∃ p, (st.push i.val).2.p = val p ∧ 0 ≤ p ∧ p ≤ i.r
  /-- the value returned lies between the measurements -/
  estimate : ∃ xHat, (st.push i.val).1 = val xHat ∧ Between (xs ++ [i.x]) xHat
  /-- and is the new estimate -/
  state : (st.push i.val).2.xHat = (st.push i.val).1 ∧ (st.push i.val).2.initialized = true

namespace Kalman1dState.Tracks

variable {xs : List K} {st : Kalman1dState (Exact K)} {i : Kalman1dInput K}

/-- **One step.** The first one takes the measurement over; in every other one the gain is
`p' / (p' + r)` with `p' = p + q`, and the new variance `r * p' / (p' + r)`. -/
theorem steps (h : st.Tracks xs) (hi : i.Accepted) : st.Steps xs i := by
  obtain ⟨hq, hr⟩ := hi
  rcases eq_or_ne xs [] with rfl | hne
  · have hinit : st.initialized = false := h.initialized
    have hpush : st.push i.val = (val i.x, ⟨val i.x, val i.r, val i.q, val i.r, true⟩) := by
      simp [push, kalman1dStep, hinit, Kalman1dInput.val]
    refine ⟨by simp [hinit], by simp [hinit], by simp [hinit], ?_, ?_, ?_⟩
    · exact ⟨i.r, by rw [hpush], hr.le, le_rfl⟩
    · exact ⟨i.x, by rw [hpush], .of_mem (by simp)⟩
    · rw [hpush]
      exact ⟨rfl, rfl⟩
  · obtain ⟨xHat, p, hxHat, hp, hpos, hbetween⟩ := h.numbers hne
    have hinit : st.initialized = true := by
      rw [h.initialized, List.isEmpty_eq_false_iff.2 hne]
      rfl
    have hpred : 0 ≤ p + i.q := add_nonneg hpos hq
    have hsum : 0 < p + i.q + i.r := add_pos_of_nonneg_of_pos hpred hr
    -- what the step computes, as numbers
    have hdenom : kalman1dDenom st i.val = val (p + i.q + i.r) := by
      simp [kalman1dDenom, hp, Kalman1dInput.val]
    have hgain : kalman1dGain st i.val = val ((p + i.q) / (p + i.q + i.r)) := by
      rw [kalman1dGain, hdenom, hp]
      exact div_val _ hsum.ne'
    have hvariance : kalman1dVariance st i.val =
        val ((1 - (p + i.q) / (p + i.q + i.r)) * (p + i.q)) := by
      rw [kalman1dVariance, hgain, hp, ofNat_val, Nat.cast_one]
      rfl
    have hk0 : 0 ≤ (p + i.q) / (p + i.q + i.r) := div_nonneg hpred hsum.le
    have hk1 : (p + i.q) / (p + i.q + i.r) < 1 := (div_lt_one hsum).2 (by linarith)
    have hshrunk : (1 - (p + i.q) / (p + i.q + i.r)) * (p + i.q) =
        i.r * ((p + i.q) / (p + i.q + i.r)) := by
      field_simp
      ring
    have hp0 : 0 ≤ (1 - (p + i.q) / (p + i.q + i.r)) * (p + i.q) :=
      mul_nonneg (sub_nonneg.2 hk1.le) hpred
    have hguard : le (kalman1dDenom st i.val) (ofNat 0) = false := by
      rw [hdenom, ofNat_val, Nat.cast_zero, le_val, decide_eq_false (not_le.2 hsum)]
    have hclamp : lt (kalman1dVariance st i.val) (ofNat 0) = false := by
      rw [hvariance, ofNat_val, Nat.cast_zero, lt_val, decide_eq_false (not_lt.2 hp0)]
    have hpush := push_update hinit hguard hclamp
    refine ⟨fun _ => hguard, fun _ => ⟨_, hgain, hk0, hk1⟩, fun _ => hclamp, ?_, ?_, ?_⟩
    · refine ⟨_, by rw [hpush, hvariance], hp0, ?_⟩
      rw [hshrunk]
      exact mul_le_of_le_one_right hr.le hk1.le
    · have hstep := (hbetween.mono (List.subset_append_left xs [i.x])).blend
        (.of_mem (v := i.x) (by simp)) hk0 hk1.le
      refine ⟨_, ?_, hstep⟩
      rw [hpush, hgain, hxHat]
      rfl
    · rw [hpush]
      exact ⟨rfl, rfl⟩

/-- A step keeps the invariant. -/
theorem next (h : st.Tracks xs) (hi : i.Accepted) : (st.push i.val).2.Tracks (xs ++ [i.x]) := by
  have hsteps := h.steps hi
  obtain ⟨p, hp, hpos, -⟩ := hsteps.variance
  obtain ⟨xHat, hxHat, hbetween⟩ := hsteps.estimate
  refine ⟨by simp [hsteps.state.2], fun _ => ⟨xHat, p, ?_, hp, hpos, hbetween⟩⟩
  rw [hsteps.state.1, hxHat]

end Kalman1dState.Tracks

/-- The invariant holds after every stream. By induction on the stream from the right. -/
theorem kalman1dAfter_tracks (is : List (Kalman1dInput K)) (his : ∀ i ∈ is, i.Accepted) :
    (kalman1dAfter (is.map .val)).Tracks (is.map Kalman1dInput.x) := by
  induction is using List.reverseRecOn with
  | nil => exact ⟨rfl, fun h => absurd rfl h⟩
  | append_singleton is i ih =>
    have hstep := (ih fun j hj => his j (List.mem_append_left _ hj)).next
      (his i (List.mem_append_right _ List.mem_cons_self))
    simpa only [List.map_append, List.map_singleton, kalman1dAfter_append] using hstep

end JitSignalEngine
