import JitSignalEngine.SampleMoments
import Mathlib.Algebra.BigOperators.Ring.Finset
import Mathlib.Data.List.GetD

/-!
# Averages

Averages of a stream, weighted or exponential, and where they lie.

* `Between` — at least the smallest and at most the largest member of a list.
* `Between.blend`, `between_weighted` — blends of two values and averages with positive weights.
* `exponentialMean` — the average in which every sample weighs less than the next one by a
  constant factor, and `exponentialMean_append` that blending a sample in computes it.
-/

namespace JitSignalEngine

variable {ι K : Type} [Field K]

/-! ## Between the samples -/

section Order

variable [LinearOrder K] [IsStrictOrderedRing K] {us vs : List K} {u v t : K}

/-- Some member is at most `v`, and some member at least `v`. -/
def Between (vs : List K) (v : K) : Prop := (∃ lo ∈ vs, lo ≤ v) ∧ ∃ hi ∈ vs, v ≤ hi

omit [Field K] [IsStrictOrderedRing K] in
theorem Between.of_mem (h : v ∈ vs) : Between vs v := ⟨⟨v, h, le_rfl⟩, v, h, le_rfl⟩

omit [Field K] [IsStrictOrderedRing K] in
theorem Between.mono (h : Between us v) (hsub : us ⊆ vs) : Between vs v := by
  obtain ⟨⟨lo, hlo, hle⟩, hi, hhi, hge⟩ := h
  exact ⟨⟨lo, hsub hlo, hle⟩, hi, hsub hhi, hge⟩

/-- A step from one value towards another. -/
theorem Between.blend (hu : Between vs u) (hv : Between vs v) (h0 : 0 ≤ t) (h1 : t ≤ 1) :
    Between vs (u + t * (v - u)) := by
  obtain ⟨⟨lo, hlo, hlou⟩, hi, hhi, huhi⟩ := hu
  obtain ⟨⟨lo', hlo', hlov⟩, hi', hhi', hvhi⟩ := hv
  rcases le_total u v with huv | hvu
  · have hstep : 0 ≤ t * (v - u) := mul_nonneg h0 (sub_nonneg.2 huv)
    have hall : t * (v - u) ≤ v - u := mul_le_of_le_one_left (sub_nonneg.2 huv) h1
    exact ⟨⟨lo, hlo, by linarith⟩, hi', hhi', by linarith⟩
  · have hstep : 0 ≤ t * (u - v) := mul_nonneg h0 (sub_nonneg.2 hvu)
    have hall : t * (u - v) ≤ u - v := mul_le_of_le_one_left (sub_nonneg.2 hvu) h1
    exact ⟨⟨lo', hlo', by linarith⟩, hi, hhi, by linarith⟩

/-- Positive weights have a positive sum. -/
theorem total_pos {w : ι → K} {is : List ι} (hw : ∀ i ∈ is, 0 < w i) (hne : is ≠ []) :
    0 < total w is := by
  refine List.sum_pos _ (fun x hx => ?_) (by simpa using hne)
  obtain ⟨i, hi, rfl⟩ := List.mem_map.1 hx
  exact hw i hi

/-- **An average with positive weights.** Were all members on one side of it, so would be their
weighted sum. -/
theorem between_weighted (p : ι → K) {w : ι → K} {is : List ι} (hw : ∀ i ∈ is, 0 < w i)
    (hne : is ≠ []) : Between (is.map p) (total (fun i => p i * w i) is / total w is) := by
  have hpos := total_pos hw hne
  set v := total (fun i => p i * w i) is / total w is with hv
  have hsum : total (fun i => v * w i) is = total (fun i => p i * w i) is := by
    rw [total, List.sum_map_mul_left]
    exact div_mul_cancel₀ _ hpos.ne'
  constructor
  · obtain ⟨i, hi, hle⟩ := List.exists_le_of_sum_le hne _ _ hsum.ge
    exact ⟨p i, List.mem_map_of_mem hi, le_of_mul_le_mul_right hle (hw i hi)⟩
  · obtain ⟨i, hi, hle⟩ := List.exists_le_of_sum_le hne _ _ hsum.le
    exact ⟨p i, List.mem_map_of_mem hi, le_of_mul_le_mul_right hle (hw i hi)⟩

end Order

/-! ## Exponential averages -/

/-- The weight of sample number `i` among `n`. The first sample keeps what the later ones
leave. -/
def exponentialWeight (a : K) (n i : Nat) : K :=
  if i = 0 then (1 - a) ^ (n - 1) else a * (1 - a) ^ (n - 1 - i)

/-- The exponential average of some samples. -/
def exponentialMean (a : K) (xs : List K) : K :=
  ∑ i ∈ Finset.range xs.length, exponentialWeight a xs.length i * xs.getD i 0

theorem exponentialMean_singleton (a x : K) : exponentialMean a [x] = x := by
  simp [exponentialMean, exponentialWeight]

/-- One sample more. -/
theorem exponentialMean_append (a : K) {xs : List K} (hne : xs ≠ []) (x : K) :
    exponentialMean a (xs ++ [x]) = a * x + (1 - a) * exponentialMean a xs := by
  have hpos : 0 < xs.length := List.length_pos_iff.2 hne
  have hlast : exponentialWeight a (xs.length + 1) xs.length = a := by
    rw [exponentialWeight, if_neg hpos.ne', Nat.add_sub_cancel, Nat.sub_self, pow_zero, mul_one]
  have hweight : ∀ i < xs.length,
      exponentialWeight a (xs.length + 1) i = (1 - a) * exponentialWeight a xs.length i := by
    intro i hi
    rcases Nat.eq_zero_or_pos i with rfl | hi0
    · rw [exponentialWeight, exponentialWeight, if_pos rfl, if_pos rfl, ← pow_succ']
      congr 1
      omega
    · rw [exponentialWeight, exponentialWeight, if_neg hi0.ne', if_neg hi0.ne',
        show xs.length + 1 - 1 - i = xs.length - 1 - i + 1 by omega, pow_succ]
      ring
  rw [exponentialMean, List.length_append, List.length_singleton, Finset.sum_range_succ, hlast,
    add_comm, exponentialMean, Finset.mul_sum]
  congr 1
  · simp
  · refine Finset.sum_congr rfl fun i hi => ?_
    have hi' := Finset.mem_range.1 hi
    rw [hweight i hi', List.getD_append _ _ _ _ hi', mul_assoc]

end JitSignalEngine
