import JitSignalEngine.OrderStatistics
import Mathlib.Algebra.Order.Floor.Semiring
import Mathlib.Data.List.FinRange
import Mathlib.Data.Rat.Floor
import Mathlib.Tactic.Linarith
import Mathlib.Tactic.NormNum

/-!
# The latency histogram

`latency_histogram.h` and `latency_histogram.cpp` of the benchmarks: counts of samples in
nanoseconds, in buckets of a sixteenth of a power of two.

* `bucketIndex`, `LatencyHistogram.add` — the encoder: the bucket of a sample.
* `LatencyHistogram.view` — the decoder: the range a bucket stands for.
* `LatencyHistogram.percentile` — the midpoint of the bucket at which the counts reach a target.
* `bucketView_eq` — what the decoder makes of the bucket of a sample. Below 16 the encoder keeps
  the leading bit, and the decoder adds it once more.
* `bucketsContain_iff` — buckets contain their samples, except those from 2 to 15.
* `percentile_eq` — percentiles are midpoints of the buckets of order statistics.
* `orderedPercentiles_iff` — when they are ordered and between the smallest and the largest
  sample.
-/

namespace JitSignalEngine

/-! ## The code -/

/-- `kPrecisionBits` -/
def kPrecisionBits : Nat := 4

/-- `kSubBuckets` -/
def kSubBuckets : Nat := 1 <<< kPrecisionBits

/-- `kMaxMagnitude` -/
def kMaxMagnitude : Nat := 30

/-- `kBucketCount` -/
def kBucketCount : Nat := kMaxMagnitude * kSubBuckets

/-- `LatencyHistogram` -/
structure LatencyHistogram where
  /-- `buckets_` -/
  buckets : Fin kBucketCount → Nat
  /-- `total_` -/
  total : Nat
  /-- `overflow_` -/
  overflow : Nat
  /-- `max_observed_` -/
  maxObserved : Nat
  /-- `min_observed_` -/
  minObserved : Nat

/-- The part of a sample below its leading bit, on `kPrecisionBits` bits. -/
def subBucket (ns : Nat) : Nat :=
  -- the shift is clamped at 0, as the subtraction of natural numbers is
  (ns >>> (Nat.log2 ns - kPrecisionBits)) &&& (kSubBuckets - 1)

theorem subBucket_lt (ns : Nat) : subBucket ns < kSubBuckets :=
  Nat.lt_of_le_of_lt Nat.and_le_right (by decide)

theorem index_lt {magnitude sub : Nat} (h : magnitude < kMaxMagnitude) (h' : sub < kSubBuckets) :
    magnitude * kSubBuckets + sub < kBucketCount := by
  have : (magnitude + 1) * kSubBuckets ≤ kMaxMagnitude * kSubBuckets := Nat.mul_le_mul_right _ h
  rw [Nat.succ_mul] at this
  rw [kBucketCount]
  omega

/-- The bucket `Add` counts a sample in. -/
def bucketIndex (ns : Nat) : Fin kBucketCount :=
  if ns = 0 then ⟨0, by decide⟩
  else if h : Nat.log2 ns < kMaxMagnitude then
    ⟨Nat.log2 ns * kSubBuckets + subBucket ns, index_lt h (subBucket_lt ns)⟩
  else ⟨kBucketCount - 1, by decide⟩

namespace LatencyHistogram

/-- `Reset` -/
def reset : LatencyHistogram := ⟨fun _ => 0, 0, 0, 0, 2 ^ 64 - 1⟩

/-- `Add` -/
def add (h : LatencyHistogram) (ns : Nat) : LatencyHistogram where
  buckets := Function.update h.buckets (bucketIndex ns) (h.buckets (bucketIndex ns) + 1)
  total := h.total + 1
  overflow := if ns ≠ 0 ∧ kMaxMagnitude ≤ Nat.log2 ns then h.overflow + 1 else h.overflow
  maxObserved := if ns > h.maxObserved then ns else h.maxObserved
  minObserved := if ns < h.minObserved then ns else h.minObserved

/-- A histogram with some samples. -/
def ofSamples (samples : List Nat) : LatencyHistogram := samples.foldl add reset

/-- `Min` -/
def min (h : LatencyHistogram) : Nat := if h.total = 0 then 0 else h.minObserved

/-- `Max` -/
def max (h : LatencyHistogram) : Nat := h.maxObserved

end LatencyHistogram

/-- `BucketView` -/
structure BucketView where
  /-- `lo_ns` -/
  lo : Nat
  /-- `hi_ns` -/
  hi : Nat
  /-- `count` -/
  count : Nat
deriving DecidableEq

/-- `At` -/
def LatencyHistogram.view (h : LatencyHistogram) (idx : Fin kBucketCount) : BucketView :=
  let magnitude := idx.val / kSubBuckets
  let sub := idx.val % kSubBuckets
  if magnitude = 0 then ⟨sub, sub + 1, h.buckets idx⟩
  else
    let base := 1 <<< magnitude
    let step := if kPrecisionBits ≤ magnitude then 1 <<< (magnitude - kPrecisionBits) else 1
    ⟨base + sub * step, base + sub * step + step, h.buckets idx⟩

/-- `target` in `Percentile`, with exact numbers for doubles. -/
def percentileTarget (total : Nat) (p : ℚ) : Nat := ⌊p * total + 1 / 2⌋₊

/-- `Percentile` -/
def LatencyHistogram.percentile (h : LatencyHistogram) (p : ℚ) : Nat :=
  if h.total = 0 then 0
  else if p ≤ 0 then h.min
  else if 1 ≤ p then h.max
  else
    match firstReaching h.buckets (percentileTarget h.total p) (List.finRange kBucketCount) 0 with
    | some i => (h.view i).lo + ((h.view i).hi - (h.view i).lo) / 2
    | none => h.max

/-! ## Encoding and decoding -/

/-- The width of the bucket of a sample. -/
def bucketWidth (ns : Nat) : Nat := 2 ^ (Nat.log2 ns - kPrecisionBits)

/-- What `At` says is the least sample in the bucket of a sample. -/
def bucketLow (ns : Nat) : Nat :=
  if 2 ≤ ns ∧ ns < 16 then ns + 2 ^ Nat.log2 ns else ns / bucketWidth ns * bucketWidth ns

section Buckets

variable {ns ns' : Nat}

theorem bucketWidth_pos (ns : Nat) : 0 < bucketWidth ns := Nat.two_pow_pos _

theorem log2_lt_four_iff (h : ns ≠ 0) : Nat.log2 ns < 4 ↔ ns < 16 := Nat.log2_lt h

/-- Below 32 each bucket is for one sample. -/
theorem bucketWidth_eq_one (h : ns < 32) : bucketWidth ns = 1 := by
  rcases Nat.eq_zero_or_pos ns with rfl | hpos
  · rfl
  have : Nat.log2 ns < 5 := (Nat.log2_lt hpos.ne').mpr h
  rw [bucketWidth, kPrecisionBits, Nat.sub_eq_zero_of_le (by omega), Nat.pow_zero]

/-- From 16 on a power of two has sixteen buckets. -/
theorem sixteen_mul_bucketWidth (h : 16 ≤ ns) : 16 * bucketWidth ns = 2 ^ Nat.log2 ns := by
  have hlog : 4 ≤ Nat.log2 ns := (Nat.le_log2 (by omega)).mpr h
  rw [bucketWidth, kPrecisionBits, show 16 = 2 ^ 4 from rfl, ← Nat.pow_add,
    Nat.add_sub_cancel' hlog]

theorem quotient_bounds (h : 16 ≤ ns) :
    16 ≤ ns / bucketWidth ns ∧ ns / bucketWidth ns < 32 := by
  have hwidth := sixteen_mul_bucketWidth h
  have hlow := Nat.log2_self_le (n := ns) (by omega)
  have hhigh := Nat.lt_log2_self (n := ns)
  rw [Nat.pow_succ] at hhigh
  constructor
  · rw [Nat.le_div_iff_mul_le (bucketWidth_pos ns)]
    omega
  · rw [Nat.div_lt_iff_lt_mul (bucketWidth_pos ns)]
    omega

theorem subBucket_eq_mod (ns : Nat) : subBucket ns = ns / bucketWidth ns % 16 := by
  rw [subBucket, Nat.shiftRight_eq_div_pow, bucketWidth]
  exact Nat.and_two_pow_sub_one_eq_mod _ 4

/-- Below 16 the leading bit is still there. -/
theorem subBucket_small (h : ns < 16) : subBucket ns = ns := by
  rw [subBucket_eq_mod, bucketWidth_eq_one (by omega), Nat.div_one, Nat.mod_eq_of_lt h]

theorem subBucket_large (h : 16 ≤ ns) : subBucket ns = ns / bucketWidth ns - 16 := by
  obtain ⟨hlow, hhigh⟩ := quotient_bounds h
  rw [subBucket_eq_mod]
  omega

theorem bucketIndex_val (h0 : ns ≠ 0) (h : ns < 2 ^ 30) :
    (bucketIndex ns).val = Nat.log2 ns * 16 + subBucket ns := by
  have hlog : Nat.log2 ns < kMaxMagnitude := (Nat.log2_lt h0).mpr h
  rw [bucketIndex, if_neg h0, dif_pos hlog]
  rfl

/-- **The range of the bucket of a sample.** -/
theorem view_bucketIndex (h : LatencyHistogram) (hlt : ns < 2 ^ 30) :
    h.view (bucketIndex ns) =
      ⟨bucketLow ns, bucketLow ns + bucketWidth ns, h.buckets (bucketIndex ns)⟩ := by
  rcases Nat.eq_zero_or_pos ns with rfl | hpos
  · rfl
  have hval := bucketIndex_val hpos.ne' hlt
  have hsub : subBucket ns < 16 := subBucket_lt ns
  have hmagnitude : (bucketIndex ns).val / kSubBuckets = Nat.log2 ns := by
    rw [hval, show kSubBuckets = 16 from rfl]
    omega
  have hrest : (bucketIndex ns).val % kSubBuckets = subBucket ns := by
    rw [hval, show kSubBuckets = 16 from rfl]
    omega
  rw [LatencyHistogram.view, hmagnitude, hrest]
  by_cases hone : ns = 1
  · subst hone
    rfl
  have hlog : Nat.log2 ns ≠ 0 := by
    have : 1 ≤ Nat.log2 ns := (Nat.le_log2 hpos.ne').mpr (by omega)
    omega
  have hstep : (if kPrecisionBits ≤ Nat.log2 ns then 1 <<< (Nat.log2 ns - kPrecisionBits) else 1) =
      bucketWidth ns := by
    by_cases hbits : kPrecisionBits ≤ Nat.log2 ns
    · rw [if_pos hbits, Nat.one_shiftLeft, bucketWidth]
    · rw [if_neg hbits, bucketWidth, Nat.sub_eq_zero_of_le (Nat.le_of_not_le hbits), Nat.pow_zero]
  have hlow : 1 <<< Nat.log2 ns + subBucket ns * bucketWidth ns = bucketLow ns := by
    rw [Nat.one_shiftLeft, bucketLow]
    by_cases hsmall : ns < 16
    · rw [if_pos ⟨by omega, hsmall⟩, subBucket_small hsmall, bucketWidth_eq_one (by omega),
        Nat.mul_one, Nat.add_comm]
    · have hlarge : 16 ≤ ns := Nat.not_lt.mp hsmall
      rw [if_neg fun h => hsmall h.2, subBucket_large hlarge, ← sixteen_mul_bucketWidth hlarge,
        ← Nat.add_mul, Nat.add_sub_cancel' (quotient_bounds hlarge).1]
  rw [if_neg hlog]
  dsimp only
  rw [hstep, hlow]

/-- **The encoder keeps the order.** -/
theorem bucketIndex_mono (h : ns ≤ ns') (hlt : ns' < 2 ^ 30) : bucketIndex ns ≤ bucketIndex ns' := by
  rw [Fin.le_def]
  rcases Nat.eq_zero_or_pos ns with rfl | hpos
  · exact Nat.zero_le _
  have hpos' : 0 < ns' := by omega
  rw [bucketIndex_val hpos.ne' (by omega), bucketIndex_val hpos'.ne' hlt]
  have hsub : subBucket ns < 16 := subBucket_lt ns
  have hlog : Nat.log2 ns ≤ Nat.log2 ns' :=
    (Nat.le_log2 hpos'.ne').mpr ((Nat.log2_self_le hpos.ne').trans h)
  rcases Nat.eq_or_lt_of_le hlog with heq | hless
  · have hle : subBucket ns ≤ subBucket ns' := by
      by_cases hsmall : ns' < 16
      · rw [subBucket_small hsmall, subBucket_small (by omega)]
        exact h
      · have hlarge : 16 ≤ ns := by
          have : ¬ Nat.log2 ns < 4 := by rw [heq, log2_lt_four_iff hpos'.ne']; exact hsmall
          rw [log2_lt_four_iff hpos.ne'] at this
          omega
        rw [subBucket_large hlarge, subBucket_large (by omega), bucketWidth, bucketWidth, heq]
        exact Nat.sub_le_sub_right (Nat.div_le_div_right h) 16
    omega
  · omega

theorem bucketLow_small (h : 2 ≤ ns) (h' : ns < 16) : bucketLow ns = ns + 2 ^ Nat.log2 ns :=
  if_pos ⟨h, h'⟩

theorem bucketLow_large (h : 16 ≤ ns) : bucketLow ns = ns / bucketWidth ns * bucketWidth ns :=
  if_neg fun hsmall => absurd hsmall.2 (Nat.not_lt.mpr h)

theorem bucketLow_unit (h : ns < 2 ∨ 16 ≤ ns) (h' : ns < 32) : bucketLow ns = ns := by
  rw [bucketLow, if_neg (by omega), bucketWidth_eq_one h', Nat.div_one, Nat.mul_one]

/-- From 16 on the buckets of a power of two do not leave it. -/
theorem bucketLow_bounds (h : 16 ≤ ns) : 2 ^ Nat.log2 ns ≤ bucketLow ns ∧
    bucketLow ns + bucketWidth ns ≤ 2 ^ (Nat.log2 ns + 1) := by
  obtain ⟨hlow, hhigh⟩ := quotient_bounds h
  rw [bucketLow_large h, Nat.pow_succ, ← sixteen_mul_bucketWidth h, ← Nat.succ_mul]
  have hupper := Nat.mul_le_mul_right (bucketWidth ns) (Nat.succ_le_of_lt hhigh)
  exact ⟨Nat.mul_le_mul_right _ hlow, by omega⟩

/-- **Containment.** The range of a bucket has the samples in it, except from 2 to 15. -/
theorem bucket_contains_iff :
    bucketLow ns ≤ ns ∧ ns < bucketLow ns + bucketWidth ns ↔ ns < 2 ∨ 16 ≤ ns := by
  constructor
  · rintro ⟨hle, -⟩
    by_contra hmiddle
    rw [bucketLow_small (by omega) (by omega)] at hle
    have := Nat.two_pow_pos (Nat.log2 ns)
    omega
  · intro h
    rw [bucketLow, if_neg (by omega), ← Nat.succ_mul]
    exact ⟨Nat.div_mul_le_self _ _,
      (Nat.div_lt_iff_lt_mul (bucketWidth_pos ns)).mp (Nat.lt_succ_self _)⟩

theorem bucketWidth_le (ns : Nat) : bucketWidth ns ≤ Nat.max 1 (bucketLow ns / 16) := by
  rcases Nat.lt_or_ge ns 32 with hsmall | hlarge
  · rw [bucketWidth_eq_one hsmall]
    exact Nat.le_max_left _ _
  · refine Nat.le_trans ?_ (Nat.le_max_right _ _)
    rw [Nat.le_div_iff_mul_le (by decide), Nat.mul_comm, sixteen_mul_bucketWidth (by omega)]
    exact (bucketLow_bounds (by omega)).1

/-! The buckets below 16, as the decoder reads them. -/

theorem bucketLow_small_mono : ∀ ns' < 16, ∀ ns < ns', bucketLow ns + 1 ≤ bucketLow ns' := by decide

theorem bucketLow_of_lt_eight : ∀ ns < 8, bucketLow ns < 12 := by decide

theorem bucketLow_of_lt_sixteen : ∀ ns < 16, 8 ≤ ns → bucketLow ns = ns + 8 := by decide

/-- **Order of the ranges.** The ranges of two buckets are disjoint and in the order of the
indices, except where samples from 8 to 15 are decoded as 16 to 23. -/
theorem ranges_increase_iff (hlt : ns < 2 ^ 30) (hlt' : ns' < 2 ^ 30)
    (hindex : bucketIndex ns < bucketIndex ns') :
    bucketLow ns + bucketWidth ns ≤ bucketLow ns' ↔ ¬ (8 ≤ ns ∧ ns < 16 ∧ 16 ≤ ns' ∧ ns' < ns + 9) := by
  have hns : ns < ns' := by
    by_contra hle
    exact absurd (bucketIndex_mono (Nat.not_lt.mp hle) hlt) (not_le.mpr hindex)
  have hpow : ∀ {k l : Nat}, k ≤ l → 2 ^ k ≤ 2 ^ l := Nat.pow_le_pow_right (by decide)
  have hlog : Nat.log2 ns ≤ Nat.log2 ns' := by
    rcases Nat.eq_zero_or_pos ns with rfl | hpos
    · exact Nat.zero_le _
    · exact (Nat.le_log2 (by omega)).mpr ((Nat.log2_self_le hpos.ne').trans hns.le)
  rcases Nat.lt_or_ge ns 16 with hsmall | hlarge
  · rw [bucketWidth_eq_one (by omega)]
    rcases Nat.lt_or_ge ns' 16 with hsmall' | hlarge'
    · exact iff_of_true (bucketLow_small_mono ns' hsmall' ns hns) (by omega)
    have hbase : 16 ≤ bucketLow ns' := by
      have hfour : 4 ≤ Nat.log2 ns' := (Nat.le_log2 (by omega)).mpr hlarge'
      exact (hpow hfour).trans (bucketLow_bounds hlarge').1
    rcases Nat.lt_or_ge ns 8 with height | height
    · have := bucketLow_of_lt_eight ns height
      exact iff_of_true (by omega) (by omega)
    rw [bucketLow_of_lt_sixteen ns hsmall height]
    rcases Nat.lt_or_ge ns' 32 with hunit | hunit
    · rw [bucketLow_unit (.inr hlarge') hunit]
      omega
    · have hfive : 5 ≤ Nat.log2 ns' := (Nat.le_log2 (by omega)).mpr hunit
      have := (hpow hfive).trans (bucketLow_bounds hlarge').1
      exact iff_of_true (by omega) (by omega)
  · have hindex' : bucketLow ns + bucketWidth ns ≤ bucketLow ns' := by
      rcases Nat.eq_or_lt_of_le hlog with heq | hless
      · have hquot : ns / bucketWidth ns < ns' / bucketWidth ns := by
          rw [Fin.lt_def, bucketIndex_val (by omega) hlt, bucketIndex_val (by omega) hlt',
            subBucket_large hlarge, subBucket_large (by omega), bucketWidth, bucketWidth, ← heq]
            at hindex
          rw [bucketWidth]
          omega
        rw [bucketLow_large hlarge, bucketLow_large (by omega), ← Nat.succ_mul,
          show bucketWidth ns' = bucketWidth ns by rw [bucketWidth, bucketWidth, heq]]
        exact Nat.mul_le_mul_right _ hquot
      · exact ((bucketLow_bounds hlarge).2.trans (hpow hless)).trans
          (bucketLow_bounds (by omega)).1
    exact iff_of_true hindex' (by omega)

end Buckets

/-- What buckets are for, on a set of samples. -/
structure BucketsContain (h : LatencyHistogram) (samples : Set Nat) : Prop where
  /-- the bucket of a sample has it in its range -/
  contains : ∀ ns ∈ samples,
    (h.view (bucketIndex ns)).lo ≤ ns ∧ ns < (h.view (bucketIndex ns)).hi
  /-- which is narrow -/
  width : ∀ ns ∈ samples, (h.view (bucketIndex ns)).hi - (h.view (bucketIndex ns)).lo ≤
    Nat.max 1 ((h.view (bucketIndex ns)).lo / 16)
  /-- different buckets have disjoint ranges, in the order of the indices -/
  increasing : ∀ ns ∈ samples, ∀ ns' ∈ samples, bucketIndex ns < bucketIndex ns' →
    (h.view (bucketIndex ns)).hi ≤ (h.view (bucketIndex ns')).lo

/-- **Buckets contain their samples** exactly when no sample is from 2 to 15. -/
theorem bucketsContain_iff (h : LatencyHistogram) {samples : Set Nat}
    (hlt : ∀ ns ∈ samples, ns < 2 ^ 30) :
    BucketsContain h samples ↔ ∀ ns ∈ samples, ns < 2 ∨ 16 ≤ ns := by
  constructor
  · intro hcontain ns hns
    have := hcontain.contains ns hns
    rw [view_bucketIndex h (hlt ns hns)] at this
    exact bucket_contains_iff.mp this
  · intro hsamples
    refine ⟨fun ns hns => ?_, fun ns hns => ?_, fun ns hns ns' hns' hindex => ?_⟩
    · rw [view_bucketIndex h (hlt ns hns)]
      exact bucket_contains_iff.mpr (hsamples ns hns)
    · rw [view_bucketIndex h (hlt ns hns)]
      dsimp only
      rw [Nat.add_sub_cancel_left]
      exact bucketWidth_le ns
    · rw [view_bucketIndex h (hlt ns hns), view_bucketIndex h (hlt ns' hns')]
      refine (ranges_increase_iff (hlt ns hns) (hlt ns' hns') hindex).mpr ?_
      have := hsamples ns hns
      omega

/-- From 16 on, and for 0 and 1, buckets do contain their samples. -/
theorem bucketsContain_iff_hundreds : BucketsContain .reset {0, 1, 16, 100, 1000} :=
  (bucketsContain_iff .reset (by rintro ns (rfl | rfl | rfl | rfl | rfl) <;> decide)).mpr
    (by rintro ns (rfl | rfl | rfl | rfl | rfl) <;> decide)

/-- A sample of 2 is counted in a bucket for 4. -/
theorem bucket_of_two : ¬ ∀ h, BucketsContain h {ns | ns < 2 ^ 30} := by
  intro hall
  have hcontain := ((hall .reset).contains 2 (by decide)).1
  rw [view_bucketIndex .reset (by decide)] at hcontain
  exact absurd hcontain (by decide)

/-- What is returned for a sample: the midpoint of the range of its bucket. -/
def bucketReading (ns : Nat) : Nat := bucketLow ns + bucketWidth ns / 2

theorem percentileTarget_mono {n : Nat} {p q : ℚ} (h : p ≤ q) :
    percentileTarget n p ≤ percentileTarget n q :=
  Nat.floor_mono (add_le_add_left (mul_le_mul_of_nonneg_right h (Nat.cast_nonneg n)) _)

theorem percentileTarget_le {n : Nat} {p : ℚ} (h : p < 1) : percentileTarget n p ≤ n := by
  refine Nat.lt_succ_iff.mp ((Nat.floor_lt' (Nat.succ_ne_zero n)).mpr ?_)
  have := mul_le_mul_of_nonneg_right h.le (Nat.cast_nonneg (α := ℚ) n)
  push_cast
  linarith

/-! ## Counting -/

namespace LatencyHistogram

variable {h : LatencyHistogram} {samples : List Nat}

/-- A histogram has counted some samples. -/
structure Counts (h : LatencyHistogram) (samples : List Nat) : Prop where
  buckets : ∀ i, h.buckets i = samples.countP fun x => bucketIndex x = i
  total : h.total = samples.length
  overflow : h.overflow = samples.countP fun x => 2 ^ 30 ≤ x
  max : ∀ m, h.maxObserved ≤ m ↔ ∀ x ∈ samples, x ≤ m
  min : ∀ m, m ≤ h.minObserved ↔ m < 2 ^ 64 ∧ ∀ x ∈ samples, m ≤ x

theorem counts_reset : Counts reset [] where
  buckets _ := rfl
  total := rfl
  overflow := rfl
  max m := iff_of_true (Nat.zero_le m) (List.forall_mem_nil _)
  min _ := ⟨fun hm => ⟨Nat.lt_succ_of_le hm, List.forall_mem_nil _⟩,
    fun hm => Nat.le_sub_one_of_lt hm.1⟩

theorem overflows_iff (ns : Nat) : (ns ≠ 0 ∧ kMaxMagnitude ≤ Nat.log2 ns) ↔ 2 ^ 30 ≤ ns := by
  constructor
  · rintro ⟨h0, hlog⟩
    exact (Nat.le_log2 h0).mp hlog
  · intro hle
    have h0 : ns ≠ 0 := by omega
    exact ⟨h0, (Nat.le_log2 h0).mpr hle⟩

/-- **One sample more.** -/
theorem Counts.add (hc : Counts h samples) (ns : Nat) :
    Counts (h.add ns) (samples ++ [ns]) where
  buckets i := by
    rw [List.countP_append, List.countP_singleton, ← hc.buckets]
    by_cases hi : bucketIndex ns = i
    · subst hi
      rw [if_pos (decide_eq_true rfl)]
      exact Function.update_self _ _ _
    · rw [if_neg (by simpa using hi)]
      exact Function.update_of_ne (Ne.symm hi) _ _
  total := by
    rw [List.length_append, ← hc.total]
    rfl
  overflow := by
    rw [List.countP_append, List.countP_singleton, ← hc.overflow]
    by_cases hle : 2 ^ 30 ≤ ns
    · rw [if_pos (decide_eq_true hle)]
      exact if_pos ((overflows_iff ns).mpr hle)
    · rw [if_neg (mt of_decide_eq_true hle)]
      exact if_neg (mt (overflows_iff ns).mp hle)
  max m := by
    rw [List.forall_mem_append, ← hc.max, List.forall_mem_singleton, LatencyHistogram.add]
    dsimp only
    split_ifs <;> omega
  min m := by
    rw [List.forall_mem_append, ← and_assoc, ← hc.min, List.forall_mem_singleton,
      LatencyHistogram.add]
    dsimp only
    split_ifs <;> omega

/-- **Any number of samples more.** -/
theorem Counts.addAll {before : List Nat} (hc : Counts h before) (samples : List Nat) :
    Counts (samples.foldl LatencyHistogram.add h) (before ++ samples) := by
  induction samples generalizing h before with
  | nil =>
    rw [List.append_nil]
    exact hc
  | cons ns samples ih =>
    rw [List.foldl_cons, List.append_cons]
    exact ih (hc.add ns)

theorem counts_ofSamples (samples : List Nat) : Counts (ofSamples samples) samples :=
  counts_reset.addAll samples

theorem Counts.le_max_iff (hc : Counts h samples) (hne : samples ≠ []) (m : Nat) :
    m ≤ h.maxObserved ↔ ∃ x ∈ samples, m ≤ x := by
  constructor
  · intro hm
    by_contra hnone
    obtain ⟨y, hy⟩ := List.exists_mem_of_ne_nil samples hne
    have hless : ∀ x ∈ samples, x ≤ m - 1 := fun x hx =>
      Nat.le_sub_one_of_lt (Nat.not_le.mp fun hle => hnone ⟨x, hx, hle⟩)
    have hmax := (hc.max (m - 1)).mpr hless
    exact hnone ⟨y, hy, by omega⟩
  · rintro ⟨x, hx, hle⟩
    exact hle.trans ((hc.max _).mp (Nat.le_refl _) x hx)

theorem Counts.min_le_iff (hc : Counts h samples) (hne : samples ≠ [])
    (hlt : ∀ x ∈ samples, x < 2 ^ 64) (m : Nat) : h.minObserved ≤ m ↔ ∃ x ∈ samples, x ≤ m := by
  constructor
  · intro hm
    by_contra hnone
    obtain ⟨y, hy⟩ := List.exists_mem_of_ne_nil samples hne
    have hmore : ∀ x ∈ samples, m + 1 ≤ x := fun x hx =>
      Nat.succ_le_of_lt (Nat.not_le.mp fun hle => hnone ⟨x, hx, hle⟩)
    have hmin := (hc.min (m + 1)).mpr ⟨(hmore y hy).trans_lt (hlt y hy), hmore⟩
    omega
  · rintro ⟨x, hx, hle⟩
    exact (((hc.min _).mp (Nat.le_refl _)).2 x hx).trans hle

theorem Counts.total_ne_zero (hc : Counts h samples) (hne : samples ≠ []) : h.total ≠ 0 := by
  rw [hc.total]
  exact List.length_eq_zero_iff.not.mpr hne

theorem Counts.min_eq (hc : Counts h samples) (hne : samples ≠ []) : h.min = h.minObserved :=
  if_neg (hc.total_ne_zero hne)

/-! ## Percentiles -/

theorem head?_finRange {n : Nat} (h : 0 < n) : (List.finRange n).head? = some ⟨0, h⟩ := by
  cases n with
  | zero => cases h
  | succ n =>
    rw [List.finRange_succ]
    rfl

variable {p : ℚ}

/-- **The midpoint** the scan returns for a sample. -/
theorem view_midpoint {ns : Nat} (hlt : ns < 2 ^ 30) :
    (h.view (bucketIndex ns)).lo +
      ((h.view (bucketIndex ns)).hi - (h.view (bucketIndex ns)).lo) / 2 = bucketReading ns := by
  rw [view_bucketIndex h hlt]
  dsimp only
  rw [Nat.add_sub_cancel_left, bucketReading]

theorem Counts.percentile_zero (hc : Counts h samples) (hne : samples ≠ []) (hp : p ≤ 0) :
    h.percentile p = h.minObserved := by
  rw [percentile, if_neg (hc.total_ne_zero hne), if_pos hp, hc.min_eq hne]

theorem Counts.percentile_one (hc : Counts h samples) (hne : samples ≠ []) (hp : 1 ≤ p) :
    h.percentile p = h.maxObserved := by
  rw [percentile, if_neg (hc.total_ne_zero hne), if_neg (by linarith), if_pos hp]
  rfl

/-- **A percentile** between 0 and 1 is 0, or the midpoint for the sample of its rank. -/
theorem Counts.percentile_eq (hc : Counts h samples) (hne : samples ≠ [])
    (hlt : ∀ x ∈ samples, x < 2 ^ 30) (h0 : 0 < p) (h1 : p < 1) :
    percentileTarget samples.length p = 0 ∧ h.percentile p = 0 ∨
    ∃ a, IsRank samples (percentileTarget samples.length p) a ∧
      h.percentile p = bucketReading a := by
  rw [percentile, if_neg (hc.total_ne_zero hne), if_neg (not_le.mpr h0), if_neg (not_le.mpr h1),
    hc.total]
  rcases Nat.eq_zero_or_pos (percentileTarget samples.length p) with hzero | hpos
  · refine .inl ⟨hzero, ?_⟩
    rw [hzero, firstReaching_zero, head?_finRange (by decide)]
    exact view_midpoint (Nat.two_pow_pos 30)
  · obtain ⟨a, ha⟩ := exists_isRank hpos (percentileTarget_le (n := samples.length) h1)
    have hscan := ha.firstReaching_eq (f := bucketIndex) hc.buckets
      (fun x _ y hy hxy => bucketIndex_mono hxy (hlt y hy)) (List.pairwise_lt_finRange kBucketCount)
      fun x _ => List.mem_finRange _
    refine .inr ⟨a, ha, ?_⟩
    rw [hscan]
    exact view_midpoint (hlt a ha.mem)

theorem Counts.percentile_rank (hc : Counts h samples) (hlt : ∀ x ∈ samples, x < 2 ^ 30)
    (h0 : 0 < p) (h1 : p < 1) {a : Nat}
    (ha : IsRank samples (percentileTarget samples.length p) a) :
    h.percentile p = bucketReading a := by
  rcases hc.percentile_eq (List.ne_nil_of_mem ha.mem) hlt h0 h1 with ⟨hzero, -⟩ | ⟨b, hb, hreturn⟩
  · exact absurd hzero ha.pos.ne'
  · rw [hreturn, ha.unique hb]

end LatencyHistogram

/-! ## When percentiles are ordered -/

/-- The middle of the bucket of a sample, where the buckets of all powers of two are laid out
alike. -/
def bucketMiddle (ns : Nat) : Nat := ns / bucketWidth ns * bucketWidth ns + bucketWidth ns / 2

section Readings

variable {a b : Nat}

theorem bucketMiddle_unit (h : a < 32) : bucketMiddle a = a := by
  rw [bucketMiddle, bucketWidth_eq_one h, Nat.div_one, Nat.mul_one]
  rfl

theorem bucketReading_small (h : 2 ≤ a) (h' : a < 16) : bucketReading a = a + 2 ^ Nat.log2 a := by
  rw [bucketReading, bucketLow_small h h', bucketWidth_eq_one (by omega)]
  rfl

theorem bucketReading_middle (h : a < 2 ∨ 16 ≤ a) : bucketReading a = bucketMiddle a := by
  rw [bucketReading, bucketLow, if_neg (by omega), bucketMiddle]

/-- **Readings keep the order of samples**, except where samples from 8 to 15 are read as 16
to 23. -/
theorem bucketReading_le_iff (h : a ≤ b) (hlt : b < 2 ^ 30) :
    bucketReading a ≤ bucketReading b ↔ ¬ (8 ≤ a ∧ a < 16 ∧ 16 ≤ b ∧ b < a + 8) := by
  have ha : a < 2 ^ 30 := h.trans_lt hlt
  rcases (bucketIndex_mono h hlt).eq_or_lt with hsame | hless
  · have hreading : bucketReading a = bucketReading b := by
      rw [← LatencyHistogram.view_midpoint (h := .reset) ha, hsame,
        LatencyHistogram.view_midpoint hlt]
    refine iff_of_true hreading.le ?_
    rintro ⟨height, hsmall, hlarge, hclose⟩
    rw [bucketReading, bucketLow_of_lt_sixteen a hsmall height, bucketWidth_eq_one (by omega),
      bucketReading, bucketLow_unit (.inr hlarge) (by omega), bucketWidth_eq_one (by omega)]
      at hreading
    omega
  · by_cases hswap : 8 ≤ a ∧ a < 16 ∧ 16 ≤ b ∧ b < a + 9
    · obtain ⟨height, hsmall, hlarge, hclose⟩ := hswap
      rw [bucketReading, bucketLow_of_lt_sixteen a hsmall height, bucketWidth_eq_one (by omega),
        bucketReading, bucketLow_unit (.inr hlarge) (by omega), bucketWidth_eq_one (by omega)]
      omega
    · have hranges := (ranges_increase_iff ha hlt hless).mpr hswap
      have := bucketWidth_pos a
      refine iff_of_true ?_ (by omega)
      rw [bucketReading, bucketReading]
      omega

end Readings

/-- Nothing is lost by reading the bucket of `a` for `a`: the samples reach to both sides of the
middle of the bucket, and, from 2 to 15, up to where the decoder puts it. -/
structure ReadWithin (samples : List Nat) (a : Nat) : Prop where
  low : ∃ x ∈ samples, x ≤ bucketMiddle a
  high : ∃ x ∈ samples, bucketMiddle a ≤ x
  small : 2 ≤ a → a < 16 → ∃ x ∈ samples, a + 2 ^ Nat.log2 a ≤ x

/-- What keeps a percentile between the smallest and the largest sample. -/
def PercentileWithin (samples : List Nat) (p : ℚ) : Prop :=
  p ≤ 0 ∨ 1 ≤ p ∨ (percentileTarget samples.length p = 0 ∧ 0 ∈ samples) ∨
    ∃ a, IsRank samples (percentileTarget samples.length p) a ∧ ReadWithin samples a

/-- Two percentiles at samples that the decoder puts in the wrong order. -/
def PercentilesSwapped (samples : List Nat) (p q : ℚ) : Prop :=
  0 < p ∧ q < 1 ∧ ∃ a b, IsRank samples (percentileTarget samples.length p) a ∧
    IsRank samples (percentileTarget samples.length q) b ∧
    8 ≤ a ∧ a < 16 ∧ 16 ≤ b ∧ b < a + 8

/-- What percentiles are for. -/
def OrderedPercentiles (h : LatencyHistogram) (p q : ℚ) : Prop :=
  h.min ≤ h.percentile p ∧ h.percentile p ≤ h.percentile q ∧ h.percentile q ≤ h.max

section Ordered

variable {h : LatencyHistogram} {samples : List Nat} {p q : ℚ}

open LatencyHistogram

theorem readWithin_iff (hc : Counts h samples) (hlt : ∀ x ∈ samples, x < 2 ^ 30) {a : Nat}
    (ha : a ∈ samples) :
    ReadWithin samples a ↔ h.minObserved ≤ bucketReading a ∧ bucketReading a ≤ h.maxObserved := by
  have hne : samples ≠ [] := List.ne_nil_of_mem ha
  have hlt' : ∀ x ∈ samples, x < 2 ^ 64 := fun x hx => (hlt x hx).trans (by decide)
  rw [hc.min_le_iff hne hlt', hc.le_max_iff hne]
  by_cases hsmall : 2 ≤ a ∧ a < 16
  · have hmiddle : bucketMiddle a = a := bucketMiddle_unit (by omega)
    rw [bucketReading_small hsmall.1 hsmall.2]
    constructor
    · intro hread
      exact ⟨⟨a, ha, Nat.le_add_right _ _⟩, hread.small hsmall.1 hsmall.2⟩
    · rintro ⟨-, hhigh⟩
      exact ⟨⟨a, ha, hmiddle.ge⟩, ⟨a, ha, hmiddle.le⟩, fun _ _ => hhigh⟩
  · rw [bucketReading_middle (by omega)]
    constructor
    · intro hread
      exact ⟨hread.low, hread.high⟩
    · rintro ⟨hlow, hhigh⟩
      exact ⟨hlow, hhigh, fun h2 h16 => absurd ⟨h2, h16⟩ hsmall⟩

theorem percentileWithin_iff (hc : Counts h samples) (hne : samples ≠ [])
    (hlt : ∀ x ∈ samples, x < 2 ^ 30) :
    PercentileWithin samples p ↔ h.minObserved ≤ h.percentile p ∧
      h.percentile p ≤ h.maxObserved := by
  have hlt' : ∀ x ∈ samples, x < 2 ^ 64 := fun x hx => (hlt x hx).trans (by decide)
  have hminmax : h.minObserved ≤ h.maxObserved := by
    obtain ⟨x, hx⟩ := List.exists_mem_of_ne_nil samples hne
    exact (hc.min_le_iff hne hlt' _).mpr ⟨x, hx, (hc.max _).mp (Nat.le_refl _) x hx⟩
  rcases le_or_gt p 0 with hp0 | hp0
  · rw [hc.percentile_zero hne hp0]
    exact iff_of_true (.inl hp0) ⟨Nat.le_refl _, hminmax⟩
  rcases le_or_gt 1 p with hp1 | hp1
  · rw [hc.percentile_one hne hp1]
    exact iff_of_true (.inr (.inl hp1)) ⟨hminmax, Nat.le_refl _⟩
  rw [PercentileWithin, or_iff_right (not_le.mpr hp0), or_iff_right (not_le.mpr hp1)]
  rcases hc.percentile_eq hne hlt hp0 hp1 with ⟨hzero, hreturn⟩ | ⟨a, ha, hreturn⟩
  · have hno : ¬ ∃ a, IsRank samples (percentileTarget samples.length p) a ∧
        ReadWithin samples a := by
      rintro ⟨a, ha, -⟩
      exact absurd hzero ha.pos.ne'
    rw [or_iff_left hno, hreturn, hc.min_le_iff hne hlt', and_iff_right hzero,
      and_iff_left (Nat.zero_le _)]
    constructor
    · intro hmem
      exact ⟨0, hmem, Nat.le_refl 0⟩
    · rintro ⟨x, hx, hx0⟩
      exact Nat.le_zero.mp hx0 ▸ hx
  · rw [or_iff_right fun hzero => ha.pos.ne' hzero.1, hreturn, ← readWithin_iff hc hlt ha.mem]
    constructor
    · rintro ⟨b, hb, hread⟩
      exact ha.unique hb ▸ hread
    · exact fun hread => ⟨a, ha, hread⟩

/-- **Percentiles are ordered and bounded** exactly when each of the two is between the smallest
and the largest sample and they are not swapped. -/
theorem orderedPercentiles_iff (hne : samples ≠ []) (hlt : ∀ x ∈ samples, x < 2 ^ 30)
    (hpq : p ≤ q) :
    OrderedPercentiles (ofSamples samples) p q ↔
      PercentileWithin samples p ∧ PercentileWithin samples q ∧
        ¬ PercentilesSwapped samples p q := by
  have hc := counts_ofSamples samples
  rw [OrderedPercentiles, hc.min_eq hne, percentileWithin_iff hc hne hlt,
    percentileWithin_iff hc hne hlt]
  constructor
  · rintro ⟨hmin, hle, hmax⟩
    refine ⟨⟨hmin, hle.trans hmax⟩, ⟨hmin.trans hle, hmax⟩, ?_⟩
    rintro ⟨hp, hq, a, b, ha, hb, height, hsmall, hlarge, hclose⟩
    rw [hc.percentile_rank hlt hp (hpq.trans_lt hq) ha,
      hc.percentile_rank hlt (hp.trans_le hpq) hq hb,
      bucketReading_le_iff (by omega) (hlt b hb.mem)] at hle
    exact hle ⟨height, hsmall, hlarge, hclose⟩
  · rintro ⟨⟨hmin, hpmax⟩, ⟨hminq, hmax⟩, hswap⟩
    refine ⟨hmin, ?_, hmax⟩
    rcases le_or_gt p 0 with hp | hp
    · rw [hc.percentile_zero hne hp]
      exact hminq
    rcases le_or_gt 1 q with hq | hq
    · rw [hc.percentile_one hne hq]
      exact hpmax
    rcases hc.percentile_eq hne hlt hp (hpq.trans_lt hq) with ⟨-, hreturn⟩ | ⟨a, ha, hreturn⟩
    · rw [hreturn]
      exact Nat.zero_le _
    have htargets := percentileTarget_mono (n := samples.length) hpq
    obtain ⟨b, hb⟩ : ∃ b, IsRank samples (percentileTarget samples.length q) b :=
      exists_isRank (ha.pos.trans_le htargets) (percentileTarget_le hq)
    rw [hreturn, hc.percentile_rank hlt (hp.trans_le hpq) hq hb,
      bucketReading_le_iff (ha.mono hb htargets) (hlt b hb.mem)]
    exact fun h => hswap ⟨hp, hq, a, b, ha, hb, h⟩

/-- The quartiles of 0 and 102. -/
theorem orderedPercentiles_iff_twoSamples :
    OrderedPercentiles (ofSamples [0, 102]) (1 / 4) (3 / 4) := by
  have hfirst : percentileTarget 2 (1 / 4) = 1 := by decide +kernel
  have hsecond : percentileTarget 2 (3 / 4) = 2 := by decide +kernel
  have hzero : IsRank [0, 102] 1 0 := ⟨by decide, by decide, by decide⟩
  have hlast : IsRank [0, 102] 2 102 := ⟨by decide, by decide, by decide⟩
  refine (orderedPercentiles_iff (by decide) (by decide) (by decide +kernel)).mpr ⟨?_, ?_, ?_⟩
  · exact .inr (.inr (.inr ⟨0, hfirst.symm ▸ hzero, by decide, by decide, by decide⟩))
  · exact .inr (.inr (.inr ⟨102, hsecond.symm ▸ hlast, by decide, by decide, by decide⟩))
  · rintro ⟨-, -, a, b, ha, -, height, -⟩
    rw [ha.unique (hfirst.symm ▸ hzero)] at height
    exact absurd height (by decide)

/-- The median of a single sample of 100 is 102. -/
theorem median_above_max : ¬ ∀ samples : List Nat, samples ≠ [] → (∀ x ∈ samples, x < 2 ^ 30) →
    ∀ p q : ℚ, 0 ≤ p → p ≤ q → q ≤ 1 → OrderedPercentiles (ofSamples samples) p q := by
  intro hall
  have hbound := (hall [100] (by decide) (by decide) (1 / 2) (1 / 2) (by decide +kernel)
    (by decide +kernel) (by decide +kernel)).2.2
  exact absurd hbound (by decide +kernel)

/-! A low percentile is not between the samples, and two percentiles are in the wrong order. -/

example : (ofSamples [100]).percentile (1 / 10) = 0 := by decide +kernel

example : (ofSamples [15, 16]).percentile (9 / 10) < (ofSamples [15, 16]).percentile (1 / 2) := by
  decide +kernel

end Ordered

end JitSignalEngine
