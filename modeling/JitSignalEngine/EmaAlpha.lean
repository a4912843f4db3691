import JitSignalEngine.Averages
import JitSignalEngine.OperatorRuns
import JitSignalEngine.RunningSum

/-!
# `ema_alpha` with a factor that changes

`EvalEmaAlpha` blends with the factor of the tick, `jit_rt_ema_alpha` with the factor of the first
tick, which it stored.

* `emaAlphaSeries` — the recurrence, with the factor of each tick.
* `evalEmaAlpha_series` — the interpreter computes it.
* `BlendsAlike` — a tick at which the stored factor gives the same.
* `emaAlpha_agrees_iff` — compiled code computes the recurrence exactly if every tick past the
  first is one of these.
-/

namespace JitSignalEngine

open Fp Widen Interpreter

/-! ## The recurrence -/

section Runs

variable {D L : Type} [Fp D]

/-- The recurrence from the value `v` on. An input is a sample with a factor. -/
def emaAlphaFrom (v : D) : List (D × D) → List D
  | [] => []
  | i :: is => emaBlend i.2 i.1 v :: emaAlphaFrom (emaBlend i.2 i.1 v) is

/-- `alpha * x + (1 - alpha) * previous` at every tick, starting from the first sample. -/
def emaAlphaSeries : List (D × D) → List D
  | [] => []
  | i :: is => i.1 :: emaAlphaFrom i.1 is

/-- Factors `EvalEmaAlpha` lets through. -/
def InUnitInterval (alpha : D) : Prop := (lt alpha (ofNat 0) || lt (ofNat 1) alpha) = false

/-- The interpreter over a stream. -/
def evalEmaAlphaRun (id : Nat) (ctx : SignalContext D (NodeSlot D L)) (is : List (D × D)) :
    Except String (List D) :=
  runValues (fun ctx i => evalTick (evalEmaAlpha (operandCall id [i.1, i.2])) ctx) ctx is

/-- Compiled code over a stream; the emitter passes `0` for the period. -/
def jitEmaAlphaRun (id : Nat) (ctx : SignalContext D (NodeSlot D L)) (is : List (D × D)) :
    Except String (List D) :=
  runValues (fun ctx i => slotTick id (fun slot => .ok (jitRtEmaAlpha slot i.1 i.2 0)) ctx) ctx is

/-- The interpreter past the first tick. By induction on the stream. -/
theorem emaAlphaStep_run {slot : NodeSlot D L} (hinit : slot.ema.initialized = true)
    (is : List (D × D)) :
    runValues (fun slot i => emaAlphaStep i.1 i.2 slot) slot is =
      .ok (emaAlphaFrom slot.ema.value is) := by
  induction is generalizing slot with
  | nil => rfl
  | cons i is ih =>
    obtain ⟨slot', hstep, hinit', hvalue⟩ : ∃ slot' : NodeSlot D L,
        emaAlphaStep i.1 i.2 slot = .ok (emaBlend i.2 i.1 slot.ema.value, slot') ∧
          slot'.ema.initialized = true ∧ slot'.ema.value = emaBlend i.2 i.1 slot.ema.value := by
      simp [emaAlphaStep, hinit]
    rw [runValues_cons hstep, ih hinit', hvalue]
    rfl

/-- **The interpreter computes the recurrence.** -/
theorem evalEmaAlpha_series (id : Nat) {ctx : SignalContext D (NodeSlot D L)}
    (hfresh : (ctx.slots id).ema.initialized = false) {is : List (D × D)}
    (hunit : ∀ i ∈ is, InUnitInterval i.2) :
    evalEmaAlphaRun id ctx is = .ok (emaAlphaSeries is) := by
  rw [evalEmaAlphaRun, runValues_congr fun i hi ctx => evalTick_emaAlpha (hunit i hi) i.1 ctx,
    runValues_slotTick id fun i : D × D => emaAlphaStep i.1 i.2]
  cases is with
  | nil => rfl
  | cons i is =>
    obtain ⟨slot', hstep, hinit', hvalue⟩ : ∃ slot' : NodeSlot D L,
        emaAlphaStep i.1 i.2 (ctx.slots id) = .ok (i.1, slot') ∧
          slot'.ema.initialized = true ∧ slot'.ema.value = i.1 := by
      simp [emaAlphaStep, hfresh]
    rw [runValues_cons hstep, emaAlphaStep_run hinit', hvalue]
    rfl

/-- Compiled code past the first tick: the recurrence with the stored factor. -/
theorem jitRtEmaAlpha_run {slot : NodeSlot D L} (hinit : slot.ema.initialized = true)
    (is : List (D × D)) :
    runValues (fun slot i => .ok (jitRtEmaAlpha slot i.1 i.2 0) :
        NodeSlot D L → D × D → Except String _) slot is =
      .ok (emaAlphaFrom slot.ema.value (is.map fun i => (i.1, slot.ema.alpha))) := by
  induction is generalizing slot with
  | nil => rfl
  | cons i is ih =>
    obtain ⟨slot', hstep, hinit', hvalue, halpha⟩ : ∃ slot' : NodeSlot D L,
        jitRtEmaAlpha slot i.1 i.2 0 = (emaBlend slot.ema.alpha i.1 slot.ema.value, slot') ∧
          slot'.ema.initialized = true ∧
          slot'.ema.value = emaBlend slot.ema.alpha i.1 slot.ema.value ∧
          slot'.ema.alpha = slot.ema.alpha := by
      simp [jitRtEmaAlpha, hinit]
    rw [runValues_cons (congrArg Except.ok hstep), ih hinit', hvalue, halpha]
    rfl

/-- **Compiled code computes the recurrence with the first factor.** -/
theorem jitEmaAlpha_series (id : Nat) {ctx : SignalContext D (NodeSlot D L)}
    (hfresh : (ctx.slots id).ema.initialized = false) (i : D × D) (is : List (D × D)) :
    jitEmaAlphaRun id ctx (i :: is) = .ok (emaAlphaSeries (i :: is.map fun j => (j.1, i.2))) := by
  rw [jitEmaAlphaRun, runValues_slotTick id fun (i : D × D) slot => .ok (jitRtEmaAlpha slot i.1 i.2 0)]
  obtain ⟨slot', hstep, hinit', hvalue, halpha⟩ : ∃ slot' : NodeSlot D L,
      jitRtEmaAlpha (ctx.slots id) i.1 i.2 0 = (i.1, slot') ∧ slot'.ema.initialized = true ∧
        slot'.ema.value = i.1 ∧ slot'.ema.alpha = i.2 := by
    simp [jitRtEmaAlpha, hfresh]
  rw [runValues_cons (congrArg Except.ok hstep), jitRtEmaAlpha_run hinit', hvalue, halpha]
  rfl

/-- What is stored after some inputs, the factor `a` all along. -/
def heldValue (a v : D) (past : List (D × D)) : D :=
  past.foldl (fun v i => emaBlend a i.1 v) v

/-- Every tick past the first blends the value stored before it as the first factor would. -/
def KeepsFactor (is : List (D × D)) : Prop :=
  ∀ first past i rest, is = first :: (past ++ i :: rest) →
    emaBlend first.2 i.1 (heldValue first.2 first.1 past) =
      emaBlend i.2 i.1 (heldValue first.2 first.1 past)

/-- The recurrence with one factor and with the factors of the ticks. By induction on the stream:
as long as the two agree, they go on from the same value. -/
theorem emaAlphaFrom_eq_iff (a v : D) (is : List (D × D)) :
    emaAlphaFrom v (is.map fun i => (i.1, a)) = emaAlphaFrom v is ↔
      ∀ past i rest, is = past ++ i :: rest →
        emaBlend a i.1 (heldValue a v past) = emaBlend i.2 i.1 (heldValue a v past) := by
  induction is generalizing v with
  | nil => simp [emaAlphaFrom]
  | cons i is ih =>
    simp only [List.map_cons, emaAlphaFrom, List.cons.injEq]
    constructor
    · rintro ⟨hblend, hrest⟩ past j rest hsplit
      rw [← hblend] at hrest
      cases past with
      | nil =>
        obtain ⟨rfl, rfl⟩ := List.cons.inj hsplit
        exact hblend
      | cons p past =>
        obtain ⟨rfl, rfl⟩ := List.cons.inj hsplit
        exact (ih _).1 hrest past j rest rfl
    · intro hall
      have hblend : emaBlend a i.1 v = emaBlend i.2 i.1 v := hall [] i is rfl
      refine ⟨hblend, ?_⟩
      rw [← hblend]
      exact (ih _).2 fun past j rest hsplit =>
        hall (i :: past) j rest (by rw [hsplit, List.cons_append])

/-- The two series. -/
theorem emaAlphaSeries_eq_iff (i : D × D) (is : List (D × D)) :
    emaAlphaSeries (i :: is.map fun j => (j.1, i.2)) = emaAlphaSeries (i :: is) ↔
      KeepsFactor (i :: is) := by
  rw [emaAlphaSeries, emaAlphaSeries, List.cons.injEq, emaAlphaFrom_eq_iff]
  constructor
  · rintro ⟨-, hall⟩ first past j rest hsplit
    obtain ⟨rfl, rfl⟩ := List.cons.inj hsplit
    exact hall past j rest rfl
  · intro hall
    exact ⟨rfl, fun past j rest hsplit => hall i past j rest (by rw [hsplit])⟩

end Runs

/-! ## When the two agree -/

section Exact

open Exact

variable {K : Type} [Field K] [LinearOrder K] [Transcendental K]

/-- **A tick at which the stored factor `a` gives the same** as the factor `alpha`, after the
samples `xs`: the factors are equal, or a NaN makes every average one, or the sample is the
exponential average so far, which no factor moves. -/
def BlendsAlike (a : K) (xs : List (Exact K)) (x : Exact K) (alpha : K) : Prop :=
  alpha = a ∨ Exact.nan ∈ xs ++ [x] ∨ ∃ us : List K, xs = us.map val ∧ x = val (exponentialMean a us)

/-- What the recurrence with the factor `a` has reached after some samples. -/
structure Reached (a : K) (xs : List (Exact K)) (v : Exact K) : Prop where
  ne_nil : xs ≠ []
  numbers : ∀ us : List K, xs = us.map val → v = val (exponentialMean a us)
  nan : Exact.nan ∈ xs → v = .nan

omit [LinearOrder K] [Transcendental K] in
theorem reached_first (a : K) (x : Exact K) : Reached a [x] x := by
  refine ⟨List.cons_ne_nil _ _, fun us hus => ?_, fun h => (List.mem_singleton.1 h).symm⟩
  obtain ⟨u, us, rfl, rfl, hnil⟩ := List.map_eq_cons_iff.1 hus.symm
  obtain rfl := List.map_eq_nil_iff.1 hnil
  rw [exponentialMean_singleton]

theorem emaBlend_nan {a x v : Exact K} (h : x = .nan ∨ v = .nan) : emaBlend a x v = .nan := by
  rcases h with rfl | rfl <;> simp [emaBlend]

theorem emaBlend_numbers (a x v : K) :
    emaBlend (val a) (val x) (val v) = val (a * x + (1 - a) * v) := by
  simp [emaBlend]

theorem Reached.next {a : K} {xs : List (Exact K)} {v : Exact K} (h : Reached a xs v)
    (x : Exact K) : Reached a (xs ++ [x]) (emaBlend (val a) x v) := by
  refine ⟨by simp, fun us hus => ?_, fun hmem => emaBlend_nan ?_⟩
  · obtain ⟨ws, w, rfl, rfl, rfl⟩ := map_val_append hus
    have hne : ws ≠ [] := by simpa using h.ne_nil
    rw [h.numbers ws rfl, emaBlend_numbers, exponentialMean_append a hne]
  · rcases List.mem_append.1 hmem with hxs | hx
    · exact .inr (h.nan hxs)
    · exact .inl (List.mem_singleton.1 hx).symm

/-- One tick. -/
theorem Reached.blend_eq_iff {a : K} {xs : List (Exact K)} {v : Exact K} (h : Reached a xs v)
    (x : Exact K) (alpha : K) :
    emaBlend (val a) x v = emaBlend (val alpha) x v ↔ BlendsAlike a xs x alpha := by
  rcases numbers_or_nan (xs ++ [x]) with ⟨us, hus⟩ | hmem
  · obtain ⟨ws, w, rfl, rfl, rfl⟩ := map_val_append hus
    rw [h.numbers ws rfl, emaBlend_numbers, emaBlend_numbers]
    have hsplit : val (a * w + (1 - a) * exponentialMean a ws) =
        val (alpha * w + (1 - alpha) * exponentialMean a ws) ↔
          (alpha - a) * (w - exponentialMean a ws) = 0 := by
      rw [Exact.val.injEq]
      constructor <;> intro heq <;> linear_combination -heq
    rw [hsplit, mul_eq_zero, sub_eq_zero, sub_eq_zero, BlendsAlike]
    refine or_congr_right ⟨fun hw => .inr ⟨ws, rfl, by rw [hw]⟩, ?_⟩
    rintro (hnan | ⟨us, hus, hx⟩)
    · rw [hus] at hnan
      exact absurd hnan (nan_notMem_map _)
    · obtain rfl := List.map_injective_iff.2 (fun _ _ => Exact.val.inj) hus
      exact Exact.val.inj hx
  · have hnan : x = .nan ∨ v = .nan := by
      rcases List.mem_append.1 hmem with hxs | hx
      · exact .inr (h.nan hxs)
      · exact .inl (List.mem_singleton.1 hx).symm
    rw [emaBlend_nan hnan, emaBlend_nan hnan]
    exact ⟨fun _ => .inr (.inl hmem), fun _ => rfl⟩

/-- A sample with its factor, which is a number. -/
def withFactor (i : Exact K × K) : Exact K × Exact K := (i.1, val i.2)

/-- What is stored, over numbers and NaN. By induction on the inputs. -/
theorem Reached.held {a : K} {xs : List (Exact K)} {v : Exact K} (h : Reached a xs v)
    (past : List (Exact K × Exact K)) :
    Reached a (xs ++ past.map Prod.fst) (heldValue (val a) v past) := by
  induction past generalizing xs v with
  | nil => simpa [heldValue] using h
  | cons i past ih => simpa [heldValue] using ih (h.next i.1)

/-- The condition on numbers. -/
theorem keepsFactor_iff (is : List (Exact K × K)) :
    KeepsFactor (is.map withFactor) ↔ ∀ first past i rest, is = first :: (past ++ i :: rest) →
      BlendsAlike first.2 ((first :: past).map Prod.fst) i.1 i.2 := by
  have hfst : ∀ js : List (Exact K × K), (js.map withFactor).map Prod.fst = js.map Prod.fst := by
    simp [withFactor, Function.comp_def]
  have htick : ∀ (first : Exact K × K) (past : List (Exact K × K)) (i : Exact K × K),
      emaBlend (val first.2) i.1 (heldValue (val first.2) first.1 (past.map withFactor)) =
          emaBlend (val i.2) i.1 (heldValue (val first.2) first.1 (past.map withFactor)) ↔
        BlendsAlike first.2 ((first :: past).map Prod.fst) i.1 i.2 := by
    intro first past i
    have hheld := (reached_first first.2 first.1).held (past.map withFactor)
    rw [hfst] at hheld
    exact hheld.blend_eq_iff i.1 i.2
  constructor
  · rintro hall first past i rest rfl
    exact (htick first past i).1
      (hall (withFactor first) (past.map withFactor) (withFactor i) (rest.map withFactor) (by simp))
  · intro hall first past i rest hsplit
    obtain ⟨first, is', rfl, rfl, htail⟩ := List.map_eq_cons_iff.1 hsplit
    obtain ⟨past, is'', rfl, rfl, hlast⟩ := List.map_eq_append_iff.1 htail
    obtain ⟨i, rest, rfl, rfl, rfl⟩ := List.map_eq_cons_iff.1 hlast
    exact (htick first past i).2 (hall first past i rest rfl)

end Exact

/-- **Which streams are averaged alike.** From a new prewarmed context, on factors in `[0, 1]`, the
interpreter computes the recurrence, and compiled code computes it, too, exactly if every tick past
the first blends the stored value as the factor of the first tick would. Over numbers and NaN that
is: the factor is the first one, or a NaN has come, or the sample is the exponential average of
those before. -/
theorem emaAlpha_agrees_iff {D L : Type} [Fp D] [Fp L] [Widen D L] (id : Nat)
    (ctx : SignalContext D (NodeSlot D L)) (literal : Option D) (is : List (D × D))
    (hslot : ctx.slots id = NodeSlot.empty.prewarm .emaAlpha literal)
    (hunit : ∀ i ∈ is, InUnitInterval i.2) :
    evalEmaAlphaRun id ctx is = .ok (emaAlphaSeries is) ∧
      (jitEmaAlphaRun id ctx is = evalEmaAlphaRun id ctx is ↔ KeepsFactor is) ∧
      ∀ (K : Type) [Field K] [LinearOrder K] [Transcendental K] (js : List (Exact K × K)),
        KeepsFactor (js.map withFactor) ↔ ∀ first past i rest, js = first :: (past ++ i :: rest) →
          BlendsAlike first.2 ((first :: past).map Prod.fst) i.1 i.2 := by
  have hfresh : (ctx.slots id).ema.initialized = false := by rw [hslot]; rfl
  have heval := evalEmaAlpha_series id hfresh hunit
  refine ⟨heval, ?_, fun K _ _ _ js => keepsFactor_iff js⟩
  rw [heval]
  cases is with
  | nil =>
    refine ⟨fun _ => ?_, fun _ => rfl⟩
    rintro first past i rest ⟨⟩
  | cons i is => rw [jitEmaAlpha_series id hfresh, Except.ok.injEq, emaAlphaSeries_eq_iff]

/-- A context with nothing in it. -/
def emptyContext : SignalContext (Exact ℚ) (NodeSlot (Exact ℚ) (Exact ℚ)) := .fresh []

/-- Two samples, the factor raised in between. -/
def raisedFactor : List (Exact ℚ × Exact ℚ) := [(.val 0, .val (1 / 2)), (.val 1, .val 1)]

/-- The second factor does not matter where the sample is the average so far. -/
def restingSample : List (Exact ℚ × Exact ℚ) := [(.val 3, .val (1 / 2)), (.val 3, .val 1)]

theorem emaAlpha_agrees_iff_restingSample :
    jitEmaAlphaRun 1 emptyContext restingSample = evalEmaAlphaRun 1 emptyContext restingSample := by
  have hunit : ∀ i ∈ restingSample, InUnitInterval i.2 := by
    simp only [restingSample, InUnitInterval]
    decide +kernel
  obtain ⟨-, hagree, hexact⟩ := emaAlpha_agrees_iff 1 emptyContext none restingSample rfl hunit
  refine hagree.2 ((hexact ℚ [(.val 3, 1 / 2), (.val 3, 1)]).2 ?_)
  rintro first past i rest hsplit
  obtain ⟨rfl, htail⟩ := List.cons.inj hsplit
  obtain rfl : past = [] := by
    rcases past with _ | ⟨p, past⟩
    · rfl
    · simp at htail
  obtain ⟨rfl, rfl⟩ := List.cons.inj htail
  exact .inr (.inr ⟨[3], rfl, by rw [exponentialMean_singleton]⟩)

/-- **Compiled code keeps the first factor.** -/
theorem jit_keeps_first_factor :
    emptyContext.slots 1 = NodeSlot.empty.prewarm .emaAlpha none ∧
      (∀ i ∈ raisedFactor, InUnitInterval i.2) ∧
      jitEmaAlphaRun 1 emptyContext raisedFactor ≠ evalEmaAlphaRun 1 emptyContext raisedFactor := by
  refine ⟨rfl, ?_, by decide +kernel⟩
  simp only [raisedFactor, InUnitInterval]
  decide +kernel

end JitSignalEngine
