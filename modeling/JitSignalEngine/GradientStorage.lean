import JitSignalEngine.CallSites
import JitSignalEngine.Exact
import JitSignalEngine.SignalProgram
import Mathlib.Data.List.Induction

/-!
# The arrays of a signal context

How long the per-node arrays of a `SignalContext` are. The state arrays have one element
for each node id, the sensitivity arrays one for each node id and parameter, at
`node_id * gradient_param_count + param_id`.

* `ensureNodeCapacity`, `resizeSensitivityStorage` — the two functions that change the
  lengths.
* `SetupCall`, `setupRun` — prewarms and parameter changes in any order.
* `lastResizeCovers` — what the last call that resizes is.
* `gradientStorage_covers` — the sensitivity arrays are long enough for a program exactly
  when that call covers all its ids.

The state arrays only grow. The sensitivity arrays get the length that fits the node
visited last.
-/

namespace JitSignalEngine

variable {D : Type}

/-- The arrays of operator states that `CurrentNodeCapacity` looks at. -/
inductive StateArray where
  | ema | sma | rollingStd | zscore | vwap | lag | cross | rollingMinDeques | rollingMaxDeques
  | rollingCorr | rollingBeta | kalman1d
deriving DecidableEq, Repr

/-- Those arrays, in the order of the source. -/
def StateArray.all : List StateArray :=
  [.ema, .sma, .rollingStd, .zscore, .vwap, .lag, .cross, .rollingMinDeques, .rollingMaxDeques,
    .rollingCorr, .rollingBeta, .kalman1d]

theorem StateArray.mem_all (a : StateArray) : a ∈ StateArray.all := by
  cases a <;> decide

/-- The arrays of sensitivities. -/
inductive SensitivityArray where
  | ema | sma | lag | rollingStd | zscore | rollingCorr | rollingBeta | kalman1d | rollingMin
  | rollingMax
deriving DecidableEq, Repr

/-- The lengths of the arrays of a `SignalContext`, and the stride of the sensitivities. -/
structure ContextSizes where
  /-- the length of a state array -/
  states : StateArray → Nat
  /-- the length of a sensitivity array -/
  sensitivities : SensitivityArray → Nat
  /-- `gradient_param_count` -/
  gradientParamCount : Nat

namespace ContextSizes

/-- `SignalContext{}` -/
def init : ContextSizes := ⟨fun _ => 0, fun _ => 0, 0⟩

end ContextSizes

/-- `CurrentNodeCapacity` -/
def currentNodeCapacity (ctx : ContextSizes) : Nat :=
  StateArray.all.foldl (fun n a => max n (ctx.states a)) 0

/-- `ResizeSensitivityStorage` -/
def resizeSensitivityStorage (ctx : ContextSizes) (nodeCapacity paramCount : Nat) :
    ContextSizes :=
  { ctx with
    gradientParamCount := paramCount
    sensitivities := fun _ => nodeCapacity * paramCount }

/-- `EnsureNodeCapacity`, as far as lengths go. -/
def ensureNodeCapacity (ctx : ContextSizes) (nodeId : Nat) : ContextSizes :=
  let needed := nodeId + 1
  let ctx := { ctx with
    states := fun a => if ctx.states a < needed then needed else ctx.states a }
  if 0 < ctx.gradientParamCount then
    resizeSensitivityStorage ctx needed ctx.gradientParamCount
  else ctx

/-- The node ids the walk of `PrewarmSignalContext` visits, in its order. -/
def visitedNodes (signal : SignalDef D) : List Nat :=
  (signal.body.calls.filter fun c => 0 ≤ c.nodeId).map fun c => c.nodeId.toNat

/-- The node ids of a program. -/
def programNodes (signals : List (SignalDef D)) : List Nat := signals.flatMap visitedNodes

/-- A call that sets a context up. -/
inductive SetupCall (D : Type) where
  /-- `PrewarmSignalContext(ctx, signal)` -/
  | prewarm (signal : SignalDef D)
  /-- `SetStandaloneParameters(ctx, params)` -/
  | setStandaloneParameters (params : List D)
  /-- `MultiSymbolSignalContext::SetParameters(params)` on the arena of the context -/
  | setParameters (params : List D)

namespace SetupCall

/-- What the call does to the lengths. -/
def apply (ctx : ContextSizes) : SetupCall D → ContextSizes
  | .prewarm signal => (visitedNodes signal).foldl ensureNodeCapacity ctx
  | .setStandaloneParameters params =>
    resizeSensitivityStorage ctx (currentNodeCapacity ctx) params.length
  | .setParameters params => { ctx with gradientParamCount := params.length }

/-- The parameter vector of a call that sets one. -/
def params : SetupCall D → Option (List D)
  | .prewarm _ => none
  | .setStandaloneParameters params => some params
  | .setParameters params => some params

end SetupCall

/-- A context after some calls. The list has the last call first. -/
def setupRun (calls : List (SetupCall D)) : ContextSizes :=
  calls.foldr (fun call ctx => call.apply ctx) .init

/-- Whether the last call that resizes the sensitivity arrays makes room for node `n`:
`SetStandaloneParameters` does, and after a parameter vector was set so does a prewarm
whose last visited node is not below `n`. The list has the last call first. -/
def lastResizeCovers (n : Nat) : List (SetupCall D) → Prop
  | [] => False
  | .setStandaloneParameters _ :: _ => True
  | .setParameters _ :: earlier => lastResizeCovers n earlier
  | .prewarm signal :: earlier =>
    match (visitedNodes signal).getLast? with
    | none => lastResizeCovers n earlier
    | some m => n ≤ m ∧ ∃ call ∈ earlier, call.params ≠ none

/-! ## What the calls do -/

theorem ensureNodeCapacity_gradientParamCount (ctx : ContextSizes) (n : Nat) :
    (ensureNodeCapacity ctx n).gradientParamCount = ctx.gradientParamCount := by
  unfold ensureNodeCapacity
  by_cases h : 0 < ctx.gradientParamCount
  · simp [h, resizeSensitivityStorage]
  · simp [h]

theorem ensureNodeCapacity_states (ctx : ContextSizes) (n : Nat) (a : StateArray) :
    (ensureNodeCapacity ctx n).states a = max (ctx.states a) (n + 1) := by
  have hmax : (if ctx.states a < n + 1 then n + 1 else ctx.states a) = max (ctx.states a) (n + 1) := by
    by_cases h : ctx.states a < n + 1
    · rw [if_pos h, Nat.max_eq_right (Nat.le_of_lt h)]
    · rw [if_neg h, Nat.max_eq_left (Nat.le_of_not_lt h)]
  unfold ensureNodeCapacity
  by_cases h : 0 < ctx.gradientParamCount
  · simpa [h, resizeSensitivityStorage] using hmax
  · simpa [h] using hmax

theorem ensureNodeCapacity_sensitivities (ctx : ContextSizes) (n : Nat) (a : SensitivityArray) :
    (ensureNodeCapacity ctx n).sensitivities a =
      if 0 < ctx.gradientParamCount then (n + 1) * ctx.gradientParamCount
      else ctx.sensitivities a := by
  unfold ensureNodeCapacity
  by_cases h : 0 < ctx.gradientParamCount
  · simp [h, resizeSensitivityStorage]
  · simp [h]

/-- **A prewarm** grows the state arrays to the largest node visited and sets the length of
the sensitivity arrays by the last one. -/
theorem foldl_ensureNodeCapacity (ns : List Nat) (ctx : ContextSizes) :
    (ns.foldl ensureNodeCapacity ctx).gradientParamCount = ctx.gradientParamCount ∧
    (∀ a, ctx.states a ≤ (ns.foldl ensureNodeCapacity ctx).states a) ∧
    (∀ a, ∀ n ∈ ns, n < (ns.foldl ensureNodeCapacity ctx).states a) ∧
    ∀ a, (ns.foldl ensureNodeCapacity ctx).sensitivities a =
      match ns.getLast? with
      | some n => if 0 < ctx.gradientParamCount then (n + 1) * ctx.gradientParamCount
        else ctx.sensitivities a
      | none => ctx.sensitivities a := by
  induction ns using List.reverseRecOn with
  | nil => exact ⟨rfl, fun _ => Nat.le_refl _, fun _ _ h => absurd h List.not_mem_nil, fun _ => rfl⟩
  | append_singleton ns n ih =>
    obtain ⟨hcount, hle, hlt, hsens⟩ := ih
    rw [List.foldl_append, List.foldl_cons, List.foldl_nil]
    refine ⟨?_, ?_, ?_, ?_⟩
    · rw [ensureNodeCapacity_gradientParamCount, hcount]
    · intro a
      rw [ensureNodeCapacity_states]
      exact Nat.le_trans (hle a) (Nat.le_max_left _ _)
    · intro a m hm
      rw [ensureNodeCapacity_states]
      rcases List.mem_append.mp hm with hm | hm
      · exact Nat.lt_of_lt_of_le (hlt a m hm) (Nat.le_max_left _ _)
      · rw [List.mem_singleton.mp hm]
        exact Nat.le_max_right _ _
    · intro a
      rw [ensureNodeCapacity_sensitivities, hcount, List.getLast?_concat]
      by_cases h : 0 < ctx.gradientParamCount
      · simp [h]
      · have h0 : ctx.gradientParamCount = 0 := by omega
        rw [hsens a]
        cases ns.getLast? <;> simp [h0]

theorem states_le_currentNodeCapacity (ctx : ContextSizes) (a : StateArray) :
    ctx.states a ≤ currentNodeCapacity ctx := by
  have hmem := a.mem_all
  have hfold : ∀ (as : List StateArray) (n : Nat),
      n ≤ as.foldl (fun n a => max n (ctx.states a)) n ∧
        ∀ a ∈ as, ctx.states a ≤ as.foldl (fun n a => max n (ctx.states a)) n := by
    intro as
    induction as with
    | nil => exact fun n => ⟨Nat.le_refl n, fun _ h => absurd h List.not_mem_nil⟩
    | cons b bs ih =>
      intro n
      obtain ⟨hle, hall⟩ := ih (max n (ctx.states b))
      refine ⟨Nat.le_trans (Nat.le_max_left _ _) hle, fun a ha => ?_⟩
      rcases List.mem_cons.mp ha with rfl | ha
      · exact Nat.le_trans (Nat.le_max_right _ _) hle
      · exact hall a ha
  exact (hfold StateArray.all 0).2 a hmem

/-! ## Runs -/

/-- The stride is set by the parameter vectors, which all have the same length. -/
theorem setupRun_gradientParamCount {P : Nat} {calls : List (SetupCall D)}
    (hparams : ∀ call ∈ calls, ∀ params ∈ call.params, params.length = P) :
    ((∃ call ∈ calls, call.params ≠ none) → (setupRun calls).gradientParamCount = P) ∧
    ((∀ call ∈ calls, call.params = none) → (setupRun calls).gradientParamCount = 0 ∧
      ∀ a, (setupRun calls).sensitivities a = 0) := by
  induction calls with
  | nil => exact ⟨fun ⟨_, h, _⟩ => absurd h List.not_mem_nil, fun _ => ⟨rfl, fun _ => rfl⟩⟩
  | cons call earlier ih =>
    obtain ⟨hset, hnone⟩ := ih fun c hc => hparams c (List.mem_cons_of_mem _ hc)
    have hstep : setupRun (call :: earlier) = call.apply (setupRun earlier) := rfl
    cases call with
    | prewarm signal =>
      obtain ⟨hcount, -, -, hsens⟩ := foldl_ensureNodeCapacity (visitedNodes signal) (setupRun earlier)
      rw [hstep, SetupCall.apply, hcount]
      constructor
      · rintro ⟨c, hc, hp⟩
        rcases List.mem_cons.mp hc with rfl | hc
        · exact absurd rfl hp
        · exact hset ⟨c, hc, hp⟩
      · intro hall
        obtain ⟨h0, hs0⟩ := hnone fun c hc => hall c (List.mem_cons_of_mem _ hc)
        refine ⟨h0, fun a => ?_⟩
        rw [hsens a, hs0 a]
        cases (visitedNodes signal).getLast? <;> simp [h0]
    | setStandaloneParameters params =>
      refine ⟨fun _ => hparams _ List.mem_cons_self params rfl, fun hall => ?_⟩
      exact absurd (hall _ List.mem_cons_self) (Option.some_ne_none params)
    | setParameters params =>
      refine ⟨fun _ => hparams _ List.mem_cons_self params rfl, fun hall => ?_⟩
      exact absurd (hall _ List.mem_cons_self) (Option.some_ne_none params)

/-- Every node that was visited has its place in the state arrays. -/
theorem setupRun_states {calls : List (SetupCall D)} {signal : SignalDef D}
    (hcall : .prewarm signal ∈ calls) {n : Nat} (hn : n ∈ visitedNodes signal) (a : StateArray) :
    n < (setupRun calls).states a := by
  induction calls with
  | nil => exact absurd hcall List.not_mem_nil
  | cons call earlier ih =>
    have hstep : setupRun (call :: earlier) = call.apply (setupRun earlier) := rfl
    rw [hstep]
    rcases List.mem_cons.mp hcall with rfl | hmem
    · exact (foldl_ensureNodeCapacity _ _).2.2.1 a n hn
    · cases call with
      | prewarm other =>
        exact Nat.lt_of_lt_of_le (ih hmem) ((foldl_ensureNodeCapacity _ _).2.1 a)
      | setStandaloneParameters params => exact ih hmem
      | setParameters params => exact ih hmem

/-- **The room for one node** after a run of calls. -/
theorem setupRun_covers {P : Nat} (hP : 1 ≤ P) {calls : List (SetupCall D)}
    (hparams : ∀ call ∈ calls, ∀ params ∈ call.params, params.length = P) {signal : SignalDef D}
    (hcall : .prewarm signal ∈ calls) {n : Nat} (hn : n ∈ visitedNodes signal)
    (a : SensitivityArray) :
    (n + 1) * P ≤ (setupRun calls).sensitivities a ↔ lastResizeCovers n calls := by
  induction calls with
  | nil => exact absurd hcall List.not_mem_nil
  | cons call earlier ih =>
    have hparams' : ∀ call ∈ earlier, ∀ params ∈ call.params, params.length = P :=
      fun c hc => hparams c (List.mem_cons_of_mem _ hc)
    have hstep : setupRun (call :: earlier) = call.apply (setupRun earlier) := rfl
    rw [hstep]
    cases call with
    | setStandaloneParameters params =>
      have hcall : .prewarm signal ∈ earlier := by simpa using hcall
      have hcap := Nat.lt_of_lt_of_le (setupRun_states hcall hn .ema)
        (states_le_currentNodeCapacity (setupRun earlier) .ema)
      have hlen : params.length = P := hparams _ List.mem_cons_self params rfl
      simp only [SetupCall.apply, resizeSensitivityStorage, lastResizeCovers, hlen, iff_true]
      exact Nat.mul_le_mul_right P hcap
    | setParameters params =>
      have hcall : .prewarm signal ∈ earlier := by simpa using hcall
      exact ih hparams' hcall
    | prewarm other =>
      obtain ⟨hset, hnone⟩ := setupRun_gradientParamCount hparams'
      have hsens := (foldl_ensureNodeCapacity (visitedNodes other) (setupRun earlier)).2.2.2 a
      rw [SetupCall.apply, hsens, lastResizeCovers]
      cases hlast : (visitedNodes other).getLast? with
      | none =>
        -- nothing is visited, so the node was visited before
        have hne : other ≠ signal := by
          rintro rfl
          rw [List.getLast?_eq_none_iff.mp hlast] at hn
          exact absurd hn List.not_mem_nil
        have hcall : .prewarm signal ∈ earlier := by
          rcases List.mem_cons.mp hcall with h | h
          · exact absurd (SetupCall.prewarm.inj h).symm hne
          · exact h
        exact ih hparams' hcall
      | some m =>
        by_cases hex : ∃ call ∈ earlier, call.params ≠ none
        · have hcount := hset hex
          simp only [hcount, show 0 < P from hP, if_true, hex, and_true]
          rw [Nat.mul_le_mul_right_iff hP]
          exact Nat.succ_le_succ_iff
        · have hno : ∀ call ∈ earlier, call.params = none := fun c hc => by
            by_contra h
            exact hex ⟨c, hc, h⟩
          obtain ⟨hcount, hzero⟩ := hnone hno
          simp only [hcount, Nat.lt_irrefl, if_false, hzero, hex, and_false, iff_false, not_le]
          exact Nat.mul_pos (Nat.succ_pos n) hP

/-- **The sensitivity arrays cover a program** exactly when the last call that resizes them
covers each of its nodes. -/
theorem gradientStorage_covers (signals : List (SignalDef D)) {P : Nat} (hP : 1 ≤ P)
    {calls : List (SetupCall D)}
    (hparams : ∀ call ∈ calls, ∀ params ∈ call.params, params.length = P)
    (hprewarm : ∀ signal ∈ signals, .prewarm signal ∈ calls) :
    (∀ a, ∀ n ∈ programNodes signals, ∀ p < P, n * P + p < (setupRun calls).sensitivities a) ↔
      ∀ n ∈ programNodes signals, lastResizeCovers n calls := by
  have hnode : ∀ n ∈ programNodes signals, ∀ a,
      (n + 1) * P ≤ (setupRun calls).sensitivities a ↔ lastResizeCovers n calls := by
    intro n hn a
    obtain ⟨signal, hsignal, hn⟩ := List.mem_flatMap.mp hn
    exact setupRun_covers hP hparams (hprewarm signal hsignal) hn a
  constructor
  · intro h n hn
    refine (hnode n hn .ema).mp ?_
    have := h .ema n hn (P - 1) (by omega)
    rw [Nat.succ_mul]
    omega
  · intro h a n hn p hp
    have := (hnode n hn a).mpr (h n hn)
    rw [Nat.succ_mul] at this
    omega

/-! ## An alias that is visited last -/

section Alias

open Concrete

/-- `ema(mid(A), 3) + sma(mid(A), 5) + ema(mid(A), 3)` -/
def aliasedLast : List (SignalDef (Exact ℚ)) :=
  [⟨"s", plus (plus (app "ema" [mid "A", num 3]) (app "sma" [mid "A", num 5]))
    (app "ema" [mid "A", num 3])⟩]

/-- The set-up of the tests, last call first: the parameters, then a prewarm of each
signal. -/
def parametersFirst (signals : List (SignalDef (Exact ℚ))) : List (SetupCall (Exact ℚ)) :=
  (signals.map .prewarm).reverse ++ [.setStandaloneParameters [.val 1]]

/-- The same calls the other way around. -/
def parametersLast (signals : List (SignalDef (Exact ℚ))) : List (SetupCall (Exact ℚ)) :=
  .setStandaloneParameters [.val 1] :: (signals.map .prewarm).reverse

theorem gradientStorage_covers_parametersLast :
    2 ∈ programNodes (allocateProgramNodeIds aliasedLast) ∧
      2 * 1 + 0 <
        (setupRun (parametersLast (allocateProgramNodeIds aliasedLast))).sensitivities .sma := by
  have hnode : 2 ∈ programNodes (allocateProgramNodeIds aliasedLast) := by decide +kernel
  refine ⟨hnode, (gradientStorage_covers (allocateProgramNodeIds aliasedLast) (Nat.le_refl 1) ?_
    ?_).mpr (fun _ _ => by exact trivial) .sma 2 hnode 0 Nat.zero_lt_one⟩
  · intro call hcall params hp
    simp only [parametersLast, List.mem_cons, List.mem_reverse, List.mem_map] at hcall
    rcases hcall with rfl | ⟨_, -, rfl⟩
    · cases hp
      rfl
    · cases hp
  · intro signal hs
    exact List.mem_cons_of_mem _ (List.mem_reverse.mpr (List.mem_map_of_mem hs))

/-- **The arrays can be too short**: the walk ends with a call that shares the id 1, and
the slot of node 2 is past the end. -/
theorem gradientStorage_too_short :
    2 ∈ programNodes (allocateProgramNodeIds aliasedLast) ∧
      (setupRun (parametersFirst (allocateProgramNodeIds aliasedLast))).sensitivities .sma = 2 := by
  decide +kernel

end Alias

end JitSignalEngine
