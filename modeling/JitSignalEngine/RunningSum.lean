import JitSignalEngine.RollingMoments

/-!
# Running sums

A sum over a window that is never recomputed: each tick takes the oldest term off and puts the new
one on. Over numbers it is the sum over the window. A NaN stays in it for good.

* `numbers_or_nan` — a list of terms is a list of numbers, or holds a NaN.
* `RunningSum` — what the sum is after a history of terms.
* `RunningSum.push`, `RunningSum.push_map` — one tick, the oldest term off first;
  `RunningSum.exchange`, `RunningSum.exchange_map` — the new one on first.
-/

namespace JitSignalEngine

open Fp Exact

variable {K : Type}

/-- Terms are numbers, or one of them is NaN. -/
theorem numbers_or_nan (xs : List (Exact K)) :
    (∃ vs : List K, xs = vs.map val) ∨ Exact.nan ∈ xs := by
  induction xs with
  | nil => exact .inl ⟨[], rfl⟩
  | cons x xs ih =>
    cases x with
    | nan => exact .inr List.mem_cons_self
    | val v =>
      rcases ih with ⟨vs, rfl⟩ | h
      · exact .inl ⟨v :: vs, rfl⟩
      · exact .inr (List.mem_cons_of_mem _ h)

theorem nan_notMem_map (vs : List K) : Exact.nan ∉ vs.map val := by simp

instance decidableNanMem [DecidableEq K] (xs : List (Exact K)) : Decidable (Exact.nan ∈ xs) :=
  inferInstance

/-- Numbers, one entry more. -/
theorem map_val_append {xs : List (Exact K)} {x : Exact K} {vs : List K}
    (h : xs ++ [x] = vs.map val) :
    ∃ ws v, xs = ws.map val ∧ x = val v ∧ vs = ws ++ [v] := by
  obtain ⟨ws, us, rfl, hxs, hx⟩ := List.map_eq_append_iff.1 h.symm
  obtain ⟨v, us, rfl, hv, hus⟩ := List.map_eq_cons_iff.1 hx
  obtain rfl := List.map_eq_nil_iff.1 hus
  exact ⟨ws, v, hxs.symm, hv.symm, rfl⟩

variable [Field K] [LinearOrder K] [Transcendental K]

/-- **A running sum** over the last `n` of the terms so far. -/
structure RunningSum (n : Nat) (xs : List (Exact K)) (s : Exact K) : Prop where
  /-- the sum over the window, over numbers -/
  numbers : ∀ vs : List K, xs = vs.map val → s = val (total id (window n vs))
  /-- NaN after a NaN -/
  nan : Exact.nan ∈ xs → s = .nan

namespace RunningSum

variable {n : Nat} {xs : List (Exact K)} {s : Exact K}

theorem empty : RunningSum n [] (ofNat 0 : Exact K) := by
  refine ⟨fun vs h => ?_, fun h => absurd h List.not_mem_nil⟩
  obtain rfl := List.map_eq_nil_iff.1 h.symm
  simp

/-- **One tick.** Every case of NaN is one of a NaN so far, so the sum over numbers is all there
is to compute. -/
theorem push (h : RunningSum n xs s) (hn : 0 < n) (x : Exact K) {old : Exact K}
    (hold : n ≤ xs.length → xs[xs.length - n]? = some old) :
    RunningSum n (xs ++ [x]) (add (if n ≤ xs.length then sub s old else s) x) := by
  refine ⟨fun vs hvs => ?_, fun hmem => ?_⟩
  · obtain ⟨ws, v, rfl, rfl, rfl⟩ := map_val_append hvs
    rw [List.length_map] at hold ⊢
    rw [h.numbers ws rfl]
    split
    case isTrue hfull =>
      -- the window slides
      obtain ⟨w, rest, hw, hwindow, hnext⟩ := window_slide v hn hfull
      have hval : val w = old := by
        have hmap := hold hfull
        rw [List.getElem?_map, hw] at hmap
        exact Option.some.inj hmap
      rw [hwindow, hnext, ← hval, total_cons, total_append, total_cons, total_nil, id, id, sub_val,
        add_val, add_sub_cancel_left, add_zero]
    case isFalse hfills =>
      rw [window_fill v (by omega), total_append, total_cons, total_nil, id, add_val, add_zero]
  · rcases List.mem_append.1 hmem with hxs | hx
    · rw [h.nan hxs]
      split <;> simp
    · obtain rfl := List.mem_singleton.1 hx
      simp

omit [LinearOrder K] [Transcendental K] in
theorem numbers_map {I : Type} {g : I → Exact K} {f : I → K} {is : List I}
    (h : RunningSum n (is.map g) s) (hg : ∀ i, g i = val (f i)) :
    s = val (total f (window n is)) := by
  have hterms : is.map g = (is.map f).map val := by simp [hg]
  rw [h.numbers _ hterms, window_map, total, List.map_map]
  rfl

/-- One tick, the new term on first. -/
theorem exchange (h : RunningSum n xs s) (hn : 0 < n) (x : Exact K) {old : Exact K}
    (hold : n ≤ xs.length → xs[xs.length - n]? = some old) :
    RunningSum n (xs ++ [x]) (sub (add s x) (if n ≤ xs.length then old else ofNat 0)) := by
  have hpush := h.push hn x hold
  split
  case isTrue hfull =>
    have hswap : sub (add s x) old = add (sub s old) x := by
      cases s <;> cases x <;> cases old <;>
        first | rfl | exact congrArg val (add_sub_right_comm _ _ _)
    rwa [if_pos hfull, ← hswap] at hpush
  case isFalse hfills =>
    have hzero : sub (add s x) (ofNat 0) = add s x := by
      cases s <;> cases x <;> first | rfl | simp
    rwa [if_neg hfills, ← hzero] at hpush

/-- A tick of a sum of terms `g i`. -/
theorem push_map {I : Type} {g : I → Exact K} {is : List I} (h : RunningSum n (is.map g) s)
    (hn : 0 < n) (i : I) {old : I} (hold : n ≤ is.length → is[is.length - n]? = some old) :
    RunningSum n ((is ++ [i]).map g) (add (if n ≤ is.length then sub s (g old) else s) (g i)) := by
  have hpush := h.push hn (g i) fun hfull => by
    rw [List.length_map] at hfull ⊢
    rw [List.getElem?_map, hold hfull, Option.map_some]
  rwa [List.length_map, ← List.map_singleton, ← List.map_append] at hpush

/-- The same, the new term on first. -/
theorem exchange_map {I : Type} {g : I → Exact K} {is : List I} (h : RunningSum n (is.map g) s)
    (hn : 0 < n) (i : I) {old : I} (hold : n ≤ is.length → is[is.length - n]? = some old) :
    RunningSum n ((is ++ [i]).map g)
      (sub (add s (g i)) (if n ≤ is.length then g old else ofNat 0)) := by
  have hexchange := h.exchange hn (g i) fun hfull => by
    rw [List.length_map] at hfull ⊢
    rw [List.getElem?_map, hold hfull, Option.map_some]
  rwa [List.length_map, ← List.map_singleton, ← List.map_append] at hexchange

end RunningSum

end JitSignalEngine
