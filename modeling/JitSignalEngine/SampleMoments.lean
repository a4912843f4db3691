import Mathlib.Algebra.BigOperators.Group.List.Basic
import Mathlib.Algebra.BigOperators.Ring.List
import Mathlib.Algebra.Field.Basic
import Mathlib.Algebra.CharZero.Defs
import Mathlib.Algebra.Order.BigOperators.Group.List
import Mathlib.Algebra.Order.Field.Basic
import Mathlib.Algebra.QuadraticDiscriminant
import Mathlib.Tactic.FieldSimp
import Mathlib.Tactic.Ring
import Mathlib.Tactic.LinearCombination
import Mathlib.Tactic.Linarith
import Mathlib.Tactic.NormNum

/-!
# Sample moments

Mean and sums of products of deviations of two quantities `f` and `g` over a list of samples,
and how one sample more or less changes them. Every rule for a running variance or covariance
is an instance.

* `comoment_moved` — the sums of squares along a line, of which `2 * comoment f g` is the
  derivative at its start.
* `comoment_eq` — the form without the means: `Σ f·g − Σ f · Σ g / n`.
* `mean_append`, `comoment_append` — Welford's update.
* `mean_remove`, `comoment_remove` — the same update run backwards.
* `comoment_self_eq_zero_iff` — a sum of squared deviations is zero if all samples are equal.
* `comoment_mul_self_le` — the Cauchy–Schwarz inequality.
-/

namespace JitSignalEngine

/-- The numeral `2` of a field, as a constant: definitions refer to the instance by name. -/
instance atLeastTwo_two : Nat.AtLeastTwo 2 := inferInstance

variable {ι K : Type} [Field K]

/-- The sum of a quantity over the samples. -/
def total (f : ι → K) (ws : List ι) : K := (ws.map f).sum

/-- The mean of a quantity, `0` over no samples. -/
def mean (f : ι → K) (ws : List ι) : K := total f ws / ws.length

/-- The sum of the products of deviations of two quantities. -/
def comoment (f g : ι → K) (ws : List ι) : K :=
  total (fun w => (f w - mean f ws) * (g w - mean g ws)) ws

@[simp] theorem total_nil (f : ι → K) : total f [] = 0 := rfl

@[simp] theorem total_cons (f : ι → K) (w : ι) (ws : List ι) :
    total f (w :: ws) = f w + total f ws := by simp [total]

@[simp] theorem total_append (f : ι → K) (ws ws' : List ι) :
    total f (ws ++ ws') = total f ws + total f ws' := by simp [total]

theorem total_perm (f : ι → K) {ws ws' : List ι} (h : ws.Perm ws') : total f ws = total f ws' :=
  (h.map f).sum_eq

/-- A quantity moved along another. -/
theorem total_moved (f g : ι → K) (t : K) (ws : List ι) :
    total (fun w => f w + t * g w) ws = total f ws + t * total g ws := by
  induction ws with
  | nil => simp
  | cons w ws ih =>
    simp only [total_cons, ih]
    ring

theorem mean_moved (f g : ι → K) (t : K) (ws : List ι) :
    mean (fun w => f w + t * g w) ws = mean f ws + t * mean g ws := by
  rw [mean, total_moved, mean, mean]
  ring

/-- The sum of squared deviations of a quantity moved along another, by powers of how far. -/
theorem comoment_moved (f g : ι → K) (t : K) (ws : List ι) :
    comoment (fun w => f w + t * g w) (fun w => f w + t * g w) ws =
      comoment f f ws + t * (2 * comoment f g ws) + t ^ 2 * comoment g g ws := by
  have hterm : ∀ w, (f w + t * g w - (mean f ws + t * mean g ws)) *
      (f w + t * g w - (mean f ws + t * mean g ws)) =
        (f w - mean f ws) * (f w - mean f ws) + t * (2 * ((f w - mean f ws) * (g w - mean g ws)) +
          t * ((g w - mean g ws) * (g w - mean g ws))) := fun w => by ring
  have htwo : total (fun w => 2 * ((f w - mean f ws) * (g w - mean g ws))) ws =
      2 * total (fun w => (f w - mean f ws) * (g w - mean g ws)) ws := List.sum_map_mul_left ..
  rw [comoment, mean_moved]
  simp only [hterm]
  rw [total_moved, total_moved, htwo, comoment, comoment, comoment]
  ring

theorem mean_perm (f : ι → K) {ws ws' : List ι} (h : ws.Perm ws') : mean f ws = mean f ws' := by
  rw [mean, mean, total_perm f h, h.length_eq]

theorem comoment_perm (f g : ι → K) {ws ws' : List ι} (h : ws.Perm ws') :
    comoment f g ws = comoment f g ws' := by
  rw [comoment, comoment, mean_perm f h, mean_perm g h, total_perm _ h]

theorem comoment_comm (f g : ι → K) (ws : List ι) : comoment f g ws = comoment g f ws := by
  simp only [comoment, mul_comm]

/-- Deviations from any two centres. -/
theorem total_deviations (f g : ι → K) (a b : K) (ws : List ι) :
    total (fun w => (f w - a) * (g w - b)) ws =
      total (fun w => f w * g w) ws - b * total f ws - a * total g ws + ws.length * (a * b) := by
  induction ws with
  | nil => simp
  | cons w ws ih =>
    simp only [total_cons, ih, List.length_cons, Nat.cast_add, Nat.cast_one]
    ring

/-- At most one sample has no deviation. -/
theorem comoment_of_length_le_one (f g : ι → K) {ws : List ι} (hws : ws.length ≤ 1) :
    comoment f g ws = 0 := by
  rcases ws with _ | ⟨w, _ | ⟨w', ws⟩⟩
  · simp [comoment]
  · simp [comoment, mean]
  · simp at hws

variable [CharZero K]

/-- **Without the means.** -/
theorem comoment_eq (f g : ι → K) (ws : List ι) :
    comoment f g ws = total (fun w => f w * g w) ws - total f ws * total g ws / ws.length := by
  rw [comoment, total_deviations]
  rcases ws with _ | ⟨w, ws⟩
  · simp
  · have hlength : ((w :: ws).length : K) ≠ 0 := Nat.cast_ne_zero.2 (by simp)
    simp only [mean]
    field_simp
    ring

/-- The mean after one sample more. -/
theorem mean_append (f : ι → K) (ws : List ι) (w : ι) :
    mean f (ws ++ [w]) = mean f ws + (f w - mean f ws) / (ws.length + 1 : Nat) := by
  have hnext : (ws.length : K) + 1 ≠ 0 := by exact_mod_cast Nat.succ_ne_zero ws.length
  simp only [mean, total_append, total_cons, total_nil, List.length_append, List.length_singleton,
    Nat.cast_add, Nat.cast_one, add_zero]
  rcases ws with _ | ⟨v, ws⟩
  · simp
  · have hlength : ((v :: ws).length : K) ≠ 0 := Nat.cast_ne_zero.2 (by simp)
    field_simp
    ring

/-- **Welford's update.** The deviation of one quantity is from the old mean, that of the
other from the new one. -/
theorem comoment_append (f g : ι → K) (ws : List ι) (w : ι) :
    comoment f g (ws ++ [w]) =
      comoment f g ws + (f w - mean f ws) * (g w - mean g (ws ++ [w])) := by
  have hnext : (ws.length : K) + 1 ≠ 0 := by exact_mod_cast Nat.succ_ne_zero ws.length
  simp only [comoment_eq, mean, total_append, total_cons, total_nil, List.length_append,
    List.length_singleton, Nat.cast_add, Nat.cast_one, add_zero]
  rcases ws with _ | ⟨v, ws⟩
  · simp
  · have hlength : ((v :: ws).length : K) ≠ 0 := Nat.cast_ne_zero.2 (by simp)
    field_simp
    ring

/-- The mean after the removal of one of at least two samples. -/
theorem mean_remove (f : ι → K) (w : ι) (ws : List ι) (hws : ws ≠ []) :
    mean f ws = mean f (w :: ws) - (f w - mean f (w :: ws)) / ((w :: ws).length - 1 : K) := by
  have hlength : (ws.length : K) ≠ 0 := Nat.cast_ne_zero.2 (by simpa using hws)
  have hnext : (ws.length : K) + 1 ≠ 0 := by exact_mod_cast Nat.succ_ne_zero ws.length
  simp only [mean, total_cons, List.length_cons, Nat.cast_add, Nat.cast_one, add_sub_cancel_right]
  field_simp
  ring

/-- Welford's update run backwards. -/
theorem comoment_remove (f g : ι → K) (w : ι) (ws : List ι) :
    comoment f g ws =
      comoment f g (w :: ws) - (f w - mean f (w :: ws)) * (g w - mean g ws) := by
  have hperm : (ws ++ [w]).Perm (w :: ws) := List.perm_append_singleton w ws
  rw [comoment_comm f g (w :: ws), ← comoment_perm g f hperm, ← mean_perm f hperm,
    comoment_append, comoment_comm g f]
  ring

section Order

variable {K : Type} [Field K] [LinearOrder K] [IsStrictOrderedRing K]

theorem comoment_self_nonneg (f : ι → K) (ws : List ι) : 0 ≤ comoment f f ws := by
  refine List.sum_nonneg fun x hx => ?_
  obtain ⟨w, -, rfl⟩ := List.mem_map.1 hx
  exact mul_self_nonneg _

omit [LinearOrder K] [IsStrictOrderedRing K] in
theorem mean_of_all_eq [CharZero K] {f : ι → K} {ws : List ι} {c : K} (hne : ws ≠ [])
    (h : ∀ w ∈ ws, f w = c) : mean f ws = c := by
  have htotal : total f ws = ws.length * c := by
    rw [total, List.map_congr_left h, List.map_const', List.sum_replicate, nsmul_eq_mul]
  have hlength : (ws.length : K) ≠ 0 := Nat.cast_ne_zero.2 (by simpa using hne)
  rw [mean, htotal, mul_div_cancel_left₀ _ hlength]

/-- A sum of squares is zero if every term is. -/
theorem total_squares_eq_zero_iff (a : ι → K) (ws : List ι) :
    total (fun w => a w * a w) ws = 0 ↔ ∀ w ∈ ws, a w = 0 := by
  induction ws with
  | nil => simp
  | cons w ws ih =>
    have hrest : 0 ≤ total (fun w => a w * a w) ws :=
      List.sum_nonneg fun x hx => by
        obtain ⟨v, -, rfl⟩ := List.mem_map.1 hx
        exact mul_self_nonneg _
    rw [total_cons, add_eq_zero_iff_of_nonneg (mul_self_nonneg _) hrest, mul_self_eq_zero, ih,
      List.forall_mem_cons]

/-- **No deviation** means that the samples are all equal. -/
theorem comoment_self_eq_zero_iff (f : ι → K) (ws : List ι) :
    comoment f f ws = 0 ↔ ∀ v ∈ ws, ∀ w ∈ ws, f v = f w := by
  rw [comoment, total_squares_eq_zero_iff]
  constructor
  · intro h v hv w hw
    rw [sub_eq_zero.1 (h v hv), sub_eq_zero.1 (h w hw)]
  · intro h w hw
    rw [mean_of_all_eq (List.ne_nil_of_mem hw) fun v hv => h v hv w hw, sub_self]

/-- **Cauchy–Schwarz.** The sum of squares along a line is a polynomial that is nowhere
negative. -/
theorem comoment_mul_self_le (f g : ι → K) (ws : List ι) :
    comoment f g ws * comoment f g ws ≤ comoment f f ws * comoment g g ws := by
  have hdiscrim : discrim (comoment g g ws) (2 * comoment f g ws) (comoment f f ws) ≤ 0 := by
    refine discrim_le_zero fun t => ?_
    have hline := comoment_self_nonneg (fun w => f w + t * g w) ws
    rw [comoment_moved] at hline
    linarith
  rw [discrim] at hdiscrim
  linarith

end Order

end JitSignalEngine
