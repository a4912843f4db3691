import JitSignalEngine.Exact
import JitSignalEngine.GradientOps
import JitSignalEngine.SampleMoments
import Mathlib.Algebra.DualNumber
import Mathlib.Tactic.FieldSimp
import Mathlib.Tactic.Ring

/-!
# Exact arithmetic over dual numbers

The instance of `Fp` that differentiates what runs on it. A value is a dual number `a + b ε`
with `ε² = 0`, or NaN. The operations are those of the ring of dual numbers, comparisons look
at `a`, and a function is extended by `f (a + b ε) = f a + f' a · b ε`, where `f` has a
derivative.

* `ofDual` — a dual number as the source keeps it, value and tangent apart.
-/

namespace JitSignalEngine

open DualNumber TrivSqZeroExt

namespace Exact

variable {K : Type} [Field K] [LinearOrder K] [Transcendental K]

instance : Fp (Exact K[ε]) where
  add := map₂ fun x y => .val (x + y)
  sub := map₂ fun x y => .val (x - y)
  mul := map₂ fun x y => .val (x * y)
  div := map₂ fun x y => if y.fst = 0 then .nan else .val (x * y⁻¹)
  neg := map₁ fun x => .val (-x)
  lt := rel fun x y => decide (x.fst < y.fst)
  le := rel fun x y => decide (x.fst ≤ y.fst)
  eq := rel fun x y => decide (x.fst = y.fst)
  ofRat q := .val (inl (q : K))
  nan := .nan
  fabs := map₁ fun x => if x.fst = 0 then .nan else .val (if x.fst < 0 then -x else x)
  sqrt := map₁ fun x =>
    if x.fst ≤ 0 then .nan
    else .val (inl (Transcendental.sqrt x.fst) + inr (x.snd / (2 * Transcendental.sqrt x.fst)))
  log := map₁ fun x =>
    if x.fst ≤ 0 then .nan else .val (inl (Transcendental.log x.fst) + inr (x.snd / x.fst))
  toInt
    | .val x => Transcendental.trunc x.fst
    | .nan => 0

/-! ### Operations on dual numbers -/

@[simp] theorem add_dual (x y : K[ε]) : Fp.add (val x) (val y) = val (x + y) := rfl

@[simp] theorem sub_dual (x y : K[ε]) : Fp.sub (val x) (val y) = val (x - y) := rfl

@[simp] theorem mul_dual (x y : K[ε]) : Fp.mul (val x) (val y) = val (x * y) := rfl

@[simp] theorem div_dual (x : K[ε]) {y : K[ε]} (h : y.fst ≠ 0) :
    Fp.div (val x) (val y) = val (x * y⁻¹) := if_neg h

@[simp] theorem lt_dual (x y : K[ε]) : Fp.lt (val x) (val y) = decide (x.fst < y.fst) := rfl

@[simp] theorem le_dual (x y : K[ε]) : Fp.le (val x) (val y) = decide (x.fst ≤ y.fst) := rfl

@[simp] theorem eq_dual (x y : K[ε]) : Fp.eq (val x) (val y) = decide (x.fst = y.fst) := rfl

@[simp] theorem ofRat_dual (q : ℚ) : (Fp.ofRat q : Exact K[ε]) = val (inl (q : K)) := rfl

@[simp] theorem ofNat_dual (n : Nat) : (Fp.ofNat n : Exact K[ε]) = val (inl (n : K)) :=
  congrArg (fun x : K => val (inl x)) (Rat.cast_natCast n)

end Exact

variable {K : Type}

/-- A dual number as value and tangent. -/
def ofDual (x : K[ε]) : ValueGradient (Exact K) := ⟨.val x.fst, .val x.snd⟩

@[simp] theorem ofDual_value (x : K[ε]) : (ofDual x).value = .val x.fst := rfl

@[simp] theorem ofDual_gradient (x : K[ε]) : (ofDual x).gradient = .val x.snd := rfl

/-- The quotient rule. -/
theorem snd_quotient [Field K] (x y : K[ε]) (h : y.fst ≠ 0) :
    (x * y⁻¹).snd = (x.snd * y.fst - x.fst * y.snd) / (y.fst * y.fst) := by
  have hinv : (y⁻¹).snd = -((y.fst)⁻¹ * y.snd * (y.fst)⁻¹) := by simp [mul_comm]
  rw [DualNumber.snd_mul, hinv, fst_inv]
  field_simp
  ring

theorem fst_quotient [Field K] (x y : K[ε]) : (x * y⁻¹).fst = x.fst / y.fst := by
  rw [TrivSqZeroExt.fst_mul, fst_inv, div_eq_mul_inv]

end JitSignalEngine
