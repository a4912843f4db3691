import JitSignalEngine.Exact
import Mathlib.Analysis.SpecialFunctions.Log.Basic
import Mathlib.Analysis.SpecialFunctions.Sqrt

/-!
# Exact arithmetic over the reals

The field in which the square root and the logarithm of the engine are the ones meant.
-/

namespace JitSignalEngine

/-- The functions of the reals. -/
noncomputable instance : Transcendental ℝ :=
  ⟨Real.sqrt, Real.log, fun x => if 0 ≤ x then ⌊x⌋ else ⌈x⌉⟩

open Fp Exact

theorem toInt_natCast (n : Nat) : toInt (.val (n : ℝ) : Exact ℝ) = n := by
  change (if 0 ≤ (n : ℝ) then ⌊(n : ℝ)⌋ else ⌈(n : ℝ)⌉) = _
  rw [if_pos n.cast_nonneg, Int.floor_natCast]

/-- A literal is the period it says. -/
theorem parsePreparedPeriod_natCast (n : Nat) :
    parsePreparedPeriod (some (.val (n : ℝ)) : Option (Exact ℝ)) = n := by
  have hexact : lt eqTolerance (fabs (sub (val (n : ℝ)) (ofInt (n : Int)))) = false := by
    rw [ofInt, ofRat_val, sub_val, Int.cast_natCast, Rat.cast_natCast, sub_self]
    change decide (_ < max (0 : ℝ) (-0)) = false
    simp
  simp only [parsePreparedPeriod, toInt_natCast, hexact, Bool.or_false, decide_eq_true_eq]
  split <;> omega

end JitSignalEngine
