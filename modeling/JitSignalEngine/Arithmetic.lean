import Mathlib.Data.Rat.Defs

/-!
# The arithmetic of the engine

The engine computes in `double`, and keeps a few accumulators in `long double`.
Two things about these formats matter to the development, and only two:

* which operation is applied to which operands, in which order — this is what
  `Fp` records, one field per operation that the source applies;
* which conversions connect the two formats — this is `Widen`.

No law is assumed of either class. A result stated over `[Fp D]` therefore holds
of IEEE arithmetic with its roundings, infinities and NaNs as well as of exact
arithmetic: two computations are equal because they apply the same operations to
the same values, not because some algebra rearranges one into the other. Where
algebra is needed (a running sum against a recomputed one) the results are stated
at the instance of `Exact`, which is exact arithmetic with an absorbing NaN.

Comparisons answer in `Bool`: in C++ `x > y` is `y < x` and `x >= y` is `y <= x`
on every operand, NaN included, so two relations are enough.
-/

namespace JitSignalEngine

/-- The operations the engine applies to one floating point format. -/
class Fp (D : Type) where
  /-- `x + y` -/
  add : D → D → D
  /-- `x - y` -/
  sub : D → D → D
  /-- `x * y` -/
  mul : D → D → D
  /-- `x / y` -/
  div : D → D → D
  /-- `-x` -/
  neg : D → D
  /-- `x < y`, false when either side is NaN -/
  lt : D → D → Bool
  /-- `x <= y`, false when either side is NaN -/
  le : D → D → Bool
  /-- `x == y`, false when either side is NaN -/
  eq : D → D → Bool
  /-- the value of a literal or of a converted integer, rounded to the format -/
  ofRat : ℚ → D
  /-- `std::numeric_limits<double>::quiet_NaN()` -/
  nan : D
  /-- `std::fabs` -/
  fabs : D → D
  /-- `std::sqrt` -/
  sqrt : D → D
  /-- `std::log` -/
  log : D → D
  /-- `static_cast<int>(x)` -/
  toInt : D → Int

/-- The conversions between the working format `D` and the wide format `L` of the
accumulators (`double` and `long double`). -/
class Widen (D : Type) (L : outParam Type) where
  /-- `static_cast<long double>(x)`, also the implicit promotion -/
  widen : D → L
  /-- `static_cast<double>(x)` -/
  narrow : L → D

namespace Fp

variable {D : Type} [Fp D]

/-- `static_cast<double>(n)` for an unsigned integer. -/
def ofNat (n : Nat) : D := ofRat (n : ℚ)

/-- `static_cast<double>(n)` for a signed integer. -/
def ofInt (n : Int) : D := ofRat (n : ℚ)

/-- `std::isnan`: the only values that differ from themselves are NaNs. -/
def isnan (x : D) : Bool := !eq x x

/-- `x != y`, true when either side is NaN. -/
def ne (x y : D) : Bool := !eq x y

/-- `b ? 1.0 : 0.0`, the engine's encoding of truth values. -/
def ofBool (b : Bool) : D := if b then ofNat 1 else ofNat 0

/-- How a `double` is read as a condition: everything but zero is true, NaN
included. -/
def truthy (x : D) : Bool := ne x (ofNat 0)

/-- The tolerance of the runtime `==` and `!=`. -/
def eqTolerance : D := ofRat (1 / 1000000000000)

/-- The threshold under which a standard deviation counts as zero. -/
def stddevFloor : D := ofRat (1 / 1000000000000000000)

@[simp] theorem ofBool_true : (ofBool true : D) = ofNat 1 := rfl

@[simp] theorem ofBool_false : (ofBool false : D) = ofNat 0 := rfl

end Fp

end JitSignalEngine
