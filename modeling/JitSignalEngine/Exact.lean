import JitSignalEngine.RuntimeOps
import Mathlib.Algebra.Order.Field.Basic
import Mathlib.Algebra.Order.Field.Rat
import Mathlib.Data.Rat.Floor

/-!
# Exact arithmetic with NaN

The instance of `Fp` at which the algebra of the operators can be done: a value is a
number of an ordered field, or NaN. Operations are those of the field, NaN absorbs,
every comparison with NaN is false, and an operation without a result (a division by
zero) gives NaN. Widening changes nothing.

The field may be any ordered field with some square root and logarithm
(`Transcendental`); nothing is assumed of the two. At the rationals everything
computes, which is what concrete runs use.
-/

namespace JitSignalEngine

/-- A number or NaN. -/
inductive Exact (K : Type) where
  /-- not a number -/
  | nan
  /-- a number -/
  | val (x : K)
deriving DecidableEq, Repr

/-- The functions of the engine that a field does not come with. -/
class Transcendental (K : Type) where
  /-- square root of a number that is not negative -/
  sqrt : K → K
  /-- logarithm of a positive number -/
  log : K → K
  /-- truncation towards zero -/
  trunc : K → Int

/-- Rational stand-ins, exact on squares: concrete runs need some functions here. -/
instance : Transcendental ℚ where
  sqrt x := (Nat.sqrt (x.num.natAbs * x.den) : ℚ) / x.den
  log x := x - 1
  trunc x := x.num.tdiv x.den

namespace Exact

variable {K : Type}

/-- An operation on numbers. -/
def map₂ (f : K → K → Exact K) : Exact K → Exact K → Exact K
  | .val x, .val y => f x y
  | _, _ => .nan

/-- A function of a number. -/
def map₁ (f : K → Exact K) : Exact K → Exact K
  | .val x => f x
  | .nan => .nan

/-- A comparison of numbers. -/
def rel (r : K → K → Bool) : Exact K → Exact K → Bool
  | .val x, .val y => r x y
  | _, _ => false

variable [Field K] [LinearOrder K] [Transcendental K]

instance : Fp (Exact K) where
  add := map₂ fun x y => .val (x + y)
  sub := map₂ fun x y => .val (x - y)
  mul := map₂ fun x y => .val (x * y)
  div := map₂ fun x y => if y = 0 then .nan else .val (x / y)
  neg := map₁ fun x => .val (-x)
  lt := rel fun x y => decide (x < y)
  le := rel fun x y => decide (x ≤ y)
  eq := rel fun x y => decide (x = y)
  ofRat q := .val (q : K)
  nan := .nan
  fabs := map₁ fun x => .val (max x (-x))
  sqrt := map₁ fun x => if x < 0 then .nan else .val (Transcendental.sqrt x)
  log := map₁ fun x => if x ≤ 0 then .nan else .val (Transcendental.log x)
  toInt
    | .val x => Transcendental.trunc x
    | .nan => 0

instance : Widen (Exact K) (Exact K) where
  widen := id
  narrow := id

/-! ### Operations on numbers -/

@[simp] theorem add_val (x y : K) : Fp.add (val x) (val y) = val (x + y) := rfl

@[simp] theorem sub_val (x y : K) : Fp.sub (val x) (val y) = val (x - y) := rfl

@[simp] theorem mul_val (x y : K) : Fp.mul (val x) (val y) = val (x * y) := rfl

@[simp] theorem div_val (x : K) {y : K} (h : y ≠ 0) : Fp.div (val x) (val y) = val (x / y) :=
  if_neg h

@[simp] theorem lt_val (x y : K) : Fp.lt (val x) (val y) = decide (x < y) := rfl

@[simp] theorem le_val (x y : K) : Fp.le (val x) (val y) = decide (x ≤ y) := rfl

@[simp] theorem eq_val (x y : K) : Fp.eq (val x) (val y) = decide (x = y) := rfl

@[simp] theorem ofRat_val (q : ℚ) : (Fp.ofRat q : Exact K) = val (q : K) := rfl

@[simp] theorem ofNat_val (n : Nat) : (Fp.ofNat n : Exact K) = val (n : K) :=
  congrArg val (Rat.cast_natCast n)

omit [Field K] [LinearOrder K] [Transcendental K] in
@[simp] theorem widen_eq (x : Exact K) : Widen.widen x = x := rfl

omit [Field K] [LinearOrder K] [Transcendental K] in
@[simp] theorem narrow_eq (x : Exact K) : Widen.narrow x = x := rfl

end Exact

/-! ## Concrete programs

A vocabulary for writing down bodies and ticks over the rationals. -/

namespace Concrete

/-- A literal. -/
def num (q : ℚ) : Expr (Exact ℚ) := .numberLiteral {} (.val q)

/-- A ticker or a reference. -/
def ident (n : String) : Expr (Exact ℚ) := .identifierExpr {} n

/-- A call, its ids unset unless given. -/
def app (name : String) (args : List (Expr (Exact ℚ))) (nodeId : Int := -1) : Expr (Exact ℚ) :=
  .functionCall {} name args nodeId (-1)

/-- The mid price of a ticker. -/
def mid (ticker : String) : Expr (Exact ℚ) := app "mid" [ident ticker]

/-- `a + b` -/
def plus (a b : Expr (Exact ℚ)) : Expr (Exact ℚ) := .binaryOp {} .add a b

/-- `a > b` -/
def gt (a b : Expr (Exact ℚ)) : Expr (Exact ℚ) := .binaryOp {} .gt a b

/-- `if c then a else b` -/
def ifThenElse (c a b : Expr (Exact ℚ)) : Expr (Exact ℚ) := .conditional {} c a b

/-- Two tickers. -/
def symbols : SymbolTable
  | "A" => some 0
  | "B" => some 1
  | _ => none

/-- A tick at which bid and ask of the first instrument are `a`, of the others `b`. -/
def quote (a b : ℚ) : MarketState (Exact ℚ) := fun i =>
  let price := if i = 0 then a else b
  ⟨.val price, .val price, .val 1⟩

end Concrete

end JitSignalEngine
