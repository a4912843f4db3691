import JitSignalEngine.Arithmetic
import Mathlib.Algebra.Order.Field.Power
import Mathlib.Data.Int.Log
import Mathlib.Data.Rat.Floor
import Mathlib.Tactic.FieldSimp
import Mathlib.Tactic.Linarith
import Mathlib.Tactic.NormNum
import Mathlib.Tactic.Positivity
import Mathlib.Tactic.Ring

/-!
# Binary64

The format behind `double`, with its roundings. The other modules do not look inside the format;
what is printed and read back depends on it.

* `roundHalfEven` — a rational to the nearest integer, ties to even.
* `Finite64` — a finite number, given by sign, significand and exponent. The bounds of the format
  are fields.
* `Binary64.round` — a magnitude to the nearest number of the format, with overflow to infinity.
* `round_near` — what is nearer to a number than the `2⁵⁴`th part of it rounds to it.
* `round_natCast` — natural numbers below `2⁵³` are numbers of the format.

Square root and logarithm come from the mathematical library (`Libm`).
-/

namespace JitSignalEngine

/-! ## Rounding to an integer -/

/-- The nearest natural number, ties to even. -/
def roundHalfEven (q : ℚ) : ℕ :=
  let n := ⌊q⌋₊
  if q - n < 1 / 2 then n
  else if 1 / 2 < q - n then n + 1
  else if n % 2 = 0 then n else n + 1

theorem abs_roundHalfEven_sub_le {q : ℚ} (hq : 0 ≤ q) : |(roundHalfEven q : ℚ) - q| ≤ 1 / 2 := by
  have hle : (⌊q⌋₊ : ℚ) ≤ q := Nat.floor_le hq
  have hlt : q < ⌊q⌋₊ + 1 := Nat.lt_floor_add_one q
  have hsucc : ((⌊q⌋₊ + 1 : ℕ) : ℚ) = ⌊q⌋₊ + 1 := Nat.cast_succ _
  rw [abs_le, roundHalfEven]
  split_ifs with hbelow habove heven
  · constructor <;> linarith
  · rw [hsucc]
    constructor <;> linarith
  · constructor <;> linarith
  · rw [hsucc]
    constructor <;> linarith

theorem roundHalfEven_eq {q : ℚ} (hq : 0 ≤ q) {n : ℕ} (h : |q - n| < 1 / 2) :
    roundHalfEven q = n := by
  have hround := abs_le.mp (abs_roundHalfEven_sub_le hq)
  rw [abs_lt] at h
  have hlt : ((roundHalfEven q : ℤ) : ℚ) < (n : ℤ) + 1 := by push_cast; linarith
  have hgt : ((n : ℤ) : ℚ) < (roundHalfEven q : ℤ) + 1 := by push_cast; linarith
  norm_cast at hlt hgt
  omega

theorem le_roundHalfEven {q : ℚ} {n : ℕ} (h : (n : ℚ) ≤ q) : n ≤ roundHalfEven q := by
  have hround := abs_le.mp (abs_roundHalfEven_sub_le ((Nat.cast_nonneg n).trans h))
  have hlt : (n : ℚ) < (roundHalfEven q + 1 : ℕ) := by push_cast; linarith
  exact Nat.lt_succ_iff.mp (Nat.cast_lt.mp hlt)

theorem roundHalfEven_le {q : ℚ} (hq : 0 ≤ q) {n : ℕ} (h : q ≤ n) : roundHalfEven q ≤ n := by
  have hround := abs_le.mp (abs_roundHalfEven_sub_le hq)
  have hlt : (roundHalfEven q : ℚ) < (n + 1 : ℕ) := by push_cast; linarith
  exact Nat.lt_succ_iff.mp (Nat.cast_lt.mp hlt)

/-! ## Finite numbers -/

/-- A finite number: `± mantissa · 2 ^ exponent`, the mantissa with its leading bit unless the
exponent is the least one. -/
structure Finite64 where
  /-- the sign bit -/
  negative : Bool
  /-- the significand as an integer -/
  mantissa : ℕ
  /-- the exponent of its last bit -/
  exponent : ℤ
  /-- 53 bits -/
  mantissa_lt : mantissa < 2 ^ 53
  /-- the exponent of the subnormal numbers -/
  le_exponent : -1074 ≤ exponent
  /-- the exponent of the largest numbers -/
  exponent_le : exponent ≤ 971
  /-- a larger exponent is used only where it has to be -/
  normal : -1074 < exponent → 2 ^ 52 ≤ mantissa
deriving DecidableEq

namespace Finite64

/-- The absolute value as a rational. -/
def magnitude (v : Finite64) : ℚ := v.mantissa * 2 ^ v.exponent

/-- The value as a rational. -/
def value (v : Finite64) : ℚ := if v.negative then -v.magnitude else v.magnitude

/-- A zero. -/
def zero (negative : Bool) : Finite64 where
  negative := negative
  mantissa := 0
  exponent := -1074
  mantissa_lt := by decide
  le_exponent := le_rfl
  exponent_le := by decide
  normal h := absurd h (by decide)

/-- The number with a sign. -/
def withSign (negative : Bool) (v : Finite64) : Finite64 := { v with negative := negative }

@[simp] theorem magnitude_withSign (negative : Bool) (v : Finite64) :
    (v.withSign negative).magnitude = v.magnitude := rfl

theorem withSign_negative (v : Finite64) : v.withSign v.negative = v := rfl

theorem magnitude_nonneg (v : Finite64) : 0 ≤ v.magnitude :=
  mul_nonneg (Nat.cast_nonneg _) (zpow_nonneg (by norm_num) _)

theorem magnitude_eq_zero_iff (v : Finite64) : v.magnitude = 0 ↔ v.mantissa = 0 := by
  rw [magnitude, mul_eq_zero, or_iff_left (zpow_ne_zero _ (by norm_num)), Nat.cast_eq_zero]

@[simp] theorem magnitude_zero (negative : Bool) : (zero negative).magnitude = 0 :=
  (magnitude_eq_zero_iff _).mpr rfl

theorem value_eq_zero_iff (v : Finite64) : v.value = 0 ↔ v.magnitude = 0 := by
  rw [value]
  split
  · exact neg_eq_zero
  · rfl

@[simp] theorem abs_value (v : Finite64) : |v.value| = v.magnitude := by
  rw [value]
  split
  · rw [abs_neg, abs_of_nonneg v.magnitude_nonneg]
  · exact abs_of_nonneg v.magnitude_nonneg

/-- Zero is written in one way up to the sign. -/
theorem eq_zero_of_magnitude {v : Finite64} (h : v.magnitude = 0) : v = zero v.negative := by
  rw [magnitude_eq_zero_iff] at h
  obtain ⟨s, m, e, hm, he, he', hn⟩ := v
  obtain rfl : m = 0 := h
  obtain rfl : e = -1074 := by
    by_contra hne
    exact absurd (hn (by omega)) (by decide)
  rfl

end Finite64

/-- Numbers from a power of two on are multiples of the last bit there. -/
theorem Finite64.exists_multiple {v : Finite64} {k : ℤ} (h : (2 : ℚ) ^ (52 + k) ≤ v.magnitude) :
    ∃ j : ℕ, v.magnitude = j * 2 ^ k := by
  have hlt : v.magnitude < 2 ^ (53 + v.exponent) := by
    have hm : (v.mantissa : ℚ) < 2 ^ (53 : ℤ) := by exact_mod_cast v.mantissa_lt
    rw [zpow_add₀ (by norm_num)]
    exact mul_lt_mul_of_pos_right hm (zpow_pos (by norm_num) _)
  have hexp := (zpow_lt_zpow_iff_right₀ (by norm_num : (1 : ℚ) < 2)).mp (h.trans_lt hlt)
  refine ⟨v.mantissa * 2 ^ (v.exponent - k).toNat, ?_⟩
  have hshift : (2 : ℚ) ^ v.exponent = 2 ^ (v.exponent - k).toNat * 2 ^ k := by
    rw [← zpow_natCast, ← zpow_add₀ (by norm_num)]
    congr 1
    omega
  rw [magnitude, hshift]
  push_cast
  ring

/-! ## Rounding to the format -/

/-- The exponent of the last bit of the numbers around a magnitude. -/
def ulpExponent (q : ℚ) : ℤ := max (Int.log 2 q - 52) (-1074)

/-- The magnitude as a multiple of its last bit. -/
def significand (q : ℚ) : ℕ := roundHalfEven (q / 2 ^ ulpExponent q)

theorem le_significand {q : ℚ} (hq : 0 < q) (h : -1074 < ulpExponent q) :
    2 ^ 52 ≤ significand q := by
  have hu : (0 : ℚ) < 2 ^ ulpExponent q := zpow_pos (by norm_num) _
  refine le_roundHalfEven ?_
  rw [le_div_iff₀ hu]
  have hle : (2 : ℚ) ^ Int.log 2 q ≤ q := Int.zpow_log_le_self (by decide) hq
  rw [Nat.cast_pow, Nat.cast_ofNat, ← zpow_natCast, ← zpow_add₀ (by norm_num)]
  refine (zpow_le_zpow_right₀ (by norm_num) ?_).trans hle
  rw [ulpExponent] at h ⊢
  omega

/-- A `double`. -/
inductive Binary64 where
  /-- not a number -/
  | nan
  /-- infinity -/
  | inf (negative : Bool)
  /-- a number -/
  | finite (v : Finite64)
deriving DecidableEq

namespace Binary64

/-- A magnitude rounded to the nearest number, ties to even, with a sign. -/
def round (negative : Bool) (q : ℚ) : Binary64 :=
  if hq : 0 < q then
    if hm : significand q < 2 ^ 53 then
      if he : ulpExponent q ≤ 971 then
        .finite ⟨negative, significand q, ulpExponent q, hm, le_max_right _ _, he, le_significand hq⟩
      else .inf negative
    else if he : ulpExponent q + 1 ≤ 971 then
      -- the carry takes the next exponent
      .finite ⟨negative, 2 ^ 52, ulpExponent q + 1, by decide,
        (le_max_right _ _).trans (Int.le_add_one le_rfl), he, fun _ => le_rfl⟩
    else .inf negative
  else .finite (.zero negative)

end Binary64

/-! ## What rounds to a number -/

section Near

variable {v : Finite64} {d : ℚ} (hv : 0 < v.magnitude)
  (hd : |d - v.magnitude| < v.magnitude / 2 ^ 54)

include hv hd

/-- Near a number its exponent is used, or the one below at the least number of a binade. -/
theorem ulpExponent_near : ulpExponent d = v.exponent ∨
    (ulpExponent d = v.exponent - 1 ∧ v.mantissa = 2 ^ 52) := by
  have hu : (0 : ℚ) < 2 ^ v.exponent := zpow_pos (by norm_num) _
  have hsplit : ∀ k : ℤ, (2 : ℚ) ^ (k + v.exponent) = 2 ^ k * 2 ^ v.exponent :=
    fun k => zpow_add₀ (by norm_num) _ _
  have hm : (v.mantissa : ℚ) ≤ 2 ^ 53 - 1 := by
    have : v.mantissa + 1 ≤ 2 ^ 53 := v.mantissa_lt
    rw [le_sub_iff_add_le]
    exact_mod_cast this
  have hmu : v.magnitude ≤ (2 ^ 53 - 1) * 2 ^ v.exponent :=
    mul_le_mul_of_nonneg_right hm hu.le
  obtain ⟨hlow, hhigh⟩ := abs_lt.mp hd
  have hd0 : 0 < d := by linarith
  have hbelow : Int.log 2 d < 53 + v.exponent := by
    rw [← Int.lt_zpow_iff_log_lt (by decide) hd0, Nat.cast_ofNat, hsplit]
    norm_num at hmu ⊢
    linarith
  have hle := v.le_exponent
  by_cases habove : (2 : ℚ) ^ (52 + v.exponent) ≤ d
  · -- the binade of the number
    left
    have := (Int.zpow_le_iff_le_log (b := 2) (by decide) hd0).mp (by exact_mod_cast habove)
    rw [ulpExponent]
    omega
  · rw [not_le, hsplit] at habove
    have hlog : Int.log 2 d < 52 + v.exponent := by
      rw [← Int.lt_zpow_iff_log_lt (by decide) hd0, Nat.cast_ofNat, hsplit]
      exact habove
    rcases hle.eq_or_lt with hmin | hmin
    · -- there is no exponent below
      left
      rw [ulpExponent]
      omega
    · right
      have hnormal : (2 ^ 52 : ℚ) ≤ v.mantissa := by exact_mod_cast v.normal hmin
      have hlarge : (2 ^ 52 : ℚ) * 2 ^ v.exponent ≤ v.magnitude :=
        mul_le_mul_of_nonneg_right hnormal hu.le
      have hlog' : 51 + v.exponent ≤ Int.log 2 d := by
        rw [← Int.zpow_le_iff_le_log (by decide) hd0, Nat.cast_ofNat, hsplit]
        norm_num at hlarge ⊢
        linarith
      refine ⟨by rw [ulpExponent]; omega, le_antisymm ?_ (v.normal hmin)⟩
      by_contra hgt
      have hgt : (2 ^ 52 + 1 : ℚ) ≤ v.mantissa := by exact_mod_cast not_le.mp hgt
      have hlarge : (2 ^ 52 + 1 : ℚ) * 2 ^ v.exponent ≤ v.magnitude :=
        mul_le_mul_of_nonneg_right hgt hu.le
      norm_num at hlarge hmu habove
      linarith

/-- **What is nearer to a number than the `2⁵⁴`th part of it rounds to it.** -/
theorem round_near (negative : Bool) :
    Binary64.round negative d = .finite (v.withSign negative) := by
  have hu : (0 : ℚ) < 2 ^ v.exponent := zpow_pos (by norm_num) _
  have hd0 : 0 < d := by
    have := (abs_lt.mp hd).1
    linarith
  -- the distance in units of the last bit
  have hm : (v.mantissa : ℚ) / 2 ^ 54 < 1 / 2 := by
    have : (v.mantissa : ℚ) < 2 ^ 53 := by exact_mod_cast v.mantissa_lt
    rw [div_lt_div_iff₀ (by norm_num) (by norm_num)]
    linarith
  have hunits : |d / 2 ^ v.exponent - v.mantissa| < v.mantissa / 2 ^ 54 := by
    have hscale : d / 2 ^ v.exponent - v.mantissa = (d - v.magnitude) / 2 ^ v.exponent := by
      rw [Finite64.magnitude, sub_div, mul_div_cancel_right₀ _ hu.ne']
    rw [hscale, abs_div, abs_of_pos hu, div_lt_iff₀ hu]
    calc |d - v.magnitude| < v.magnitude / 2 ^ 54 := hd
      _ = v.mantissa / 2 ^ 54 * 2 ^ v.exponent := by rw [Finite64.magnitude]; ring
  rcases ulpExponent_near hv hd with hexp | ⟨hexp, hcarry⟩
  · have hsig : significand d = v.mantissa := by
      rw [significand, hexp]
      exact roundHalfEven_eq (div_pos hd0 hu).le (hunits.trans hm)
    rw [Binary64.round, dif_pos hd0, dif_pos (hsig ▸ v.mantissa_lt),
      dif_pos (hexp ▸ v.exponent_le)]
    simp only [hsig, hexp]
    rfl
  · have hsig : significand d = 2 ^ 53 := by
      have hhalf : (2 : ℚ) ^ (v.exponent - 1) = 2 ^ v.exponent / 2 := zpow_sub_one₀ (by norm_num) _
      rw [significand, hexp, hhalf]
      refine roundHalfEven_eq (div_pos hd0 (half_pos hu)).le ?_
      have hdouble : d / (2 ^ v.exponent / 2) - (2 ^ 53 : ℕ) =
          2 * (d / 2 ^ v.exponent - v.mantissa) := by
        rw [hcarry]
        push_cast
        field_simp
        ring
      rw [hcarry] at hunits
      rw [hdouble, abs_mul, abs_two, hcarry]
      norm_num at hunits ⊢
      linarith
    rw [Binary64.round, dif_pos hd0, dif_neg (by rw [hsig]; decide),
      dif_pos (by rw [hexp, sub_add_cancel]; exact v.exponent_le)]
    simp only [hexp, sub_add_cancel, Finite64.withSign, hcarry]

end Near

/-- A number rounds to itself. -/
theorem round_magnitude (negative : Bool) (v : Finite64) :
    Binary64.round negative v.magnitude = .finite (v.withSign negative) := by
  rcases v.magnitude_nonneg.eq_or_lt with h | h
  · rw [← h, Binary64.round, dif_neg (lt_irrefl _), Finite64.eq_zero_of_magnitude h.symm]
    rfl
  · refine round_near h ?_ negative
    rw [sub_self, abs_zero]
    exact div_pos h (by norm_num)

/-- The natural numbers below `2⁵³` are numbers of the format. -/
theorem exists_magnitude_eq {n : ℕ} (hn : n < 2 ^ 53) : ∃ v : Finite64, v.magnitude = n := by
  rcases n.eq_zero_or_pos with rfl | hpos
  · exact ⟨.zero false, by rw [Finite64.magnitude_zero, Nat.cast_zero]⟩
  · have hlog : Nat.log 2 n ≤ 52 := Nat.lt_succ_iff.mp (Nat.log_lt_of_lt_pow hpos.ne' hn)
    -- shifted until the leading bit is the 53rd
    refine ⟨⟨false, n * 2 ^ (52 - Nat.log 2 n), -(52 - Nat.log 2 n : ℕ), ?_, ?_, ?_, fun _ => ?_⟩, ?_⟩
    · calc n * 2 ^ (52 - Nat.log 2 n) < 2 ^ (Nat.log 2 n + 1) * 2 ^ (52 - Nat.log 2 n) :=
          Nat.mul_lt_mul_of_pos_right (Nat.lt_pow_succ_log_self (by decide) n) (by positivity)
        _ = 2 ^ 53 := by rw [← Nat.pow_add]; congr 1; omega
    · omega
    · omega
    · calc 2 ^ 52 = 2 ^ Nat.log 2 n * 2 ^ (52 - Nat.log 2 n) := by
            rw [← Nat.pow_add]; congr 1; omega
        _ ≤ n * 2 ^ (52 - Nat.log 2 n) :=
          Nat.mul_le_mul_right _ (Nat.pow_log_le_self 2 hpos.ne')
    · rw [Finite64.magnitude, zpow_neg, zpow_natCast]
      push_cast
      exact mul_inv_cancel_right₀ (pow_ne_zero _ (by norm_num)) _

/-! ## The operations -/

/-- The functions the mathematical library adds to the format. -/
class Libm (D : Type) where
  /-- `std::sqrt` -/
  sqrt : D → D
  /-- `std::log` -/
  log : D → D

namespace Binary64

/-- A value rounded to the nearest number. -/
def ofValue (q : ℚ) : Binary64 := round (q < 0) |q|

/-- `x + y`. An exact zero is negative only as the sum of negative zeros. -/
def add : Binary64 → Binary64 → Binary64
  | .finite x, .finite y =>
    if x.value + y.value = 0 then .finite (.zero (x.negative && y.negative))
    else ofValue (x.value + y.value)
  | .inf s, .inf t => if s = t then .inf s else .nan
  | .inf s, .finite _ => .inf s
  | .finite _, .inf s => .inf s
  | _, _ => .nan

/-- `-x` -/
def neg : Binary64 → Binary64
  | .nan => .nan
  | .inf s => .inf !s
  | .finite v => .finite (v.withSign !v.negative)

/-- `x * y` -/
def mul : Binary64 → Binary64 → Binary64
  | .finite x, .finite y => round (x.negative ^^ y.negative) (x.magnitude * y.magnitude)
  | .inf s, .inf t => .inf (s ^^ t)
  | .inf s, .finite v => if v.mantissa = 0 then .nan else .inf (s ^^ v.negative)
  | .finite v, .inf s => if v.mantissa = 0 then .nan else .inf (v.negative ^^ s)
  | _, _ => .nan

/-- `x / y` -/
def div : Binary64 → Binary64 → Binary64
  | .finite x, .finite y =>
    if y.mantissa = 0 then if x.mantissa = 0 then .nan else .inf (x.negative ^^ y.negative)
    else round (x.negative ^^ y.negative) (x.magnitude / y.magnitude)
  | .inf s, .finite v => .inf (s ^^ v.negative)
  | .finite v, .inf s => .finite (.zero (v.negative ^^ s))
  | _, _ => .nan

/-- `x < y` -/
def lt : Binary64 → Binary64 → Bool
  | .finite x, .finite y => x.value < y.value
  | .inf s, .inf t => s && !t
  | .inf s, .finite _ => s
  | .finite _, .inf s => !s
  | _, _ => false

/-- `x == y` -/
def eq : Binary64 → Binary64 → Bool
  | .finite x, .finite y => x.value = y.value
  | .inf s, .inf t => s == t
  | _, _ => false

/-- `std::fabs` -/
def fabs : Binary64 → Binary64
  | .nan => .nan
  | .inf _ => .inf false
  | .finite v => .finite (v.withSign false)

/-- The conversion to an integer, towards zero. -/
def toInt : Binary64 → Int
  | .finite v => if v.negative then -(⌊v.magnitude⌋₊ : ℤ) else ⌊v.magnitude⌋₊
  | _ => 0

instance [Libm Binary64] : Fp Binary64 where
  add := add
  sub x y := add x (neg y)
  mul := mul
  div := div
  neg := neg
  lt := lt
  le x y := lt x y || eq x y
  eq := eq
  ofRat := ofValue
  nan := .nan
  fabs := fabs
  sqrt := Libm.sqrt
  log := Libm.log
  toInt := toInt

section Operations

variable [Libm Binary64] (v w : Finite64)

@[simp] theorem lt_finite : Fp.lt (finite v) (finite w) = decide (v.value < w.value) := rfl

@[simp] theorem eq_finite : Fp.eq (finite v) (finite w) = decide (v.value = w.value) := rfl

@[simp] theorem fabs_finite : Fp.fabs (finite v) = finite (v.withSign false) := rfl

@[simp] theorem isnan_finite : Fp.isnan (finite v) = false := by simp [Fp.isnan]

theorem ofRat_eq_round (q : ℚ) : (Fp.ofRat q : Binary64) = round (q < 0) |q| := rfl

/-- Integers that are numbers of the format convert exactly. -/
theorem ofNat_eq {n : ℕ} {v : Finite64} (h : v.magnitude = n) :
    (Fp.ofNat n : Binary64) = finite (v.withSign false) := by
  have hn : ¬ ((n : ℚ) < 0) := not_lt.mpr (Nat.cast_nonneg n)
  rw [Fp.ofNat, ofRat_eq_round, Nat.abs_cast, ← h, round_magnitude, h, decide_eq_false hn]

theorem ofNat_zero : (Fp.ofNat 0 : Binary64) = finite (.zero false) :=
  ofNat_eq (v := .zero false) (by rw [Finite64.magnitude_zero, Nat.cast_zero])

/-- The difference of a number with itself is a number. -/
theorem sub_self_finite : Fp.sub (finite v) (finite v) = finite (.zero false) := by
  have hzero : v.value + (v.withSign !v.negative).value = 0 := by
    cases h : v.negative <;> simp [Finite64.value, Finite64.withSign, h, Finite64.magnitude]
  have hsign : (v.negative && !v.negative) = false := Bool.and_not_self _
  change add (finite v) (finite (v.withSign !v.negative)) = _
  rw [add, if_pos hzero]
  exact congrArg (fun s => finite (.zero s)) hsign

end Operations

end Binary64

end JitSignalEngine
