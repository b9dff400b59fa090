/-
Exact rational arithmetic.

The calculus over exact rationals: sums, products, quotients, integral powers and literals have
their exact values, and a quotient by zero is zero.  What has no rational value in general is left
open: a `Completion` fixes non-integral powers, the elementary functions and the literals that are
no numbers, and nothing is assumed about it.

* `powTen_eq` : repeated squaring computes the powers of ten,
* `shift_eq` : a magnitude is brought to another scale by a power of ten, in either direction,
* `toInt?_eq_some_iff`, `pow_intCast` : the integers among the rationals.
-/
import Mathlib.Algebra.Order.Field.Rat
import Mathlib.Tactic.FieldSimp
import Mathlib.Tactic.Ring
import QuantityCalculus.Proofs.Operations

namespace QuantityCalculus

/-- The exact value of a decimal. -/
def Decimal.value (d : Decimal) : ℚ :=
  (if d.negative then -1 else 1) * d.digits * 10 ^ d.exponent

/-- Values of what exact rational arithmetic leaves open. -/
structure Completion where
  power : ℚ → ℚ → ℚ
  elementary : Elementary → ℚ → ℚ
  infinity : Bool → ℚ
  nan : ℚ
deriving Inhabited

namespace Arithmetic

/-- The exact rationals as a number system. -/
def rational (C : Completion) : Arithmetic ℚ where
  add := (· + ·)
  sub := (· - ·)
  mul := (· * ·)
  div := (· / ·)
  neg := fun x => -x
  abs := fun x => |x|
  pow := fun x y => if y.den = 1 then x ^ y.num else C.power x y
  lt := fun x y => decide (x < y)
  le := fun x y => decide (x ≤ y)
  beq := fun x y => decide (x = y)
  toInt? := fun x => if x.den = 1 then some x.num else none
  ofLiteral
    | .decimal d => d.value
    | .infinity negative => C.infinity negative
    | .nan => C.nan
  elementary := C.elementary

variable (C : Completion)

theorem one_eq : (rational C).one = 1 := by
  simp [one, ofDecimal, rational, Decimal.value]

theorem ten_eq : (rational C).ten = 10 := by
  simp [ten, ofDecimal, rational, Decimal.value]

theorem max_eq (x y : ℚ) : (rational C).max x y = Max.max x y := by
  show (if decide (x < y) = true then y else x) = Max.max x y
  by_cases h : x < y
  · rw [if_pos (decide_eq_true h), max_eq_right h.le]
  · rw [if_neg (by rwa [decide_eq_true_eq]), max_eq_left (not_lt.mp h)]

theorem toInt?_eq_some_iff {x : ℚ} {n : ℤ} : (rational C).toInt? x = some n ↔ x = n := by
  show (if x.den = 1 then some x.num else none) = some n ↔ x = n
  constructor
  · intro h
    split at h
    · next hden =>
      cases h
      exact ((Rat.den_eq_one_iff x).mp hden).symm
    · cases h
  · rintro rfl
    rw [if_pos (Rat.den_intCast n), Rat.num_intCast]

theorem pow_intCast (x : ℚ) (n : ℤ) : (rational C).pow x n = x ^ n := by
  show (if (n : ℚ).den = 1 then x ^ (n : ℚ).num else C.power x n) = x ^ n
  rw [if_pos (Rat.den_intCast n), Rat.num_intCast]

/-! ### Powers of ten -/

/-- Each step of repeated squaring takes one binary digit off the exponent. -/
theorem powLoop_eq (steps n : ℕ) (h : n < 2 ^ steps) (result base : ℚ) :
    (rational C).powLoop steps n result base = result * base ^ n := by
  induction steps generalizing n result base with
  | zero =>
    have hn : n = 0 := by omega
    rw [powLoop, hn, pow_zero, mul_one]
  | succ steps ih =>
    -- the lowest digit goes into the result, the others to the squared base
    have hhalf : n / 2 < 2 ^ steps := by omega
    have hn : n = 2 * (n / 2) + n % 2 := by omega
    have hnext : (if n % 2 = 1 then (rational C).mul result base else result) =
        result * base ^ (n % 2) := by
      rcases Nat.mod_two_eq_zero_or_one n with hzero | hone
      · rw [if_neg (by omega), hzero, pow_zero, mul_one]
      · rw [if_pos hone, hone, pow_one]
        rfl
    rw [powLoop, hnext]
    by_cases hlast : n / 2 = 0
    · rw [if_pos hlast]
      conv_rhs => rw [hn, hlast, Nat.mul_zero, Nat.zero_add]
    · rw [if_neg hlast, ih (n / 2) hhalf]
      show result * base ^ (n % 2) * (base * base) ^ (n / 2) = result * base ^ n
      conv_rhs => rw [hn]
      rw [pow_add, pow_mul, pow_two]
      ring

/-- Repeated squaring gives the exact power of ten. -/
theorem powTen_eq (n : ℕ) : (rational C).powTen n = 10 ^ n := by
  rw [powTen, powLoop_eq C _ _ Nat.lt_log2_self, one_eq, ten_eq, one_mul]

/-- Shifting is multiplication with a power of ten, also downwards. -/
theorem shift_eq (x : ℚ) (n : ℤ) : (rational C).shift x n = x * 10 ^ n := by
  rw [shift]
  split
  · next hpos =>
    obtain ⟨k, rfl⟩ := Int.eq_ofNat_of_zero_le hpos
    rw [Int.toNat_natCast, powTen_eq, zpow_natCast]
    rfl
  · next hneg =>
    obtain ⟨k, hk⟩ := Int.eq_ofNat_of_zero_le (show 0 ≤ -n by omega)
    rw [hk, Int.toNat_natCast, powTen_eq, show n = -(k : ℤ) by omega, zpow_neg, zpow_natCast]
    exact div_eq_mul_inv _ _

end Arithmetic

end QuantityCalculus
