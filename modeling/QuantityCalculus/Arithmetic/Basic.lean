/-
The number systems that magnitudes are taken from.

Everything a calculation does to a magnitude goes through an `Arithmetic`: the four operations,
powers, comparisons, the real functions behind the built-in ones and the reading of literals.  The
calculus is written once against this interface; doubles are one instance and exact rationals
another.

* `Arithmetic.powTen` : powers of ten, by repeated squaring,
* `Arithmetic.clamp_cases` : a clamped value is infinite, zero, or within the limits.
-/
import QuantityCalculus.Decimal.Literal

namespace QuantityCalculus

/-- The real functions that the built-in ones are made of. -/
inductive Elementary where
  | sin | cos | tan
  | asin | acos | atan
  | sinh | cosh | tanh
  | asinh | acosh | atanh
  | ln | log10
deriving DecidableEq, Repr

/-- A number system. -/
structure Arithmetic (α : Type) where
  add : α → α → α
  sub : α → α → α
  mul : α → α → α
  div : α → α → α
  neg : α → α
  abs : α → α
  pow : α → α → α
  lt : α → α → Bool
  le : α → α → Bool
  beq : α → α → Bool
  /-- the number as an integer, if it is one -/
  toInt? : α → Option Int
  /-- the number that a literal stands for -/
  ofLiteral : Literal → α
  elementary : Elementary → α → α

namespace Arithmetic

variable {α : Type} (A : Arithmetic α)

/-- The number of a decimal without sign. -/
def ofDecimal (digits : Nat) (exponent : Int) : α :=
  A.ofLiteral (.decimal ⟨false, digits, exponent⟩)

/-- The number zero. -/
def zero : α := A.ofDecimal 0 0

/-- The number one. -/
def one : α := A.ofDecimal 1 0

/-- The number ten. -/
def ten : α := A.ofDecimal 10 0

/-- The greater of two numbers. -/
def max (x y : α) : α := if A.lt x y then y else x

/-! ### Powers of ten -/

/-- Multiplies `result` by `base ^ n`, squaring `base` at each of at most `steps` steps. -/
def powLoop : Nat → Nat → α → α → α
  | 0, _, result, _ => result
  | steps + 1, n, result, base =>
    let next := if n % 2 = 1 then A.mul result base else result
    -- the base is not squared beyond the last binary digit
    if n / 2 = 0 then next else powLoop steps (n / 2) next (A.mul base base)

/-- The power of ten with a natural exponent.  One step for each binary digit of the exponent
suffices. -/
def powTen (n : Nat) : α := A.powLoop (n.log2 + 1) n A.one A.ten

/-! ### Clamping -/

/-- Results of functions above this magnitude count as infinite. -/
def upperLimit : α := A.ofDecimal 1 9

/-- Results of functions below this magnitude count as zero. -/
def lowerLimit : α := A.ofDecimal 1 (-9)

/-- A result of a function without the noise at both ends.  Something that compares with no limit
stays. -/
def clamp (x : α) : α :=
  if A.lt A.upperLimit x then A.ofLiteral (.infinity false)
  else if A.lt x (A.neg A.upperLimit) then A.ofLiteral (.infinity true)
  else if A.lt (A.abs x) A.lowerLimit then A.zero
  else x

/-- A clamped number is infinite, zero, or the number itself within the limits. -/
theorem clamp_cases (x : α) :
    A.clamp x = A.ofLiteral (.infinity false) ∨ A.clamp x = A.ofLiteral (.infinity true) ∨
      A.clamp x = A.zero ∨
        A.clamp x = x ∧ A.lt A.upperLimit x = false ∧ A.lt x (A.neg A.upperLimit) = false ∧
          A.lt (A.abs x) A.lowerLimit = false := by
  rw [clamp]
  split
  · exact .inl rfl
  · next h₁ =>
    split
    · exact .inr (.inl rfl)
    · next h₂ =>
      split
      · exact .inr (.inr (.inl rfl))
      · next h₃ =>
        exact .inr (.inr (.inr
          ⟨rfl, by simpa using h₁, by simpa using h₂, by simpa using h₃⟩))

end Arithmetic

end QuantityCalculus
