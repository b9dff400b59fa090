/-
Quantities and their arithmetic.

A quantity is a magnitude with a decimal scale and a dimension.  It stands for the magnitude times
ten to the power of the scale, in coherent units, except that the scale of a bare kilogram is
counted from the gram: a kilogram has scale three.  Operations that combine dimensions take that
offset out of the scales of their operands and put it back into the scale of a result that is a bare
kilogram.

* `Quantity.add`, `Quantity.subtract` : the dimensions must agree; the left scale is kept,
* `Quantity.multiply`, `Quantity.divide` : magnitudes, dimensions and base scales combine,
* `Quantity.power` : the exponent is a pure number, and integral unless the base is a pure number
  too.

Every operation is total: where dimensions do not fit or a word overflows it says so.
-/
import QuantityCalculus.Arithmetic.Basic
import QuantityCalculus.EvalError

namespace QuantityCalculus

/-- A magnitude with a decimal scale and a dimension. -/
structure Quantity (α : Type) where
  magnitude : α
  scale : Int32
  dimension : Dimension
deriving DecidableEq, Repr

/-- How far the scale of a unit's name is from its base: three for the bare kilogram. -/
def kiloOffset (d : Dimension) : Int32 := if d.isKilogram then 3 else 0

namespace Quantity

variable {α : Type} (A : Arithmetic α)

/-- A pure number at scale zero. -/
def ofNumber (x : α) : Quantity α := ⟨x, 0, .dimensionless⟩

/-- The quantity is a pure number. -/
def isDimensionless (q : Quantity α) : Bool := q.dimension.isDimensionless

/-! ### Scales -/

/-- The magnitude that a quantity has at another scale. -/
def convert (q : Quantity α) (target : Int32) : Except Overflow α := do
  let difference ← subChecked q.scale target
  if 0 ≤ difference.toInt then
    return A.mul q.magnitude (A.powTen difference.toInt.toNat)
  else
    let opposite ← negChecked difference
    return A.div q.magnitude (A.powTen opposite.toInt.toNat)

/-- The same quantity at another scale. -/
def withScale (q : Quantity α) (target : Int32) : Except Overflow (Quantity α) := do
  let magnitude ← q.convert A target
  return ⟨magnitude, target, q.dimension⟩

/-- The quantity with its magnitude in coherent units, marked with scale zero.  A bare kilogram
reads in kilograms. -/
def normalize (q : Quantity α) : Except Overflow (Quantity α) := do
  let magnitude ← q.convert A (kiloOffset q.dimension)
  return ⟨magnitude, 0, q.dimension⟩

/-- The scale relative to coherent units. -/
def baseScale (q : Quantity α) : Except Overflow Int32 :=
  subChecked q.scale (kiloOffset q.dimension)

/-! ### Checks -/

/-- Fails unless two quantities have the same dimension. -/
def checkSameDimension (q r : Quantity α) : Except (EvalError α) Unit :=
  if q.dimension = r.dimension then .ok ()
  else .error (.dimensionMismatch q.dimension r.dimension)

/-- Fails unless a quantity is a pure number. -/
def checkDimensionless (q : Quantity α) : Except (EvalError α) Unit :=
  if q.isDimensionless then .ok () else .error (.dimensionMismatch .dimensionless q.dimension)

/-! ### Arithmetic -/

/-- The sum, at the scale of the left operand. -/
def add (q r : Quantity α) : Except (EvalError α) (Quantity α) := do
  q.checkSameDimension r
  let other ← r.convert A q.scale
  return ⟨A.add q.magnitude other, q.scale, q.dimension⟩

/-- The difference, at the scale of the left operand. -/
def subtract (q r : Quantity α) : Except (EvalError α) (Quantity α) := do
  q.checkSameDimension r
  let other ← r.convert A q.scale
  return ⟨A.sub q.magnitude other, q.scale, q.dimension⟩

/-- The product: magnitudes multiply, dimensions and base scales add. -/
def multiply (q r : Quantity α) : Except Overflow (Quantity α) := do
  let dimension ← q.dimension.add r.dimension
  let left ← q.baseScale
  let right ← r.baseScale
  let sum ← addChecked left right
  let scale ← addChecked sum (kiloOffset dimension)
  return ⟨A.mul q.magnitude r.magnitude, scale, dimension⟩

/-- The quotient: magnitudes divide, dimensions and base scales subtract. -/
def divide (q r : Quantity α) : Except Overflow (Quantity α) := do
  let dimension ← q.dimension.sub r.dimension
  let left ← q.baseScale
  let right ← r.baseScale
  let difference ← subChecked left right
  let scale ← addChecked difference (kiloOffset dimension)
  return ⟨A.div q.magnitude r.magnitude, scale, dimension⟩

/-- A number as the exponent of dimensions: integral, and not beyond the range of a word in either
direction. -/
def wordExponent? (x : α) : Option Int32 :=
  match A.toInt? x with
  | some n => if n.natAbs ≤ 2147483647 then some (Int32.ofInt n) else none
  | none => none

/-- The dimension of a power. -/
def powerDimension (d : Dimension) (exponent : α) : Except (EvalError α) Dimension :=
  if d.isDimensionless then .ok d
  else
    match wordExponent? A exponent with
    | some n => (d.scale n).mapError .overflow
    | none => .error (.fractionalExponent d exponent)

/-- The power, computed in coherent units and brought back to the scale of the base. -/
def power (q r : Quantity α) : Except (EvalError α) (Quantity α) := do
  if r.isDimensionless then
    let exponent ← r.convert A 0
    let dimension ← powerDimension A q.dimension exponent
    let base ← q.normalize A
    -- the result is in coherent units, so its scale is the offset of its own unit
    (⟨A.pow base.magnitude exponent, kiloOffset dimension, dimension⟩ : Quantity α).withScale A
      q.scale
  else throw (.exponentHasUnits r.dimension)

/-- A real function of a pure number; the result is a pure number without noise. -/
def mapNumber (f : α → α) (q : Quantity α) : Except (EvalError α) (Quantity α) := do
  q.checkDimensionless
  let x ← q.convert A 0
  return ofNumber (A.clamp (f x))

/-- The logarithm of a pure number to a given base. -/
def log (q base : Quantity α) : Except (EvalError α) (Quantity α) := do
  q.checkDimensionless
  base.checkDimensionless
  let x ← q.convert A 0
  let b ← base.convert A 0
  return ofNumber (A.clamp (A.div (A.elementary .ln x) (A.elementary .ln b)))

/-- The magnitude of a pure number without its sign. -/
def abs (q : Quantity α) : Except (EvalError α) (Quantity α) := q.mapNumber A A.abs

/-- The lesser of two quantities is not implemented. -/
def min (_ _ : Quantity α) : Except (EvalError α) (Quantity α) := .error (.notImplemented .min)

/-- The greater of two quantities is not implemented. -/
def max (_ _ : Quantity α) : Except (EvalError α) (Quantity α) := .error (.notImplemented .max)

/-! ### Comparisons -/

/-- The dimensions are the same. -/
def sameDimension (q r : Quantity α) : Bool := q.dimension == r.dimension

/-- The magnitude is below zero. -/
def isNegative (q : Quantity α) : Bool := A.lt q.magnitude A.zero

/-- The magnitude is above zero. -/
def isPositive (q : Quantity α) : Bool := A.lt A.zero q.magnitude

/-- The magnitude is zero. -/
def isZero (q : Quantity α) : Bool := A.beq q.magnitude A.zero

/-- Magnitudes compare equal, and scales and dimensions are the same. -/
def equal (q r : Quantity α) : Bool :=
  A.beq q.magnitude r.magnitude && q.scale == r.scale && q.dimension == r.dimension

/-- The dimensions are the same, and in coherent units the magnitudes differ by at most a tolerance
relative to the greater of them and one. -/
def approxEqual (q r : Quantity α) (tolerance : α) : Except Overflow Bool := do
  if q.dimension = r.dimension then
    let x ← q.normalize A
    let y ← r.normalize A
    let bound := A.max (A.max (A.abs x.magnitude) (A.abs y.magnitude)) A.one
    return A.le (A.abs (A.sub x.magnitude y.magnitude)) (A.mul tolerance bound)
  else return false

end Quantity

end QuantityCalculus
