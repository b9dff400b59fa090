/-
The arithmetic of doubles.

Operations, comparisons and real functions are those of double precision numbers, with one
exception.

The inverse hyperbolic tangent is half the logarithm of one plus `2 * x / (1 - x)`.  That quotient
is formed in double precision, so the function is not odd: close to minus one the quotient is close
to minus one as well, and the sum keeps few of its digits.

The inverses of the other two hyperbolic functions are no such logarithms.  They are accurate close
to one and up to the largest double, where the sum under a logarithm would lose its digits or be
infinite: `acosh` is `4.71216091539e-8` at `1.000000000000001` and `709.889355823` at `1e308`.
-/
import QuantityCalculus.Arithmetic.Basic
import QuantityCalculus.Double.Reading
import QuantityCalculus.Double.Value

namespace QuantityCalculus

namespace Double

/-- The logarithm of one plus `x`, without the rounding error of that sum.  A small `x` takes the
first terms of the power series, which leave one rounding that counts; otherwise what the sum has
lost is made up for to first order. -/
def logOnePlus (x : Float) : Float :=
  if x.abs < 1e-6 then x - x * x * (0.5 - x / 3.0)
  else
    let u := 1.0 + x
    let lost := x - (u - 1.0)
    if lost == 0.0 || u == infiniteDouble then Float.log u else Float.log u + lost / u

/-- The inverse hyperbolic tangent, from a logarithm. -/
def atanh (x : Float) : Float := 0.5 * logOnePlus (2.0 * x / (1.0 - x))

/-- The real functions on doubles. -/
def elementary : Elementary → Float → Float
  | .sin => Float.sin
  | .cos => Float.cos
  | .tan => Float.tan
  | .asin => Float.asin
  | .acos => Float.acos
  | .atan => Float.atan
  | .sinh => Float.sinh
  | .cosh => Float.cosh
  | .tanh => Float.tanh
  | .asinh => Float.asinh
  | .acosh => Float.acosh
  | .atanh => atanh
  | .ln => Float.log
  | .log10 => Float.log10

end Double

/-- Doubles as a number system. -/
def Arithmetic.double : Arithmetic Float where
  add := (· + ·)
  sub := (· - ·)
  mul := (· * ·)
  div := (· / ·)
  neg := fun x => -x
  abs := Float.abs
  pow := Float.pow
  lt := fun x y => decide (x < y)
  le := fun x y => decide (x ≤ y)
  beq := fun x y => x == y
  toInt? := fun x => (DoubleValue.ofFloat x).toInt?
  ofLiteral := Literal.toFloat
  elementary := Double.elementary

end QuantityCalculus
