/-
Reading doubles.

A decimal is read as the double nearest to it, a tie going to the even one.  Decimals far outside
the range of doubles are settled by their order of magnitude, without computing the power of ten.

The reader accepts exactly the texts of `readLiteral`.
-/
import QuantityCalculus.Decimal.Literal

namespace QuantityCalculus

/-- The positive infinite double. -/
def infiniteDouble : Float := 1.0 / 0.0

/-- The double that is not a number. -/
def nanDouble : Float := 0.0 / 0.0

namespace Decimal

/-- The double nearest to the magnitude of a decimal. -/
def magnitudeToFloat (d : Decimal) : Float :=
  let order := (Nat.toDigits 10 d.digits).length + d.exponent
  if d.digits = 0 then 0.0
  else if 310 < order then infiniteDouble
  else if order < -330 then 0.0
  else Float.ofScientific d.digits (decide (d.exponent < 0)) d.exponent.natAbs

/-- The double nearest to a decimal; zero keeps its sign. -/
def toFloat (d : Decimal) : Float :=
  if d.negative then -d.magnitudeToFloat else d.magnitudeToFloat

end Decimal

namespace Literal

/-- The double that a literal stands for. -/
def toFloat : Literal → Float
  | decimal d => d.toFloat
  | infinity negative => if negative then -infiniteDouble else infiniteDouble
  | nan => nanDouble

end Literal

/-- Reads a double. -/
def readDouble (s : List Char) : Except LiteralError Float := (readLiteral s).map Literal.toFloat

end QuantityCalculus
