/-
The exact value of a double.

A finite double is a natural significand times a power of two, with a sign.  Decoding its bits gives
that exact value, on which everything that has to be exact is computed: the decimal texts of a
double and the question whether it is an integer.
-/

namespace QuantityCalculus

/-- The value `significand * 2 ^ exponent`.  When the significand is the least one of its exponent,
the next smaller double is only half as far away as the next larger one. -/
structure Binary where
  significand : Nat
  exponent : Int
  closeBelow : Bool
deriving DecidableEq, Repr

/-- What a double stands for. -/
inductive DoubleValue where
  | finite (negative : Bool) (magnitude : Binary)
  | infinity (negative : Bool)
  | nan
deriving DecidableEq, Repr

namespace Binary

/-- The numerator of the value. -/
def numerator (x : Binary) : Nat := x.significand * Nat.pow 2 x.exponent.toNat

/-- The denominator of the value, a power of two. -/
def denominator (x : Binary) : Nat := Nat.pow 2 (-x.exponent).toNat

/-- The value as a natural number, if it is one. -/
def toNat? (x : Binary) : Option Nat :=
  if x.numerator % x.denominator = 0 then some (x.numerator / x.denominator) else none

end Binary

namespace DoubleValue

/-- The value of a bit pattern: a sign bit, eleven bits of exponent and fifty-two of fraction. -/
def ofBits (bits : Nat) : DoubleValue :=
  let negative := decide (0x8000000000000000 ≤ bits)
  let exponent : Nat := bits / 0x10000000000000 % 0x800
  let fraction : Nat := bits % 0x10000000000000
  if exponent = 2047 then
    if fraction = 0 then infinity negative else nan
  else if exponent = 0 then finite negative ⟨fraction, -1074, false⟩
  else
    finite negative
      ⟨0x10000000000000 + fraction, (exponent : Int) - 1075, fraction == 0 && exponent != 1⟩

/-- The value of a double. -/
def ofFloat (x : Float) : DoubleValue := ofBits x.toBits.toNat

/-- The value as an integer, if it is one. -/
def toInt? : DoubleValue → Option Int
  | finite negative x => x.toNat?.map fun n => if negative then -(n : Int) else n
  | _ => none

end DoubleValue

end QuantityCalculus
