/-
Writing doubles.

A layout says which tie the digits take, which magnitudes are written positionally, what stands
behind a number without fraction digits and what stands before an exponent that is not negative.
There are two layouts.  The *plain* one never uses an exponent and leaves whole numbers bare; it
serves serialized quantities, error messages and verbose texts.  The *interchange* one keeps a
decimal point in positional texts and turns to an exponent, always with its sign, for very large and
very small magnitudes.  A third text, with a fixed count of significant digits, always has an
exponent and writes no plus sign.

The layouts share `Layout.positional` and `Layout.scientific`; they differ in these four decisions
only.
-/
import QuantityCalculus.Double.Shortest
import QuantityCalculus.Text.Numeral

namespace QuantityCalculus

/-- How the digits of a number are laid out. -/
structure Layout where
  /-- which decimal is taken of two equally near ones -/
  tie : Tie
  /-- the places of the decimal point that need no exponent -/
  isPositional : Int → Bool
  /-- what follows the digits of a whole number -/
  wholeMark : List Char
  /-- what stands before an exponent that is not negative -/
  plusMark : List Char

namespace Layout

/-- Whole and fraction digits around a decimal point, or the whole digits alone. -/
def positional (l : Layout) (d : DigitString) : List Char :=
  if d.point ≤ 0 then '0' :: '.' :: (List.replicate (-d.point).toNat '0' ++ d.digits)
  else if d.digits.length ≤ d.point.toNat then
    d.digits ++ List.replicate (d.point.toNat - d.digits.length) '0' ++ l.wholeMark
  else d.digits.take d.point.toNat ++ '.' :: d.digits.drop d.point.toNat

/-- One digit before the decimal point, and an exponent. -/
def scientific (plusMark digits : List Char) (exponent : Int) : List Char :=
  let fraction := if digits.length ≤ 1 then [] else '.' :: digits.drop 1
  let mark := if 0 ≤ exponent then plusMark else []
  digits.take 1 ++ fraction ++ 'e' :: (mark ++ intDigits exponent)

/-- The text of a positive number or zero. -/
def magnitude (l : Layout) (x : Binary) : List Char :=
  let d := if x.significand = 0 then ⟨['0'], 1⟩ else shortestDigits l.tie x
  if l.isPositional d.point then l.positional d
  else scientific l.plusMark d.digits (d.point - 1)

/-- The layout without exponents. -/
def plain : Layout where
  tie := .up
  isPositional := fun _ => true
  wholeMark := []
  plusMark := []

/-- The layout of numbers in interchange texts: positional from one hundred-thousandth up to below
ten to the sixteenth, elsewhere with a signed exponent. -/
def interchange : Layout where
  tie := .toEven
  isPositional := fun point => decide (-5 < point) && decide (point ≤ 16)
  wholeMark := ['.', '0']
  plusMark := ['+']

end Layout

/-- The minus sign of a negative number. -/
def signText (negative : Bool) : List Char := if negative then ['-'] else []

/-- The plain text of a double, with the words `inf` and `NaN`. -/
def plainText (x : Float) : String :=
  match DoubleValue.ofFloat x with
  | .nan => "NaN"
  | .infinity negative => String.ofList (signText negative ++ ['i', 'n', 'f'])
  | .finite negative b => String.ofList (signText negative ++ Layout.plain.magnitude b)

/-- The characters of a finite double in interchange texts. -/
def interchangeText? (x : Float) : Option (List Char) :=
  match DoubleValue.ofFloat x with
  | .finite negative b => some (signText negative ++ Layout.interchange.magnitude b)
  | _ => none

/-- The text of a double rounded to `count` significant digits. -/
def significantText (count : Nat) (x : Float) : String :=
  match DoubleValue.ofFloat x with
  | .finite negative b =>
    let (digits, exponent) :=
      if b.significand = 0 then (List.replicate count '0', 0) else roundedDigits count b
    String.ofList (signText negative ++ Layout.scientific [] digits exponent)
  | _ => plainText x

end QuantityCalculus
