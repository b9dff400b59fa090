/-
Decimal literals.

A literal is an optional sign followed by digits with at most one decimal point among or around them
and an optional exponent, or by one of the words `inf`, `infinity` and `nan` in any case.  There is
at least one digit before the exponent.  Reading keeps the exact decimal value; rounding it to a
number format is left to that format.
-/
import QuantityCalculus.Text.Numeral

namespace QuantityCalculus

/-- The number `digits * 10 ^ exponent`, or its negation. -/
structure Decimal where
  negative : Bool
  digits : Nat
  exponent : Int
deriving DecidableEq, Repr

/-- The value of a literal. -/
inductive Literal where
  | decimal (d : Decimal)
  | infinity (negative : Bool)
  | nan
deriving DecidableEq, Repr

/-- Why a text is no literal. -/
inductive LiteralError where
  | empty
  | invalid
deriving DecidableEq, Repr

/-- The text that reports a malformed literal. -/
def LiteralError.message : LiteralError → String
  | empty => "cannot parse float from empty string"
  | invalid => "invalid float literal"

namespace Decimal

/-- The value of a run of digits. -/
def digitsValue (s : List Char) : Nat := Nat.ofDigitChars 10 s 0

/-- Splits a sign off a text: whether it is a minus sign, and what follows it. -/
def splitSign : List Char → Bool × List Char
  | '-' :: cs => (true, cs)
  | '+' :: cs => (false, cs)
  | cs => (false, cs)

/-- The value of a nonempty run of digits. -/
def readDigitRun (s : List Char) : Option Nat :=
  if !s.isEmpty && s.all Char.isDigit then some (digitsValue s) else none

/-- The exponent that ends a literal; no text at all stands for zero. -/
def readExponent : List Char → Option Int
  | [] => some 0
  | c :: cs =>
    if c == 'e' || c == 'E' then
      (readDigitRun (splitSign cs).2).map fun n => if (splitSign cs).1 then -(n : Int) else n
    else none

/-- The digits behind a decimal point, if a text begins with one, and the text after them. -/
def splitFraction : List Char → List Char × List Char
  | '.' :: cs => (cs.takeWhile Char.isDigit, cs.dropWhile Char.isDigit)
  | cs => ([], cs)

/-- Reads a decimal without its sign. -/
def readUnsigned (negative : Bool) (s : List Char) : Option Decimal :=
  let whole := s.takeWhile Char.isDigit
  let (fraction, rest) := splitFraction (s.dropWhile Char.isDigit)
  if whole.isEmpty && fraction.isEmpty then none
  else (readExponent rest).map fun e =>
    ⟨negative, digitsValue (whole ++ fraction), e - fraction.length⟩

end Decimal

/-- Reads a literal without its sign. -/
def readUnsignedLiteral (negative : Bool) (s : List Char) : Option Literal :=
  match Decimal.readUnsigned negative s with
  | some d => some (.decimal d)
  | none =>
    match String.ofList (s.map Char.toLower) with
    | "inf" | "infinity" => some (.infinity negative)
    | "nan" => some .nan
    | _ => none

/-- Reads a literal. -/
def readLiteral (s : List Char) : Except LiteralError Literal :=
  if s.isEmpty then .error .empty
  else
    match readUnsignedLiteral (Decimal.splitSign s).1 (Decimal.splitSign s).2 with
    | some l => .ok l
    | none => .error .invalid

end QuantityCalculus
