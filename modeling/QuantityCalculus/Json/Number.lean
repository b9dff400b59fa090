/-
JSON numbers.

A JSON number is kept as it is written and understood only when it is asked for.  As a word it must
have neither fraction nor exponent, and minus zero is no word.  As a double its digits are gathered
into a significand of at most 64 bits; whole digits beyond that only raise the exponent and fraction
digits beyond that are dropped; the significand is then scaled by one power of ten, or by several
when the exponent is below the range of doubles.  A number too large for a double is refused.
-/
import QuantityCalculus.Double.Reading

namespace QuantityCalculus

/-- The parts of a JSON number: its sign, its whole digits, the digits behind the point and the
exponent with its sign. -/
structure NumberParts where
  negative : Bool
  whole : List Char
  fraction : Option (List Char)
  exponent : Option (Bool × List Char)
deriving DecidableEq, Repr

/-- The character may occur in a JSON number. -/
def isNumberChar (c : Char) : Bool :=
  c.isDigit || c == '-' || c == '+' || c == '.' || c == 'e' || c == 'E'

namespace NumberParts

/-- Whole digits: at least one, and no zero in front of others. -/
def isWhole : List Char → Bool
  | [] => false
  | ['0'] => true
  | c :: _ => c != '0'

/-- The digits behind a point, if there is one, and what follows them. -/
def splitFraction? : List Char → Option (Option (List Char) × List Char)
  | '.' :: s =>
    let digits := s.takeWhile Char.isDigit
    if digits.isEmpty then none else some (some digits, s.dropWhile Char.isDigit)
  | s => some (none, s)

/-- The exponent that ends a number, if there is one. -/
def readExponent? : List Char → Option (Option (Bool × List Char))
  | [] => some none
  | c :: s =>
    if c == 'e' || c == 'E' then
      let (negative, digits) := Decimal.splitSign s
      if !digits.isEmpty && digits.all Char.isDigit then some (some (negative, digits)) else none
    else none

/-- Splits a minus sign off a number. -/
def splitMinus : List Char → Bool × List Char
  | '-' :: s => (true, s)
  | s => (false, s)

/-- The parts of a number. -/
def read? (lexeme : List Char) : Option NumberParts := do
  let (negative, s) := splitMinus lexeme
  let whole := s.takeWhile Char.isDigit
  if isWhole whole then
    let (fraction, rest) ← splitFraction? (s.dropWhile Char.isDigit)
    let exponent ← readExponent? rest
    return ⟨negative, whole, fraction, exponent⟩
  else none

/-- The number as an integer, if it is written as one. -/
def integer? (p : NumberParts) : Option Int :=
  match p.fraction, p.exponent with
  | none, none =>
    let n := Decimal.digitsValue p.whole
    if p.negative then (if n = 0 then none else some (-(n : Int))) else some n
  | _, _ => none

/-- The number as a word. -/
def word? (p : NumberParts) : Option Int32 := do
  let n ← p.integer?
  if FitsWord n then some (Int32.ofInt n) else none

/-! ### Doubles -/

/-- Gathers digits into a significand as long as it has at most 64 bits: the significand and the
digits that were left out. -/
def gather (significand : Nat) : List Char → Nat × List Char
  | [] => (significand, [])
  | c :: cs =>
    let next := 10 * significand + (c.toNat - 48)
    if next < 0x10000000000000000 then gather next cs else (significand, c :: cs)

/-- The power of ten as a double. -/
def powerOfTen (n : Nat) : Float := Float.ofScientific 1 false n

/-- A double times a power of ten.  An exponent below the range of doubles is worked off in
portions; each `step` takes one of them. -/
def scaleDouble : Nat → Float → Int → Option Float
  | steps, x, exponent =>
    if exponent.natAbs ≤ 308 then
      if 0 ≤ exponent then
        let product := x * powerOfTen exponent.natAbs
        if product == infiniteDouble then none else some product
      else some (x / powerOfTen exponent.natAbs)
    else if x == 0.0 then some x
    else if 0 ≤ exponent then none
    else
      match steps with
      | 0 => none
      | steps + 1 => scaleDouble steps (x / powerOfTen 308) (exponent + 308)

/-- The value of the exponent. -/
def exponentValue (p : NumberParts) : Int :=
  match p.exponent with
  | none => 0
  | some (negative, digits) =>
    if negative then -(Decimal.digitsValue digits : Int) else Decimal.digitsValue digits

/-- The number as a double. -/
def double? (p : NumberParts) : Option Float := do
  -- a whole digit that is left out counts for the exponent, a fraction digit that is taken in does
  -- too
  let (significand, dropped) := gather 0 p.whole
  let fraction := p.fraction.getD []
  let (significand, unread) := gather significand fraction
  let exponent := (dropped.length : Int) - ((fraction.length - unread.length : Nat) : Int) +
    p.exponentValue
  let magnitude ←
    scaleDouble (exponent.natAbs / 308) (Float.ofScientific significand false 0) exponent
  return if p.negative then -magnitude else magnitude

end NumberParts

end QuantityCalculus
