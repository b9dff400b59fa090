/-
The serialized form of quantities.

A quantity is serialized as nine fields separated by commas: its magnitude, its scale and the seven
exponents of its dimension.  Reading allows blanks around the whole text and around each field, and
one comma behind the last field.  The first problem from left to right is the one reported.

* `Quantity.serialized` : writing,
* `Quantity.readSerialized` : reading, with the cause of a failure.
-/
import QuantityCalculus.Double.Reading
import QuantityCalculus.Double.Text
import QuantityCalculus.Quantity.Basic
import QuantityCalculus.Text.Blank

namespace QuantityCalculus

/-- Why a text is no serialized quantity. -/
inductive SerialFault where
  /-- the first field, without the blanks around it, is no literal -/
  | invalidMagnitude (field : List Char) (cause : LiteralError)
  /-- a later field, without the blanks around it, is no numeral of a word -/
  | invalidInteger (field : List Char) (cause : NumeralError)
  /-- a field without any character, and the character found in its place, if any -/
  | missingField (found : Option Char)
  /-- the text ends before the last field -/
  | missingComma
  /-- a character behind the last field and its comma -/
  | trailing (found : Char)
deriving DecidableEq, Repr

/-- The text that describes what was found. -/
def foundText : Option Char → String
  | some c => "found '" ++ String.ofList [c] ++ "'"
  | none => "found end of input"

/-- The reason that a fault gives. -/
def SerialFault.reason : SerialFault → String
  | invalidMagnitude field cause =>
    "invalid magnitude `" ++ String.ofList field ++ "`: " ++ cause.message
  | invalidInteger field cause =>
    "invalid integer `" ++ String.ofList field ++ "`: " ++ cause.message
  | missingField found => foundText found ++ " expected something else"
  | missingComma => foundText none ++ " expected ','"
  | trailing found => foundText (some found) ++ " expected end of input"

/-- A text that is no serialized quantity, and why. -/
structure SerialError where
  input : String
  fault : SerialFault
deriving DecidableEq, Repr

/-- The text that reports a malformed serialized quantity. -/
def SerialError.message (e : SerialError) : String :=
  "malformed serialized quantity `" ++ e.input ++ "`: " ++ e.fault.reason

/-! ### Fields -/

/-- The characters up to the first comma. -/
def fieldOf (s : List Char) : List Char := s.takeWhile (· != ',')

/-- The text from the first comma on. -/
def afterField (s : List Char) : List Char := s.dropWhile (· != ',')

/-- Reads the field in front of a text: its value and the text behind it. -/
def readField {β : Type} (read : List Char → Except SerialFault β) (s : List Char) :
    Except SerialFault (β × List Char) :=
  if (fieldOf s).isEmpty then .error (.missingField (afterField s).head?)
  else (read (trim (fieldOf s))).map fun value => (value, afterField s)

/-- Reads the text of a magnitude. -/
def readMagnitude (field : List Char) : Except SerialFault Float :=
  (readDouble field).mapError (.invalidMagnitude field)

/-- Reads the text of a scale or an exponent. -/
def readInteger (field : List Char) : Except SerialFault Int32 :=
  (readWord field).mapError (.invalidInteger field)

/-- Reads a number of integer fields, each behind a comma: their values and the text behind them. -/
def readIntegers : Nat → List Char → Except SerialFault (List Int32 × List Char)
  | 0, s => .ok ([], s)
  | _ + 1, [] => .error .missingComma
  | n + 1, _ :: s => do
    let (value, rest) ← readField readInteger s
    let (values, rest) ← readIntegers n rest
    return (value :: values, rest)

/-- Fails unless nothing but one comma is left. -/
def checkEnd : List Char → Except SerialFault Unit
  | [] => .ok ()
  | [','] => .ok ()
  | ',' :: c :: _ => .error (.trailing c)
  | c :: _ => .error (.trailing c)

namespace Quantity

/-- The quantity with a magnitude, and a scale and exponents from a list of integers. -/
def ofFields (magnitude : Float) (integers : List Int32) : Quantity Float where
  magnitude := magnitude
  scale := integers.getD 0 0
  dimension := .ofExponents fun b => integers.getD (b.index + 1) 0

/-- Reads the nine fields of a quantity. -/
def readFields (s : List Char) : Except SerialFault (Quantity Float) := do
  let (magnitude, rest) ← readField readMagnitude s
  let (integers, rest) ← readIntegers 8 rest
  checkEnd rest
  return ofFields magnitude integers

/-- Reads a serialized quantity. -/
def readSerialized (s : String) : Except SerialError (Quantity Float) :=
  (readFields (trim s.toList)).mapError fun fault => ⟨s, fault⟩

/-- The serialized form of a quantity. -/
def serialized (q : Quantity Float) : String :=
  plainText q.magnitude ++ "," ++ wordText q.scale ++ "," ++ q.dimension.text

end Quantity

end QuantityCalculus
