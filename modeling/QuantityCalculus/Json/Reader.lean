/-
Reading JSON.

A text is read by descent.  Blanks may stand around every token; a comma stands between items and
never behind the last one; nothing but blanks follows the value.  A string is checked but not
decoded, and a number is checked but not evaluated.

The recursion is bounded by a count of steps that the length of the text always covers: a step that
opens a bracket consumes it, and a step into an item is followed by one that consumes a character.

* `readJson` : the value of a whole text.
-/
import QuantityCalculus.Json.Value

namespace QuantityCalculus

/-- The blanks that JSON allows between tokens. -/
def isJsonBlank (c : Char) : Bool := c == ' ' || c == '\n' || c == '\t' || c == '\r'

/-- The text without the blanks in front of it. -/
def skipJsonBlanks (s : List Char) : List Char := s.dropWhile isJsonBlank

/-- Splits a number off a text: the longest run of characters that may occur in one, which has to be
a number as a whole. -/
def splitNumber (s : List Char) : Option (List Char × List Char) :=
  let lexeme := s.takeWhile isNumberChar
  if (NumberParts.read? lexeme).isSome then some (lexeme, s.dropWhile isNumberChar) else none

/-- Splits the name of a field and the colon behind it off a text. -/
def splitName (s : List Char) : Option (List Char × List Char) :=
  match skipJsonBlanks s with
  | '"' :: rest => do
    let (name, rest) ← splitString rest
    match skipJsonBlanks rest with
    | ':' :: rest => some (name, rest)
    | _ => none
  | _ => none

mutual

/-- Reads the value in front of a text: the value and what follows it. -/
def readValue : Nat → List Char → Option (JsonValue × List Char)
  | 0, _ => none
  | steps + 1, s =>
    match skipJsonBlanks s with
    | 'n' :: 'u' :: 'l' :: 'l' :: rest => some (.null, rest)
    | 't' :: 'r' :: 'u' :: 'e' :: rest => some (.bool true, rest)
    | 'f' :: 'a' :: 'l' :: 's' :: 'e' :: rest => some (.bool false, rest)
    | '"' :: rest => (splitString rest).map fun r => (.string r.1, r.2)
    | '[' :: rest =>
      match skipJsonBlanks rest with
      | ']' :: rest => some (.array [], rest)
      | rest => (readItems steps rest).map fun r => (.array r.1, r.2)
    | '\x7b' :: rest =>
      match skipJsonBlanks rest with
      | '\x7d' :: rest => some (.object [], rest)
      | rest => (readFields steps rest).map fun r => (.object r.1, r.2)
    -- no other value begins with a character of its own
    | rest => (splitNumber rest).map fun r => (.number r.1, r.2)

/-- Reads the items of an array, at least one, and the bracket behind them. -/
def readItems : Nat → List Char → Option (List JsonValue × List Char)
  | 0, _ => none
  | steps + 1, s => do
    let (item, rest) ← readValue steps s
    match skipJsonBlanks rest with
    | ',' :: rest => (readItems steps rest).map fun r => (item :: r.1, r.2)
    | ']' :: rest => some ([item], rest)
    | _ => none

/-- Reads the fields of an object, at least one, and the brace behind them. -/
def readFields : Nat → List Char → Option (List (List Char × JsonValue) × List Char)
  | 0, _ => none
  | steps + 1, s => do
    let (name, rest) ← splitName s
    let (value, rest) ← readValue steps rest
    match skipJsonBlanks rest with
    | ',' :: rest => (readFields steps rest).map fun r => ((name, value) :: r.1, r.2)
    | '\x7d' :: rest => some ([(name, value)], rest)
    | _ => none

end

/-- Reads a whole text as one value. -/
def readJson (s : List Char) : Option JsonValue := do
  let (value, rest) ← readValue (2 * s.length + 2) s
  if (skipJsonBlanks rest).isEmpty then some value else none

end QuantityCalculus
