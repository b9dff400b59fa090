/-
JSON values.

Numbers and the contents of strings are kept as they are written.  The text of a value is compact:
no blanks, and the fields of an object in the order in which it lists them.

* `JsonValue.chars` : the text of a value.
-/
import QuantityCalculus.Json.Number
import QuantityCalculus.Json.Quoted

namespace QuantityCalculus

/-- A JSON value; strings and names are the characters between their quotes. -/
inductive JsonValue where
  | null
  | bool (b : Bool)
  | number (lexeme : List Char)
  | string (lexeme : List Char)
  | array (items : List JsonValue)
  | object (fields : List (List Char × JsonValue))

namespace JsonValue

/-- The string value of a text. -/
def ofText (s : String) : JsonValue := string (encodeString s.toList)

/-- The name of a field. -/
def fieldName (s : String) : List Char := encodeString s.toList

/-- The number value of a word. -/
def ofWord (w : Int32) : JsonValue := number (wordDigits w)

/-! ### Writing -/

mutual

/-- The text of a value. -/
def chars : JsonValue → List Char
  | null => ['n', 'u', 'l', 'l']
  | bool true => ['t', 'r', 'u', 'e']
  | bool false => ['f', 'a', 'l', 's', 'e']
  | number lexeme => lexeme
  | string lexeme => '"' :: (lexeme ++ ['"'])
  | array items => '[' :: (itemsChars items ++ [']'])
  | object fields => '\x7b' :: (fieldsChars fields ++ ['\x7d'])

/-- The items of an array, separated by commas. -/
def itemsChars : List JsonValue → List Char
  | [] => []
  | [item] => item.chars
  | item :: next :: rest => item.chars ++ ',' :: itemsChars (next :: rest)

/-- The fields of an object, separated by commas. -/
def fieldsChars : List (List Char × JsonValue) → List Char
  | [] => []
  | [(name, value)] => '"' :: (name ++ '"' :: ':' :: value.chars)
  | (name, value) :: next :: rest =>
    '"' :: (name ++ '"' :: ':' :: (value.chars ++ ',' :: fieldsChars (next :: rest)))

end

/-- The text of a value, as a string. -/
def text (v : JsonValue) : String := String.ofList v.chars

end JsonValue

end QuantityCalculus
