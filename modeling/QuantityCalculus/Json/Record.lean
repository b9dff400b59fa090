/-
JSON values as records, lists, maps, texts and numbers.

A record with known fields is an object or an array.  In an object the fields may come in any order,
other fields are ignored, and a known field may occur once.  In an array the values of the fields
come in their order; fields may be missing at its end, but nothing may be left over.  Whether a
missing field is an error is for the record to say.

* `JsonValue.record?` : the fields of a record,
* `JsonValue.map?` : the entries of an object with names of any kind.
-/
import QuantityCalculus.Json.Reader

namespace QuantityCalculus

namespace JsonValue

/-- The value as a text. -/
def text? : JsonValue → Option String
  | string lexeme => (decodeString lexeme).map String.ofList
  | _ => none

/-- The value as a word. -/
def word? : JsonValue → Option Int32
  | number lexeme => (NumberParts.read? lexeme).bind NumberParts.word?
  | _ => none

/-- The value as a double. -/
def double? : JsonValue → Option Float
  | number lexeme => (NumberParts.read? lexeme).bind NumberParts.double?
  | _ => none

/-- The value as a list. -/
def items? : JsonValue → Option (List JsonValue)
  | array items => some items
  | _ => none

/-- The fields of an object, in order, with names and values read by two rules. -/
def map? {κ ν : Type} (name? : List Char → Option κ) (value? : JsonValue → Option ν) :
    JsonValue → Option (List (κ × ν))
  | object fields => fields.mapM fun f => do return (← name? f.1, ← value? f.2)
  | _ => none

/-- The values of one field among named fields; it may occur at most once. -/
def single? (fields : List (String × JsonValue)) (name : String) : Option (Option JsonValue) :=
  match fields.filter fun f => f.1 == name with
  | [] => some none
  | [f] => some (some f.2)
  | _ => none

/-- The values of known fields, in the order of their names; a field may be missing. -/
def record? (names : List String) : JsonValue → Option (List (Option JsonValue))
  | object fields => do
    let fields ← fields.mapM fun f => (decodeString f.1).map fun name => (String.ofList name, f.2)
    names.mapM (single? fields)
  | array items =>
    if items.length ≤ names.length then
      some (items.map some ++ List.replicate (names.length - items.length) none)
    else none
  | _ => none

end JsonValue

end QuantityCalculus
