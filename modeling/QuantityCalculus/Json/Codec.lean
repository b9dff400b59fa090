/-
Quantities, bindings and symbol tables in JSON.

A dimension is an array of seven words, a quantity a record of magnitude, scale and dimension, a
binding a record of name and quantity, a symbol table a record of two objects.  A magnitude that is
not finite is written as null and cannot be read back.  The keys of prefixes are words written as
JSON numbers between quotes; the fields of a symbol table, and the keys in it, are listed in the
order of their texts.

* `Dimension.ofJson?`, `Quantity.ofJson?`, `Binding.ofJson?`, `SymbolTable.ofJson?` : reading,
* `Dimension.toJson`, `Quantity.toJson`, `Binding.toJson`, `SymbolTable.toJson` : writing.
-/
import QuantityCalculus.Binding
import QuantityCalculus.Json.Record
import QuantityCalculus.SymbolTable

namespace QuantityCalculus

namespace Dimension

/-- The exponents as an array. -/
def toJson (d : Dimension) : JsonValue := .array (d.exponents.map .ofWord)

/-- Reads an array of exactly seven exponents. -/
def ofJson? (v : JsonValue) : Option Dimension := do
  match ← (← v.items?).mapM JsonValue.word? with
  | [second, metre, kilogram, ampere, kelvin, mole, candela] =>
    some ⟨second, metre, kilogram, ampere, kelvin, mole, candela⟩
  | _ => none

end Dimension

/-- A magnitude as a number, or as null if it is not finite. -/
def magnitudeToJson (x : Float) : JsonValue :=
  match interchangeText? x with
  | some lexeme => .number lexeme
  | none => .null

namespace Quantity

/-- The quantity as an object. -/
def toJson (q : Quantity Float) : JsonValue :=
  .object
    [(JsonValue.fieldName "magnitude", magnitudeToJson q.magnitude),
     (JsonValue.fieldName "scale", .ofWord q.scale),
     (JsonValue.fieldName "unit", q.dimension.toJson)]

/-- Reads a quantity. -/
def ofJson? (v : JsonValue) : Option (Quantity Float) := do
  match ← v.record? ["magnitude", "scale", "unit"] with
  | [some magnitude, some scale, some unit] =>
    return ⟨← magnitude.double?, ← scale.word?, ← Dimension.ofJson? unit⟩
  | _ => none

end Quantity

namespace Binding

/-- The binding as an object. -/
def toJson (b : Binding Float) : JsonValue :=
  .object
    [(JsonValue.fieldName "id", .ofText b.id), (JsonValue.fieldName "quantity", b.quantity.toJson)]

/-- Reads a binding. -/
def ofJson? (v : JsonValue) : Option (Binding Float) := do
  match ← v.record? ["id", "quantity"] with
  | [some id, some quantity] => return ⟨← id.text?, ← Quantity.ofJson? quantity⟩
  | _ => none

end Binding

namespace SymbolTable

/-- An object with the entries of a dictionary. -/
def entriesToJson (d : Dictionary String String) : JsonValue :=
  .object (d.entries.map fun e => (JsonValue.fieldName e.1, .ofText e.2))

/-- The prefixes by the texts of their scales. -/
def prefixTexts (t : SymbolTable) : Dictionary String String :=
  .ofList (t.prefixes.entries.map fun e => (wordText e.1, e.2))

/-- The table as an object. -/
def toJson (t : SymbolTable) : JsonValue :=
  .object
    [(JsonValue.fieldName "prefixes", entriesToJson t.prefixTexts),
     (JsonValue.fieldName "units", entriesToJson t.units)]

/-- Reads the key of a prefix: a JSON number between the quotes. -/
def scaleKey? (lexeme : List Char) : Option Int32 :=
  (NumberParts.read? lexeme).bind NumberParts.word?

/-- Reads the key of a symbol. -/
def unitKey? (lexeme : List Char) : Option String := (decodeString lexeme).map String.ofList

/-- Reads the entries of a table.  A missing table has none, and of equal keys the last one
counts. -/
def dictionary? {κ : Type} [LT κ] [LE κ] [DecidableLT κ] [Std.IsLinearOrder κ]
    [Std.LawfulOrderLT κ] (key? : List Char → Option κ) :
    Option JsonValue → Option (Dictionary κ String)
  | none => some .empty
  | some v => (v.map? key? JsonValue.text?).map .ofList

/-- Reads a symbol table. -/
def ofJson? (v : JsonValue) : Option SymbolTable := do
  match ← v.record? ["units", "prefixes"] with
  | [units, prefixes] => return ⟨← dictionary? unitKey? units, ← dictionary? scaleKey? prefixes⟩
  | _ => none

end SymbolTable

end QuantityCalculus
