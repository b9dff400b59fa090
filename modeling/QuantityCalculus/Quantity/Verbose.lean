/-
Quantities for people to read.

A quantity is shown as its magnitude, the prefix of its scale and its unit.  The unit is the symbol
of its dimension if the table has one and base units are not asked for; else the symbols of the base
units that occur, with their exponents.  Scales without a prefix are shown as powers of ten.  A pure
number shows no scale, and a bare kilogram is shown in grams, which its scale counts from.

* `Quantity.verbose` : the rendering,
* `Dimension.baseText` : a dimension in base units.
-/
import QuantityCalculus.Double.Text
import QuantityCalculus.Quantity.Basic
import QuantityCalculus.SymbolTable

namespace QuantityCalculus

/-- A base unit with its exponent; the exponent one is not shown. -/
def componentText (c : BaseUnit × Int32) : String :=
  if c.2 = 1 then c.1.symbol else c.1.symbol ++ "^(" ++ wordText c.2 ++ ")"

/-- A dimension in base units. -/
def Dimension.baseText (d : Dimension) : String := String.join (d.components.map componentText)

/-- The prefix of a scale, or the scale as a power of ten; scale zero is not shown. -/
def SymbolTable.scaleText (t : SymbolTable) (scale : Int32) : String :=
  if scale = 0 then ""
  else
    match t.prefixOf? scale with
    | some p => p
    | none => "*10^" ++ wordText scale

namespace Quantity

/-- The symbol that a quantity is shown with, unless base units are asked for. -/
def shownSymbol? (t : SymbolTable) (inBaseUnits : Bool) (q : Quantity Float) : Option String :=
  if inBaseUnits then none else t.symbol? q.dimension

/-- The scale and the unit of a quantity. -/
def unitText (t : SymbolTable) (inBaseUnits : Bool) (q : Quantity Float) : String :=
  let scale := if q.isDimensionless then "" else t.scaleText q.scale
  match q.shownSymbol? t inBaseUnits with
  | some symbol => scale ++ symbol
  | none => if q.dimension.isKilogram then scale ++ "g" else scale ++ q.dimension.baseText

/-- The text that shows a quantity to people. -/
def verbose (t : SymbolTable) (inBaseUnits : Bool) (q : Quantity Float) : String :=
  plainText q.magnitude ++ q.unitText t inBaseUnits

end Quantity

end QuantityCalculus
