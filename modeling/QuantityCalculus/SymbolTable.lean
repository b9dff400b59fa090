/-
Symbols of units and prefixes of scales.

A table gives symbols to dimensions, which it knows by the text of their exponents, and prefixes to
scales.  Whatever it does not list is spelled out when a quantity is shown.
-/
import QuantityCalculus.Dictionary
import QuantityCalculus.Dimension.Basic

namespace QuantityCalculus

/-- The symbols and prefixes that quantities are shown with. -/
structure SymbolTable where
  units : Dictionary String String
  prefixes : Dictionary Int32 String

namespace SymbolTable

/-- The table without symbols and prefixes. -/
def empty : SymbolTable := ⟨.empty, .empty⟩

/-- The common derived units and the common prefixes. -/
def common : SymbolTable where
  units := .ofList
    [("-2,2,1,0,0,0,0", "J"), ("-3,2,1,0,0,0,0", "W"), ("1,0,0,1,0,0,0", "C"),
     ("-3,2,1,-1,0,0,0", "V"), ("-2,1,1,0,0,0,0", "N"), ("-2,-1,1,0,0,0,0", "Pa"),
     ("-1,0,0,0,0,0,0", "Hz")]
  prefixes := .ofList
    [(9, "G"), (6, "M"), (3, "k"), (2, "h"), (1, "da"), (0, ""), (-1, "d"), (-2, "c"), (-3, "m"),
     (-6, "μ"), (-9, "n")]

/-- The symbol of a dimension. -/
def symbol? (t : SymbolTable) (d : Dimension) : Option String := t.units.find? d.text

/-- The prefix of a scale. -/
def prefixOf? (t : SymbolTable) (scale : Int32) : Option String := t.prefixes.find? scale

end SymbolTable

end QuantityCalculus
