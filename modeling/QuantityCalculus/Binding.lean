/-
Bindings of names to quantities.
-/
import QuantityCalculus.Quantity.Serialized

namespace QuantityCalculus

/-- A quantity and the name by which a formula refers to it. -/
structure Binding (α : Type) where
  id : String
  quantity : Quantity α
deriving DecidableEq, Repr

namespace Binding

/-- Binds a name to a pure number. -/
def ofNumber {α : Type} (id : String) (x : α) : Binding α := ⟨id, .ofNumber x⟩

/-- Binds a name to a serialized quantity. -/
def ofSerialized (id : String) (s : String) : Except SerialError (Binding Float) :=
  (Quantity.readSerialized s).map fun q => ⟨id, q⟩

end Binding

end QuantityCalculus
