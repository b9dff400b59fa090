/-
Applying the binary operators to quantities.
-/
import QuantityCalculus.Quantity.Basic

namespace QuantityCalculus

namespace Operator

variable {α : Type} (A : Arithmetic α)

/-- Combines a left and a right operand. -/
def apply (o : Operator) (q r : Quantity α) : Except (EvalError α) (Quantity α) :=
  match o with
  | add => q.add A r
  | subtract => q.subtract A r
  | multiply => (q.multiply A r).mapError .overflow
  | divide => (q.divide A r).mapError .overflow
  | power => q.power A r

end Operator

end QuantityCalculus
