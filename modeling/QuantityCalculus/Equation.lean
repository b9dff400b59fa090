/-
Equations: programs together with the bindings that they are evaluated against.

* `Equation.withBindings` keeps the program, so a formula is compiled once and calculated often.
-/
import QuantityCalculus.Program.Evaluation

namespace QuantityCalculus

/-- A program and bindings for its names. -/
structure Equation (α : Type) where
  program : Program
  bindings : List (Binding α)
deriving DecidableEq, Repr

namespace Equation

variable {α : Type}

/-- The equation of a formula. -/
def ofFormula (formula : String) (bindings : List (Binding α)) : Except SyntaxError (Equation α) :=
  (Program.compile formula).map fun p => ⟨p, bindings⟩

/-- The equation of a stored program. -/
def ofPostfix (text : String) (bindings : List (Binding α)) : Except SyntaxError (Equation α) :=
  (Program.ofPostfix text).map fun p => ⟨p, bindings⟩

/-- The same program with other bindings. -/
def withBindings (e : Equation α) (bindings : List (Binding α)) : Equation α :=
  { e with bindings := bindings }

/-- The value of the equation. -/
def calculate (A : Arithmetic α) (e : Equation α) : Except (EvalError α) (Quantity α) :=
  e.program.evaluate A e.bindings

end Equation

end QuantityCalculus
