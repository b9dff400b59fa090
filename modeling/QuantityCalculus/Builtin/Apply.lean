/-
Applying the built-in functions.

The transcendental functions of one pure number are elementary functions of it or of its reciprocal,
or reciprocals of elementary functions.  The absolute value takes one pure number as well.  The
logarithm takes its base as a second argument.  The least and the greatest of two quantities are
known by name only.

* `Builtin.apply_short` : without enough operands every function fails in the same way,
* `Builtin.kind` : with enough of them a function is the logarithm, or not implemented, or a map of
  its first operand,
* `Builtin.apply_log`, `Builtin.apply_unimplemented` : what the first two kinds do.
-/
import QuantityCalculus.Quantity.Basic

namespace QuantityCalculus

namespace Builtin

variable {α : Type} (A : Arithmetic α)

/-- The reciprocal of an elementary function. -/
def reciprocalOf (f : Elementary) (x : α) : α := A.div A.one (A.elementary f x)

/-- An elementary function of the reciprocal. -/
def ofReciprocal (f : Elementary) (x : α) : α := A.elementary f (A.div A.one x)

/-- The real function behind a transcendental function of one pure number. -/
def kernel? : Builtin → Option (α → α)
  | sin => some (A.elementary .sin)
  | cos => some (A.elementary .cos)
  | tan => some (A.elementary .tan)
  | cot => some (reciprocalOf A .tan)
  | csc => some (reciprocalOf A .sin)
  | sec => some (reciprocalOf A .cos)
  | arcsin => some (A.elementary .asin)
  | arccos => some (A.elementary .acos)
  | arctan => some (A.elementary .atan)
  | arccot => some (ofReciprocal A .atan)
  | arcsec => some (ofReciprocal A .acos)
  | arccsc => some (ofReciprocal A .asin)
  | sinh => some (A.elementary .sinh)
  | cosh => some (A.elementary .cosh)
  | tanh => some (A.elementary .tanh)
  | coth => some (reciprocalOf A .tanh)
  | csch => some (reciprocalOf A .sinh)
  | sech => some (reciprocalOf A .cosh)
  | arcsinh => some (A.elementary .asinh)
  | arccosh => some (A.elementary .acosh)
  | arctanh => some (A.elementary .atanh)
  | arccoth => some (ofReciprocal A .atanh)
  | arcsech => some (ofReciprocal A .acosh)
  | arccsch => some (ofReciprocal A .asinh)
  | ln => some (A.elementary .ln)
  | log10 => some (A.elementary .log10)
  | log | abs | min | max => none

/-- Calls a function on operands in the order of its arguments.  Operands beyond its arity are
ignored. -/
def apply (f : Builtin) (operands : List (Quantity α)) : Except (EvalError α) (Quantity α) :=
  if operands.length < f.arity then
    .error (.insufficientOperands (.function f) f.arity operands.length)
  else
    match f, operands with
    | .log, value :: base :: _ => value.log A base
    | .min, left :: right :: _ => left.min right
    | .max, left :: right :: _ => left.max right
    | .abs, value :: _ => value.abs A
    | f, value :: _ =>
      match f.kernel? A with
      | some kernel => value.mapNumber A kernel
      | none => .error (.notImplemented f)
    | f, [] => .error (.insufficientOperands (.function f) f.arity 0)

/-- A function that lacks operands reports how many it needs and how many there are. -/
theorem apply_short {f : Builtin} {operands : List (Quantity α)} (h : operands.length < f.arity) :
    f.apply A operands =
      .error (.insufficientOperands (.function f) f.arity operands.length) := by
  unfold apply
  rw [if_pos h]

theorem apply_kernel {f : Builtin} {kernel : α → α} (h : f.kernel? A = some kernel)
    (q : Quantity α) (ignored : List (Quantity α)) :
    f.apply A (q :: ignored) = q.mapNumber A kernel := by
  cases f with
  | log => cases h
  | abs => cases h
  | min => cases h
  | max => cases h
  | _ => cases h; rfl

/-- A function of one argument maps the number of its operand; the others are the logarithm and the
two that are not implemented. -/
theorem kind (f : Builtin) :
    f = log ∨ (f = min ∨ f = max) ∨ f.arity = 1 ∧ ∃ kernel, ∀ (q : Quantity α)
      (ignored : List (Quantity α)), f.apply A (q :: ignored) = q.mapNumber A kernel := by
  cases f with
  | log => exact .inl rfl
  | min => exact .inr (.inl (.inl rfl))
  | max => exact .inr (.inl (.inr rfl))
  | abs => exact .inr (.inr ⟨rfl, A.abs, fun _ _ => rfl⟩)
  | _ => exact .inr (.inr ⟨rfl, _, apply_kernel A rfl⟩)

theorem apply_log (value base : Quantity α) (ignored : List (Quantity α)) :
    log.apply A (value :: base :: ignored) = value.log A base := rfl

theorem apply_unimplemented {f : Builtin} (h : f = min ∨ f = max) (q r : Quantity α)
    (ignored : List (Quantity α)) :
    f.apply A (q :: r :: ignored) = .error (.notImplemented f) := by
  rcases h with rfl | rfl <;> rfl

end Builtin

end QuantityCalculus
