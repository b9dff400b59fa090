/-
The functions that a formula may call.

The set is closed: thirty names, each with a fixed number of arguments.  Names are matched as a
whole and with their case, so `sinh`, `sin2` and `Sin` are no occurrences of `sin`.

* `Builtin.ofName?_eq_some_iff` : reading names inverts writing them.
-/

namespace QuantityCalculus

/-- The built-in functions. -/
inductive Builtin where
  | sin | cos | tan | cot | csc | sec
  | arcsin | arccos | arctan | arccot | arcsec | arccsc
  | sinh | cosh | tanh | coth | csch | sech
  | arcsinh | arccosh | arctanh | arccoth | arcsech | arccsch
  | ln | log10 | log | abs | min | max
deriving DecidableEq, Repr

namespace Builtin

/-- All built-in functions. -/
def all : List Builtin :=
  [sin, cos, tan, cot, csc, sec,
   arcsin, arccos, arctan, arccot, arcsec, arccsc,
   sinh, cosh, tanh, coth, csch, sech,
   arcsinh, arccosh, arctanh, arccoth, arcsech, arccsch,
   ln, log10, log, abs, min, max]

/-- The name by which a formula calls the function. -/
def name : Builtin → String
  | sin => "sin"
  | cos => "cos"
  | tan => "tan"
  | cot => "cot"
  | csc => "csc"
  | sec => "sec"
  | arcsin => "arcsin"
  | arccos => "arccos"
  | arctan => "arctan"
  | arccot => "arccot"
  | arcsec => "arcsec"
  | arccsc => "arccsc"
  | sinh => "sinh"
  | cosh => "cosh"
  | tanh => "tanh"
  | coth => "coth"
  | csch => "csch"
  | sech => "sech"
  | arcsinh => "arcsinh"
  | arccosh => "arccosh"
  | arctanh => "arctanh"
  | arccoth => "arccoth"
  | arcsech => "arcsech"
  | arccsch => "arccsch"
  | ln => "ln"
  | log10 => "log10"
  | log => "log"
  | abs => "abs"
  | min => "min"
  | max => "max"

/-- The function with a given name. -/
def ofName? (s : String) : Option Builtin := all.find? fun f => f.name == s

/-- The number of arguments of the function. -/
def arity : Builtin → Nat
  | log | min | max => 2
  | _ => 1

theorem ofName?_name (f : Builtin) : ofName? f.name = some f := by cases f <;> decide

/-- A name is read as the function that is written so, and other names as none. -/
theorem ofName?_eq_some_iff {s : String} {f : Builtin} : ofName? s = some f ↔ s = f.name := by
  constructor
  · intro h
    rw [ofName?] at h
    have hf := List.find?_some h
    exact (beq_iff_eq.1 hf).symm
  · rintro rfl
    exact ofName?_name f

theorem arity_pos (f : Builtin) : 0 < f.arity := by cases f <;> decide

end Builtin

end QuantityCalculus
