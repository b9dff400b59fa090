/-
Errors of calculations.

The calculus can fail where dimensions do not fit, where a program takes operands that are not
there, where a name has no value, and where a scale or an exponent overflows.
-/
import QuantityCalculus.Dimension.Basic
import QuantityCalculus.Token.Basic

namespace QuantityCalculus

/-- Why a calculation with magnitudes in `α` has no result. -/
inductive EvalError (α : Type) where
  /-- two dimensions that have to agree do not -/
  | dimensionMismatch (expected found : Dimension)
  /-- an exponent that is no pure number -/
  | exponentHasUnits (found : Dimension)
  /-- a power that would leave fractional exponents, or exponents that are no words -/
  | fractionalExponent (base : Dimension) (exponent : α)
  /-- an operator or a function without its operands -/
  | insufficientOperands (token : Token) (expected found : Nat)
  /-- a name without a value -/
  | unknownIdentifier (name : String)
  /-- a token that has no meaning in a program -/
  | unrecognizedOperator (token : Token)
  /-- a function that is known by name only -/
  | notImplemented (function : Builtin)
  /-- a program that leaves no single result -/
  | malformedProgram (left : Nat)
  /-- a scale or an exponent beyond the range of a word -/
  | overflow (operation : Overflow)
deriving DecidableEq, Repr

/-- The text that reports an error, with a given text of numbers. -/
def EvalError.message {α : Type} (numberText : α → String) : EvalError α → String
  | dimensionMismatch expected found =>
    "dimension mismatch: expected [" ++ expected.text ++ "], found [" ++ found.text ++ "]"
  | exponentHasUnits found => "exponent must be dimensionless, found [" ++ found.text ++ "]"
  | fractionalExponent base exponent =>
    "cannot raise a quantity with unit [" ++ base.text ++ "] to the non-integral power " ++
      numberText exponent
  | insufficientOperands token expected found =>
    "`" ++ token.text ++ "` needs " ++ toString expected ++ " operand(s) but only " ++
      toString found ++ " are available"
  | unknownIdentifier name => "unknown identifier `" ++ name ++ "`"
  | unrecognizedOperator token => "unrecognized operator `" ++ token.text ++ "`"
  | notImplemented function => "`" ++ function.name ++ "` is not implemented"
  | malformedProgram left =>
    "program must leave exactly one value on the stack, left " ++ toString left
  | overflow operation => operation.message

/-- An overflow is an error of the calculation that it happens in. -/
instance {α : Type} : MonadLift (Except Overflow) (Except (EvalError α)) where
  monadLift x := x.mapError .overflow

end QuantityCalculus
