/-
Errors of formulas and of stored programs, found before anything is evaluated.
-/
import QuantityCalculus.Token.Basic

namespace QuantityCalculus

/-- Why a text is no formula or no stored program. -/
inductive SyntaxError where
  /-- a character that begins no token, with the number of UTF-8 bytes before it -/
  | unexpectedCharacter (found : Char) (offset : Nat)
  /-- a comma outside of all parentheses -/
  | misplacedComma
  /-- a parenthesis without its partner -/
  | unbalancedParentheses
  /-- a token of formulas that has no meaning in a stored program -/
  | unrecognizedOperator (token : Token)
deriving DecidableEq, Repr

/-- The text that reports a syntax error. -/
def SyntaxError.message : SyntaxError → String
  | unexpectedCharacter found offset =>
    "unexpected character `" ++ String.ofList [found] ++ "` at offset " ++ toString offset
  | misplacedComma => "argument separator outside of a function call"
  | unbalancedParentheses => "unbalanced parentheses"
  | unrecognizedOperator token => "unrecognized operator `" ++ token.text ++ "`"

end QuantityCalculus
