/-
The binary operators of formulas.

An operator has a symbol, a binding strength and a side to which it associates.  Together they
answer the one question that reordering a formula asks: does an operator that waits for its right
operand yield to the operator that is read next?

* `Operator.ofSymbol?_eq_some_iff` : reading symbols inverts writing them,
* `Operator.yieldsTo_iff` : who yields to whom, in terms of binding strength.
-/

namespace QuantityCalculus

/-- The binary operators, in order of binding strength. -/
inductive Operator where
  | add
  | subtract
  | multiply
  | divide
  | power
deriving DecidableEq, Repr

namespace Operator

/-- All operators. -/
def all : List Operator := [add, subtract, multiply, divide, power]

/-- The character that stands for an operator in a formula. -/
def symbol : Operator → Char
  | add => '+'
  | subtract => '-'
  | multiply => '*'
  | divide => '/'
  | power => '^'

/-- The operator that a character stands for. -/
def ofSymbol? : Char → Option Operator
  | '+' => some add
  | '-' => some subtract
  | '*' => some multiply
  | '/' => some divide
  | '^' => some power
  | _ => none

/-- The text of an operator. -/
def text (o : Operator) : String := String.ofList [o.symbol]

/-- The operator with a given text. -/
def ofText? (s : String) : Option Operator := all.find? fun o => o.text == s

/-- How strongly an operator binds its operands. -/
def precedence : Operator → Nat
  | add | subtract => 2
  | multiply | divide => 3
  | power => 4

/-- Repeated uses of the operator group to the right. -/
def isRightAssociative : Operator → Bool
  | power => true
  | _ => false

/-- The waiting operator takes its right operand before `incoming` may have it. -/
def yieldsTo (waiting incoming : Operator) : Bool :=
  decide (incoming.precedence < waiting.precedence) ||
    (waiting.precedence == incoming.precedence && !incoming.isRightAssociative)

theorem ofSymbol?_symbol (o : Operator) : ofSymbol? o.symbol = some o := by cases o <;> rfl

/-- A character is read as the operator that is written so, and other characters as none. -/
theorem ofSymbol?_eq_some_iff {c : Char} {o : Operator} : ofSymbol? c = some o ↔ c = o.symbol := by
  constructor
  · intro h
    unfold ofSymbol? at h
    split at h <;> cases h <;> rfl
  · rintro rfl
    exact ofSymbol?_symbol o

/-- A waiting operator goes first if it binds stronger, or as strongly and the incoming one
associates to the left. -/
theorem yieldsTo_iff {waiting incoming : Operator} :
    waiting.yieldsTo incoming = true ↔
      incoming.precedence < waiting.precedence ∨
        incoming.precedence = waiting.precedence ∧ incoming.isRightAssociative = false := by
  cases waiting <;> cases incoming <;> decide

end Operator

end QuantityCalculus
