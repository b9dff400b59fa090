/-
Reordering a formula into postfix order.

Names go to the output at once.  Operators, functions and opening parentheses wait on a stack.  An
operator first lets go the waiting operators that yield to it; a comma lets go everything back to
the innermost open parenthesis; a closing parenthesis does the same, removes that parenthesis and
lets go a function waiting right below it.  At the end everything that waits goes to the output.

* `unwind_eq_none_iff` : unwinding fails exactly when no parenthesis is open,
* `drain_eq_none_iff` : draining fails exactly when one still is.

The output is produced in order, in front of the output of the remaining tokens, so each token's
contribution can be read off the equation for that token.
-/
import QuantityCalculus.SyntaxError

namespace QuantityCalculus

/-- What waits for its place in the output. -/
inductive Pending where
  | operator (o : Operator)
  | function (f : Builtin)
  | paren
deriving DecidableEq, Repr

/-- Lets go everything above the innermost open parenthesis: the tokens let go and the stack below
that parenthesis.  There is no answer when no parenthesis is open. -/
def unwind : List Pending → Option (List Token × List Pending)
  | [] => none
  | .paren :: below => some ([], below)
  | .operator o :: stack => (unwind stack).map fun r => (.operator o :: r.1, r.2)
  | .function f :: stack => (unwind stack).map fun r => (.function f :: r.1, r.2)

/-- Lets go everything.  There is no answer when a parenthesis is still open. -/
def drain : List Pending → Option (List Token)
  | [] => some []
  | .paren :: _ => none
  | .operator o :: stack => (drain stack).map (.operator o :: ·)
  | .function f :: stack => (drain stack).map (.function f :: ·)

/-- Lets go the waiting operators that yield to an incoming one: the tokens let go and the rest of
the stack. -/
def yieldTo (incoming : Operator) : List Pending → List Token × List Pending
  | .operator o :: stack =>
    if o.yieldsTo incoming then
      (.operator o :: (yieldTo incoming stack).1, (yieldTo incoming stack).2)
    else ([], .operator o :: stack)
  | stack => ([], stack)

/-- Lets go a function on top of the stack. -/
def releaseFunction : List Pending → List Token × List Pending
  | .function f :: stack => ([.function f], stack)
  | stack => ([], stack)

/-- The postfix order of the tokens that are still to be read, after what waits on the stack. -/
def reorder (stack : List Pending) : List Token → Except SyntaxError (List Token)
  | [] =>
    match drain stack with
    | some out => .ok out
    | none => .error .unbalancedParentheses
  | .name x :: rest => (reorder stack rest).map (.name x :: ·)
  | .function f :: rest => reorder (.function f :: stack) rest
  | .operator o :: rest =>
    -- what binds tighter than the incoming operator has its right operand by now
    (reorder (.operator o :: (yieldTo o stack).2) rest).map ((yieldTo o stack).1 ++ ·)
  | .left :: rest => reorder (.paren :: stack) rest
  | .comma :: rest =>
    -- the argument is complete, but the parenthesis stays open for the next one
    match unwind stack with
    | some (out, below) => (reorder (.paren :: below) rest).map (out ++ ·)
    | none => .error .misplacedComma
  | .right :: rest =>
    -- a function right below the parenthesis has all its arguments now
    match unwind stack with
    | some (out, below) =>
      (reorder (releaseFunction below).2 rest).map ((out ++ (releaseFunction below).1) ++ ·)
    | none => .error .unbalancedParentheses

/-- The tokens of a formula in postfix order. -/
def toPostfix (tokens : List Token) : Except SyntaxError (List Token) := reorder [] tokens

/-- A closing parenthesis finds no open one exactly if none waits on the stack. -/
theorem unwind_eq_none_iff {stack : List Pending} :
    unwind stack = none ↔ Pending.paren ∉ stack := by
  induction stack with
  | nil => simp [unwind]
  | cons p stack ih => cases p <;> simp [unwind, ih]

/-- The end of a formula is refused exactly if an open parenthesis still waits. -/
theorem drain_eq_none_iff {stack : List Pending} : drain stack = none ↔ Pending.paren ∈ stack := by
  induction stack with
  | nil => simp [drain]
  | cons p stack ih => cases p <;> simp [drain, ih]

end QuantityCalculus
