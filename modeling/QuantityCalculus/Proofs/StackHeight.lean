/-
The height of the evaluation stack.

A token takes a fixed number of values off the stack and puts one back, whatever the values are.  So
the height of the stack behind a run depends on the tokens alone:

* `length_of_step`, `length_of_run` : the height behind a token, and behind a list of tokens,
* `length_of_evaluate` : a program that has a value takes one value less than it has tokens,
* `height_of_run` : the height behind a list of tokens is the number of its names less that of its
  operators and its functions of two arguments.
-/
import Mathlib.Algebra.Order.BigOperators.Group.List
import Mathlib.Algebra.Order.Ring.Nat
import QuantityCalculus.Proofs.Step

namespace QuantityCalculus

variable {α : Type} {A : Arithmetic α} {bindings : List (Binding α)}

/-- A token takes its operands off the stack and leaves one value. -/
theorem length_of_step {stack next : List (Quantity α)} {t : Token}
    (h : step A bindings stack t = .ok next) :
    next.length + t.operands = stack.length + 1 := by
  obtain ⟨operands, rest, value, hlen, rfl, -, rfl⟩ := step_eq_ok_iff.mp h
  rw [List.length_cons, List.length_append, List.length_reverse, hlen]
  omega

/-- The height after a run depends on the number of tokens and of their operands only. -/
theorem length_of_run {stack last : List (Quantity α)} {tokens : List Token}
    (h : run A bindings stack tokens = .ok last) :
    last.length + (tokens.map Token.operands).sum = stack.length + tokens.length := by
  induction tokens generalizing stack with
  | nil =>
    cases h
    rfl
  | cons t ts ih =>
    rw [run_cons, bind_eq_ok_iff] at h
    obtain ⟨next, hstep, hrest⟩ := h
    have hheight := length_of_step hstep
    have hrun := ih hrest
    rw [List.map_cons, List.sum_cons, List.length_cons]
    omega

/-- A program that has a value leaves one value on an empty stack. -/
theorem length_of_evaluate {p : Program} {value : Quantity α}
    (h : p.evaluate A bindings = .ok value) :
    1 + (p.tokens.map Token.operands).sum = p.tokens.length := by
  rw [evaluate_eq_ok_iff] at h
  have hrun := length_of_run h
  rw [List.length_nil, Nat.zero_add] at hrun
  exact hrun

/-! ### Height as a count of tokens -/

namespace Token

/-- The token is a binary operator. -/
def isOperator : Token → Bool
  | operator _ => true
  | _ => false

/-- The token is a function of two arguments. -/
def isBinaryFunction : Token → Bool
  | function f => f.arity == 2
  | _ => false

end Token

/-- The names in a list of tokens, less the operators and the functions of two arguments. -/
def height (tokens : List Token) : Int :=
  tokens.countP Token.isName - tokens.countP Token.isOperator -
    tokens.countP Token.isBinaryFunction

theorem height_nil : height [] = 0 := rfl

theorem height_cons (t : Token) (ts : List Token) : height (t :: ts) = height [t] + height ts := by
  rw [← List.singleton_append, height, List.countP_append, List.countP_append,
    List.countP_append, height, height]
  omega

/-- A token that has a place in a program leaves one value for those that it takes. -/
theorem height_singleton {t : Token} (ht : t.isGrouping = false) :
    height [t] = 1 - t.operands := by
  cases t with
  | name x => rfl
  | operator o => rfl
  | function f => cases f <;> rfl
  | left => cases ht
  | right => cases ht
  | comma => cases ht

theorem isGrouping_of_step {stack next : List (Quantity α)} {t : Token}
    (h : step A bindings stack t = .ok next) : t.isGrouping = false := by
  cases t with
  | name x => rfl
  | operator o => rfl
  | function f => rfl
  | left => cases h
  | right => cases h
  | comma => cases h

/-- A step that succeeds changes the length of the stack by the height of its token. -/
theorem height_of_step {stack next : List (Quantity α)} {t : Token}
    (h : step A bindings stack t = .ok next) :
    (next.length : Int) = stack.length + height [t] := by
  have hlength := length_of_step h
  rw [height_singleton (isGrouping_of_step h)]
  omega

/-- The height of the stack behind a run is that of the tokens, above the stack in front of it. -/
theorem height_of_run {stack last : List (Quantity α)} {tokens : List Token}
    (h : run A bindings stack tokens = .ok last) :
    (last.length : Int) = stack.length + height tokens := by
  induction tokens generalizing stack with
  | nil =>
    cases h
    rw [height_nil, Int.add_zero]
  | cons t ts ih =>
    rw [run_cons, bind_eq_ok_iff] at h
    obtain ⟨next, hstep, hrest⟩ := h
    have hheight := height_of_step hstep
    have hrun := ih hrest
    rw [height_cons]
    omega

end QuantityCalculus
