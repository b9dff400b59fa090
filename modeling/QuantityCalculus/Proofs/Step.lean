/-
One step of the stack machine, as equations.

A token that takes operands either finds too few of them, which is an error that depends on the
height of the stack alone, or it replaces them by one value.  Proofs about runs use the equations
below and leave `step` folded.

* `step_name`, `step_operator`, `step_function` : the stack after a token that finds its operands,
* `step_operator_short`, `step_function_short` : the error of a token that does not,
* `exists_operands`, `exists_operands_forall₂` : a stack that is high enough is operands on top of a
  rest; two stacks that are related entry by entry are taken apart alike,
* `step_short`, `step_operands` : the same for all tokens at once,
* `step_eq_ok_iff` : a token that does not fail puts one value in the place of its operands.
-/
import Mathlib.Data.List.Forall2
import QuantityCalculus.Expr.Basic

namespace QuantityCalculus

variable {α : Type} (A : Arithmetic α) (bindings : List (Binding α))

theorem step_name (stack : List (Quantity α)) (x : String) :
    step A bindings stack (.name x) = (resolve A bindings x).map (· :: stack) := by
  rw [step]
  cases resolve A bindings x <;> rfl

/-- An operator is applied to the two topmost values, the deeper one on the left. -/
theorem step_operator (o : Operator) (left right : Quantity α) (rest : List (Quantity α)) :
    step A bindings (right :: left :: rest) (.operator o) =
      (o.apply A left right).map (· :: rest) := by
  rw [step]
  cases o.apply A left right <;> rfl

theorem step_operator_short {stack : List (Quantity α)} (h : stack.length < 2) (o : Operator) :
    step A bindings stack (.operator o) =
      .error (.insufficientOperands (.operator o) 2 stack.length) := by
  match stack, h with
  | [], _ => rfl
  | [_], _ => rfl

/-- A function is applied to as many values as it takes, in the order in which they were pushed. -/
theorem step_function {f : Builtin} {operands : List (Quantity α)}
    (h : operands.length = f.arity) (rest : List (Quantity α)) :
    step A bindings (operands.reverse ++ rest) (.function f) =
      (f.apply A operands).map (· :: rest) := by
  have htake := Expr.takeOperands_append (.function f) operands rest
  rw [step, ← h, htake]
  simp only [bind, Except.bind]
  cases f.apply A operands <;> rfl

theorem step_function_short {f : Builtin} {stack : List (Quantity α)}
    (h : stack.length < f.arity) :
    step A bindings stack (.function f) =
      .error (.insufficientOperands (.function f) f.arity stack.length) := by
  rw [step, takeOperands, if_pos h]
  rfl

/-! ### Operands on top of a stack -/

/-- No function is without operands. -/
theorem operands_eq_cons {β : Type} {f : Builtin} {operands : List β}
    (h : operands.length = f.arity) : ∃ first others, operands = first :: others := by
  have hpos : 0 < operands.length := h ▸ f.arity_pos
  exact List.exists_cons_of_length_pos hpos

/-- A stack that is high enough is taken apart into operands, the last one on top, and the rest. -/
theorem exists_operands {β : Type} {s : List β} {n : Nat} (hn : n ≤ s.length) :
    ∃ operands rest : List β, operands.length = n ∧ s = operands.reverse ++ rest := by
  refine ⟨(s.take n).reverse, s.drop n, ?_, ?_⟩
  · rw [List.length_reverse, List.length_take]
    omega
  · rw [List.reverse_reverse, List.take_append_drop]

theorem exists_operands_forall₂ {β γ : Type} {R : β → γ → Prop} {s : List β} {s' : List γ} {n : Nat}
    (h : List.Forall₂ R s s') (hn : n ≤ s.length) :
    ∃ (operands rest : List β) (operands' rest' : List γ),
      operands.length = n ∧ s = operands.reverse ++ rest ∧ s' = operands'.reverse ++ rest' ∧
        List.Forall₂ R operands operands' ∧ List.Forall₂ R rest rest' := by
  obtain ⟨operands, rest, hlen, rfl⟩ := exists_operands hn
  have hlen' : operands.reverse.length = n := by rw [List.length_reverse, hlen]
  have htake := List.forall₂_take n h
  have hdrop := List.forall₂_drop n h
  rw [List.take_left' hlen'] at htake
  rw [List.drop_left' hlen'] at hdrop
  refine ⟨operands, rest, (s'.take n).reverse, s'.drop n, hlen, rfl, ?_, ?_, hdrop⟩
  · rw [List.reverse_reverse, List.take_append_drop]
  · rw [← List.forall₂_reverse_iff, List.reverse_reverse]
    exact htake

/-! ### All tokens at once -/

/-- The number of values that the token takes off the stack. -/
def Token.operands : Token → Nat
  | operator _ => 2
  | function f => f.arity
  | name _ | left | right | comma => 0

/-- The value that the token has for its operands. -/
def Token.valueOf (t : Token) (operands : List (Quantity α)) :
    Except (EvalError α) (Quantity α) :=
  match t, operands with
  | .name x, _ => resolve A bindings x
  | .operator o, [l, r] => o.apply A l r
  | .function f, operands => f.apply A operands
  | t, _ => .error (.unrecognizedOperator t)

variable {A bindings}

/-- Every token fails in the same way on a stack that is too short for it. -/
theorem step_short {stack : List (Quantity α)} {t : Token} (h : stack.length < t.operands) :
    step A bindings stack t = .error (.insufficientOperands t t.operands stack.length) := by
  cases t with
  | operator o => exact step_operator_short A bindings h o
  | function f => exact step_function_short A bindings h
  | name x => exact absurd h (Nat.not_lt_zero _)
  | left => exact absurd h (Nat.not_lt_zero _)
  | right => exact absurd h (Nat.not_lt_zero _)
  | comma => exact absurd h (Nat.not_lt_zero _)

/-- On a stack that is high enough a token replaces its operands by its value on them. -/
theorem step_operands {t : Token} {operands : List (Quantity α)}
    (h : operands.length = t.operands) (rest : List (Quantity α)) :
    step A bindings (operands.reverse ++ rest) t =
      (t.valueOf A bindings operands).map (· :: rest) := by
  cases t with
  | name x =>
    rw [List.length_eq_zero_iff.mp h]
    exact step_name A bindings rest x
  | operator o =>
    obtain ⟨left, right, rfl⟩ := List.length_eq_two.mp h
    exact step_operator A bindings o left right rest
  | function f => exact step_function A bindings h rest
  | left => rfl
  | right => rfl
  | comma => rfl

/-- A token that does not fail puts its value in the place of its operands. -/
theorem step_eq_ok_iff {stack next : List (Quantity α)} {t : Token} :
    step A bindings stack t = .ok next ↔
      ∃ operands rest value, operands.length = t.operands ∧ stack = operands.reverse ++ rest ∧
        t.valueOf A bindings operands = .ok value ∧ next = value :: rest := by
  constructor
  · intro h
    by_cases hshort : stack.length < t.operands
    · rw [step_short hshort] at h
      cases h
    · obtain ⟨operands, rest, hlen, rfl⟩ := exists_operands (Nat.le_of_not_lt hshort)
      rw [step_operands hlen] at h
      obtain ⟨value, hvalue, rfl⟩ := map_eq_ok_iff.mp h
      exact ⟨operands, rest, value, hlen, rfl, hvalue, rfl⟩
  · rintro ⟨operands, rest, value, hlen, rfl, hvalue, rfl⟩
    rw [step_operands hlen]
    exact map_eq_ok_iff.mpr ⟨value, hvalue, rfl⟩

end QuantityCalculus
