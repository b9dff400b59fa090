/-
Evaluating programs.

A program is run on a stack of quantities, the last one on top.  A name pushes its value: the first
binding of that name, else the number that it writes, else a constant.  Operators and functions
replace their operands on top of the stack by their result.  A run has to leave exactly one value.

* `run_append` : running a program is running its parts one after the other,
* `evaluate_eq_ok_iff` : a program has a result if its run leaves that value alone.
-/
import QuantityCalculus.Binding
import QuantityCalculus.Builtin.Apply
import QuantityCalculus.Operator.Apply
import QuantityCalculus.Program.Basic

namespace QuantityCalculus

variable {α : Type} (A : Arithmetic α)

/-! ### Values of names -/

/-- The number that a name writes, if it begins like one and is a literal. -/
def literalValue? (name : String) : Option α :=
  match name.toList with
  | [] => none
  | c :: cs =>
    if c.isDigit || c == '.' then
      match readLiteral (c :: cs) with
      | .ok l => some (A.ofLiteral l)
      | .error _ => none
    else none

/-- The constants that need no binding. -/
def constant? : String → Option Decimal
  | "pi" => some ⟨false, 3141592653589793, -15⟩
  | "e" => some ⟨false, 2718281828459045, -15⟩
  | _ => none

/-- The value that a name has without a binding. -/
def unboundValue? (name : String) : Option α :=
  match literalValue? A name with
  | some x => some x
  | none => (constant? name).map fun d => A.ofLiteral (.decimal d)

/-- The value of a name: the first binding of it, else a number, else a constant. -/
def resolve (bindings : List (Binding α)) (name : String) : Except (EvalError α) (Quantity α) :=
  match bindings.find? fun b => b.id == name with
  | some b => .ok b.quantity
  | none =>
    -- a binding hides a number or a constant of the same spelling
    match unboundValue? A name with
    | some x => .ok (.ofNumber x)
    | none => .error (.unknownIdentifier name)

theorem find?_id_eq_none_iff {bindings : List (Binding α)} {name : String} :
    (bindings.find? fun b => b.id == name) = none ↔ ∀ b ∈ bindings, b.id ≠ name := by
  simp [List.find?_eq_none]

/-! ### The stack machine -/

/-- Takes operands off the stack, in the order in which they were pushed: the operands and the rest
of the stack. -/
def takeOperands (token : Token) (count : Nat) (stack : List (Quantity α)) :
    Except (EvalError α) (List (Quantity α) × List (Quantity α)) :=
  if stack.length < count then .error (.insufficientOperands token count stack.length)
  else .ok ((stack.take count).reverse, stack.drop count)

/-- The stack after one token. -/
def step (bindings : List (Binding α)) (stack : List (Quantity α)) (token : Token) :
    Except (EvalError α) (List (Quantity α)) :=
  match token with
  | .name x => do
    let value ← resolve A bindings x
    return value :: stack
  | .operator o =>
    match stack with
    | right :: left :: rest => do
      let value ← o.apply A left right
      return value :: rest
    | _ => .error (.insufficientOperands token 2 stack.length)
  | .function f => do
    let (operands, rest) ← takeOperands token f.arity stack
    let value ← f.apply A operands
    return value :: rest
  | .left | .right | .comma => .error (.unrecognizedOperator token)

/-- The stack after a list of tokens. -/
def run (bindings : List (Binding α)) (stack : List (Quantity α)) (tokens : List Token) :
    Except (EvalError α) (List (Quantity α)) :=
  tokens.foldlM (step A bindings) stack

/-- The single value of a finished stack. -/
def result (stack : List (Quantity α)) : Except (EvalError α) (Quantity α) :=
  match stack with
  | [value] => .ok value
  | _ => .error (.malformedProgram stack.length)

/-- The value of a program under bindings. -/
def Program.evaluate (p : Program) (bindings : List (Binding α)) :
    Except (EvalError α) (Quantity α) :=
  run A bindings [] p.tokens >>= result

/-! ### Running in parts -/

@[simp] theorem run_nil (bindings : List (Binding α)) (stack : List (Quantity α)) :
    run A bindings stack [] = .ok stack := rfl

@[simp] theorem run_cons (bindings : List (Binding α)) (stack : List (Quantity α)) (t : Token)
    (ts : List Token) :
    run A bindings stack (t :: ts) =
      step A bindings stack t >>= fun next => run A bindings next ts := by
  rw [run, List.foldlM_cons]
  rfl

/-- A run over two lists of tokens is the run over the second one from where the first one ends. -/
theorem run_append (bindings : List (Binding α)) (stack : List (Quantity α)) (ts us : List Token) :
    run A bindings stack (ts ++ us) =
      run A bindings stack ts >>= fun next => run A bindings next us := by
  rw [run, List.foldlM_append]
  rfl

/-- A stack has a result exactly if it holds one quantity. -/
theorem result_eq_ok_iff {stack : List (Quantity α)} {value : Quantity α} :
    result stack = .ok value ↔ stack = [value] := by
  unfold result
  split
  · simp
  · next h =>
    constructor
    · intro h'
      cases h'
    · intro h'
      exact absurd h' (h value)

/-- A program has a value exactly if its run leaves that quantity alone on the stack. -/
theorem evaluate_eq_ok_iff {p : Program} {bindings : List (Binding α)} {value : Quantity α} :
    p.evaluate A bindings = .ok value ↔ run A bindings [] p.tokens = .ok [value] := by
  rw [Program.evaluate, bind_eq_ok_iff]
  constructor
  · rintro ⟨stack, hrun, hres⟩
    rw [hrun, result_eq_ok_iff.1 hres]
  · intro h
    exact ⟨[value], h, rfl⟩

end QuantityCalculus
