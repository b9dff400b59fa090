/-
Expression trees.

A formula stands for a tree: names at the leaves, binary operators and calls of functions inside.
The program of a tree lists its tokens in postorder, operands from left to right, each operator and
each function behind its operands; the value of a tree is found by recursion, operands from left to
right.

* `Expr.run_postorder` : running the program of a tree pushes the value of the tree, or fails as the
  tree does, whatever stands on the stack and whatever follows.

Calls are trees with any number of arguments.  The two readings agree on *saturated* trees, in which
every function has as many arguments as its arity; on others the stack machine would take operands
that belong to someone else.
-/
import QuantityCalculus.Program.Evaluation

namespace QuantityCalculus

/-- An expression; a call has at least one argument. -/
inductive Expr where
  | name (x : String)
  | binary (o : Operator) (left right : Expr)
  | call (f : Builtin) (first : Expr) (rest : List Expr)

namespace Expr

mutual

/-- The tokens of a tree in postorder. -/
def postorder : Expr → List Token
  | name x => [.name x]
  | binary o left right => left.postorder ++ right.postorder ++ [.operator o]
  | call f first rest => first.postorder ++ postorderAll rest ++ [.function f]

/-- The tokens of several trees, one after the other. -/
def postorderAll : List Expr → List Token
  | [] => []
  | e :: es => e.postorder ++ postorderAll es

end

mutual

/-- Every function has as many arguments as its arity. -/
def Saturated : Expr → Prop
  | name _ => True
  | binary _ left right => left.Saturated ∧ right.Saturated
  | call f first rest => first.Saturated ∧ SaturatedAll rest ∧ rest.length + 1 = f.arity

/-- Every tree of a list is saturated. -/
def SaturatedAll : List Expr → Prop
  | [] => True
  | e :: es => e.Saturated ∧ SaturatedAll es

end

variable {α : Type} (A : Arithmetic α) (bindings : List (Binding α))

mutual

/-- The value of a tree. -/
def evaluate : Expr → Except (EvalError α) (Quantity α)
  | name x => resolve A bindings x
  | binary o left right => do
    let q ← left.evaluate
    let r ← right.evaluate
    o.apply A q r
  | call f first rest => do
    let q ← first.evaluate
    let qs ← evaluateAll rest
    f.apply A (q :: qs)

/-- The values of several trees. -/
def evaluateAll : List Expr → Except (EvalError α) (List (Quantity α))
  | [] => .ok []
  | e :: es => do
    let q ← e.evaluate
    let qs ← evaluateAll es
    return q :: qs

end

/-! ### The program of a tree computes its value -/

theorem length_of_evaluateAll {es : List Expr} {qs : List (Quantity α)}
    (h : evaluateAll A bindings es = .ok qs) : qs.length = es.length := by
  induction es generalizing qs with
  | nil =>
    rw [evaluateAll] at h
    cases h
    rfl
  | cons e es ih =>
    simp only [evaluateAll, bind_eq_ok_iff] at h
    obtain ⟨q, -, qs', hqs, h⟩ := h
    cases h
    simp [ih hqs]

/-- Operands on top of the stack are taken off in the order in which they were pushed. -/
theorem takeOperands_append (token : Token) (operands stack : List (Quantity α)) :
    takeOperands token operands.length (operands.reverse ++ stack) = .ok (operands, stack) := by
  have hlen : ¬ (operands.reverse ++ stack).length < operands.length := by
    simp only [List.length_append, List.length_reverse]
    omega
  have htake : (operands.reverse ++ stack).take operands.length = operands.reverse :=
    List.take_left' List.length_reverse
  have hdrop : (operands.reverse ++ stack).drop operands.length = stack :=
    List.drop_left' List.length_reverse
  rw [takeOperands, if_neg hlen, htake, hdrop, List.reverse_reverse]

mutual

-- recursion on the tree, for every stack and every rest: the tokens of a node run its operands one
-- above the other before its own token
/-- The tokens of a tree put its value on the stack, or fail as the tree does; what lies below and
what follows do not matter. -/
theorem run_postorder (e : Expr) (he : e.Saturated) (stack : List (Quantity α))
    (rest : List Token) :
    run A bindings stack (e.postorder ++ rest) =
      e.evaluate A bindings >>= fun q => run A bindings (q :: stack) rest := by
  match e with
  | name x =>
    simp only [postorder, List.cons_append, List.nil_append, run_cons, step, evaluate]
    cases resolve A bindings x <;> rfl
  | binary o left right =>
    rw [Saturated] at he
    simp only [postorder, List.append_assoc, evaluate]
    rw [run_postorder left he.1]
    cases left.evaluate A bindings with
    | error e => rfl
    | ok q =>
      simp only [bind, Except.bind]
      rw [run_postorder right he.2]
      cases right.evaluate A bindings with
      | error e => rfl
      | ok r =>
        simp only [bind, Except.bind, List.cons_append, List.nil_append, run_cons, step]
        cases o.apply A q r <;> rfl
  | call f first rest' =>
    rw [Saturated] at he
    obtain ⟨hfirst, hrest, hlen⟩ := he
    simp only [postorder, List.append_assoc, evaluate]
    rw [run_postorder first hfirst]
    cases first.evaluate A bindings with
    | error e => rfl
    | ok q =>
      simp only [bind, Except.bind]
      rw [run_postorderAll rest' hrest]
      cases hqs : evaluateAll A bindings rest' with
      | error e => rfl
      | ok qs =>
        -- a saturated call leaves as many values as its function takes
        have hcount : (q :: qs).length = f.arity := by
          rw [List.length_cons, length_of_evaluateAll A bindings hqs, hlen]
        have htake := takeOperands_append (Token.function f) (q :: qs) stack
        rw [hcount, List.reverse_cons, List.append_assoc] at htake
        simp only [bind, Except.bind, List.cons_append, List.nil_append, run_cons, step]
        rw [show qs.reverse ++ q :: stack = qs.reverse ++ ([q] ++ stack) from rfl, htake]
        simp only []
        cases f.apply A (q :: qs) <;> rfl

/-- The tokens of several trees put their values on the stack in order, the last one on top. -/
theorem run_postorderAll (es : List Expr) (hes : SaturatedAll es) (stack : List (Quantity α))
    (rest : List Token) :
    run A bindings stack (postorderAll es ++ rest) =
      evaluateAll A bindings es >>= fun qs => run A bindings (qs.reverse ++ stack) rest := by
  match es with
  | [] => rfl
  | e :: es =>
    rw [SaturatedAll] at hes
    simp only [postorderAll, List.append_assoc, evaluateAll]
    rw [run_postorder e hes.1]
    cases e.evaluate A bindings with
    | error e => rfl
    | ok q =>
      simp only [bind, Except.bind]
      rw [run_postorderAll es hes.2]
      cases evaluateAll A bindings es with
      | error e => rfl
      | ok qs => simp [bind, Except.bind, pure, Except.pure]

end

/-- The program of a saturated tree has the value of the tree. -/
theorem evaluate_postorder (e : Expr) (he : e.Saturated) :
    (Program.mk e.postorder).evaluate A bindings = e.evaluate A bindings := by
  have h := run_postorder A bindings e he [] []
  rw [List.append_nil] at h
  rw [Program.evaluate, h]
  cases e.evaluate A bindings <;> rfl

end Expr

end QuantityCalculus
