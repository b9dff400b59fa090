/-
Counting the arguments of calls.

Nothing counts the arguments of a call when a formula is compiled.  Evaluation takes as many values
off the stack as the function has operands, and asks for one value at the end.  Both checks see
totals only, so what one call has too many can make up for what another has too few:

* `not_saturated_of_value` : `abs(8,log(2))` has a value,
* `arguments_of_value` : in a formula that has a value the calls have as many arguments, all
  together, as their functions have operands.  A wrong number in one call needs another, wrong the
  other way.
-/
import Mathlib.Algebra.Order.BigOperators.Group.List
import Mathlib.Algebra.Order.Ring.Nat
import QuantityCalculus.Arithmetic.Double
import QuantityCalculus.Proofs.Formula
import QuantityCalculus.Proofs.StackHeight

namespace QuantityCalculus

/-- A call as it stands in a formula: its function and the number of its arguments. -/
structure Call where
  function : Builtin
  arguments : Nat

namespace Expr

mutual

/-- The calls of a tree, in the order in which they are evaluated. -/
def calls : Expr → List Call
  | name _ => []
  | binary _ left right => left.calls ++ right.calls
  | call f first rest => first.calls ++ callsAll rest ++ [⟨f, rest.length + 1⟩]

/-- The calls of several trees. -/
def callsAll : List Expr → List Call
  | [] => []
  | e :: es => e.calls ++ callsAll es

end

mutual

/-- A tree is saturated exactly if every call in it has as many arguments as its function takes. -/
theorem saturated_iff_calls :
    (e : Expr) → (e.Saturated ↔ ∀ c ∈ e.calls, c.arguments = c.function.arity)
  | name _ => ⟨fun _ c hc => absurd hc List.not_mem_nil, fun _ => trivial⟩
  | binary _ left right => by
    rw [Saturated, calls, List.forall_mem_append, saturated_iff_calls left,
      saturated_iff_calls right]
  | call f first rest => by
    rw [Saturated, calls, List.forall_mem_append, List.forall_mem_append,
      List.forall_mem_singleton, saturated_iff_calls first, saturatedAll_iff_calls rest, and_assoc]

theorem saturatedAll_iff_calls :
    (es : List Expr) → (SaturatedAll es ↔ ∀ c ∈ callsAll es, c.arguments = c.function.arity)
  | [] => ⟨fun _ c hc => absurd hc List.not_mem_nil, fun _ => trivial⟩
  | e :: es => by
    rw [SaturatedAll, callsAll, List.forall_mem_append, saturated_iff_calls e,
      saturatedAll_iff_calls es]

end

/-! ### The height behind the program of a tree -/

mutual

/-- The program of a tree raises the stack by one, if its calls have the right numbers of arguments;
a call with more leaves more behind, one with fewer takes more away. -/
theorem length_postorder : (e : Expr) →
    e.postorder.length + (e.calls.map fun c => c.function.arity).sum =
      1 + (e.postorder.map Token.operands).sum + (e.calls.map Call.arguments).sum
  | name _ => rfl
  | binary o left right => by
    have hleft := length_postorder left
    have hright := length_postorder right
    simp only [postorder, calls, List.length_append, List.length_singleton, List.map_append,
      List.map_singleton, List.sum_append, List.sum_singleton, Token.operands]
    omega
  | call f first rest => by
    have hfirst := length_postorder first
    have hrest := length_postorderAll rest
    simp only [postorder, calls, List.length_append, List.length_singleton, List.map_append,
      List.map_singleton, List.sum_append, List.sum_singleton, Token.operands]
    omega

theorem length_postorderAll : (es : List Expr) →
    (postorderAll es).length + ((callsAll es).map fun c => c.function.arity).sum =
      es.length + ((postorderAll es).map Token.operands).sum +
        ((callsAll es).map Call.arguments).sum
  | [] => rfl
  | e :: es => by
    have he := length_postorder e
    have hes := length_postorderAll es
    simp only [postorderAll, callsAll, List.length_append, List.length_cons, List.map_append,
      List.sum_append]
    omega

end

/-- In a program that has a value, calls have as many arguments in total as their functions take. -/
theorem arguments_of_evaluate {α : Type} {A : Arithmetic α} {bindings : List (Binding α)}
    {e : Expr} {value : Quantity α}
    (h : (Program.mk e.postorder).evaluate A bindings = .ok value) :
    (e.calls.map Call.arguments).sum = (e.calls.map fun c => c.function.arity).sum := by
  have hheight : 1 + (e.postorder.map Token.operands).sum = e.postorder.length :=
    length_of_evaluate h
  have htree := length_postorder e
  omega

end Expr

/-! ### Surplus and shortage -/

/-- If the totals agree, calls that have too many arguments and calls that have too few come
together. -/
theorem surplus_and_shortage {calls : List Call}
    (htotal : (calls.map Call.arguments).sum = (calls.map fun c => c.function.arity).sum)
    {c : Call} (hc : c ∈ calls) (hwrong : c.arguments ≠ c.function.arity) :
    (∃ d ∈ calls, d.function.arity < d.arguments) ∧
      ∃ d ∈ calls, d.arguments < d.function.arity := by
  constructor
  · by_contra hnone
    push Not at hnone
    have hlt := List.sum_lt_sum Call.arguments (fun d => d.function.arity) hnone
      ⟨c, hc, lt_of_le_of_ne (hnone c hc) hwrong⟩
    omega
  · by_contra hnone
    push Not at hnone
    have hlt := List.sum_lt_sum (fun d : Call => d.function.arity) Call.arguments hnone
      ⟨c, hc, lt_of_le_of_ne (hnone c hc) hwrong.symm⟩
    omega

/-! ### Formulas -/

/-- The program of a formula is the postorder of its tree. -/
theorem tokens_of_compile {e : Expr} {b : Bool} {tokens : List Token} {text : String} {p : Program}
    (he : e.Legible) (hformula : Formula e b tokens) (htext : Spelled tokens text.toList)
    (h : Program.compile text = .ok p) : p.tokens = e.postorder := by
  obtain ⟨read, hread, hpostfix⟩ := Program.compile_eq_ok_iff.mp h
  rw [tokenize_of_spelled htext (legible_of_formula hformula he)] at hread
  cases hread
  rw [toPostfix_of_formula hformula] at hpostfix
  exact (Except.ok.inj hpostfix).symm

/-! ### A wrong number of arguments that shows nowhere -/

/-- A call with one argument too many around a call with one too few. -/
def absOfTwo : Expr := .call .abs (.name "8") [.call .log (.name "2") []]

/-- The tree in infix form, with two arguments for the absolute value and one for the logarithm. -/
theorem formula_absOfTwo :
    Formula absOfTwo false
      [.function .abs, .left, .name "8", .comma, .function .log, .left, .name "2", .right,
        .right] :=
  .call (.name "8") (.cons (.call (.name "2") .nil) .nil)

theorem spelled_absOfTwo :
    Spelled [.function .abs, .left, .name "8", .comma, .function .log, .left, .name "2", .right,
      .right] "abs(8,log(2))".toList := by
  show Spelled _ ['a', 'b', 's', '(', '8', ',', 'l', 'o', 'g', '(', '2', ')', ')']
  refine .token (t := .function .abs) (by decide) <| .token (t := .left) nofun <|
    .token (t := .name "8") (by decide) <| .token (t := .comma) nofun <| ?_
  exact .token (t := .function .log) (by decide) <| .token (t := .left) nofun <|
    .token (t := .name "2") (by decide) <| .token (t := .right) nofun <|
    .token (t := .right) nofun .nil

/-- The program is that of `abs(log(8,2))`. -/
theorem compile_absOfTwo :
    Program.compile "abs(8,log(2))" =
      .ok ⟨[.name "8", .name "2", .function .log, .function .abs]⟩ := rfl

/-- Its program has a value: the logarithm takes the operand that the absolute value leaves. -/
theorem exists_value_absOfTwo :
    ∃ value, (Program.mk [.name "8", .name "2", .function .log, .function .abs]).evaluate .double
      [] = .ok value := ⟨_, rfl⟩

theorem not_saturated_absOfTwo : ¬ absOfTwo.Saturated := by
  rintro ⟨-, -, hlen⟩
  exact absurd hlen (by decide)

/-- A formula may have a value though its calls have wrong numbers of arguments. -/
theorem not_saturated_of_value :
    ¬ ∀ (e : Expr) (b : Bool) (tokens : List Token) (text : String) (p : Program)
        (bindings : List (Binding Float)) (value : Quantity Float),
      e.Legible → Formula e b tokens → Spelled tokens text.toList →
        Program.compile text = .ok p → p.evaluate .double bindings = .ok value →
          e.Saturated := by
  intro hall
  obtain ⟨value, hvalue⟩ := exists_value_absOfTwo
  exact not_saturated_absOfTwo (hall _ _ _ _ _ [] value (by decide) formula_absOfTwo
    spelled_absOfTwo compile_absOfTwo hvalue)

/-! ### Formulas that have a value -/

/-- **Arguments and operands balance**: in a formula that has a value the calls have as many
arguments, all together, as their functions have operands.  So if a call has the wrong number of
arguments, some call has too many and some call has too few. -/
theorem arguments_of_value {α : Type} {A : Arithmetic α} {bindings : List (Binding α)} {e : Expr}
    {b : Bool} {tokens : List Token} {text : String} {p : Program} {value : Quantity α}
    (he : e.Legible) (hformula : Formula e b tokens) (htext : Spelled tokens text.toList)
    (hcompile : Program.compile text = .ok p) (hvalue : p.evaluate A bindings = .ok value) :
    (e.calls.map Call.arguments).sum = (e.calls.map fun c => c.function.arity).sum ∧
      (¬ e.Saturated →
        (∃ c ∈ e.calls, c.function.arity < c.arguments) ∧
          ∃ c ∈ e.calls, c.arguments < c.function.arity) := by
  have htokens := tokens_of_compile he hformula htext hcompile
  have htotal : (e.calls.map Call.arguments).sum =
      (e.calls.map fun c => c.function.arity).sum := by
    obtain ⟨_⟩ := p
    cases htokens
    exact Expr.arguments_of_evaluate hvalue
  refine ⟨htotal, fun hnot => ?_⟩
  rw [Expr.saturated_iff_calls] at hnot
  push Not at hnot
  obtain ⟨c, hc, hwrong⟩ := hnot
  exact surplus_and_shortage htotal hc hwrong

/-- In `abs(8,log(2))` the absolute value has one argument too many, the logarithm one too few. -/
theorem arguments_of_value_absOfTwo :
    (absOfTwo.calls.map Call.arguments).sum = 3 ∧
      (∃ c ∈ absOfTwo.calls, c.function.arity < c.arguments) ∧
        ∃ c ∈ absOfTwo.calls, c.arguments < c.function.arity := by
  obtain ⟨value, hvalue⟩ := exists_value_absOfTwo
  have hlegible : absOfTwo.Legible := by decide
  obtain ⟨htotal, hwrong⟩ := arguments_of_value hlegible formula_absOfTwo spelled_absOfTwo
    compile_absOfTwo hvalue
  exact ⟨htotal.trans rfl, hwrong not_saturated_absOfTwo⟩

end QuantityCalculus
