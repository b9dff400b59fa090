/-
Where programs fail.

A run reaches a token if the tokens in front of it do not fail, and it fails at the first token that
does.  A name fails if it has no value, an operator or a function if it misses operands or if its
operation fails on them, and a parenthesis or a comma always:

* `Operator.ofOperation_of_apply`, `Builtin.ofOperation_of_apply` : the errors of operations are
  about quantities, never about the program,
* `step_eq_error_iff` : the causes for which a token fails,
* `run_eq_error_iff` : a run fails exactly where it reaches a token that fails,
* `evaluate_eq_error_iff` : a program fails in its run, or because the run leaves another number of
  values than one,
* `evaluate_height` : the height of the stack is a count of tokens wherever a run gets, so missing
  operands and values left over are found exactly where the counts say so.
-/
import QuantityCalculus.Arithmetic.Double
import QuantityCalculus.Proofs.Operations
import QuantityCalculus.Proofs.StackHeight

namespace QuantityCalculus

variable {α : Type} {A : Arithmetic α} {bindings : List (Binding α)}

/-! ### Errors of operations -/

/-- The error is about the operands of an operation. -/
def EvalError.OfOperation : EvalError α → Prop
  | dimensionMismatch .. | exponentHasUnits _ | fractionalExponent .. | notImplemented _ |
    overflow _ => True
  | insufficientOperands .. | unknownIdentifier _ | unrecognizedOperator _ |
    malformedProgram _ => False

theorem ofOperation_of_lifted {β : Type} {x : Except Overflow β} {e : EvalError α}
    (h : lifted x = .error e) : e.OfOperation := by
  obtain ⟨o, -, rfl⟩ := lifted_eq_error_iff.mp h
  trivial

namespace Quantity

theorem ofOperation_of_align {op : α → α → α} {q r : Quantity α} {e : EvalError α}
    (h : align A op q r = .error e) : e.OfOperation := by
  rw [align] at h
  split at h
  · exact ofOperation_of_lifted (map_eq_error_iff.mp h)
  · cases h
    trivial

theorem ofOperation_of_powerDimension {d : Dimension} {x : α} {e : EvalError α}
    (h : powerDimension A d x = .error e) : e.OfOperation := by
  rw [powerDimension] at h
  split at h
  · cases h
  · split at h
    · exact ofOperation_of_lifted h
    · cases h
      trivial

theorem ofOperation_of_power {q r : Quantity α} {e : EvalError α}
    (h : q.power A r = .error e) : e.OfOperation := by
  rw [power_eq] at h
  split at h
  · simp only [bind_eq_error_iff] at h
    obtain hconvert | ⟨_, -, hdimension | ⟨_, -, hbase | ⟨_, -, hscale⟩⟩⟩ := h
    · exact ofOperation_of_lifted hconvert
    · exact ofOperation_of_powerDimension hdimension
    · exact ofOperation_of_lifted hbase
    · exact ofOperation_of_lifted hscale
  · cases h
    trivial

theorem ofOperation_of_mapNumber {f : α → α} {q : Quantity α} {e : EvalError α}
    (h : q.mapNumber A f = .error e) : e.OfOperation := by
  rw [mapNumber_eq] at h
  split at h
  · exact ofOperation_of_lifted (map_eq_error_iff.mp h)
  · cases h
    trivial

theorem ofOperation_of_log {q base : Quantity α} {e : EvalError α}
    (h : q.log A base = .error e) : e.OfOperation := by
  rw [log_eq] at h
  split at h
  · split at h
    · simp only [bind_eq_error_iff] at h
      obtain hvalue | ⟨_, -, hbase | ⟨_, -, h⟩⟩ := h
      · exact ofOperation_of_lifted hvalue
      · exact ofOperation_of_lifted hbase
      · cases h
    · cases h
      trivial
  · cases h
    trivial

end Quantity

/-- Operators fail for reasons of their own, never for a lack of operands. -/
theorem Operator.ofOperation_of_apply {o : Operator} {l r : Quantity α} {e : EvalError α}
    (h : o.apply A l r = .error e) : e.OfOperation := by
  cases o with
  | add => exact Quantity.ofOperation_of_align ((Quantity.add_eq A l r).symm.trans h)
  | subtract => exact Quantity.ofOperation_of_align ((Quantity.subtract_eq A l r).symm.trans h)
  | multiply => exact ofOperation_of_lifted h
  | divide => exact ofOperation_of_lifted h
  | power => exact Quantity.ofOperation_of_power h

/-- So do functions that have all their operands. -/
theorem Builtin.ofOperation_of_apply {f : Builtin} {operands : List (Quantity α)} {e : EvalError α}
    (hlen : operands.length = f.arity) (h : f.apply A operands = .error e) : e.OfOperation := by
  rcases f.kind A with rfl | hf | ⟨harity, kernel, hkernel⟩
  · obtain ⟨q, base, rfl⟩ := List.length_eq_two.mp hlen
    rw [apply_log] at h
    exact Quantity.ofOperation_of_log h
  · have harity : f.arity = 2 := by
      rcases hf with rfl | rfl <;> rfl
    obtain ⟨q, r, rfl⟩ := List.length_eq_two.mp (hlen.trans harity)
    rw [apply_unimplemented A hf] at h
    cases h
    trivial
  · obtain ⟨q, rfl⟩ := List.length_eq_one_iff.mp (hlen.trans harity)
    rw [hkernel] at h
    exact Quantity.ofOperation_of_mapNumber h

/-! ### Tokens that fail -/

/-- A name has no value exactly if it is not bound and is neither a literal nor a constant. -/
theorem resolve_eq_error_iff {x : String} {e : EvalError α} :
    resolve A bindings x = .error e ↔
      (∀ b ∈ bindings, b.id ≠ x) ∧ unboundValue? A x = none ∧ e = .unknownIdentifier x := by
  rw [resolve, ← find?_id_eq_none_iff]
  cases bindings.find? fun b => b.id == x with
  | some b => simp
  | none => cases unboundValue? A x <;> simp [eq_comm]

/-- Why a token fails on a stack, and its error. -/
inductive Fails (A : Arithmetic α) (bindings : List (Binding α)) (stack : List (Quantity α)) :
    Token → EvalError α → Prop
  | unbound {x : String} (hbindings : ∀ b ∈ bindings, b.id ≠ x)
      (hvalue : unboundValue? A x = none) :
      Fails A bindings stack (.name x) (.unknownIdentifier x)
  | short {t : Token} (h : stack.length < t.operands) :
      Fails A bindings stack t (.insufficientOperands t t.operands stack.length)
  | operator {o : Operator} {left right : Quantity α} {rest : List (Quantity α)} {e : EvalError α}
      (hstack : stack = right :: left :: rest) (h : o.apply A left right = .error e) :
      Fails A bindings stack (.operator o) e
  | function {f : Builtin} {operands rest : List (Quantity α)} {e : EvalError α}
      (hstack : stack = operands.reverse ++ rest) (hlen : operands.length = f.arity)
      (h : f.apply A operands = .error e) : Fails A bindings stack (.function f) e
  | grouping {t : Token} (h : t.isGrouping = true) :
      Fails A bindings stack t (.unrecognizedOperator t)

/-- An error of a step is one of the listed failures. -/
theorem fails_of_step {stack : List (Quantity α)} {t : Token} {e : EvalError α}
    (h : step A bindings stack t = .error e) : Fails A bindings stack t e := by
  -- the operands are counted first, for all tokens alike; parentheses and commas take none
  by_cases hshort : stack.length < t.operands
  · rw [step_short hshort] at h
    cases h
    exact .short hshort
  · obtain ⟨operands, rest, hlen, rfl⟩ := exists_operands (Nat.le_of_not_lt hshort)
    rw [step_operands hlen, map_eq_error_iff] at h
    cases t with
    | name x =>
      obtain ⟨hbindings, hvalue, rfl⟩ := resolve_eq_error_iff.mp h
      exact .unbound hbindings hvalue
    | operator o =>
      obtain ⟨left, right, rfl⟩ := List.length_eq_two.mp hlen
      exact .operator rfl h
    | function f => exact .function rfl hlen h
    | left =>
      cases h
      exact .grouping rfl
    | right =>
      cases h
      exact .grouping rfl
    | comma =>
      cases h
      exact .grouping rfl

/-- A listed failure is the error of the step. -/
theorem step_of_fails {stack : List (Quantity α)} {t : Token} {e : EvalError α}
    (h : Fails A bindings stack t e) : step A bindings stack t = .error e := by
  cases h with
  | unbound hbindings hvalue =>
    rw [step_name, map_eq_error_iff, resolve_eq_error_iff]
    exact ⟨hbindings, hvalue, rfl⟩
  | short h => exact step_short h
  | operator hstack h =>
    rw [hstack, step_operator, map_eq_error_iff]
    exact h
  | function hstack hlen h =>
    rw [hstack, step_function A bindings hlen, map_eq_error_iff]
    exact h
  | @grouping t h =>
    cases t with
    | left => rfl
    | right => rfl
    | comma => rfl
    | name x => cases h
    | operator o => cases h
    | function f => cases h

/-- The list of failures of a step is exact. -/
theorem step_eq_error_iff {stack : List (Quantity α)} {t : Token} {e : EvalError α} :
    step A bindings stack t = .error e ↔ Fails A bindings stack t e :=
  ⟨fails_of_step, step_of_fails⟩

/-- Only missing operands are reported as such. -/
theorem fails_insufficientOperands_iff {stack : List (Quantity α)} {t u : Token}
    {expected found : Nat} :
    Fails A bindings stack t (.insufficientOperands u expected found) ↔
      t = u ∧ expected = u.operands ∧ found = stack.length ∧ found < expected := by
  constructor
  · intro h
    cases h with
    | short h => exact ⟨rfl, rfl, rfl, h⟩
    | operator hstack h => exact (Operator.ofOperation_of_apply h).elim
    | function hstack hlen h => exact (Builtin.ofOperation_of_apply hlen h).elim
  · rintro ⟨rfl, rfl, rfl, h⟩
    exact .short h

theorem fails_unknownIdentifier_iff {stack : List (Quantity α)} {t : Token} {x : String} :
    Fails A bindings stack t (.unknownIdentifier x) ↔
      t = .name x ∧ (∀ b ∈ bindings, b.id ≠ x) ∧ unboundValue? A x = none := by
  constructor
  · intro h
    cases h with
    | unbound hbindings hvalue => exact ⟨rfl, hbindings, hvalue⟩
    | operator hstack h => exact (Operator.ofOperation_of_apply h).elim
    | function hstack hlen h => exact (Builtin.ofOperation_of_apply hlen h).elim
  · rintro ⟨rfl, hbindings, hvalue⟩
    exact .unbound hbindings hvalue

theorem not_fails_malformedProgram {stack : List (Quantity α)} {t : Token} {n : Nat} :
    ¬ Fails A bindings stack t (.malformedProgram n) := by
  intro h
  cases h with
  | operator hstack h => exact Operator.ofOperation_of_apply h
  | function hstack hlen h => exact Builtin.ofOperation_of_apply hlen h

/-! ### Runs that fail -/

/-- The run of a program reaches a token, with the stack that the tokens in front of it leave. -/
def Reaches (A : Arithmetic α) (bindings : List (Binding α)) (tokens before : List Token)
    (t : Token) (stack : List (Quantity α)) : Prop :=
  run A bindings [] before = .ok stack ∧ ∃ after, tokens = before ++ t :: after

/-- A run fails exactly if it reaches a token that fails, and with the error of that token. -/
theorem run_eq_error_iff {stack : List (Quantity α)} {tokens : List Token} {e : EvalError α} :
    run A bindings stack tokens = .error e ↔
      ∃ before t after mid, tokens = before ++ t :: after ∧
        run A bindings stack before = .ok mid ∧ step A bindings mid t = .error e := by
  constructor
  · intro h
    induction tokens generalizing stack with
    | nil => cases h
    | cons t ts ih =>
      rw [run_cons, bind_eq_error_iff] at h
      obtain hstep | ⟨next, hstep, hrest⟩ := h
      · exact ⟨[], t, ts, stack, rfl, rfl, hstep⟩
      · obtain ⟨before, u, after, mid, rfl, hbefore, hu⟩ := ih hrest
        refine ⟨t :: before, u, after, mid, rfl, ?_, hu⟩
        rw [run_cons, hstep]
        exact hbefore
  · rintro ⟨before, t, after, mid, rfl, hbefore, ht⟩
    rw [run_append, hbefore]
    show run A bindings mid (t :: after) = _
    rw [run_cons, ht]
    rfl

/-- The only complaint about a stack is that it does not hold one quantity. -/
theorem result_eq_error_iff {stack : List (Quantity α)} {e : EvalError α} :
    result stack = .error e ↔ stack.length ≠ 1 ∧ e = .malformedProgram stack.length := by
  match stack with
  | [] => simp [result, eq_comm]
  | [value] => simp [result]
  | _ :: _ :: _ => simp [result, eq_comm]

/-- A program fails at a token that its run reaches, or because its run leaves no single value. -/
theorem evaluate_eq_error_iff {tokens : List Token} {e : EvalError α} :
    (Program.mk tokens).evaluate A bindings = .error e ↔
      (∃ before t stack, Reaches A bindings tokens before t stack ∧ Fails A bindings stack t e) ∨
        ∃ last, run A bindings [] tokens = .ok last ∧ last.length ≠ 1 ∧
          e = .malformedProgram last.length := by
  rw [Program.evaluate, bind_eq_error_iff, run_eq_error_iff]
  simp only [step_eq_error_iff, result_eq_error_iff]
  constructor
  · rintro (⟨before, t, after, stack, htokens, hrun, hfails⟩ | hlast)
    · exact .inl ⟨before, t, stack, ⟨hrun, after, htokens⟩, hfails⟩
    · exact .inr hlast
  · rintro (⟨before, t, stack, ⟨hrun, after, htokens⟩, hfails⟩ | hlast)
    · exact .inl ⟨before, t, after, stack, htokens, hrun, hfails⟩
    · exact .inr hlast

/-! ### Heights and failures -/

/-- The stack in front of a token that is reached is as high as the tokens before it say. -/
theorem height_of_reaches {tokens before : List Token} {t : Token} {stack : List (Quantity α)}
    (h : Reaches A bindings tokens before t stack) : (stack.length : Int) = height before := by
  have hheight := height_of_run h.1
  rw [List.length_nil, Int.natCast_zero, Int.zero_add] at hheight
  exact hheight

/-- A program lacks operands exactly at a token that is reached with a lower stack than it needs. -/
theorem insufficientOperands_of_evaluate_iff {tokens : List Token} {t : Token}
    {expected found : Nat} :
    (Program.mk tokens).evaluate A bindings =
        .error (.insufficientOperands t expected found) ↔
      ∃ before stack, Reaches A bindings tokens before t stack ∧ expected = t.operands ∧
        (found : Int) = height before ∧ found < expected := by
  rw [evaluate_eq_error_iff]
  simp only [fails_insufficientOperands_iff]
  constructor
  · rintro (⟨before, u, stack, hreach, rfl, hexpected, hfound, hlt⟩ | ⟨last, -, -, h⟩)
    · have hheight := height_of_reaches hreach
      exact ⟨before, stack, hreach, hexpected, by omega, hlt⟩
    · cases h
  · rintro ⟨before, stack, hreach, hexpected, hfound, hlt⟩
    have hheight := height_of_reaches hreach
    exact .inl ⟨before, t, stack, hreach, rfl, hexpected, by omega, hlt⟩

/-- A run gets to its end exactly if no token that it reaches fails. -/
theorem exists_run_iff {tokens : List Token} :
    (∃ last, run A bindings [] tokens = .ok last) ↔
      ∀ before t stack e, Reaches A bindings tokens before t stack →
        step A bindings stack t ≠ .error e := by
  cases hrun : run A bindings [] tokens with
  | ok last =>
    refine iff_of_true ⟨last, rfl⟩ ?_
    rintro before t stack e ⟨hbefore, after, htokens⟩ ht
    rw [run_eq_error_iff.mpr ⟨before, t, after, stack, htokens, hbefore, ht⟩] at hrun
    cases hrun
  | error e =>
    obtain ⟨before, t, after, stack, htokens, hbefore, ht⟩ := run_eq_error_iff.mp hrun
    refine iff_of_false (fun ⟨last, h⟩ => by cases h) fun hall => ?_
    exact hall before t stack e ⟨hbefore, after, htokens⟩ ht

/-- A program is malformed exactly if its run ends with another height than one. -/
theorem malformedProgram_of_evaluate_iff {tokens : List Token} {n : Nat} :
    (Program.mk tokens).evaluate A bindings = .error (.malformedProgram n) ↔
      (∃ last, run A bindings [] tokens = .ok last) ∧ (n : Int) = height tokens ∧ n ≠ 1 := by
  rw [evaluate_eq_error_iff]
  constructor
  · rintro (⟨before, t, stack, -, hfails⟩ | ⟨last, hrun, hlen, h⟩)
    · exact (not_fails_malformedProgram hfails).elim
    · cases h
      have hheight := height_of_run hrun
      exact ⟨⟨last, hrun⟩, by simpa using hheight, hlen⟩
  · rintro ⟨⟨last, hrun⟩, hn, hne⟩
    have hheight := height_of_run hrun
    have hlen : last.length = n := by
      rw [List.length_nil] at hheight
      omega
    exact .inr ⟨last, hrun, hlen.symm ▸ hne, hlen.symm ▸ rfl⟩

/-- A program with a value has height one. -/
theorem height_of_evaluate {tokens : List Token} {value : Quantity α}
    (h : (Program.mk tokens).evaluate A bindings = .ok value) : height tokens = 1 := by
  rw [evaluate_eq_ok_iff] at h
  have hheight := height_of_run h
  simpa using hheight.symm

/-- What fails before its end fails in the same way in front of any other tokens. -/
theorem evaluate_append_of_error {tokens : List Token} {e : EvalError α}
    (h : (Program.mk tokens).evaluate A bindings = .error e)
    (hcut : ∀ n, e ≠ .malformedProgram n) (rest : List Token) :
    (Program.mk (tokens ++ rest)).evaluate A bindings = .error e := by
  rw [evaluate_eq_error_iff] at h ⊢
  obtain ⟨before, t, stack, ⟨hrun, after, rfl⟩, hfails⟩ | ⟨last, -, -, hlast⟩ := h
  · refine .inl ⟨before, t, stack, ⟨hrun, after ++ rest, ?_⟩, hfails⟩
    rw [List.append_assoc, List.cons_append]
  · exact absurd hlast (hcut _)

/-- **The height of the stack is a count of tokens**: wherever the run of a program gets, the stack
holds as many values as the tokens read so far have names, less their operators and their functions
of two arguments.  Missing operands are reported exactly where that count is short, values left over
exactly where no token fails and the count of the whole program is not one, and a program with a
value has the count one.  An error of a token stays the error of every longer program. -/
theorem evaluate_height (tokens : List Token) :
    (∀ before t stack, Reaches A bindings tokens before t stack →
      (stack.length : Int) = height before) ∧
    (∀ t expected found, (Program.mk tokens).evaluate A bindings =
        .error (.insufficientOperands t expected found) ↔
      ∃ before stack, Reaches A bindings tokens before t stack ∧ expected = t.operands ∧
        (found : Int) = height before ∧ found < expected) ∧
    (∀ n, (Program.mk tokens).evaluate A bindings = .error (.malformedProgram n) ↔
      (∀ before t stack e, Reaches A bindings tokens before t stack →
        step A bindings stack t ≠ .error e) ∧ (n : Int) = height tokens ∧ n ≠ 1) ∧
    (∀ value, (Program.mk tokens).evaluate A bindings = .ok value → height tokens = 1) ∧
    ∀ e, (Program.mk tokens).evaluate A bindings = .error e → (∀ n, e ≠ .malformedProgram n) →
      ∀ rest, (Program.mk (tokens ++ rest)).evaluate A bindings = .error e := by
  refine ⟨fun _ _ _ => height_of_reaches, fun _ _ _ => insufficientOperands_of_evaluate_iff, ?_,
    fun _ => height_of_evaluate, fun _ => evaluate_append_of_error⟩
  intro n
  rw [malformedProgram_of_evaluate_iff, exists_run_iff]

/-- The logarithm of a sum misses its base, whatever follows. -/
theorem evaluate_height_log :
    (∃ stack, Reaches .double [] [.name "2", .name "3", .operator .add, .function .log]
        [.name "2", .name "3", .operator .add] (.function .log) stack ∧
      (stack.length : Int) = height [.name "2", .name "3", .operator .add]) ∧
    height [.name "2", .name "3", .operator .add] = 1 ∧
    ∀ rest, (Program.mk ([.name "2", .name "3", .operator .add, .function .log] ++ rest)).evaluate
      .double [] = .error (.insufficientOperands (.function .log) 2 1) := by
  obtain ⟨value, hvalue⟩ : ∃ value, (Program.mk [.name "2", .name "3", .operator .add]).evaluate
      .double [] = .ok value := ⟨_, rfl⟩
  have hshort : (Program.mk [.name "2", .name "3", .operator .add, .function .log]).evaluate
      .double [] = .error (.insufficientOperands (.function .log) 2 1) := rfl
  have hreach : Reaches .double [] [.name "2", .name "3", .operator .add, .function .log]
      [.name "2", .name "3", .operator .add] (.function .log) [value] :=
    ⟨(evaluate_eq_ok_iff .double).mp hvalue, [], rfl⟩
  obtain ⟨hheight, -, -, -, herror⟩ := @evaluate_height _ .double []
    [.name "2", .name "3", .operator .add, .function .log]
  obtain ⟨-, -, -, hone, -⟩ := @evaluate_height _ .double []
    [.name "2", .name "3", .operator .add]
  exact ⟨⟨[value], hreach, hheight _ _ _ hreach⟩, hone value hvalue, herror _ hshort nofun⟩

end QuantityCalculus
