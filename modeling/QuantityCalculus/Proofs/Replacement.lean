/-
Parts of programs and their values.

A part of a program that has a value on its own takes nothing from the stack below it: on any stack
it leaves its value on top.  So it may be taken out of a program and its value bound to a fresh name
in its place:

* `step_above`, `run_above` : what does not fail on a stack does the same to it above any other
  stack,
* `run_part` : a part that has a value pushes that value, wherever it stands,
* `evaluate_replace` : a program with the name in place of the part has the same result or the same
  error, under the bindings with one more for the name.

What stands around the part need not be well formed.
-/
import QuantityCalculus.Proofs.Lookup

namespace QuantityCalculus

variable {α : Type} {A : Arithmetic α} {bindings : List (Binding α)}

/-! ### Above another stack -/

/-- A step that succeeds does the same above any other stack. -/
theorem step_above {stack next : List (Quantity α)} {t : Token}
    (h : step A bindings stack t = .ok next) (below : List (Quantity α)) :
    step A bindings (stack ++ below) t = .ok (next ++ below) := by
  obtain ⟨operands, rest, value, hlen, rfl, hvalue, rfl⟩ := step_eq_ok_iff.mp h
  exact step_eq_ok_iff.mpr
    ⟨operands, rest ++ below, value, hlen, List.append_assoc .., hvalue, rfl⟩

/-- A run that succeeds does the same above any other stack. -/
theorem run_above {stack last : List (Quantity α)} {tokens : List Token}
    (h : run A bindings stack tokens = .ok last) (below : List (Quantity α)) :
    run A bindings (stack ++ below) tokens = .ok (last ++ below) := by
  induction tokens generalizing stack with
  | nil =>
    cases h
    rfl
  | cons t ts ih =>
    rw [run_cons, bind_eq_ok_iff] at h ⊢
    obtain ⟨next, hstep, hrest⟩ := h
    exact ⟨next ++ below, step_above hstep below, ih hrest⟩

/-- A part that has a value pushes it, whatever stands on the stack. -/
theorem run_part {part : List Token} {value : Quantity α}
    (h : (Program.mk part).evaluate A bindings = .ok value) (stack : List (Quantity α)) :
    run A bindings stack part = .ok (value :: stack) := by
  rw [evaluate_eq_ok_iff] at h
  exact run_above h stack

/-! ### One more binding -/

/-- One more binding behind the others counts for its own name only, and only if no other binding
has it. -/
theorem boundQuantity?_append (bindings : List (Binding α)) (b : Binding α) (name : String) :
    boundQuantity? (bindings ++ [b]) name =
      (boundQuantity? bindings name).or (if b.id = name then some b.quantity else none) := by
  rw [boundQuantity?, boundQuantity?, List.find?_append]
  cases bindings.find? fun c => c.id == name with
  | some c => rfl
  | none => by_cases h : b.id = name <;> simp [h]

theorem boundQuantity?_append_of_ne {b : Binding α} {name : String} (h : b.id ≠ name) :
    boundQuantity? (bindings ++ [b]) name = boundQuantity? bindings name := by
  rw [boundQuantity?_append, if_neg h, Option.or_none]

theorem resolve_append_of_fresh {b : Binding α} (h : ∀ c ∈ bindings, c.id ≠ b.id) :
    resolve A (bindings ++ [b]) b.id = .ok b.quantity := by
  have hnone : boundQuantity? bindings b.id = none := by
    rw [boundQuantity?, find?_id_eq_none_iff.mpr h, Option.map_none]
  rw [resolve_eq, boundQuantity?_append, hnone, if_pos rfl, Option.none_or]

/-! ### Replacing a part -/

/-- **A part can be replaced by its value**: a program has the same result, or fails with the same
error, if a part of it that has a value on its own is replaced by a name that is bound to that value
and occurs nowhere else.  What stands around the part need not be well formed. -/
theorem evaluate_replace {before part after : List Token} {x : String} {value : Quantity α}
    (hpart : (Program.mk part).evaluate A bindings = .ok value)
    (hfresh : ∀ b ∈ bindings, b.id ≠ x) (hbefore : Token.name x ∉ before)
    (hafter : Token.name x ∉ after) :
    (Program.mk (before ++ part ++ after)).evaluate A bindings =
      (Program.mk (before ++ [.name x] ++ after)).evaluate A (bindings ++ [⟨x, value⟩]) := by
  -- without the name in them, the tokens on either side do not see the new binding
  have hsame : ∀ tokens : List Token, Token.name x ∉ tokens → ∀ stack,
      run A (bindings ++ [⟨x, value⟩]) stack tokens = run A bindings stack tokens := by
    intro tokens htokens stack
    refine run_congr (fun y hy => boundQuantity?_append_of_ne ?_) stack
    rintro rfl
    exact htokens hy
  have hname : ∀ stack,
      run A (bindings ++ [⟨x, value⟩]) stack [.name x] = .ok (value :: stack) := by
    intro stack
    have hvalue : resolve A (bindings ++ [⟨x, value⟩]) x = .ok value :=
      @resolve_append_of_fresh _ A bindings ⟨x, value⟩ hfresh
    rw [run_cons, step_name, hvalue]
    rfl
  have hmiddle : ∀ stack, run A bindings stack (part ++ after) =
      run A (bindings ++ [⟨x, value⟩]) stack ([.name x] ++ after) := by
    intro stack
    rw [run_append, run_append, run_part hpart, hname]
    exact (hsame after hafter (value :: stack)).symm
  have hrun : run A bindings [] (before ++ part ++ after) =
      run A (bindings ++ [⟨x, value⟩]) [] (before ++ [.name x] ++ after) := by
    rw [List.append_assoc, List.append_assoc, run_append, run_append, hsame before hbefore]
    cases run A bindings [] before with
    | error e => rfl
    | ok stack => exact hmiddle stack
  rw [Program.evaluate, Program.evaluate, hrun]

/-- The name may occur in the part; here it is a constant there.  What follows the part fails. -/
theorem evaluate_replace_constant :
    ∃ value, (Program.mk [.name "pi", .name "pi", .operator .add]).evaluate .double [] = .ok value ∧
      (Program.mk [.name "2", .name "pi", .operator .multiply, .function .log]).evaluate .double
        [⟨"pi", value⟩] = .error (.insufficientOperands (.function .log) 2 1) := by
  obtain ⟨value, hvalue⟩ : ∃ value, (Program.mk [.name "pi", .name "pi", .operator .add]).evaluate
      .double [] = .ok value := ⟨_, rfl⟩
  have hreplaced := @evaluate_replace _ .double [] [.name "2"]
    [.name "pi", .name "pi", .operator .add] [.operator .multiply, .function .log] "pi" value
    hvalue nofun (by decide) (by decide)
  exact ⟨value, hvalue, hreplaced.symm.trans rfl⟩

end QuantityCalculus
