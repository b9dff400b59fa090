/-
What the result of a program depends on.

A run looks up the names of its program and nothing else.  A name is looked up among the bindings
first, where the first binding counts; a name that is not bound has a value if it is written like a
number or if it is one of the constants.

* `resolve_congr`, `run_congr` : where the names of a program are looked up alike, its runs are
  alike,
* `unboundValue?_eq_none_iff` : which names have no value of their own,
* `unknownIdentifier_of_evaluate` : an unknown identifier is one of the program, without a binding
  and without a value of its own,
* `evaluate_reads_identifiers` : so the identifiers of a program are what its evaluation reads.
-/
import QuantityCalculus.Proofs.Failures

namespace QuantityCalculus

variable {α : Type} {A : Arithmetic α} {bindings bindings' : List (Binding α)}

/-! ### Names that are looked up alike -/

/-- The quantity of the first binding of a name. -/
def boundQuantity? (bindings : List (Binding α)) (name : String) : Option (Quantity α) :=
  (bindings.find? fun b => b.id == name).map Binding.quantity

/-- A name has the quantity of its first binding, and only without one what it stands for by
itself. -/
theorem resolve_eq (bindings : List (Binding α)) (name : String) :
    resolve A bindings name =
      match boundQuantity? bindings name with
      | some q => .ok q
      | none =>
        match unboundValue? A name with
        | some x => .ok (.ofNumber x)
        | none => .error (.unknownIdentifier name) := by
  rw [resolve, boundQuantity?]
  cases bindings.find? fun b => b.id == name <;> rfl

/-- The value of a name depends on its first binding only. -/
theorem resolve_congr {name : String}
    (h : boundQuantity? bindings name = boundQuantity? bindings' name) :
    resolve A bindings name = resolve A bindings' name := by
  rw [resolve_eq, resolve_eq, h]

/-- A step depends on the bindings of its own name only. -/
theorem step_congr {t : Token}
    (h : ∀ x, t = .name x → boundQuantity? bindings x = boundQuantity? bindings' x)
    (stack : List (Quantity α)) : step A bindings stack t = step A bindings' stack t := by
  cases t with
  | name x => rw [step_name, step_name, resolve_congr (h x rfl)]
  | operator o => rfl
  | function f => rfl
  | left => rfl
  | right => rfl
  | comma => rfl

/-- A run depends on the bindings of its names only. -/
theorem run_congr {tokens : List Token}
    (h : ∀ x, .name x ∈ tokens → boundQuantity? bindings x = boundQuantity? bindings' x)
    (stack : List (Quantity α)) : run A bindings stack tokens = run A bindings' stack tokens := by
  induction tokens generalizing stack with
  | nil => rfl
  | cons t ts ih =>
    have hstep : step A bindings stack t = step A bindings' stack t :=
      step_congr (fun x ht => h x (ht ▸ List.mem_cons_self)) stack
    rw [run_cons, run_cons, hstep]
    cases step A bindings' stack t with
    | error e => rfl
    | ok next => exact ih (fun x hx => h x (List.mem_cons_of_mem t hx)) next

/-! ### Names without a binding -/

/-- The name is written like a number: it begins with a digit or a dot, and it is a literal. -/
def IsNumber (name : String) : Prop :=
  (∃ c, name.toList.head? = some c ∧ (c.isDigit = true ∨ c = '.')) ∧
    ∃ l, readLiteral name.toList = .ok l

theorem literalValue?_eq_none_iff {name : String} :
    literalValue? A name = none ↔ ¬ IsNumber name := by
  rw [literalValue?, IsNumber]
  cases name.toList with
  | nil => simp
  | cons c cs =>
    by_cases hc : c.isDigit = true ∨ c = '.'
    · cases hread : readLiteral (c :: cs) <;> simp [hc, hread]
    · simp [hc]

theorem constant?_eq_none_iff {name : String} :
    constant? name = none ↔ name ≠ "pi" ∧ name ≠ "e" := by
  unfold constant?
  split <;> simp_all

/-- Unbound, a name has a value exactly if it is a number or a constant. -/
theorem unboundValue?_eq_none_iff {name : String} :
    unboundValue? A name = none ↔ ¬ IsNumber name ∧ name ≠ "pi" ∧ name ≠ "e" := by
  rw [← literalValue?_eq_none_iff (A := A), ← constant?_eq_none_iff, unboundValue?]
  cases literalValue? A name <;> simp

/-! ### Programs -/

/-- Only an identifier of the program that is neither bound nor a number nor a constant is
unknown. -/
theorem unknownIdentifier_of_evaluate {p : Program} {x : String}
    (h : p.evaluate A bindings = .error (.unknownIdentifier x)) :
    x ∈ p.identifiers ∧ (∀ b ∈ bindings, b.id ≠ x) ∧ ¬ IsNumber x ∧ x ≠ "pi" ∧ x ≠ "e" := by
  obtain ⟨tokens⟩ := p
  obtain ⟨before, t, stack, ⟨-, after, rfl⟩, hfails⟩ | ⟨last, -, -, hlast⟩ :=
    evaluate_eq_error_iff.mp h
  · obtain ⟨rfl, hbindings, hvalue⟩ := fails_unknownIdentifier_iff.mp hfails
    have hmem : Token.name x ∈ before ++ .name x :: after := by simp
    exact ⟨Program.mem_identifiers.mpr hmem, hbindings, unboundValue?_eq_none_iff.mp hvalue⟩
  · cases hlast

/-- **Evaluation reads the identifiers of a program**: where they are bound to the same quantities
first, a program has the same result, whatever else is bound and in whatever order.  An unknown
identifier is one of them, without a binding, and neither a number nor a constant; so none is
reported where each of them has a binding or a value of its own. -/
theorem evaluate_reads_identifiers (A : Arithmetic α) (p : Program) :
    (∀ bindings bindings' : List (Binding α),
      (∀ x ∈ p.identifiers, boundQuantity? bindings x = boundQuantity? bindings' x) →
        p.evaluate A bindings = p.evaluate A bindings') ∧
    (∀ (bindings : List (Binding α)) (x : String),
      p.evaluate A bindings = .error (.unknownIdentifier x) →
        x ∈ p.identifiers ∧ (∀ b ∈ bindings, b.id ≠ x) ∧ ¬ IsNumber x ∧ x ≠ "pi" ∧ x ≠ "e") ∧
    ∀ bindings : List (Binding α),
      (∀ x ∈ p.identifiers,
        (∃ b ∈ bindings, b.id = x) ∨ IsNumber x ∨ x = "pi" ∨ x = "e") →
        ∀ x, p.evaluate A bindings ≠ .error (.unknownIdentifier x) := by
  refine ⟨?_, fun _ _ => unknownIdentifier_of_evaluate, ?_⟩
  · intro bindings bindings' h
    have hrun : run A bindings [] p.tokens = run A bindings' [] p.tokens :=
      run_congr (fun x hx => h x (Program.mem_identifiers.mpr hx)) []
    rw [Program.evaluate, Program.evaluate, hrun]
  · intro bindings hall x h
    obtain ⟨hx, hbindings, hnumber, hpi, he⟩ := unknownIdentifier_of_evaluate h
    obtain ⟨b, hb, hid⟩ | hisNumber | hisPi | hisE := hall x hx
    · exact hbindings b hb hid
    · exact hnumber hisNumber
    · exact hpi hisPi
    · exact he hisE

/-- A number and a constant that are hidden by bindings, a name bound twice; a literal that does not
begin like a number; a program without bindings. -/
theorem evaluate_reads_identifiers_hidden :
    (Program.mk [.name "x", .name "pi", .operator .multiply, .name "2", .operator .add]).evaluate
        .double [.ofNumber "x" 3, .ofNumber "pi" 4, .ofNumber "x" 5, .ofNumber "2" 7] =
      (Program.mk [.name "x", .name "pi", .operator .multiply, .name "2", .operator .add]).evaluate
        .double [.ofNumber "y" 1, .ofNumber "2" 7, .ofNumber "pi" 4, .ofNumber "x" 3] ∧
    ¬ IsNumber "inf" ∧
    ∀ x, (Program.mk [.name "e", .name ".5", .operator .power]).evaluate .double [] ≠
      .error (.unknownIdentifier x) := by
  obtain ⟨hsame, -, -⟩ := evaluate_reads_identifiers .double
    ⟨[.name "x", .name "pi", .operator .multiply, .name "2", .operator .add]⟩
  obtain ⟨-, hunknown, -⟩ := evaluate_reads_identifiers .double
    ⟨[.name "2", .name "inf", .operator .add]⟩
  obtain ⟨-, -, hknown⟩ := evaluate_reads_identifiers .double
    ⟨[.name "e", .name ".5", .operator .power]⟩
  have hhalf : IsNumber ".5" := ⟨⟨'.', rfl, .inr rfl⟩, _, rfl⟩
  refine ⟨hsame _ _ ?_, (hunknown [] "inf" rfl).2.2.1, hknown [] ?_⟩
  · show ∀ x ∈ ["x", "pi", "2"], _
    simp only [List.forall_mem_cons]
    exact ⟨rfl, rfl, rfl, nofun⟩
  · show ∀ x ∈ ["e", ".5"], _
    rw [List.forall_mem_cons, List.forall_mem_singleton]
    exact ⟨.inr (.inr (.inr rfl)), .inr (.inl hhalf)⟩

end QuantityCalculus
