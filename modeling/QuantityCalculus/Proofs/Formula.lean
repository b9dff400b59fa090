/-
Formula forms of expression trees.

A tree is written in infix form with operators between their operands and calls as a function in
front of its parenthesized arguments.  Parentheses are needed around an operand that binds weaker
than its operator, or as strongly on the side to which the operator does not associate; they are
allowed around every subexpression, any number of times.  `Formula e enclosed tokens` is that
relation between trees and token lists.

* `exists_formula` : every tree has an infix form,
* `toPostfix_of_formula` : every infix form of a tree is reordered to the postorder of the tree,
* `compile_formula` : every spelling of an infix form compiles to the program of the tree.

Design notes: reading an infix form does not output all of its postorder.  Operators on its right
edge stay on the stack until something weaker arrives.  `FormulaRead` says which: the operators held
back bind at least as strongly as the root of the form, so whatever may come behind the form lets
them go first, and the stack below is never touched (`Keeps`).
-/
import QuantityCalculus.Expr.Basic
import QuantityCalculus.Proofs.OperatorStack
import QuantityCalculus.Proofs.Spelling

namespace QuantityCalculus

namespace Expr

/-- Every name in the tree is one that a text can spell. -/
def Legible (e : Expr) : Prop := ∀ t ∈ e.postorder, t.Legible

instance (e : Expr) : Decidable e.Legible :=
  inferInstanceAs (Decidable (∀ t ∈ e.postorder, t.Legible))

/-- The tree has to stand in parentheses as an operand of `o`.  The flag tells whether `o`
associates to the other side, so that a tie in binding strength needs parentheses too. -/
def needsParens (o : Operator) (onTie : Bool) : Expr → Bool
  | binary inner _ _ =>
    decide (inner.precedence < o.precedence) || (inner.precedence == o.precedence && onTie)
  | _ => false

end Expr

mutual

/-- The tokens write the tree in infix form.  The flag tells whether parentheses enclose the
whole. -/
inductive Formula : Expr → Bool → List Token → Prop
  | name (x : String) : Formula (.name x) false [.name x]
  | binary {o : Operator} {left right : Expr} {bl br : Bool} {ls rs : List Token}
      (hl : Formula left bl ls) (hr : Formula right br rs)
      (hleft : left.needsParens o o.isRightAssociative = true → bl = true)
      (hright : right.needsParens o (!o.isRightAssociative) = true → br = true) :
      Formula (.binary o left right) false (ls ++ .operator o :: rs)
  | call {f : Builtin} {first : Expr} {rest : List Expr} {b : Bool} {ts us : List Token}
      (hfirst : Formula first b ts) (hrest : FormulaArguments rest us) :
      Formula (.call f first rest) false (.function f :: .left :: (ts ++ us ++ [.right]))
  | parens {e : Expr} {b : Bool} {ts : List Token} (h : Formula e b ts) :
      Formula e true (.left :: (ts ++ [.right]))

/-- The tokens write the arguments of a call behind the first one, each after a comma. -/
inductive FormulaArguments : List Expr → List Token → Prop
  | nil : FormulaArguments [] []
  | cons {e : Expr} {es : List Expr} {b : Bool} {ts us : List Token}
      (he : Formula e b ts) (hes : FormulaArguments es us) :
      FormulaArguments (e :: es) (.comma :: (ts ++ us))

end

mutual

/-- Every tree has an infix form: parentheses around every subexpression make one. -/
theorem exists_formula : (e : Expr) → ∃ ts, Formula e true ts
  | .name x => ⟨_, .parens (.name x)⟩
  | .binary o left right => by
    obtain ⟨ls, hl⟩ := exists_formula left
    obtain ⟨rs, hr⟩ := exists_formula right
    exact ⟨_, .parens (.binary (o := o) hl hr (fun _ => rfl) (fun _ => rfl))⟩
  | .call f first rest => by
    obtain ⟨ts, hfirst⟩ := exists_formula first
    obtain ⟨us, hrest⟩ := exists_formulaArguments rest
    exact ⟨_, .parens (.call (f := f) hfirst hrest)⟩

theorem exists_formulaArguments : (es : List Expr) → ∃ us, FormulaArguments es us
  | [] => ⟨[], .nil⟩
  | e :: es => by
    obtain ⟨ts, he⟩ := exists_formula e
    obtain ⟨us, hes⟩ := exists_formulaArguments es
    exact ⟨_, .cons he hes⟩

end

namespace Expr

/-- The operator at the root of an infix form, unless parentheses hide it. -/
def root? (enclosed : Bool) : Expr → Option Operator
  | binary o _ _ => if enclosed then none else some o
  | _ => none

/-- A root that shows in an operand of `o` binds at least as strongly as `o`. -/
theorem precedence_of_root {o inner : Operator} {onTie enclosed : Bool} {e : Expr}
    (hparens : e.needsParens o onTie = true → enclosed = true)
    (hroot : e.root? enclosed = some inner) :
    o.precedence ≤ inner.precedence ∧ (inner.precedence = o.precedence → onTie = false) := by
  cases e with
  | name x => cases hroot
  | call f first rest => cases hroot
  | binary o' left right =>
    cases enclosed with
    | true => cases hroot
    | false =>
      cases hroot
      have hneeds : needsParens o onTie (binary inner left right) ≠ true := by
        intro h
        cases hparens h
      rw [needsParens, ne_eq, Bool.or_eq_true, Bool.and_eq_true, decide_eq_true_eq, beq_iff_eq,
        not_or, not_and, Bool.not_eq_true] at hneeds
      exact ⟨by omega, hneeds.2⟩

/-- What the left operand of `o` holds back yields to `o`. -/
theorem yieldsTo_of_left {o inner w : Operator} {enclosed : Bool} {e : Expr}
    (hleft : e.needsParens o o.isRightAssociative = true → enclosed = true)
    (hroot : e.root? enclosed = some inner) (hle : inner.precedence ≤ w.precedence) :
    w.yieldsTo o = true := by
  obtain ⟨hprec, htie⟩ := precedence_of_root hleft hroot
  rw [Operator.yieldsTo_iff]
  rcases Nat.lt_or_ge o.precedence w.precedence with hlt | hge
  · exact .inl hlt
  · exact .inr ⟨by omega, htie (by omega)⟩

/-- The operator `o` on the stack does not yield to the root of its right operand. -/
theorem keeps_of_right {o inner : Operator} {enclosed : Bool} {e : Expr}
    (hright : e.needsParens o (!o.isRightAssociative) = true → enclosed = true)
    (hroot : e.root? enclosed = some inner) (stack : List Pending) :
    Keeps (.operator o :: stack) inner := by
  obtain ⟨hprec, htie⟩ := precedence_of_root hright hroot
  rw [keeps_operator_iff, Bool.eq_false_iff, ne_eq, Operator.yieldsTo_iff]
  rintro (hlt | ⟨heq, hassoc⟩)
  · omega
  · -- on a tie `o` is right-associative and the root, of the same precedence, is not
    have ho := htie heq
    rw [Bool.not_eq_false', Operator.isRightAssociative_iff] at ho
    rw [Bool.eq_false_iff, ne_eq, Operator.isRightAssociative_iff] at hassoc
    omega

end Expr

/-! ### Reading an infix form -/

/-- What reading a form does to a stack that its root does not disturb: part of the postorder is put
out, and the operators of the other part are held back on the stack. -/
def FormulaRead (e : Expr) (enclosed : Bool) (ts : List Token) : Prop :=
  ∀ stack : List Pending, (∀ o, e.root? enclosed = some o → Keeps stack o) →
    releaseFunction stack = ([], stack) →
      ∃ (out : List Token) (ops : List Operator),
        (∀ w ∈ ops, ∃ o, e.root? enclosed = some o ∧ o.precedence ≤ w.precedence) ∧
        out ++ ops.map .operator = e.postorder ∧
        ∀ rest, reorder stack (ts ++ rest) =
          (reorder (ops.map .operator ++ stack) rest).map (out ++ ·)

/-- What reading the arguments behind the first one does, with operators of the argument before
still held back: everything goes out, and the function behind it. -/
def ArgumentsRead (es : List Expr) (us : List Token) : Prop :=
  ∀ (f : Builtin) (ops : List Operator) (stack : List Pending) (tail : List Token),
    reorder (ops.map .operator ++ .paren :: .function f :: stack) (us ++ .right :: tail) =
      (reorder stack tail).map
        (ops.map .operator ++ (Expr.postorderAll es ++ [.function f]) ++ ·)

theorem formulaRead_name (x : String) : FormulaRead (.name x) false [.name x] := by
  intro stack _ _
  refine ⟨[.name x], [], ?_, rfl, fun rest => rfl⟩
  intro w hw
  cases hw

/-- An operator between two forms is held back behind the right one, with what that one holds
back. -/
theorem formulaRead_binary {o : Operator} {left right : Expr} {bl br : Bool} {ls rs : List Token}
    (hl : FormulaRead left bl ls) (hr : FormulaRead right br rs)
    (hleft : left.needsParens o o.isRightAssociative = true → bl = true)
    (hright : right.needsParens o (!o.isRightAssociative) = true → br = true) :
    FormulaRead (.binary o left right) false (ls ++ .operator o :: rs) := by
  intro stack hkeeps hfun
  have ho : Keeps stack o := hkeeps o rfl
  -- the left operand may hold back operators, all of which yield to `o`
  obtain ⟨outl, opsl, hopsl, houtl, hreadl⟩ := hl stack
    (fun i hi => ho.mono (Expr.precedence_of_root hleft hi).1) hfun
  have hyield : ∀ w ∈ opsl, w.yieldsTo o = true := by
    intro w hw
    obtain ⟨i, hi, hle⟩ := hopsl w hw
    exact Expr.yieldsTo_of_left hleft hi hle
  -- the right operand meets `o` on the stack, which yields to nothing in it
  obtain ⟨outr, opsr, hopsr, houtr, hreadr⟩ := hr (.operator o :: stack)
    (fun i hi => Expr.keeps_of_right hright hi stack) rfl
  refine ⟨outl ++ opsl.map .operator ++ outr, opsr ++ [o], ?_, ?_, ?_⟩
  · intro w hw
    refine ⟨o, rfl, ?_⟩
    rw [List.mem_append, List.mem_singleton] at hw
    rcases hw with hw | rfl
    · obtain ⟨i, hi, hle⟩ := hopsr w hw
      have hprec := (Expr.precedence_of_root hright hi).1
      omega
    · exact Nat.le_refl _
  · rw [List.map_append, Expr.postorder, ← houtl, ← houtr]
    simp only [List.append_assoc, List.map_cons, List.map_nil]
  · intro rest
    rw [List.append_assoc, hreadl, List.cons_append, reorder, yieldTo_append hyield ho, hreadr,
      map_append_map, map_append_map, List.map_append, List.append_assoc outl,
      List.append_assoc _ _ stack]
    rfl

/-- A closing parenthesis lets everything go that waits behind the open one. -/
theorem formulaRead_parens {e : Expr} {b : Bool} {ts : List Token} (h : FormulaRead e b ts) :
    FormulaRead e true (.left :: (ts ++ [.right])) := by
  intro stack _ hfun
  -- the closing parenthesis lets go what the form holds back, so nothing of it shows behind
  obtain ⟨out, ops, -, hout, hread⟩ := h (.paren :: stack) (fun o _ => keeps_paren stack o) rfl
  refine ⟨e.postorder, [], ?_, List.append_nil _, ?_⟩
  · intro w hw
    cases hw
  · intro rest
    rw [List.cons_append, List.append_assoc, reorder, hread, List.singleton_append, reorder,
      unwind_append (paren_not_mem_operators ops)]
    simp only [hfun, pendingTokens_operators, map_append_map, List.append_nil, List.map_nil,
      List.nil_append, hout]

/-- The parenthesis that ends a call lets the last argument go and the function behind it. -/
theorem formulaRead_call {f : Builtin} {first : Expr} {rest : List Expr} {b : Bool}
    {ts us : List Token} (hfirst : FormulaRead first b ts) (hrest : ArgumentsRead rest us) :
    FormulaRead (.call f first rest) false (.function f :: .left :: (ts ++ us ++ [.right])) := by
  intro stack _ _
  obtain ⟨out, ops, -, hout, hread⟩ := hfirst (.paren :: .function f :: stack)
    (fun o _ => keeps_paren _ o) rfl
  refine ⟨(Expr.call f first rest).postorder, [], ?_, List.append_nil _, ?_⟩
  · intro w hw
    cases hw
  · intro tail
    simp only [List.cons_append, List.append_assoc, List.nil_append]
    rw [reorder, reorder, hread, hrest, map_append_map, Expr.postorder, ← hout]
    simp only [List.append_assoc, List.map_nil, List.nil_append]

theorem argumentsRead_nil : ArgumentsRead [] [] := by
  intro f ops stack tail
  rw [List.nil_append, reorder, unwind_append (paren_not_mem_operators ops),
    pendingTokens_operators]
  rfl

theorem argumentsRead_cons {e : Expr} {es : List Expr} {b : Bool} {ts us : List Token}
    (he : FormulaRead e b ts) (hes : ArgumentsRead es us) :
    ArgumentsRead (e :: es) (.comma :: (ts ++ us)) := by
  intro f ops stack tail
  -- the comma lets go the argument before; the operators of this one wait for the next
  obtain ⟨out, opse, -, hout, hread⟩ := he (.paren :: .function f :: stack)
    (fun o _ => keeps_paren _ o) rfl
  rw [List.cons_append, reorder, unwind_append (paren_not_mem_operators ops),
    pendingTokens_operators]
  simp only [List.append_assoc]
  rw [hread, hes, map_append_map, map_append_map, Expr.postorderAll, ← hout]
  simp only [List.append_assoc]

mutual

/-- Every infix form is read as its tree, one case for each way to write one. -/
theorem formulaRead {e : Expr} {b : Bool} {ts : List Token} :
    Formula e b ts → FormulaRead e b ts
  | .name x => formulaRead_name x
  | .binary hl hr hleft hright =>
    formulaRead_binary (formulaRead hl) (formulaRead hr) hleft hright
  | .call hfirst hrest => formulaRead_call (formulaRead hfirst) (argumentsRead hrest)
  | .parens h => formulaRead_parens (formulaRead h)

/-- So is every list of arguments. -/
theorem argumentsRead {es : List Expr} {us : List Token} :
    FormulaArguments es us → ArgumentsRead es us
  | .nil => argumentsRead_nil
  | .cons he hes => argumentsRead_cons (formulaRead he) (argumentsRead hes)

end

/-- Every infix form of a tree is reordered to its postorder. -/
theorem toPostfix_of_formula {e : Expr} {b : Bool} {ts : List Token} (h : Formula e b ts) :
    toPostfix ts = .ok e.postorder := by
  obtain ⟨out, ops, -, hout, hread⟩ := formulaRead h [] (fun o _ => keeps_nil o) rfl
  have hempty := hread []
  rw [List.append_nil, List.append_nil, reorder, drain_eq (paren_not_mem_operators ops),
    pendingTokens_operators] at hempty
  rw [toPostfix, hempty, ← hout]
  rfl

/-! ### Compiling a spelled formula -/

theorem Expr.legible_binary_iff {o : Operator} {left right : Expr} :
    (binary o left right).Legible ↔ left.Legible ∧ right.Legible := by
  have ho : (Token.operator o).Legible := trivial
  simp only [Legible, postorder, List.forall_mem_append, List.forall_mem_singleton, ho, and_true]

theorem Expr.legible_call_iff {f : Builtin} {first : Expr} {rest : List Expr} :
    (call f first rest).Legible ↔
      first.Legible ∧ ∀ t ∈ postorderAll rest, t.Legible := by
  have hf : (Token.function f).Legible := trivial
  simp only [Legible, postorder, List.forall_mem_append, List.forall_mem_singleton, hf, and_true]

mutual

/-- An infix form of a legible tree consists of legible tokens. -/
theorem legible_of_formula {e : Expr} {b : Bool} {ts : List Token} :
    Formula e b ts → e.Legible → ∀ t ∈ ts, t.Legible
  | .name x => id
  | .binary hl hr _ _ => by
    intro he
    obtain ⟨hleft, hright⟩ := Expr.legible_binary_iff.mp he
    rw [List.forall_mem_append, List.forall_mem_cons]
    exact ⟨legible_of_formula hl hleft, trivial, legible_of_formula hr hright⟩
  | .call hfirst hrest => by
    intro he
    obtain ⟨hargument, harguments⟩ := Expr.legible_call_iff.mp he
    rw [List.forall_mem_cons, List.forall_mem_cons, List.forall_mem_append, List.forall_mem_append,
      List.forall_mem_singleton]
    exact ⟨trivial, trivial, ⟨legible_of_formula hfirst hargument,
      legible_of_formulaArguments hrest harguments⟩, trivial⟩
  | .parens h => by
    intro he
    rw [List.forall_mem_cons, List.forall_mem_append, List.forall_mem_singleton]
    exact ⟨trivial, legible_of_formula h he, trivial⟩

theorem legible_of_formulaArguments {es : List Expr} {us : List Token} :
    FormulaArguments es us → (∀ t ∈ Expr.postorderAll es, t.Legible) → ∀ t ∈ us, t.Legible
  | .nil => id
  | .cons he hes => by
    intro hall
    rw [Expr.postorderAll, List.forall_mem_append] at hall
    rw [List.forall_mem_cons, List.forall_mem_append]
    exact ⟨trivial, legible_of_formula he hall.1, legible_of_formulaArguments hes hall.2⟩

end

/-- **Formulas compile to their trees**: whatever parentheses are added and whatever blanks stand
between the tokens, an infix form of a tree compiles to the postorder of the tree. -/
theorem compile_formula {e : Expr} {b : Bool} {tokens : List Token} {text : String}
    (he : e.Legible) (hformula : Formula e b tokens) (htext : Spelled tokens text.toList) :
    Program.compile text = .ok ⟨e.postorder⟩ := by
  have htokens : tokenize text = .ok tokens :=
    tokenize_of_spelled htext (legible_of_formula hformula he)
  have hpostfix : toPostfix tokens = .ok e.postorder := toPostfix_of_formula hformula
  rw [Program.compile, htokens]
  simp only [bind, Except.bind, hpostfix]
  rfl

/-- A base that needs its parentheses, and an exponent that is a call. -/
theorem compile_formula_power :
    Program.compile "(a -b)^log(c,2)" =
      .ok ⟨[.name "a", .name "b", .operator .subtract, .name "c", .name "2", .function .log,
        .operator .power]⟩ := by
  have hbase : Formula (.binary .subtract (.name "a") (.name "b")) true _ :=
    .parens (.binary (.name "a") (.name "b") (by decide) (by decide))
  have hexponent : Formula (.call .log (.name "c") [.name "2"]) false _ :=
    .call (.name "c") (.cons (.name "2") .nil)
  have hformula := Formula.binary (o := .power) hbase hexponent (by decide) (by decide)
  refine compile_formula (by decide) hformula ?_
  show Spelled _ ['(', 'a', ' ', '-', 'b', ')', '^', 'l', 'o', 'g', '(', 'c', ',', '2', ')']
  refine .token (t := .left) nofun <| .token (t := .name "a") (by decide) <|
    .blank (by decide) <| .token (t := .operator .subtract) nofun <|
    .token (t := .name "b") (by decide) <| .token (t := .right) nofun <| ?_
  exact .token (t := .operator .power) nofun <| .token (t := .function .log) (by decide) <|
    .token (t := .left) nofun <| .token (t := .name "c") (by decide) <|
    .token (t := .comma) nofun <| .token (t := .name "2") (by decide) <|
    .token (t := .right) nofun .nil

end QuantityCalculus
