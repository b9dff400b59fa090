/-
What the operator stack lets go, and what it keeps.

A comma and a closing parenthesis reach down to the innermost open parenthesis and no further; an
incoming operator reaches down to the first entry that does not yield to it.

* `unwind_eq_some_iff`, `drain_eq` : everything above the innermost parenthesis is let go in order,
* `pendingTokens_yieldTo`, `pendingTokens_releaseFunction` : what is let go, with what stays behind
  it, is what waited,
* `Keeps` : an incoming operator lets go nothing.  What is kept from an operator is kept from every
  stronger one (`Keeps.mono`),
* `yieldTo_append` : operators above a stack that keeps are let go alone.
-/
import QuantityCalculus.Postfix

namespace QuantityCalculus

/-- The tokens of what waits, from the top of the stack down.  Parentheses have none. -/
def pendingTokens : List Pending → List Token
  | [] => []
  | .operator o :: stack => .operator o :: pendingTokens stack
  | .function f :: stack => .function f :: pendingTokens stack
  | .paren :: stack => pendingTokens stack

/-- A closing parenthesis lets go what waits above the open one and takes that one off. -/
theorem unwind_append {above : List Pending} (h : Pending.paren ∉ above) (stack : List Pending) :
    unwind (above ++ .paren :: stack) = some (pendingTokens above, stack) := by
  induction above with
  | nil => rfl
  | cons p above ih =>
    rw [List.mem_cons, not_or] at h
    cases p with
    | operator o =>
      rw [List.cons_append, unwind, ih h.2]
      rfl
    | function f =>
      rw [List.cons_append, unwind, ih h.2]
      rfl
    | paren => exact absurd rfl h.1

/-- The end of a formula lets go all that waits, if no parenthesis does. -/
theorem drain_eq {stack : List Pending} (h : Pending.paren ∉ stack) :
    drain stack = some (pendingTokens stack) := by
  induction stack with
  | nil => rfl
  | cons p stack ih =>
    rw [List.mem_cons, not_or] at h
    cases p with
    | operator o =>
      rw [drain, ih h.2]
      rfl
    | function f =>
      rw [drain, ih h.2]
      rfl
    | paren => exact absurd rfl h.1

/-- A closing parenthesis splits the stack at the topmost open one. -/
theorem unwind_eq_some_iff {stack below : List Pending} {out : List Token} :
    unwind stack = some (out, below) ↔
      ∃ above, Pending.paren ∉ above ∧ stack = above ++ .paren :: below ∧
        out = pendingTokens above := by
  constructor
  · intro h
    by_cases hopen : Pending.paren ∈ stack
    · obtain ⟨above, rest, rfl, habove⟩ := List.eq_append_cons_of_mem hopen
      rw [unwind_append habove] at h
      cases h
      exact ⟨above, habove, rfl, rfl⟩
    · rw [unwind_eq_none_iff.mpr hopen] at h
      cases h
  · rintro ⟨above, habove, rfl, rfl⟩
    exact unwind_append habove below

theorem drain_eq_some_iff {stack : List Pending} {out : List Token} :
    drain stack = some out ↔ Pending.paren ∉ stack ∧ out = pendingTokens stack := by
  constructor
  · intro h
    by_cases hopen : Pending.paren ∈ stack
    · rw [drain_eq_none_iff.mpr hopen] at h
      cases h
    · rw [drain_eq hopen] at h
      cases h
      exact ⟨hopen, rfl⟩
  · rintro ⟨hclosed, rfl⟩
    exact drain_eq hclosed

/-! ### What is let go and what stays -/

theorem pendingTokens_append (above below : List Pending) :
    pendingTokens (above ++ below) = pendingTokens above ++ pendingTokens below := by
  induction above with
  | nil => rfl
  | cons p above ih => cases p <;> rw [List.cons_append, pendingTokens, ih] <;> rfl

/-- What an operator lets go and what still waits are the same tokens as before. -/
theorem pendingTokens_yieldTo (o : Operator) (stack : List Pending) :
    (yieldTo o stack).1 ++ pendingTokens (yieldTo o stack).2 = pendingTokens stack := by
  induction stack with
  | nil => rfl
  | cons p stack ih =>
    cases p with
    | operator w =>
      rw [yieldTo]
      cases w.yieldsTo o with
      | true => rw [pendingTokens, ← ih]; rfl
      | false => rfl
    | function f => rfl
    | paren => rfl

theorem pendingTokens_releaseFunction (stack : List Pending) :
    (releaseFunction stack).1 ++ pendingTokens (releaseFunction stack).2 = pendingTokens stack := by
  cases stack with
  | nil => rfl
  | cons p stack => cases p <;> rfl

theorem name_not_mem_pendingTokens (x : String) (stack : List Pending) :
    Token.name x ∉ pendingTokens stack := by
  induction stack with
  | nil => exact List.not_mem_nil
  | cons p stack ih =>
    cases p with
    | operator o =>
      rw [pendingTokens, List.mem_cons, not_or]
      exact ⟨Token.noConfusion, ih⟩
    | function f =>
      rw [pendingTokens, List.mem_cons, not_or]
      exact ⟨Token.noConfusion, ih⟩
    | paren => exact ih

/-! ### Operators that wait -/

namespace Operator

/-- Only operators of the highest precedence associate to the right. -/
theorem isRightAssociative_iff {o : Operator} : o.isRightAssociative = true ↔ o.precedence = 4 := by
  cases o <;> decide

/-- An operator that does not yield to one does not yield to a stronger one. -/
theorem yieldsTo_mono {w o o' : Operator} (h : w.yieldsTo o = false)
    (hle : o.precedence ≤ o'.precedence) : w.yieldsTo o' = false := by
  rw [Bool.eq_false_iff, ne_eq, yieldsTo_iff, Bool.eq_false_iff, ne_eq, isRightAssociative_iff]
    at h ⊢
  omega

end Operator

/-- An incoming operator lets go nothing from the stack. -/
def Keeps (stack : List Pending) (o : Operator) : Prop := yieldTo o stack = ([], stack)

theorem keeps_nil (o : Operator) : Keeps [] o := rfl

theorem keeps_paren (stack : List Pending) (o : Operator) : Keeps (.paren :: stack) o := rfl

/-- A stack keeps back its topmost operator exactly if that one does not yield. -/
theorem keeps_operator_iff {w o : Operator} {stack : List Pending} :
    Keeps (.operator w :: stack) o ↔ w.yieldsTo o = false := by
  rw [Keeps, yieldTo]
  cases hw : w.yieldsTo o with
  | true => simp
  | false => simp

/-- A stack that is kept by an operator is kept by all that bind at least as strongly. -/
theorem Keeps.mono {stack : List Pending} {o o' : Operator} (h : Keeps stack o)
    (hle : o.precedence ≤ o'.precedence) : Keeps stack o' := by
  cases stack with
  | nil => exact keeps_nil o'
  | cons p stack =>
    cases p with
    | operator w =>
      rw [keeps_operator_iff] at h ⊢
      exact Operator.yieldsTo_mono h hle
    | function f => rfl
    | paren => exact keeps_paren stack o'

/-- Operators that yield go, and the stack below that does not is left alone. -/
theorem yieldTo_append {ops : List Operator} {o : Operator} {stack : List Pending}
    (hops : ∀ w ∈ ops, w.yieldsTo o = true) (hstack : Keeps stack o) :
    yieldTo o (ops.map .operator ++ stack) = (ops.map .operator, stack) := by
  induction ops with
  | nil => exact hstack
  | cons w ops ih =>
    have hrest := ih fun v hv => hops v (List.mem_cons_of_mem _ hv)
    rw [List.map_cons, List.cons_append, yieldTo, if_pos (hops w List.mem_cons_self), hrest]
    rfl

theorem paren_not_mem_operators (ops : List Operator) :
    Pending.paren ∉ ops.map Pending.operator := by
  simp

theorem pendingTokens_operators (ops : List Operator) :
    pendingTokens (ops.map .operator) = ops.map .operator := by
  induction ops with
  | nil => rfl
  | cons o ops ih => rw [List.map_cons, pendingTokens, ih, List.map_cons]

/-! ### Output in front of output -/

theorem map_append_map {ε : Type} (x : Except ε (List Token)) (out more : List Token) :
    (x.map (more ++ ·)).map (out ++ ·) = x.map ((out ++ more) ++ ·) := by
  cases x with
  | error e => rfl
  | ok ts => exact congrArg Except.ok (List.append_assoc out more ts).symm

end QuantityCalculus
