/-
Two calculations side by side.

Two calculations agree up to a relation if both give results that are related, or both fail with the
same error (`Agree`).  Some errors may be excused: where one of the calculations fails with such an
error, nothing is asked of the other.

* `Agree.bind` : agreement is kept by sequencing,
* `agree_step`, `agree_run` : runs of one program on two stacks agree if every token keeps an
  invariant of the two stacks; a token keeps entrywise relation if its operation does,
* `agree_evaluate` : so do the values of the program.

The invariant may depend on the tokens already read.
-/
import QuantityCalculus.Proofs.Operations
import QuantityCalculus.Proofs.Step

namespace QuantityCalculus

variable {α β γ δ ζ : Type}

/-- Both calculations give related results, or both fail alike, or one fails with an excused error.
-/
inductive Agree (excused : EvalError α → Prop) (R : β → γ → Prop) :
    Except (EvalError α) β → Except (EvalError α) γ → Prop
  | ok {b : β} {c : γ} (h : R b c) : Agree excused R (.ok b) (.ok c)
  | error (e : EvalError α) : Agree excused R (.error e) (.error e)
  | left {e : EvalError α} (h : excused e) (y : Except (EvalError α) γ) :
      Agree excused R (.error e) y
  | right (x : Except (EvalError α) β) {e : EvalError α} (h : excused e) :
      Agree excused R x (.error e)

namespace Agree

variable {excused : EvalError α → Prop} {R : β → γ → Prop} {S : δ → ζ → Prop}
  {x : Except (EvalError α) β} {y : Except (EvalError α) γ}

/-- Two computations in a row agree if the second ones agree on related results of the first
ones. -/
theorem bind {f : β → Except (EvalError α) δ} {g : γ → Except (EvalError α) ζ}
    (h : Agree excused R x y) (hf : ∀ b c, R b c → Agree excused S (f b) (g c)) :
    Agree excused S (x >>= f) (y >>= g) := by
  cases h with
  | ok h => exact hf _ _ h
  | error e => exact .error e
  | left h y => exact .left h _
  | right x h => exact .right _ h

/-- Functions that carry one relation into another keep the agreement. -/
theorem map {f : β → δ} {g : γ → ζ} (h : Agree excused R x y)
    (hf : ∀ b c, R b c → S (f b) (g c)) : Agree excused S (x.map f) (y.map g) := by
  cases h with
  | ok h => exact .ok (hf _ _ h)
  | error e => exact .error e
  | left h y => exact .left h _
  | right x h => exact .right _ h

theorem mono {R' : β → γ → Prop} (h : Agree excused R x y) (hR : ∀ b c, R b c → R' b c) :
    Agree excused R' x y := by
  cases h with
  | ok h => exact .ok (hR _ _ h)
  | error e => exact .error e
  | left h y => exact .left h _
  | right x h => exact .right _ h

/-- Results that agree and have a further property of results in common. -/
theorem and_of_ok {R' : β → γ → Prop} (h : Agree excused R x y)
    (hR : ∀ b c, x = .ok b → y = .ok c → R b c → R' b c) :
    Agree excused (fun b c => R b c ∧ R' b c) x y := by
  cases h with
  | ok h => exact .ok ⟨h, hR _ _ rfl rfl h⟩
  | error e => exact .error e
  | left h y => exact .left h _
  | right x h => exact .right _ h

theorem refl {x : Except (EvalError α) β} {R : β → β → Prop} (hR : ∀ b, R b b) :
    Agree excused R x x := by
  cases x with
  | error e => exact .error e
  | ok b => exact .ok (hR b)

/-- A calculation agrees with what a function makes of its result. -/
theorem of_map {f : β → γ} (h : y = x.map f) : Agree excused (fun b c => c = f b) x y := by
  subst h
  cases x with
  | ok b => exact .ok rfl
  | error e => exact .error e

/-- Where no error is excused at all, agreement up to a function determines the second
calculation. -/
theorem eq_map {f : β → γ} (h : Agree (fun _ => False) (fun b c => c = f b) x y) :
    y = x.map f := by
  cases h with
  | ok h => rw [h]; rfl
  | error e => rfl
  | left h y => exact h.elim
  | right x h => exact h.elim

/-- Where no error is excused, both results are related or both errors are the same. -/
theorem cases_of_not_excused (h : Agree excused R x y) (hx : ∀ e, x = .error e → ¬ excused e)
    (hy : ∀ e, y = .error e → ¬ excused e) :
    (∃ b c, x = .ok b ∧ y = .ok c ∧ R b c) ∨ ∃ e, x = .error e ∧ y = .error e := by
  cases h with
  | ok h => exact .inl ⟨_, _, rfl, rfl, h⟩
  | error e => exact .inr ⟨e, rfl, rfl⟩
  | left h y => exact absurd h (hx _ rfl)
  | right x h => exact absurd h (hy _ rfl)

end Agree

/-- Checked steps agree where overflows are excused: only their results count. -/
theorem agree_lifted {R : β → γ → Prop} {x : Except Overflow β} {y : Except Overflow γ}
    (h : ∀ b c, x = .ok b → y = .ok c → R b c) :
    Agree (EvalError.IsOverflow (α := α)) R (lifted x) (lifted y) := by
  cases x with
  | error o => exact .left trivial _
  | ok b =>
    cases y with
    | error o => exact .right _ trivial
    | ok c => exact .ok (h b c rfl rfl)

theorem agree_lifted_any (x : Except Overflow β) (y : Except Overflow γ) :
    Agree (EvalError.IsOverflow (α := α)) (fun _ _ => True) (lifted x) (lifted y) :=
  agree_lifted fun _ _ _ _ => trivial

/-! ### Running a program on two stacks -/

variable {A : Arithmetic α} {bindings bindings' : List (Binding α)}
  {excused : EvalError α → Prop} {R : Quantity α → Quantity α → Prop}

/-- Bindings of the same names, in the same order, to related quantities. -/
def RelatedBindings (R : Quantity α → Quantity α → Prop) (bindings bindings' : List (Binding α)) :
    Prop :=
  List.Forall₂ (fun b b' => b.id = b'.id ∧ R b.quantity b'.quantity) bindings bindings'

/-- Related bindings give related values to a name, and the same value if no binding has the
name. -/
theorem agree_resolve (h : RelatedBindings R bindings bindings')
    (hnumber : ∀ x, R (.ofNumber x) (.ofNumber x)) (name : String) :
    Agree excused R (resolve A bindings name) (resolve A bindings' name) := by
  induction h with
  | nil =>
    rw [resolve]
    cases unboundValue? A name with
    | none => exact .error _
    | some x => exact .ok (hnumber x)
  | @cons b b' bs bs' hb _ ih =>
    -- the names are the same, so both look-ups stop at the same binding
    obtain ⟨hid, hquantity⟩ := hb
    rw [resolve, resolve, List.find?_cons, List.find?_cons, ← hid]
    cases b.id == name with
    | true => exact .ok hquantity
    | false => exact ih

/-- A function keeps a relation that the maps of pure numbers and the logarithm keep. -/
theorem agree_apply
    (hmap : ∀ (kernel : α → α) (q q' : Quantity α), R q q' →
      Agree excused R (q.mapNumber A kernel) (q'.mapNumber A kernel))
    (hlog : ∀ q b q' b' : Quantity α, R q q' → R b b' →
      Agree excused R (q.log A b) (q'.log A b'))
    {f : Builtin} {operands operands' : List (Quantity α)} (hlen : operands.length = f.arity)
    (h : List.Forall₂ R operands operands') :
    Agree excused R (f.apply A operands) (f.apply A operands') := by
  rcases f.kind A with rfl | hf | ⟨harity, kernel, hkernel⟩
  · obtain ⟨q, b, rfl⟩ := List.length_eq_two.mp hlen
    match operands', h with
    | [q', b'], .cons hq (.cons hb .nil) =>
      rw [Builtin.apply_log, Builtin.apply_log]
      exact hlog q b q' b' hq hb
  -- the least and the greatest fail whatever their operands are
  · have harity : f.arity = 2 := by
      rcases hf with rfl | rfl <;> rfl
    obtain ⟨q, r, rfl⟩ := List.length_eq_two.mp (hlen.trans harity)
    match operands', h with
    | [q', r'], .cons _ (.cons _ .nil) =>
      rw [Builtin.apply_unimplemented A hf, Builtin.apply_unimplemented A hf]
      exact .error _
  · obtain ⟨q, rfl⟩ := List.length_eq_one_iff.mp (hlen.trans harity)
    match operands', h with
    | [q'], .cons hq .nil =>
      rw [hkernel, hkernel]
      exact hmap kernel q q' hq

/-- A token keeps an entrywise relation of two stacks if its operation keeps the relation. -/
theorem agree_step {t : Token} {s s' : List (Quantity α)}
    (hname : ∀ x, t = .name x →
      Agree excused R (resolve A bindings x) (resolve A bindings' x))
    (hoperator : ∀ o l r rest l' r' rest', t = .operator o → s = r :: l :: rest →
      s' = r' :: l' :: rest' → R l l' → R r r' →
        Agree excused R (o.apply A l r) (o.apply A l' r'))
    (hfunction : ∀ f operands operands', t = .function f → operands.length = f.arity →
      List.Forall₂ R operands operands' →
        Agree excused R (f.apply A operands) (f.apply A operands'))
    (hs : List.Forall₂ R s s') :
    Agree excused (List.Forall₂ R) (step A bindings s t) (step A bindings' s' t) := by
  -- related stacks are equally high, so either both lack operands or neither does
  by_cases hshort : s.length < t.operands
  · have hshort' : s'.length < t.operands := hs.length_eq ▸ hshort
    rw [step_short hshort, step_short hshort', hs.length_eq]
    exact .error _
  · obtain ⟨operands, rest, operands', rest', hlen, rfl, rfl, hoperands, hrest⟩ :=
      exists_operands_forall₂ hs (Nat.le_of_not_lt hshort)
    rw [step_operands hlen, step_operands (hoperands.length_eq ▸ hlen)]
    refine Agree.map ?_ fun q q' hq => .cons hq hrest
    cases t with
    | name x => exact hname x rfl
    | operator o =>
      match operands, operands', hlen, hoperands with
      | [l, r], [l', r'], _, .cons hl (.cons hr .nil) =>
        exact hoperator o l r rest l' r' rest' rfl rfl rfl hl hr
    | function f => exact hfunction f operands operands' rfl hlen hoperands
    | left => exact .error _
    | right => exact .error _
    | comma => exact .error _

/-- Runs keep an invariant that every token keeps. -/
theorem agree_run {Inv : List Token → List (Quantity α) → List (Quantity α) → Prop}
    {tokens : List Token}
    (hstep : ∀ before t after s s', before ++ t :: after = tokens → Inv before s s' →
      Agree excused (Inv (before ++ [t])) (step A bindings s t) (step A bindings' s' t))
    {before after : List Token} (htokens : before ++ after = tokens)
    {s s' : List (Quantity α)} (hs : Inv before s s') :
    Agree excused (Inv tokens) (run A bindings s after) (run A bindings' s' after) := by
  -- what was read moves from one list to the other, and the invariant with it
  induction after generalizing before s s' with
  | nil =>
    rw [List.append_nil] at htokens
    rw [run_nil, run_nil, ← htokens]
    exact .ok hs
  | cons t after ih =>
    rw [run_cons, run_cons]
    refine (hstep before t after s s' htokens hs).bind fun next next' hnext => ?_
    refine ih ?_ hnext
    rw [List.append_assoc, List.singleton_append, htokens]

/-- Related stacks have related results, or none with the same complaint. -/
theorem agree_result {s s' : List (Quantity α)} (h : List.Forall₂ R s s') :
    Agree excused R (result s) (result s') := by
  match s, s', h with
  | [], [], .nil => exact .error _
  | [q], [q'], .cons hq .nil => exact .ok hq
  | q :: r :: s, q' :: r' :: s', h =>
    have hlen := h.length_eq
    rw [result, result, hlen]
    · exact .error _
    · simp
    · simp

/-- Programs agree if every token keeps an invariant of the two stacks that relates them entry by
entry. -/
theorem agree_evaluate {Inv : List Token → List (Quantity α) → List (Quantity α) → Prop}
    {tokens : List Token}
    (hstep : ∀ before t after s s', before ++ t :: after = tokens → Inv before s s' →
      Agree excused (Inv (before ++ [t])) (step A bindings s t) (step A bindings' s' t))
    (hnil : Inv [] [] []) (hentries : ∀ s s', Inv tokens s s' → List.Forall₂ R s s') :
    Agree excused R ((Program.mk tokens).evaluate A bindings)
      ((Program.mk tokens).evaluate A bindings') := by
  have hrun := agree_run hstep (List.nil_append tokens) hnil
  exact hrun.bind fun s s' hs => agree_result (hentries s s' hs)

end QuantityCalculus
