/-
Parenthesized parts of formulas.

What stands between parentheses is reordered as if it stood alone: above an open parenthesis the
stack behaves like an empty one, and the closing parenthesis lets go what the end of a formula would
(`reorder_enclosed`).  So a part of a formula may be taken out, reordered on its own, and put back
in place of a name:

* `toPostfix_substitution` : in whatever stands around it, a parenthesized part contributes the
  tokens that it is reordered to, at the place of a single name.

Design notes: neither side of the part has to be well formed, so nothing is known about the stack
that the tokens in front of the part leave, except for its top.  There must be no function, which
the closing parenthesis would let go.
-/
import QuantityCalculus.Proofs.Reordering

namespace QuantityCalculus

/-! ### Above an open parenthesis -/

/-- Operators are let go down to the next parenthesis, so what waits below it stays. -/
theorem yieldTo_above (o : Operator) (stack bottom : List Pending) :
    yieldTo o (stack ++ .paren :: bottom) =
      ((yieldTo o stack).1, (yieldTo o stack).2 ++ .paren :: bottom) := by
  induction stack with
  | nil => rfl
  | cons p stack ih =>
    cases p with
    | operator w =>
      rw [List.cons_append, yieldTo, yieldTo, ih]
      cases w.yieldsTo o <;> rfl
    | function f => rfl
    | paren => rfl

theorem releaseFunction_above (stack bottom : List Pending) :
    releaseFunction (stack ++ .paren :: bottom) =
      ((releaseFunction stack).1, (releaseFunction stack).2 ++ .paren :: bottom) := by
  cases stack with
  | nil => rfl
  | cons p stack => cases p <;> rfl

/-- A token that does not fail on a stack does the same to it above an open parenthesis. -/
theorem shunt_above {stack next : List Pending} {t : Token} {out : List Token}
    (h : shunt stack t = .ok (out, next)) (bottom : List Pending) :
    shunt (stack ++ .paren :: bottom) t = .ok (out, next ++ .paren :: bottom) := by
  cases t with
  | name x =>
    cases h
    rfl
  | function f =>
    cases h
    rfl
  | operator o =>
    cases h
    rw [shunt, yieldTo_above]
    rfl
  | left =>
    cases h
    rfl
  | comma =>
    obtain ⟨above, below, hclosed, rfl, rfl, rfl⟩ := shunt_comma_eq_ok_iff.mp h
    exact shunt_comma_eq_ok_iff.mpr
      ⟨above, below ++ .paren :: bottom, hclosed, List.append_assoc .., rfl, rfl⟩
  | right =>
    obtain ⟨above, below, hclosed, rfl, rfl, rfl⟩ := shunt_right_eq_ok_iff.mp h
    refine shunt_right_eq_ok_iff.mpr
      ⟨above, below ++ .paren :: bottom, hclosed, List.append_assoc .., ?_, ?_⟩
    · rw [releaseFunction_above]
    · rw [releaseFunction_above]

/-- What does not fail on some stack does the same to it above an open parenthesis. -/
theorem shuntAll_above {stack last : List Pending} {ts out : List Token}
    (h : shuntAll stack ts = .ok (out, last)) (bottom : List Pending) :
    shuntAll (stack ++ .paren :: bottom) ts = .ok (out, last ++ .paren :: bottom) := by
  induction ts generalizing stack out with
  | nil =>
    cases h
    rfl
  | cons t ts ih =>
    obtain ⟨front, mid, back, hstep, hrest, rfl⟩ := shuntAll_cons_eq_ok_iff.mp h
    exact shuntAll_cons_eq_ok_iff.mpr
      ⟨front, mid ++ .paren :: bottom, back, shunt_above hstep bottom, ih hrest, rfl⟩

/-- Between parentheses a formula is reordered as on its own, unless a function waits in front of
them. -/
theorem reorder_enclosed {inner program : List Token} (h : toPostfix inner = .ok program)
    {stack : List Pending} (hstack : releaseFunction stack = ([], stack)) (rest : List Token) :
    reorder stack (.left :: (inner ++ .right :: rest)) =
      (reorder stack rest).map (program ++ ·) := by
  obtain ⟨out, last, hall, hclosed, rfl⟩ := reorder_eq_ok_iff.mp h
  have habove := shuntAll_above hall stack
  rw [List.nil_append] at habove
  -- what the end of the formula would let go, the closing parenthesis does
  rw [reorder, reorder_append, habove]
  simp only [bind, Except.bind]
  rw [reorder, unwind_append hclosed]
  simp only [hstack, List.append_nil]
  exact map_append_map _ _ _

/-! ### In front of a part -/

/-- Behind the token a new operand begins. -/
def Token.opensOperand : Token → Bool
  | operator _ | left | comma => true
  | name _ | function _ | right => false

/-- Behind a token that waits for its operand no function is on top. -/
theorem releaseFunction_of_shunt {stack next : List Pending} {t : Token} {out : List Token}
    (h : shunt stack t = .ok (out, next)) (ht : t.opensOperand = true) :
    releaseFunction next = ([], next) := by
  cases t with
  | name x => cases ht
  | function f => cases ht
  | operator o =>
    cases h
    rfl
  | left =>
    cases h
    rfl
  | comma =>
    obtain ⟨above, below, -, rfl, rfl, rfl⟩ := shunt_comma_eq_ok_iff.mp h
    rfl
  | right => cases ht

/-- Where a token list ends with a token that waits for its operand, or is empty, no function is on
top. -/
theorem releaseFunction_of_shuntAll {last : List Pending} {ts out : List Token}
    (h : shuntAll [] ts = .ok (out, last))
    (hts : ∀ t, ts.getLast? = some t → t.opensOperand = true) :
    releaseFunction last = ([], last) := by
  rcases List.eq_nil_or_concat ts with rfl | ⟨front, t, rfl⟩
  · cases h
    rfl
  · rw [List.concat_eq_append] at h hts
    -- only the last token matters
    obtain ⟨_, mid, _, -, hlast, -⟩ := shuntAll_append h
    obtain ⟨_, next, _, hstep, hnil, -⟩ := shuntAll_cons_eq_ok_iff.mp hlast
    cases hnil
    exact releaseFunction_of_shunt hstep (hts t List.getLast?_concat)

/-! ### Names -/

/-- A name is put out only if it has been read. -/
theorem name_mem_of_perm {x : String} {ts out waiting : List Token} {stack : List Pending}
    (h : (out ++ waiting).Perm (withoutGrouping ts ++ pendingTokens stack))
    (hx : Token.name x ∈ out) : Token.name x ∈ ts := by
  have hmem := h.mem_iff.mp (List.mem_append_left waiting hx)
  rcases List.mem_append.mp hmem with hmem | hmem
  · exact (List.mem_filter.mp hmem).1
  · exact absurd hmem (name_not_mem_pendingTokens x stack)

/-- The tokens with others in place of a name. -/
def substitute (x : String) (program tokens : List Token) : List Token :=
  tokens.flatMap fun t => if t = .name x then program else [t]

theorem substitute_of_not_mem {x : String} {tokens : List Token} (h : Token.name x ∉ tokens)
    (program : List Token) : substitute x program tokens = tokens := by
  induction tokens with
  | nil => rfl
  | cons t ts ih =>
    rw [List.mem_cons, not_or] at h
    rw [substitute, List.flatMap_cons, if_neg (Ne.symm h.1)]
    exact congrArg (t :: ·) (ih h.2)

theorem substitute_once {x : String} {front back : List Token} (hfront : Token.name x ∉ front)
    (hback : Token.name x ∉ back) (program : List Token) :
    substitute x program (front ++ .name x :: back) = front ++ (program ++ back) := by
  rw [substitute, List.flatMap_append, List.flatMap_cons, if_pos rfl]
  show substitute x program front ++ (program ++ substitute x program back) = _
  rw [substitute_of_not_mem hfront, substitute_of_not_mem hback]

theorem count_once {x : String} {front back : List Token} (hfront : Token.name x ∉ front)
    (hback : Token.name x ∉ back) : (front ++ Token.name x :: back).count (.name x) = 1 := by
  rw [List.count_append, List.count_cons_self, List.count_eq_zero.mpr hfront,
    List.count_eq_zero.mpr hback]

/-! ### Substitution -/

/-- Either both formulas fail, in the same way, or the name stands in the output of the one where
the tokens of the part stand in the output of the other. -/
theorem toPostfix_parts {before inner after program : List Token} {x : String}
    (hinner : toPostfix inner = .ok program)
    (hbefore : ∀ t, before.getLast? = some t → t.opensOperand = true)
    (hxbefore : Token.name x ∉ before) (hxafter : Token.name x ∉ after) :
    (∃ e, toPostfix (before ++ .name x :: after) = .error e ∧
      toPostfix (before ++ .left :: (inner ++ .right :: after)) = .error e) ∨
    ∃ front back, Token.name x ∉ front ∧ Token.name x ∉ back ∧
      toPostfix (before ++ .name x :: after) = .ok (front ++ .name x :: back) ∧
      toPostfix (before ++ .left :: (inner ++ .right :: after)) =
        .ok (front ++ (program ++ back)) := by
  rw [toPostfix, toPostfix, reorder_append, reorder_append]
  cases hall : shuntAll [] before with
  | error e => exact .inl ⟨e, rfl, rfl⟩
  | ok r =>
    obtain ⟨front, stack⟩ := r
    have hstack := releaseFunction_of_shuntAll hall hbefore
    simp only [bind, Except.bind]
    rw [reorder_enclosed hinner hstack, reorder]
    cases hrest : reorder stack after with
    | error e => exact .inl ⟨e, rfl, rfl⟩
    | ok back =>
      refine .inr ⟨front, back, ?_, ?_, rfl, rfl⟩
      · exact fun hx => hxbefore (name_mem_of_perm (shuntAll_perm hall) hx)
      · have hperm := perm_of_reorder hrest
        rw [← List.append_nil back] at hperm
        exact fun hx => hxafter (name_mem_of_perm hperm hx)

/-- **Parenthesized parts can be substituted**: where an operand may begin, a parenthesized formula
compiles as a name does that occurs nowhere else, with the program of the formula in place of that
name.  What stands around it need not be well formed. -/
theorem toPostfix_substitution {before inner after program : List Token} {x : String}
    (hinner : toPostfix inner = .ok program)
    (hbefore : ∀ t, before.getLast? = some t → t.opensOperand = true)
    (hxbefore : Token.name x ∉ before) (hxafter : Token.name x ∉ after) :
    toPostfix (before ++ [.left] ++ inner ++ [.right] ++ after) =
      (toPostfix (before ++ [.name x] ++ after)).map (substitute x program) ∧
    ∀ out, toPostfix (before ++ [.name x] ++ after) = .ok out → out.count (.name x) = 1 := by
  simp only [List.append_assoc, List.cons_append, List.nil_append]
  rcases toPostfix_parts hinner hbefore hxbefore hxafter with
    ⟨e, hname, hpart⟩ | ⟨front, back, hfront, hback, hname, hpart⟩
  · rw [hname, hpart]
    exact ⟨rfl, fun out h => by cases h⟩
  · rw [hname, hpart, Except.map, substitute_once hfront hback]
    refine ⟨rfl, ?_⟩
    rintro out h
    cases h
    exact count_once hfront hback

/-- A parenthesized sum as the last argument of a call; what surrounds it is no formula. -/
theorem toPostfix_substitution_argument :
    toPostfix [.function .log, .left, .name "a", .comma, .left, .name "b", .operator .add,
        .name "c", .right, .right, .operator .power] =
      .ok [.name "a", .name "b", .name "c", .operator .add, .function .log, .operator .power] := by
  have hbefore : ∀ t, [Token.function .log, .left, .name "a", .comma].getLast? = some t →
      t.opensOperand = true := by
    rintro t ⟨⟩
    rfl
  exact (@toPostfix_substitution [.function .log, .left, .name "a", .comma]
    [.name "b", .operator .add, .name "c"] [.right, .operator .power] _ "x" rfl hbefore
    (by decide) (by decide)).1

end QuantityCalculus
