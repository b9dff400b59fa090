/-
Programs are the postorders of trees.

A stack machine that builds trees instead of computing values reads a token list back into the tree
that it is the postorder of.  `graft` is its step, `graftAll` its run:

* `graftAll_postorder` : the postorder of a saturated tree is read back as that tree,
* `graftAll_sound` : whatever is read has the tokens as its postorder,
* `graft_of_step` : a step that computes values is matched by a step that builds the trees of these
  values.

So a program that runs through is the postorder of a tree, of one only, and has its value
(`program_iff_tree`).
-/
import QuantityCalculus.Arithmetic.Double
import QuantityCalculus.Proofs.Step

namespace QuantityCalculus

namespace Expr

/-! ### The machine that builds trees -/

/-- The stack of trees after one token. -/
def graft (stack : List Expr) : Token → Option (List Expr)
  | .name x => some (.name x :: stack)
  | .operator o =>
    match stack with
    | right :: left :: rest => some (.binary o left right :: rest)
    | _ => none
  | .function f =>
    if stack.length < f.arity then none
    else
      match (stack.take f.arity).reverse with
      | first :: others => some (.call f first others :: stack.drop f.arity)
      | [] => none
  | .left | .right | .comma => none

/-- The stack of trees after a list of tokens. -/
def graftAll (stack : List Expr) (tokens : List Token) : Option (List Expr) :=
  tokens.foldlM graft stack

theorem graftAll_cons (stack : List Expr) (t : Token) (ts : List Token) :
    graftAll stack (t :: ts) = (graft stack t).bind fun next => graftAll next ts := by
  rw [graftAll, List.foldlM_cons]
  rfl

theorem graft_function {f : Builtin} {first : Expr} {others : List Expr}
    (h : (first :: others).length = f.arity) (rest : List Expr) :
    graft ((first :: others).reverse ++ rest) (.function f) =
      some (.call f first others :: rest) := by
  have hlen : (first :: others).reverse.length = f.arity := by
    rw [List.length_reverse, h]
  have hshort : ¬ ((first :: others).reverse ++ rest).length < f.arity := by
    rw [List.length_append, hlen]
    omega
  rw [graft, if_neg hshort, List.take_left' hlen, List.drop_left' hlen, List.reverse_reverse]

theorem graft_operator_eq_some_iff {o : Operator} {stack stack' : List Expr} :
    graft stack (.operator o) = some stack' ↔
      ∃ left right rest, stack = right :: left :: rest ∧
        stack' = .binary o left right :: rest := by
  constructor
  · intro h
    cases stack with
    | nil => cases h
    | cons right stack =>
      cases stack with
      | nil => cases h
      | cons left rest => exact ⟨left, right, rest, rfl, (Option.some.inj h).symm⟩
  · rintro ⟨left, right, rest, rfl, rfl⟩
    rfl

/-- A step at a function takes as many trees as the function has arguments. -/
theorem graft_function_eq_some_iff {f : Builtin} {stack stack' : List Expr} :
    graft stack (.function f) = some stack' ↔
      ∃ first others rest, (first :: others).length = f.arity ∧
        stack = (first :: others).reverse ++ rest ∧ stack' = .call f first others :: rest := by
  constructor
  · intro h
    by_cases hshort : stack.length < f.arity
    · rw [graft, if_pos hshort] at h
      cases h
    · obtain ⟨operands, rest, hlen, rfl⟩ := exists_operands (Nat.le_of_not_lt hshort)
      obtain ⟨first, others, rfl⟩ := operands_eq_cons hlen
      rw [graft_function hlen] at h
      exact ⟨first, others, rest, hlen, rfl, (Option.some.inj h).symm⟩
  · rintro ⟨first, others, rest, hlen, rfl, rfl⟩
    exact graft_function hlen rest

/-! ### Reading a postorder back -/

mutual

/-- Reading the postorder of a tree puts the tree on the stack. -/
theorem graftAll_postorder (e : Expr) (he : e.Saturated) (stack : List Expr)
    (rest : List Token) :
    graftAll stack (e.postorder ++ rest) = graftAll (e :: stack) rest := by
  match e with
  | name x =>
    rw [postorder, List.singleton_append, graftAll_cons]
    rfl
  | binary o left right =>
    rw [Saturated] at he
    rw [postorder, List.append_assoc, List.append_assoc, graftAll_postorder left he.1,
      graftAll_postorder right he.2, List.singleton_append, graftAll_cons]
    rfl
  | call f first others =>
    rw [Saturated] at he
    obtain ⟨hfirst, hothers, hlen⟩ := he
    have hstack : others.reverse ++ first :: stack = (first :: others).reverse ++ stack := by
      rw [List.reverse_cons, List.append_assoc, List.singleton_append]
    rw [postorder, List.append_assoc, List.append_assoc, graftAll_postorder first hfirst,
      graftAll_postorderAll others hothers, hstack, List.singleton_append, graftAll_cons,
      graft_function hlen]
    rfl

/-- Reading the postorder of several trees puts them on the stack, the last one on top. -/
theorem graftAll_postorderAll (es : List Expr) (hes : SaturatedAll es) (stack : List Expr)
    (rest : List Token) :
    graftAll stack (postorderAll es ++ rest) = graftAll (es.reverse ++ stack) rest := by
  match es with
  | [] => rfl
  | e :: es =>
    rw [SaturatedAll] at hes
    rw [postorderAll, List.append_assoc, graftAll_postorder e hes.1,
      graftAll_postorderAll es hes.2, List.reverse_cons, List.append_assoc, List.singleton_append]

end

/-- A saturated tree is determined by its postorder. -/
theorem postorder_injective {e e' : Expr} (he : e.Saturated) (he' : e'.Saturated)
    (h : e.postorder = e'.postorder) : e = e' := by
  have hread := graftAll_postorder e he [] []
  rw [h, graftAll_postorder e' he' [] []] at hread
  cases hread
  rfl

/-! ### What is read is a postorder -/

theorem postorderAll_append (es fs : List Expr) :
    postorderAll (es ++ fs) = postorderAll es ++ postorderAll fs := by
  induction es with
  | nil => rfl
  | cons e es ih => rw [List.cons_append, postorderAll, postorderAll, ih, List.append_assoc]

theorem saturatedAll_append {es fs : List Expr} :
    SaturatedAll (es ++ fs) ↔ SaturatedAll es ∧ SaturatedAll fs := by
  induction es with
  | nil => rw [List.nil_append, SaturatedAll, true_and]
  | cons e es ih => rw [List.cons_append, SaturatedAll, SaturatedAll, ih, and_assoc]

/-- The trees on the stack are saturated, and their postorders, from the bottom up, are the tokens
read. -/
def Reads (stack : List Expr) (tokens : List Token) : Prop :=
  SaturatedAll stack.reverse ∧ postorderAll stack.reverse = tokens

theorem reads_nil : Reads [] [] := ⟨trivial, rfl⟩

/-- The trees of the operands are the last part of what was read. -/
theorem reads_append (operands : List Expr) {rest : List Expr} {tokens : List Token} :
    Reads (operands.reverse ++ rest) tokens ↔
      SaturatedAll rest.reverse ∧ SaturatedAll operands ∧
        postorderAll rest.reverse ++ postorderAll operands = tokens := by
  rw [Reads, List.reverse_append, List.reverse_reverse, saturatedAll_append, postorderAll_append,
    and_assoc]

theorem reads_cons {e : Expr} {rest : List Expr} {tokens : List Token} :
    Reads (e :: rest) tokens ↔
      SaturatedAll rest.reverse ∧ e.Saturated ∧
        postorderAll rest.reverse ++ e.postorder = tokens := by
  have h : Reads ([e].reverse ++ rest) tokens ↔ _ := reads_append [e]
  rw [SaturatedAll, SaturatedAll, and_true, postorderAll, postorderAll, List.append_nil] at h
  exact h

/-- Reading one more token keeps the stack the trees of the tokens read so far. -/
theorem reads_of_graft {stack stack' : List Expr} {tokens : List Token} {t : Token}
    (hread : Reads stack tokens) (h : graft stack t = some stack') :
    Reads stack' (tokens ++ [t]) := by
  cases t with
  | name x =>
    cases h
    obtain ⟨hsat, rfl⟩ := hread
    exact reads_cons.mpr ⟨hsat, trivial, rfl⟩
  | operator o =>
    obtain ⟨left, right, rest, rfl, rfl⟩ := graft_operator_eq_some_iff.mp h
    -- the two upper trees have read the end of the tokens, so they become operands in order
    have hsplit := (reads_append [left, right]).mp hread
    rw [SaturatedAll, SaturatedAll, SaturatedAll, and_true, postorderAll, postorderAll,
      postorderAll, List.append_nil] at hsplit
    obtain ⟨hrest, hoperands, rfl⟩ := hsplit
    refine reads_cons.mpr ⟨hrest, hoperands, ?_⟩
    rw [postorder]
    simp only [List.append_assoc]
  | function f =>
    obtain ⟨first, others, rest, hlen, rfl, rfl⟩ := graft_function_eq_some_iff.mp h
    obtain ⟨hrest, hoperands, rfl⟩ := (reads_append (first :: others)).mp hread
    rw [SaturatedAll] at hoperands
    refine reads_cons.mpr ⟨hrest, ⟨hoperands.1, hoperands.2, hlen⟩, ?_⟩
    rw [postorder, postorderAll]
    simp only [List.append_assoc]
  | left => cases h
  | right => cases h
  | comma => cases h

theorem reads_of_graftAll {stack stack' : List Expr} {done tokens : List Token}
    (hread : Reads stack done) (h : graftAll stack tokens = some stack') :
    Reads stack' (done ++ tokens) := by
  induction tokens generalizing stack done with
  | nil =>
    cases h
    rw [List.append_nil]
    exact hread
  | cons t ts ih =>
    rw [graftAll_cons, Option.bind_eq_some_iff] at h
    obtain ⟨next, hstep, hrest⟩ := h
    have hnext := ih (reads_of_graft hread hstep) hrest
    rw [List.append_assoc, List.singleton_append] at hnext
    exact hnext

/-- A token list that is read as one tree is the postorder of that tree. -/
theorem graftAll_sound {tokens : List Token} {e : Expr} (h : graftAll [] tokens = some [e]) :
    e.Saturated ∧ e.postorder = tokens := by
  have hread := reads_of_graftAll reads_nil h
  obtain ⟨-, he, htokens⟩ := reads_cons.mp hread
  exact ⟨he, htokens⟩

/-! ### Values and their trees -/

variable {α : Type} (A : Arithmetic α) (bindings : List (Binding α))

/-- The tree has the value. -/
def HasValue (e : Expr) (q : Quantity α) : Prop := e.evaluate A bindings = .ok q

theorem evaluateAll_of_forall₂ {es : List Expr} {qs : List (Quantity α)}
    (h : List.Forall₂ (HasValue A bindings) es qs) : evaluateAll A bindings es = .ok qs := by
  induction h with
  | nil => rfl
  | @cons e q es qs he _ ih =>
    have he' : e.evaluate A bindings = .ok q := he
    rw [evaluateAll, he', ih]
    rfl

/-- A step on values is a step on trees that have these values. -/
theorem graft_of_step {trees : List Expr} {stack stack' : List (Quantity α)} {t : Token}
    (htrees : List.Forall₂ (HasValue A bindings) trees stack)
    (h : step A bindings stack t = .ok stack') :
    ∃ trees', graft trees t = some trees' ∧
      List.Forall₂ (HasValue A bindings) trees' stack' := by
  cases t with
  | name x =>
    rw [step_name] at h
    obtain ⟨value, hvalue, rfl⟩ := map_eq_ok_iff.mp h
    exact ⟨.name x :: trees, rfl, .cons hvalue htrees⟩
  | operator o =>
    match stack, trees, htrees with
    | right :: left :: rest, er :: el :: es, .cons hr (.cons hl hes) =>
      rw [step_operator] at h
      obtain ⟨value, hvalue, rfl⟩ := map_eq_ok_iff.mp h
      refine ⟨.binary o el er :: es, rfl, .cons ?_ hes⟩
      have hl' : el.evaluate A bindings = .ok left := hl
      have hr' : er.evaluate A bindings = .ok right := hr
      rw [HasValue, evaluate, hl', hr']
      exact hvalue
    | [], _, _ => cases h
    | [_], _, _ => cases h
  | function f =>
    by_cases hshort : stack.length < f.arity
    · rw [step_function_short A bindings hshort] at h
      cases h
    · rw [← htrees.length_eq] at hshort
      -- the values taken off are those of the trees taken off
      obtain ⟨es, restes, operands, rest, hlen, rfl, rfl, hoperands, hrest⟩ :=
        exists_operands_forall₂ htrees (Nat.le_of_not_lt hshort)
      rw [step_function A bindings (by rw [← hoperands.length_eq, hlen])] at h
      obtain ⟨value, hvalue, rfl⟩ := map_eq_ok_iff.mp h
      obtain ⟨e, es, rfl⟩ := operands_eq_cons hlen
      obtain ⟨q, qs, he, hes, rfl⟩ := List.forall₂_cons_left_iff.mp hoperands
      refine ⟨.call f e es :: restes, graft_function hlen restes, .cons ?_ hrest⟩
      have he' : e.evaluate A bindings = .ok q := he
      rw [HasValue, evaluate, he', evaluateAll_of_forall₂ A bindings hes]
      exact hvalue
  | left => cases h
  | right => cases h
  | comma => cases h

-- induction on the tokens; the trees of the values on the stack are the invariant
/-- A run on values is a reading of trees that have these values. -/
theorem graftAll_of_run {trees : List Expr} {stack stack' : List (Quantity α)}
    {tokens : List Token} (htrees : List.Forall₂ (HasValue A bindings) trees stack)
    (h : run A bindings stack tokens = .ok stack') :
    ∃ trees', graftAll trees tokens = some trees' ∧
      List.Forall₂ (HasValue A bindings) trees' stack' := by
  induction tokens generalizing trees stack with
  | nil =>
    cases h
    exact ⟨trees, rfl, htrees⟩
  | cons t ts ih =>
    rw [run_cons, bind_eq_ok_iff] at h
    obtain ⟨next, hstep, hrest⟩ := h
    obtain ⟨trees₁, hgraft, htrees₁⟩ := graft_of_step A bindings htrees hstep
    obtain ⟨trees', hall, htrees'⟩ := ih htrees₁ hrest
    refine ⟨trees', ?_, htrees'⟩
    rw [graftAll_cons, hgraft]
    exact hall

/-- A program that has a value is the postorder of a tree with that value. -/
theorem exists_tree_of_evaluate {tokens : List Token} {value : Quantity α}
    (h : (Program.mk tokens).evaluate A bindings = .ok value) :
    ∃ e : Expr, e.Saturated ∧ e.postorder = tokens ∧ e.evaluate A bindings = .ok value := by
  rw [evaluate_eq_ok_iff] at h
  obtain ⟨trees, hgraft, htrees⟩ := graftAll_of_run A bindings .nil h
  match trees, htrees with
  | [e], .cons he .nil =>
    obtain ⟨hsat, htokens⟩ := graftAll_sound hgraft
    exact ⟨e, hsat, htokens, he⟩

/-- **Programs compute what their trees compute**: a token list has a value exactly if it is the
postorder of a saturated tree with that value; there is at most one such tree; and where there is
one, the program has its result, whether that is a value or an error. -/
theorem program_iff_tree (tokens : List Token) :
    (∀ value, (Program.mk tokens).evaluate A bindings = .ok value ↔
      ∃ e : Expr, e.Saturated ∧ e.postorder = tokens ∧ e.evaluate A bindings = .ok value) ∧
    (∀ e e' : Expr, e.Saturated → e'.Saturated → e.postorder = tokens → e'.postorder = tokens →
      e = e') ∧
    (∀ e : Expr, e.Saturated → e.postorder = tokens →
      (Program.mk tokens).evaluate A bindings = e.evaluate A bindings) := by
  refine ⟨fun value => ⟨exists_tree_of_evaluate A bindings, ?_⟩, ?_, ?_⟩
  · rintro ⟨e, hsat, rfl, hvalue⟩
    rw [evaluate_postorder A bindings e hsat, hvalue]
  · intro e e' he he' h h'
    exact postorder_injective he he' (h.trans h'.symm)
  · rintro e hsat rfl
    exact evaluate_postorder A bindings e hsat

/-- Of two unknown names the left one is reported, by the program and by the tree. -/
theorem program_iff_tree_unknown :
    (Program.mk [.name "p", .name "q", .function .sin, .operator .add]).evaluate .double [] =
      (binary .add (.name "p") (.call .sin (.name "q") [])).evaluate .double [] := by
  obtain ⟨-, -, hresult⟩ :=
    program_iff_tree .double [] [.name "p", .name "q", .function .sin, .operator .add]
  exact hresult _ ⟨trivial, trivial, trivial, rfl⟩ rfl

end Expr

end QuantityCalculus
