/-
What a formula keeps when it is reordered.

Operators and functions move behind their operands, parentheses and commas go; nothing else happens
to a formula, well formed or not.  Names in particular never wait, so they go out in the order in
which they are read:

* `filter_isName_of_shunt`, `filter_isName_of_reorder` : the names put out are those read, in order,
* `Program.identifiers_concat`, `Program.identifiers_concat_name` : identifiers are collected from
  the front, one token at a time,
* `Program.pairwise_idxOf_identifiers` : the identifiers of a list of tokens stand in the order of
  their first appearance in it,
* `toPostfix_conserves` : so a program consists of the tokens of its formula, and its identifiers
  are the names of the formula in the order of first appearance.

Design notes: a token contributes at most one name, and a permutation of at most one token is no
permutation.  So that the names keep their order follows from `shunt_perm`, without a look at what
each token does to the stack.
-/
import Mathlib.Data.List.Basic
import Mathlib.Data.List.Induction
import QuantityCalculus.Program.Basic
import QuantityCalculus.Proofs.Reordering

namespace QuantityCalculus

/-! ### Names go out as they are read -/

/-- No name waits on the stack. -/
theorem filter_isName_pendingTokens (stack : List Pending) :
    (pendingTokens stack).filter Token.isName = [] := by
  rw [List.filter_eq_nil_iff]
  intro t ht hname
  obtain ⟨x, rfl⟩ := Token.isName_iff.mp hname
  exact name_not_mem_pendingTokens x stack ht

theorem filter_isName_withoutGrouping (tokens : List Token) :
    (withoutGrouping tokens).filter Token.isName = tokens.filter Token.isName := by
  rw [withoutGrouping, List.filter_filter]
  refine List.filter_congr fun t _ => ?_
  cases t <;> rfl

/-- A token lets the names through at once and nothing else that is a name. -/
theorem filter_isName_of_shunt {stack next : List Pending} {t : Token} {out : List Token}
    (h : shunt stack t = .ok (out, next)) :
    out.filter Token.isName = [t].filter Token.isName := by
  have hperm := (shunt_perm h).filter Token.isName
  rw [List.filter_append, List.filter_append, filter_isName_pendingTokens,
    filter_isName_pendingTokens, List.append_nil, List.append_nil,
    filter_isName_withoutGrouping] at hperm
  -- there is one way only to order at most one token
  cases hname : t.isName with
  | true =>
    rw [List.filter_cons_of_pos hname, List.filter_nil] at hperm ⊢
    exact List.perm_singleton.mp hperm
  | false =>
    rw [List.filter_cons_of_neg (by simp [hname]), List.filter_nil] at hperm ⊢
    exact List.perm_nil.mp hperm

theorem filter_isName_of_shuntAll {stack last : List Pending} {ts out : List Token}
    (h : shuntAll stack ts = .ok (out, last)) :
    out.filter Token.isName = ts.filter Token.isName := by
  induction ts generalizing stack out with
  | nil =>
    cases h
    rfl
  | cons t ts ih =>
    obtain ⟨front, next, back, hstep, hrest, rfl⟩ := shuntAll_cons_eq_ok_iff.mp h
    have hsplit : (t :: ts).filter Token.isName =
        [t].filter Token.isName ++ ts.filter Token.isName := List.filter_append [t] ts
    rw [List.filter_append, filter_isName_of_shunt hstep, ih hrest, hsplit]

/-- Reordering keeps the names in their order. -/
theorem filter_isName_of_reorder {stack : List Pending} {ts out : List Token}
    (h : reorder stack ts = .ok out) : out.filter Token.isName = ts.filter Token.isName := by
  obtain ⟨front, last, hall, -, rfl⟩ := reorder_eq_ok_iff.mp h
  rw [List.filter_append, filter_isName_pendingTokens, List.append_nil,
    filter_isName_of_shuntAll hall]

/-! ### Identifiers in the order of first appearance -/

namespace Program

/-- The identifiers depend on the names only. -/
theorem identifiers_filter_isName (ts : List Token) :
    (Program.mk (ts.filter Token.isName)).identifiers = (Program.mk ts).identifiers := by
  rw [identifiers, identifiers, List.filterMap_filter]
  congr 2
  funext t
  cases t <;> rfl

/-- A token that is no name adds no identifier. -/
theorem identifiers_concat {t : Token} (ht : t.isName = false) (ts : List Token) :
    (Program.mk (ts ++ [t])).identifiers = (Program.mk ts).identifiers := by
  rw [← identifiers_filter_isName, List.filter_append, List.filter_cons_of_neg (by simp [ht]),
    List.filter_nil, List.append_nil, identifiers_filter_isName]

/-- A name is added behind the identifiers in front of it, unless it is one of them. -/
theorem identifiers_concat_name (ts : List Token) (x : String) :
    (Program.mk (ts ++ [.name x])).identifiers =
      if .name x ∈ ts then (Program.mk ts).identifiers
      else (Program.mk ts).identifiers ++ [x] := by
  have hmem := @mem_identifiers (Program.mk ts) x
  rw [identifiers, List.mem_eraseDups] at hmem
  rw [identifiers, identifiers, List.filterMap_append, List.eraseDups_append]
  generalize List.filterMap _ ts = names at hmem ⊢
  by_cases hx : Token.name x ∈ ts
  · simp [List.removeAll, hx, hmem.mpr hx]
  · simp [List.removeAll, hx, hmem, List.eraseDups_cons]

/-- The identifiers are listed in the order in which they first occur. -/
theorem pairwise_idxOf_identifiers (ts : List Token) :
    (Program.mk ts).identifiers.Pairwise fun x y =>
      ts.idxOf (.name x) < ts.idxOf (.name y) := by
  induction ts using List.reverseRecOn with
  | nil => exact .nil
  | append_singleton ts t ih =>
    -- what appears in the front appears at the same place in the whole
    have hplace : ∀ x ∈ (Program.mk ts).identifiers,
        (ts ++ [t]).idxOf (.name x) = ts.idxOf (.name x) :=
      fun x hx => List.idxOf_append_of_mem (mem_identifiers.mp hx)
    have hfront : (Program.mk ts).identifiers.Pairwise fun x y =>
        (ts ++ [t]).idxOf (.name x) < (ts ++ [t]).idxOf (.name y) := by
      refine ih.imp_of_mem fun {x y} hx hy hlt => ?_
      rw [hplace x hx, hplace y hy]
      exact hlt
    cases hname : t.isName with
    | false =>
      rw [identifiers_concat hname]
      exact hfront
    | true =>
      obtain ⟨x, rfl⟩ := Token.isName_iff.mp hname
      rw [identifiers_concat_name]
      split
      · exact hfront
      · next hnew =>
        rw [List.pairwise_append]
        refine ⟨hfront, List.pairwise_singleton _ _, fun y hy z hz => ?_⟩
        rw [List.mem_singleton.mp hz, hplace y hy, List.idxOf_append_of_notMem hnew]
        have hlt : ts.idxOf (.name y) < ts.length :=
          List.idxOf_lt_length_of_mem (mem_identifiers.mp hy)
        omega

end Program

/-! ### Formulas and their programs -/

/-- A formula and its postfix form have the same identifiers in the same order. -/
theorem identifiers_of_toPostfix {tokens out : List Token} (h : toPostfix tokens = .ok out) :
    (Program.mk out).identifiers = (Program.mk tokens).identifiers := by
  rw [← Program.identifiers_filter_isName, filter_isName_of_reorder h,
    Program.identifiers_filter_isName]

/-- **Nothing is lost and nothing is invented**: reordering a list of tokens, well formed or not,
drops its parentheses and commas, permutes the others and keeps the order of the names.  So the
identifiers of the program of a formula are the names of the formula, each listed once, in the order
of first appearance. -/
theorem toPostfix_conserves :
    (∀ tokens out : List Token, toPostfix tokens = .ok out →
      (∀ t ∈ out, t.isGrouping = false) ∧ out.Perm (tokens.filter fun t => !t.isGrouping) ∧
        out.filter Token.isName = tokens.filter Token.isName) ∧
    ∀ (formula : String) (p : Program), Program.compile formula = .ok p →
      ∃ tokens, tokenize formula = .ok tokens ∧ p.identifiers.Nodup ∧
        (∀ x, x ∈ p.identifiers ↔ .name x ∈ tokens) ∧
        p.identifiers.Pairwise fun x y => tokens.idxOf (.name x) < tokens.idxOf (.name y) := by
  constructor
  · intro tokens out h
    exact ⟨fun t ht => (mem_of_toPostfix h ht).2, toPostfix_perm h, filter_isName_of_reorder h⟩
  · rintro formula ⟨out⟩ h
    obtain ⟨tokens, htokens, hout⟩ := Program.compile_eq_ok_iff.mp h
    have hplaces := Program.pairwise_idxOf_identifiers tokens
    have hdistinct : (Program.mk tokens).identifiers.Nodup :=
      hplaces.imp fun {x y} hlt heq => absurd (heq ▸ hlt) (Nat.lt_irrefl _)
    rw [identifiers_of_toPostfix hout]
    exact ⟨tokens, htokens, hdistinct, fun x => Program.mem_identifiers, hplaces⟩

/-- A list of tokens that is accepted though it is no formula, and a formula with a name twice. -/
theorem toPostfix_conserves_twice :
    [Token.name "x", .operator .add, .name "y", .name "x", .function .sin].Perm
      ([Token.left, .name "x", .comma, .operator .add, .right, .name "y", .function .sin,
        .name "x"].filter fun t => !t.isGrouping) ∧
    ∃ tokens, tokenize "log(b,a)-b*sin(c)" = .ok tokens ∧
      ["b", "a", "c"].Pairwise fun x y => tokens.idxOf (.name x) < tokens.idxOf (.name y) := by
  have hout : toPostfix [.left, .name "x", .comma, .operator .add, .right, .name "y",
      .function .sin, .name "x"] =
      .ok [.name "x", .operator .add, .name "y", .name "x", .function .sin] := rfl
  have hprogram : Program.compile "log(b,a)-b*sin(c)" =
      .ok ⟨[.name "b", .name "a", .function .log, .name "b", .name "c", .function .sin,
        .operator .multiply, .operator .subtract]⟩ := rfl
  obtain ⟨hlists, hformulas⟩ := toPostfix_conserves
  obtain ⟨tokens, htokens, -, -, hplaces⟩ := hformulas _ _ hprogram
  exact ⟨(hlists _ _ hout).2.1, tokens, htokens, hplaces⟩

end QuantityCalculus
