/-
Reordering one token at a time.

A token puts something out and leaves a stack (`shunt`); what a list of tokens puts out and leaves
is found by doing so for each of them (`shuntAll`).  So a formula can be cut at any place:

* `reorder_append` : the tokens behind the cut are reordered above the stack that those in front of
  it leave,
* `reorder_eq_ok_iff` : the output of a formula is what its tokens put out and what waits behind
  them,
* `shunt_perm`, `perm_of_reorder` : nothing is lost and nothing is invented; what goes out, with
  what still waits, is a permutation of the tokens read, without parentheses and commas, and of what
  waited before.
-/
import QuantityCalculus.Overflow
import QuantityCalculus.Proofs.OperatorStack

namespace QuantityCalculus

open scoped List

/-- What one token puts out, and the stack behind it. -/
def shunt (stack : List Pending) : Token → Except SyntaxError (List Token × List Pending)
  | .name x => .ok ([.name x], stack)
  | .function f => .ok ([], .function f :: stack)
  | .operator o => .ok ((yieldTo o stack).1, .operator o :: (yieldTo o stack).2)
  | .left => .ok ([], .paren :: stack)
  | .comma =>
    match unwind stack with
    | some (out, below) => .ok (out, .paren :: below)
    | none => .error .misplacedComma
  | .right =>
    match unwind stack with
    | some (out, below) => .ok (out ++ (releaseFunction below).1, (releaseFunction below).2)
    | none => .error .unbalancedParentheses

/-- What a list of tokens puts out, and the stack behind it. -/
def shuntAll (stack : List Pending) : List Token → Except SyntaxError (List Token × List Pending)
  | [] => .ok ([], stack)
  | t :: ts =>
    shunt stack t >>= fun r => (shuntAll r.2 ts).map fun r' => (r.1 ++ r'.1, r'.2)

/-! ### What tokens do that do not fail -/

/-- A comma lets go what waits above the open parenthesis and leaves that one. -/
theorem shunt_comma_eq_ok_iff {stack next : List Pending} {out : List Token} :
    shunt stack .comma = .ok (out, next) ↔
      ∃ above below, Pending.paren ∉ above ∧ stack = above ++ .paren :: below ∧
        out = pendingTokens above ∧ next = .paren :: below := by
  constructor
  · intro h
    rw [shunt] at h
    split at h
    · next out' below hunwind =>
      cases h
      obtain ⟨above, hclosed, hstack, hout⟩ := unwind_eq_some_iff.mp hunwind
      exact ⟨above, below, hclosed, hstack, hout, rfl⟩
    · cases h
  · rintro ⟨above, below, hclosed, rfl, rfl, rfl⟩
    rw [shunt, unwind_append hclosed]

/-- A closing parenthesis lets go what waits above the open one, takes that one off and lets the
function behind it go. -/
theorem shunt_right_eq_ok_iff {stack next : List Pending} {out : List Token} :
    shunt stack .right = .ok (out, next) ↔
      ∃ above below, Pending.paren ∉ above ∧ stack = above ++ .paren :: below ∧
        out = pendingTokens above ++ (releaseFunction below).1 ∧
        next = (releaseFunction below).2 := by
  constructor
  · intro h
    rw [shunt] at h
    split at h
    · next out' below hunwind =>
      cases h
      obtain ⟨above, hclosed, hstack, rfl⟩ := unwind_eq_some_iff.mp hunwind
      exact ⟨above, below, hclosed, hstack, rfl, rfl⟩
    · cases h
  · rintro ⟨above, below, hclosed, rfl, rfl, rfl⟩
    rw [shunt, unwind_append hclosed]

theorem shuntAll_cons_eq_ok_iff {stack last : List Pending} {t : Token} {ts out : List Token} :
    shuntAll stack (t :: ts) = .ok (out, last) ↔
      ∃ front mid back, shunt stack t = .ok (front, mid) ∧ shuntAll mid ts = .ok (back, last) ∧
        out = front ++ back := by
  rw [shuntAll, bind_eq_ok_iff]
  constructor
  · rintro ⟨⟨front, mid⟩, hstep, h⟩
    obtain ⟨⟨back, last'⟩, hrest, h⟩ := map_eq_ok_iff.mp h
    cases h
    exact ⟨front, mid, back, hstep, hrest, rfl⟩
  · rintro ⟨front, mid, back, hstep, hrest, rfl⟩
    exact ⟨(front, mid), hstep, map_eq_ok_iff.mpr ⟨(back, last), hrest, rfl⟩⟩

/-- At the end everything that waits is let go, and no parenthesis may be left. -/
theorem reorder_nil_eq_ok_iff {stack : List Pending} {out : List Token} :
    reorder stack [] = .ok out ↔ Pending.paren ∉ stack ∧ out = pendingTokens stack := by
  rw [reorder, ← drain_eq_some_iff]
  cases drain stack with
  | none => exact ⟨nofun, nofun⟩
  | some waiting => rw [Except.ok.injEq, Option.some.injEq]

/-! ### Cutting a formula -/

/-- Reordering puts out what the first token lets go, and then the output of the rest. -/
theorem reorder_cons (stack : List Pending) (t : Token) (rest : List Token) :
    reorder stack (t :: rest) =
      shunt stack t >>= fun r => (reorder r.2 rest).map (r.1 ++ ·) := by
  cases t with
  | name x => rfl
  | operator o => rfl
  | function f =>
    rw [reorder, shunt]
    show _ = (reorder (.function f :: stack) rest).map ([] ++ ·)
    cases reorder (.function f :: stack) rest <;> rfl
  | left =>
    rw [reorder, shunt]
    show _ = (reorder (.paren :: stack) rest).map ([] ++ ·)
    cases reorder (.paren :: stack) rest <;> rfl
  | right =>
    rw [reorder, shunt]
    cases unwind stack <;> rfl
  | comma =>
    rw [reorder, shunt]
    cases unwind stack <;> rfl

-- induction on the tokens in front of the cut
/-- A formula may be cut anywhere: what stands in front of the cut puts out its part and hands over
its stack. -/
theorem reorder_append (stack : List Pending) (ts us : List Token) :
    reorder stack (ts ++ us) =
      shuntAll stack ts >>= fun r => (reorder r.2 us).map (r.1 ++ ·) := by
  induction ts generalizing stack with
  | nil =>
    show reorder stack us = (reorder stack us).map ([] ++ ·)
    cases reorder stack us <;> rfl
  | cons t ts ih =>
    rw [List.cons_append, reorder_cons, shuntAll]
    cases shunt stack t with
    | error e => rfl
    | ok r =>
      simp only [bind, Except.bind] at ih ⊢
      rw [ih]
      cases shuntAll r.2 ts with
      | error e => rfl
      | ok r' => exact map_append_map _ _ _

/-- A formula that is accepted puts out its part, and behind it everything that waits at its end. -/
theorem reorder_eq_ok_iff {stack : List Pending} {ts out : List Token} :
    reorder stack ts = .ok out ↔
      ∃ front last, shuntAll stack ts = .ok (front, last) ∧ Pending.paren ∉ last ∧
        out = front ++ pendingTokens last := by
  rw [← List.append_nil ts, reorder_append, bind_eq_ok_iff, List.append_nil]
  constructor
  · rintro ⟨⟨front, last⟩, hall, h⟩
    obtain ⟨back, hend, rfl⟩ := map_eq_ok_iff.mp h
    obtain ⟨hclosed, rfl⟩ := reorder_nil_eq_ok_iff.mp hend
    exact ⟨front, last, hall, hclosed, rfl⟩
  · rintro ⟨front, last, hall, hclosed, rfl⟩
    have hend := reorder_nil_eq_ok_iff.mpr ⟨hclosed, rfl⟩
    exact ⟨(front, last), hall, map_eq_ok_iff.mpr ⟨_, hend, rfl⟩⟩

theorem shuntAll_append {stack last : List Pending} {ts us out : List Token}
    (h : shuntAll stack (ts ++ us) = .ok (out, last)) :
    ∃ front mid back, shuntAll stack ts = .ok (front, mid) ∧ shuntAll mid us = .ok (back, last) ∧
      out = front ++ back := by
  induction ts generalizing stack out with
  | nil => exact ⟨[], stack, out, rfl, h, rfl⟩
  | cons t ts ih =>
    rw [List.cons_append] at h
    obtain ⟨o, next, more, hstep, hrest, rfl⟩ := shuntAll_cons_eq_ok_iff.mp h
    obtain ⟨front, mid, back, hfront, hback, rfl⟩ := ih hrest
    refine ⟨o ++ front, mid, back, ?_, hback, (List.append_assoc _ _ _).symm⟩
    exact shuntAll_cons_eq_ok_iff.mpr ⟨o, next, front, hstep, hfront, rfl⟩

/-! ### Nothing is lost -/

/-- The tokens without parentheses and commas. -/
def withoutGrouping (tokens : List Token) : List Token := tokens.filter fun t => !t.isGrouping

/-- One token adds itself to what goes out or waits, unless it is grouping; nothing is lost. -/
theorem shunt_perm {stack next : List Pending} {t : Token} {out : List Token}
    (h : shunt stack t = .ok (out, next)) :
    (out ++ pendingTokens next).Perm (withoutGrouping [t] ++ pendingTokens stack) := by
  cases t with
  | name x =>
    cases h
    exact .refl _
  | function f =>
    cases h
    exact .refl _
  | operator o =>
    cases h
    -- what the operator lets go was above what it leaves, so only its own place changes
    rw [pendingTokens, ← pendingTokens_yieldTo o stack]
    exact List.perm_middle
  | left =>
    cases h
    exact .refl _
  | comma =>
    obtain ⟨above, below, -, rfl, rfl, rfl⟩ := shunt_comma_eq_ok_iff.mp h
    rw [pendingTokens_append]
    exact .refl _
  | right =>
    obtain ⟨above, below, -, rfl, rfl, rfl⟩ := shunt_right_eq_ok_iff.mp h
    rw [pendingTokens_append, List.append_assoc, pendingTokens_releaseFunction]
    exact .refl _

theorem shuntAll_perm {stack last : List Pending} {ts out : List Token}
    (h : shuntAll stack ts = .ok (out, last)) :
    (out ++ pendingTokens last).Perm (withoutGrouping ts ++ pendingTokens stack) := by
  induction ts generalizing stack out with
  | nil =>
    cases h
    exact .refl _
  | cons t ts ih =>
    obtain ⟨o, next, more, hstep, hrest, rfl⟩ := shuntAll_cons_eq_ok_iff.mp h
    have hsplit : withoutGrouping (t :: ts) = withoutGrouping [t] ++ withoutGrouping ts :=
      List.filter_append [t] ts
    rw [hsplit]
    -- what the first token puts out moves behind what the others contribute
    calc (o ++ more) ++ pendingTokens last
      _ = o ++ (more ++ pendingTokens last) := List.append_assoc ..
      _ ~ o ++ (withoutGrouping ts ++ pendingTokens next) := (ih hrest).append_left o
      _ ~ withoutGrouping ts ++ (o ++ pendingTokens next) := List.perm_append_comm_assoc ..
      _ ~ withoutGrouping ts ++ (withoutGrouping [t] ++ pendingTokens stack) :=
        (shunt_perm hstep).append_left _
      _ ~ withoutGrouping [t] ++ (withoutGrouping ts ++ pendingTokens stack) :=
        List.perm_append_comm_assoc ..
      _ = _ := (List.append_assoc ..).symm

/-- Reordering permutes: the output consists of the tokens still to be read, without parentheses and
commas, and of what waits. -/
theorem perm_of_reorder {stack : List Pending} {ts out : List Token}
    (h : reorder stack ts = .ok out) :
    out.Perm (withoutGrouping ts ++ pendingTokens stack) := by
  obtain ⟨front, last, hall, -, rfl⟩ := reorder_eq_ok_iff.mp h
  exact shuntAll_perm hall

/-- The postfix form has the tokens of the formula, parentheses and commas apart. -/
theorem toPostfix_perm {tokens out : List Token} (h : toPostfix tokens = .ok out) :
    out.Perm (withoutGrouping tokens) := by
  have hperm := perm_of_reorder h
  rw [pendingTokens, List.append_nil] at hperm
  exact hperm

/-- A token of the postfix form is one of the formula that is neither a parenthesis nor a comma. -/
theorem mem_of_toPostfix {tokens out : List Token} (h : toPostfix tokens = .ok out) {t : Token}
    (ht : t ∈ out) : t ∈ tokens ∧ t.isGrouping = false := by
  have hmem := (toPostfix_perm h).mem_iff.mp ht
  rw [withoutGrouping, List.mem_filter, Bool.not_eq_true'] at hmem
  exact hmem

end QuantityCalculus
