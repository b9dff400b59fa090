/-
How deep a formula is nested.

The depth of a list of tokens is the number of parentheses opened in it less the number closed
(`depth`).  Reordering keeps no such number, but its stack does: the parentheses that wait on it are
those still open.

* `shunt_depth`, `shuntAll_depth` : the open parentheses of the stack follow the depth, through
  every token and every list of tokens,
* `shunt_eq_error_iff` : a token fails exactly if it is a comma or a closing parenthesis and no
  parenthesis is open,
* `toPostfix_nesting` : so the depths decide whether a formula is accepted, and its error if not.

The formula need not be well formed in any other way.
-/
import QuantityCalculus.Proofs.Reordering

namespace QuantityCalculus

/-! ### Depth -/

/-- The parentheses opened in a list of tokens, less those closed in it. -/
def depth (tokens : List Token) : Int := tokens.count .left - tokens.count .right

/-- Every closing parenthesis and every comma is met inside of a parenthesis. -/
def Nested (tokens : List Token) : Prop :=
  ∀ before t after, tokens = before ++ t :: after → t = .right ∨ t = .comma → 1 ≤ depth before

/-- Outside of all parentheses a closing parenthesis or a comma is met, for the first time, and `e`
is its error. -/
def MeetsOutside (tokens : List Token) (e : SyntaxError) : Prop :=
  ∃ before t after, tokens = before ++ t :: after ∧ Nested before ∧ depth before = 0 ∧
    (t = .right ∧ e = .unbalancedParentheses ∨ t = .comma ∧ e = .misplacedComma)

@[simp] theorem depth_nil : depth [] = 0 := rfl

@[simp] theorem depth_append (ts us : List Token) : depth (ts ++ us) = depth ts + depth us := by
  simp only [depth, List.count_append]
  omega

theorem depth_cons (t : Token) (ts : List Token) : depth (t :: ts) = depth [t] + depth ts :=
  depth_append [t] ts

/-! ### Open parentheses -/

/-- The number of parentheses that are open. -/
def openParens (stack : List Pending) : Int := stack.count .paren

theorem openParens_append (above below : List Pending) :
    openParens (above ++ below) = openParens above + openParens below := by
  simp [openParens, List.count_append]

theorem openParens_paren (stack : List Pending) :
    openParens (.paren :: stack) = openParens stack + 1 := by
  simp [openParens]

theorem openParens_operator (o : Operator) (stack : List Pending) :
    openParens (.operator o :: stack) = openParens stack := by
  simp [openParens]

theorem openParens_function (f : Builtin) (stack : List Pending) :
    openParens (.function f :: stack) = openParens stack := by
  simp [openParens]

theorem openParens_eq_zero_iff {stack : List Pending} :
    openParens stack = 0 ↔ Pending.paren ∉ stack := by
  rw [openParens, Int.natCast_eq_zero, List.count_eq_zero]

theorem openParens_nonneg (stack : List Pending) : 0 ≤ openParens stack := Int.natCast_nonneg _

theorem openParens_yieldTo (o : Operator) (stack : List Pending) :
    openParens (yieldTo o stack).2 = openParens stack := by
  induction stack with
  | nil => rfl
  | cons p stack ih =>
    cases p with
    | operator w =>
      rw [yieldTo]
      split
      · rw [openParens_operator, ih]
      · rfl
    | function f => rfl
    | paren => rfl

theorem openParens_releaseFunction (stack : List Pending) :
    openParens (releaseFunction stack).2 = openParens stack := by
  match stack with
  | .function f :: stack => exact (openParens_function f stack).symm
  | .operator _ :: _ => rfl
  | .paren :: _ => rfl
  | [] => rfl

/-! ### One token -/

/-- A token that does not fail changes the number of open parentheses by its depth. -/
theorem shunt_depth {stack next : List Pending} {t : Token} {out : List Token}
    (h : shunt stack t = .ok (out, next)) : openParens next = openParens stack + depth [t] := by
  cases t with
  | name x =>
    cases h
    simp [depth]
  | function f =>
    cases h
    simp [depth, openParens_function]
  | operator o =>
    cases h
    simp [depth, openParens_operator, openParens_yieldTo]
  | left =>
    cases h
    simp [depth, openParens_paren]
  | comma =>
    -- the parenthesis that the comma reaches stays open
    obtain ⟨above, below, hclosed, rfl, -, rfl⟩ := shunt_comma_eq_ok_iff.mp h
    have habove := openParens_eq_zero_iff.mpr hclosed
    have hstays : depth [.comma] = 0 := rfl
    rw [openParens_append, openParens_paren, habove, hstays]
    omega
  | right =>
    obtain ⟨above, below, hclosed, rfl, -, rfl⟩ := shunt_right_eq_ok_iff.mp h
    have habove := openParens_eq_zero_iff.mpr hclosed
    have hclose : depth [.right] = -1 := rfl
    rw [openParens_append, openParens_paren, openParens_releaseFunction, habove, hclose]
    omega

/-- A token is refused exactly if it is a closing parenthesis or a comma and none is open. -/
theorem shunt_eq_error_iff {stack : List Pending} {t : Token} {e : SyntaxError} :
    shunt stack t = .error e ↔
      openParens stack = 0 ∧
        (t = .right ∧ e = .unbalancedParentheses ∨ t = .comma ∧ e = .misplacedComma) := by
  rw [openParens_eq_zero_iff, ← unwind_eq_none_iff]
  cases t with
  | name x => simp [shunt]
  | function f => simp [shunt]
  | operator o => simp [shunt]
  | left => simp [shunt]
  | comma => cases hunwind : unwind stack <;> simp [shunt, hunwind, eq_comm]
  | right => cases hunwind : unwind stack <;> simp [shunt, hunwind, eq_comm]

/-! ### Lists of tokens -/

/-- Reading a list of tokens adds its depth to the parentheses that are open. -/
theorem shuntAll_depth {stack last : List Pending} {ts out : List Token}
    (h : shuntAll stack ts = .ok (out, last)) :
    openParens last = openParens stack + depth ts := by
  induction ts generalizing stack out with
  | nil =>
    cases h
    simp
  | cons t ts ih =>
    obtain ⟨front, mid, back, hstep, hrest, -⟩ := shuntAll_cons_eq_ok_iff.mp h
    have hfirst := shunt_depth hstep
    have hothers := ih hrest
    rw [depth_cons]
    omega

/-- A list of tokens fails at one of them, with the error of that token. -/
theorem shuntAll_eq_error_iff {stack : List Pending} {ts : List Token} {e : SyntaxError} :
    shuntAll stack ts = .error e ↔
      ∃ before t after out mid, ts = before ++ t :: after ∧
        shuntAll stack before = .ok (out, mid) ∧ shunt mid t = .error e := by
  induction ts generalizing stack with
  | nil => simp [shuntAll]
  | cons t ts ih =>
    rw [shuntAll, bind_eq_error_iff]
    constructor
    · rintro (hstep | ⟨⟨front, next⟩, hstep, hrest⟩)
      · exact ⟨[], t, ts, [], stack, rfl, rfl, hstep⟩
      · obtain ⟨before, u, after, out, mid, rfl, hbefore, hu⟩ := ih.mp (map_eq_error_iff.mp hrest)
        refine ⟨t :: before, u, after, front ++ out, mid, rfl, ?_, hu⟩
        exact shuntAll_cons_eq_ok_iff.mpr ⟨front, next, out, hstep, hbefore, rfl⟩
    · rintro ⟨before, u, after, out, mid, hts, hbefore, hu⟩
      cases before with
      | nil =>
        cases hts
        cases hbefore
        exact .inl hu
      | cons s before =>
        cases hts
        obtain ⟨front, next, back, hstep, hothers, -⟩ := shuntAll_cons_eq_ok_iff.mp hbefore
        refine .inr ⟨(front, next), hstep, map_eq_error_iff.mpr ?_⟩
        exact ih.mpr ⟨before, u, after, back, mid, rfl, hothers, hu⟩

/-- Reading a list of tokens succeeds exactly if it is nested. -/
theorem exists_shuntAll_iff {ts : List Token} :
    (∃ out last, shuntAll [] ts = .ok (out, last)) ↔ Nested ts := by
  constructor
  · rintro ⟨out, last, hall⟩ before t after rfl ht
    obtain ⟨front, mid, back, hfront, hback, -⟩ := shuntAll_append hall
    obtain ⟨_, next, _, hstep, -, -⟩ := shuntAll_cons_eq_ok_iff.mp hback
    have hmid := shuntAll_depth hfront
    have hpositive := openParens_nonneg mid
    have hopen : openParens mid ≠ 0 := by
      intro hzero
      -- with no parenthesis open the token would have failed
      rcases ht with rfl | rfl
      · rw [shunt_eq_error_iff.mpr ⟨hzero, .inl ⟨rfl, rfl⟩⟩] at hstep
        cases hstep
      · rw [shunt_eq_error_iff.mpr ⟨hzero, .inr ⟨rfl, rfl⟩⟩] at hstep
        cases hstep
    have hnil : openParens [] = 0 := rfl
    omega
  · intro hnested
    cases hall : shuntAll [] ts with
    | ok r => exact ⟨r.1, r.2, rfl⟩
    | error e =>
      obtain ⟨before, t, after, out, mid, hts, hbefore, ht⟩ := shuntAll_eq_error_iff.mp hall
      obtain ⟨hzero, hcause⟩ := shunt_eq_error_iff.mp ht
      have hmid := shuntAll_depth hbefore
      have hinside := hnested before t after hts (hcause.imp And.left And.left)
      have hnil : openParens [] = 0 := rfl
      omega

/-! ### Formulas -/

/-- A formula that ends with an open parenthesis is refused. -/
theorem reorder_nil_of_open {stack : List Pending} (h : openParens stack ≠ 0) :
    reorder stack [] = .error .unbalancedParentheses := by
  have hopen : Pending.paren ∈ stack :=
    Decidable.not_not.mp fun hclosed => h (openParens_eq_zero_iff.mpr hclosed)
  rw [reorder, drain_eq_none_iff.mpr hopen]

/-- At the end everything that waits is let go, if no parenthesis is open. -/
theorem reorder_nil_of_closed {stack : List Pending} (h : openParens stack = 0) :
    reorder stack [] = .ok (pendingTokens stack) :=
  reorder_nil_eq_ok_iff.mpr ⟨openParens_eq_zero_iff.mp h, rfl⟩

/-- Reordering reads all tokens and then empties the stack. -/
theorem toPostfix_eq (tokens : List Token) :
    toPostfix tokens =
      shuntAll [] tokens >>= fun r => (reorder r.2 []).map (r.1 ++ ·) := by
  rw [toPostfix, ← reorder_append, List.append_nil]

/-- A list of tokens can be read to its end exactly if it is nested; the parentheses that are open
there are its depth. -/
theorem shuntAll_of_nested {tokens : List Token} (h : Nested tokens) :
    ∃ out last, shuntAll [] tokens = .ok (out, last) ∧ openParens last = depth tokens := by
  obtain ⟨out, last, hall⟩ := exists_shuntAll_iff.mpr h
  have hlast := shuntAll_depth hall
  have hnil : openParens [] = 0 := rfl
  exact ⟨out, last, hall, by omega⟩

/-- Reading fails exactly at a token that is met outside of all parentheses and needs one. -/
theorem shuntAll_eq_error_iff_meetsOutside {tokens : List Token} {e : SyntaxError} :
    shuntAll [] tokens = .error e ↔ MeetsOutside tokens e := by
  rw [shuntAll_eq_error_iff]
  constructor
  · rintro ⟨before, t, after, out, mid, rfl, hbefore, ht⟩
    obtain ⟨hzero, hcause⟩ := shunt_eq_error_iff.mp ht
    have hmid := shuntAll_depth hbefore
    have hnil : openParens [] = 0 := rfl
    have hnested := exists_shuntAll_iff.mp ⟨out, mid, hbefore⟩
    exact ⟨before, t, after, rfl, hnested, by omega, hcause⟩
  · rintro ⟨before, t, after, rfl, hnested, hzero, hcause⟩
    obtain ⟨out, mid, hbefore, hmid⟩ := shuntAll_of_nested hnested
    exact ⟨before, t, after, out, mid, rfl, hbefore,
      shunt_eq_error_iff.mpr ⟨by omega, hcause⟩⟩

/-- Nested lists meet nothing outside, so only the end of the formula can fail. -/
theorem toPostfix_of_nested {tokens : List Token} (h : Nested tokens) :
    (∀ e, ¬ MeetsOutside tokens e) ∧
      (depth tokens = 0 ∧ (∃ out, toPostfix tokens = .ok out) ∨
        0 < depth tokens ∧ toPostfix tokens = .error .unbalancedParentheses) := by
  obtain ⟨out, last, hall, hlast⟩ := shuntAll_of_nested h
  have hpositive := openParens_nonneg last
  constructor
  · intro e houtside
    rw [shuntAll_eq_error_iff_meetsOutside.mpr houtside] at hall
    cases hall
  · rw [toPostfix_eq, hall]
    by_cases hzero : openParens last = 0
    · refine .inl ⟨by omega, out ++ pendingTokens last, ?_⟩
      simp [bind, Except.bind, Except.map, reorder_nil_of_closed hzero]
    · refine .inr ⟨by omega, ?_⟩
      simp [bind, Except.bind, Except.map, reorder_nil_of_open hzero]

theorem toPostfix_of_not_nested {tokens : List Token} (h : ¬ Nested tokens) :
    ∃ e, toPostfix tokens = .error e ∧ MeetsOutside tokens e := by
  cases hall : shuntAll [] tokens with
  | ok r => exact absurd (exists_shuntAll_iff.mp ⟨r.1, r.2, hall⟩) h
  | error e =>
    refine ⟨e, ?_, shuntAll_eq_error_iff_meetsOutside.mp hall⟩
    rw [toPostfix_eq, hall]
    rfl

/-- **The depths decide about a formula**: it is accepted exactly if every closing parenthesis and
every comma is met inside of a parenthesis and no parenthesis is left open.  Otherwise the first of
them that is met outside of all parentheses decides the error; if there is none, the parentheses
left open do. -/
theorem toPostfix_nesting (tokens : List Token) :
    ((∃ out, toPostfix tokens = .ok out) ↔ Nested tokens ∧ depth tokens = 0) ∧
    ∀ e, toPostfix tokens = .error e ↔
      MeetsOutside tokens e ∨
        Nested tokens ∧ 0 < depth tokens ∧ e = .unbalancedParentheses := by
  by_cases hnested : Nested tokens
  · obtain ⟨hinside, ⟨hzero, out, hout⟩ | ⟨hopen, herror⟩⟩ := toPostfix_of_nested hnested
    · simp [hout, hinside, hnested, hzero]
    · have hdepth : depth tokens ≠ 0 := by omega
      simp [herror, hinside, hnested, hopen, hdepth, eq_comm]
  · obtain ⟨cause, herror, houtside⟩ := toPostfix_of_not_nested hnested
    refine ⟨by simp [herror, hnested], fun e => ?_⟩
    rw [herror, Except.error.injEq]
    constructor
    · rintro rfl
      exact .inl houtside
    · rintro (houtside' | ⟨hnested', -⟩)
      · have hcause := shuntAll_eq_error_iff_meetsOutside.mpr houtside
        rw [shuntAll_eq_error_iff_meetsOutside.mpr houtside', Except.error.injEq] at hcause
        exact hcause.symm
      · exact absurd hnested' hnested

end QuantityCalculus
