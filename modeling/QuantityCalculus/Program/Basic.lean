/-
Programs: formulas in postfix order.

A program holds no values, so one program can be evaluated any number of times against different
bindings.  Its text is its tokens, separated by single spaces; a stored program is read back from
such a text, in which parentheses and commas have no meaning.

* `Program.mem_identifiers` : which names a program lists,
* `Program.ofPostfix_eq_ok_iff` : which texts are stored programs,
* `Program.compile_eq_ok_iff` : which programs formulas compile to.
-/
import QuantityCalculus.Postfix
import QuantityCalculus.Token.Lexer

namespace QuantityCalculus

/-- A list of tokens in postfix order. -/
structure Program where
  tokens : List Token
deriving DecidableEq, Repr

namespace Program

/-- The tokens of the program, separated by single spaces. -/
def text (p : Program) : String := " ".intercalate (p.tokens.map Token.text)

/-- The names that occur in the program, in order of first use. -/
def identifiers (p : Program) : List String :=
  (p.tokens.filterMap fun
    | .name x => some x
    | _ => none).eraseDups

/-- Compiles a formula. -/
def compile (formula : String) : Except SyntaxError Program := do
  let tokens ← tokenize formula
  let postfixTokens ← toPostfix tokens
  return ⟨postfixTokens⟩

/-- The text of the program that a formula compiles to. -/
def postfixText (formula : String) : Except SyntaxError String := (compile formula).map text

/-- Reads a stored program. -/
def ofPostfix (text : String) : Except SyntaxError Program := do
  let tokens ← tokenize text
  match tokens.find? Token.isGrouping with
  | some token => .error (.unrecognizedOperator token)
  | none => return ⟨tokens⟩

/-- The identifiers of a program are the names that occur in it. -/
theorem mem_identifiers {p : Program} {x : String} : x ∈ p.identifiers ↔ .name x ∈ p.tokens := by
  rw [identifiers, List.mem_eraseDups, List.mem_filterMap]
  constructor
  · rintro ⟨t, ht, hx⟩
    split at hx
    · cases hx
      exact ht
    · cases hx
  · intro h
    exact ⟨.name x, h, rfl⟩

/-- A formula compiles exactly if its tokens can be read and put into postfix order. -/
theorem compile_eq_ok_iff {formula : String} {p : Program} :
    compile formula = .ok p ↔
      ∃ tokens, tokenize formula = .ok tokens ∧ toPostfix tokens = .ok p.tokens := by
  cases ht : tokenize formula with
  | error e => simp [compile, ht, bind, Except.bind]
  | ok tokens =>
    cases hp : toPostfix tokens with
    | error e => simp [compile, ht, hp, bind, Except.bind]
    | ok out => cases p; simp [compile, ht, hp, bind, Except.bind, pure, Except.pure]

/-- A stored text is a program exactly if its tokens can be read and none of them is a parenthesis
or a comma. -/
theorem ofPostfix_eq_ok_iff {text : String} {p : Program} :
    ofPostfix text = .ok p ↔
      tokenize text = .ok p.tokens ∧ ∀ t ∈ p.tokens, t.isGrouping = false := by
  cases ht : tokenize text with
  | error e => simp [ofPostfix, ht, bind, Except.bind]
  | ok tokens =>
    simp only [ofPostfix, ht, bind, Except.bind, Except.ok.injEq]
    split
    · next token h =>
      constructor
      · intro h'
        cases h'
      · rintro ⟨rfl, hall⟩
        have hm := List.find?_some h
        rw [hall token (List.mem_of_find?_eq_some h)] at hm
        cases hm
    · next h =>
      rw [List.find?_eq_none] at h
      constructor
      · intro h'
        cases h'
        exact ⟨rfl, fun t ht => by simpa using h t ht⟩
      · rintro ⟨rfl, -⟩
        rfl

end Program

end QuantityCalculus
