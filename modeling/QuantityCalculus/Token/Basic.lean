/-
Tokens of formulas and of stored programs.

A run of ASCII letters, digits, underscores and dots is one token: the function of that name if
there is one, else a name.  Numbers and variables are both names and are told apart only when a
program is evaluated.  Every other token is a single character.
-/
import QuantityCalculus.Builtin.Basic
import QuantityCalculus.Operator.Basic

namespace QuantityCalculus

/-- The tokens of formulas. -/
inductive Token where
  | name (text : String)
  | operator (o : Operator)
  | function (f : Builtin)
  | left
  | right
  | comma
deriving DecidableEq, Repr

/-- The character may occur in a name. -/
def isNameChar (c : Char) : Bool := c.isAlphanum || c == '_' || c == '.'

/-- The name characters by code point: digits, letters, the underscore and the dot. -/
theorem isNameChar_iff {c : Char} :
    isNameChar c = true ↔
      48 ≤ c.toNat ∧ c.toNat ≤ 57 ∨ 65 ≤ c.toNat ∧ c.toNat ≤ 90 ∨
        97 ≤ c.toNat ∧ c.toNat ≤ 122 ∨ c.toNat = 95 ∨ c.toNat = 46 := by
  have hu : c = '_' ↔ c.toNat = 95 := ⟨fun h => h ▸ rfl, fun h => Char.toNat_inj.1 h⟩
  have hd : c = '.' ↔ c.toNat = 46 := ⟨fun h => h ▸ rfl, fun h => Char.toNat_inj.1 h⟩
  have hc : c.val.toNat = c.toNat := rfl
  delta isNameChar Char.isAlphanum Char.isAlpha Char.isUpper Char.isLower Char.isDigit
  simp only [Bool.or_eq_true, Bool.and_eq_true, decide_eq_true_eq, beq_iff_eq, hu, hd, ge_iff_le,
    UInt32.le_iff_toNat_le, hc]
  simp
  omega

namespace Token

/-- The text of a token. -/
def text : Token → String
  | name s => s
  | operator o => o.text
  | function f => f.name
  | left => "("
  | right => ")"
  | comma => ","

/-- The token of a whole run of name characters. -/
def ofRun (run : List Char) : Token :=
  match Builtin.ofName? (String.ofList run) with
  | some f => function f
  | none => name (String.ofList run)

/-- The token that a single character stands for. -/
def ofSymbol? (c : Char) : Option Token :=
  match c with
  | '(' => some left
  | ')' => some right
  | ',' => some comma
  | c => (Operator.ofSymbol? c).map operator

/-- The token has no place in a program: it only groups a formula. -/
def isGrouping : Token → Bool
  | left | right | comma => true
  | _ => false

/-- The token is a name. -/
def isName : Token → Bool
  | name _ => true
  | _ => false

theorem isName_iff {t : Token} : t.isName = true ↔ ∃ x, t = name x := by cases t <;> simp [isName]

end Token

end QuantityCalculus
