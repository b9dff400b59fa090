/-
From text to tokens.

The scanner reads one character at a time and keeps the run of name characters that it is in.  A run
ends at the first character that cannot belong to it, so runs are maximal and a name that merely
begins with the name of a function stays whole.  Blanks end a run and are dropped.  The first
character that is neither a blank nor part of a token stops the scan; its place is counted in UTF-8
bytes.

* `scan_nil`, `scan_nameChar`, `scan_blank`, `scan_symbol`, `scan_unexpected` : one equation for
  each class of characters.
-/
import QuantityCalculus.SyntaxError
import QuantityCalculus.Text.Blank

namespace QuantityCalculus

/-- Puts the token of a finished run, if the run is not empty, in front of the tokens after it.  The
run is given backwards, as the scanner collects it. -/
def closeRun (run : List Char) (rest : List Token) : List Token :=
  if run.isEmpty then rest else Token.ofRun run.reverse :: rest

/-- The tokens of a text, given the run in front of it, backwards, and the number of bytes read. -/
def scan (run : List Char) (offset : Nat) : List Char → Except SyntaxError (List Token)
  | [] => .ok (closeRun run [])
  | c :: cs =>
    if isNameChar c then scan (c :: run) (offset + c.utf8Size) cs
    -- everything else ends the run
    else if isBlank c then do
      let rest ← scan [] (offset + c.utf8Size) cs
      return closeRun run rest
    else
      match Token.ofSymbol? c with
      | some token => do
        let rest ← scan [] (offset + c.utf8Size) cs
        return closeRun run (token :: rest)
      | none => .error (.unexpectedCharacter c offset)

/-- The tokens of a text. -/
def tokenize (s : String) : Except SyntaxError (List Token) := scan [] 0 s.toList

/-! ### One equation for each class of characters -/

theorem scan_nil (run : List Char) (offset : Nat) :
    scan run offset [] = .ok (closeRun run []) := rfl

/-- A character of a name prolongs the run that is being read. -/
theorem scan_nameChar {c : Char} (h : isNameChar c = true) (run : List Char) (offset : Nat)
    (cs : List Char) : scan run offset (c :: cs) = scan (c :: run) (offset + c.utf8Size) cs := by
  rw [scan, if_pos h]

theorem isNameChar_eq_false_of_isBlank {c : Char} (h : isBlank c = true) :
    isNameChar c = false := by
  simp only [isBlank, blankRanges, List.any_cons, List.any_nil, Bool.or_eq_true,
    Bool.and_eq_true, decide_eq_true_eq, Bool.false_eq_true, or_false] at h
  rw [Bool.eq_false_iff, ne_eq, isNameChar_iff]
  omega

/-- A character that is a token of its own is neither part of a name nor blank. -/
theorem separator_of_ofSymbol? {c : Char} {t : Token} (h : Token.ofSymbol? c = some t) :
    isNameChar c = false ∧ isBlank c = false := by
  unfold Token.ofSymbol? at h
  split at h
  · decide
  · decide
  · decide
  · next c =>
    obtain ⟨o, ho, -⟩ := Option.map_eq_some_iff.1 h
    rw [Operator.ofSymbol?_eq_some_iff.1 ho]
    cases o <;> decide

/-- A blank closes the run that is being read. -/
theorem scan_blank {c : Char} (h : isBlank c = true) (run : List Char) (offset : Nat)
    (cs : List Char) :
    scan run offset (c :: cs) =
      (scan [] (offset + c.utf8Size) cs).map (closeRun run) := by
  rw [scan, if_neg (by simp [isNameChar_eq_false_of_isBlank h]), if_pos h]
  rfl

/-- A symbol closes the run that is being read and is a token of its own. -/
theorem scan_symbol {c : Char} {t : Token} (h : Token.ofSymbol? c = some t) (run : List Char)
    (offset : Nat) (cs : List Char) :
    scan run offset (c :: cs) =
      (scan [] (offset + c.utf8Size) cs).map fun rest => closeRun run (t :: rest) := by
  obtain ⟨hn, hb⟩ := separator_of_ofSymbol? h
  rw [scan, if_neg (by simp [hn]), if_neg (by simp [hb]), h]
  rfl

/-- Any other character is refused, with its place in the text. -/
theorem scan_unexpected {c : Char} (hn : isNameChar c = false) (hb : isBlank c = false)
    (hs : Token.ofSymbol? c = none) (run : List Char) (offset : Nat) (cs : List Char) :
    scan run offset (c :: cs) = .error (.unexpectedCharacter c offset) := by
  rw [scan, if_neg (by simp [hn]), if_neg (by simp [hb]), hs]

end QuantityCalculus
