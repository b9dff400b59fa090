/-
Spellings of token lists.

A token list can be written in many ways: any blanks may stand around its tokens, and none need to,
except that two runs of name characters must not touch.  `Spelled tokens text` is that relation;
tokenizing is its inverse:

* `tokenize_of_spelled` : every spelling of a list of legible tokens is read back as that list.

A token is legible if it is written as itself: a name has to be a nonempty run of name characters
that no function is called by.
-/
import QuantityCalculus.Overflow
import QuantityCalculus.Token.Lexer

namespace QuantityCalculus

/-- A nonempty run of name characters that no function is called by. -/
def IsName (x : String) : Prop :=
  x.toList ≠ [] ∧ x.toList.all isNameChar = true ∧ Builtin.ofName? x = none

instance (x : String) : Decidable (IsName x) := inferInstanceAs (Decidable (_ ∧ _ ∧ _))

namespace Token

/-- The token is written as a run of name characters. -/
def isRun : Token → Bool
  | name _ | function _ => true
  | operator _ | left | right | comma => false

/-- The token is one that a text can spell. -/
def Legible : Token → Prop
  | name x => IsName x
  | _ => True

instance : (t : Token) → Decidable t.Legible
  | name x => inferInstanceAs (Decidable (IsName x))
  | operator _ | function _ | left | right | comma => inferInstanceAs (Decidable True)

end Token

/-- No name character comes first in the text. -/
def endsRun : List Char → Bool
  | [] => true
  | c :: _ => !isNameChar c

/-- The text writes the tokens one after the other, with any blanks around them.  Behind a run
stands no further name character. -/
inductive Spelled : List Token → List Char → Prop
  | nil : Spelled [] []
  | blank {tokens : List Token} {c : Char} {s : List Char} (hc : isBlank c = true)
      (hs : Spelled tokens s) : Spelled tokens (c :: s)
  | token {t : Token} {tokens : List Token} {s : List Char}
      (hend : t.isRun = true → endsRun s = true)
      (hs : Spelled tokens s) : Spelled (t :: tokens) (t.text.toList ++ s)

/-! ### Runs -/

/-- The name of a function is made of the characters of names, so it is scanned as one run. -/
theorem isNameChar_of_name (f : Builtin) : f.name.toList.all isNameChar = true := by
  cases f <;> decide

/-- A legible run is nonempty, consists of name characters and is the token of its characters. -/
theorem Token.Legible.run {t : Token} (ht : t.Legible) (hrun : t.isRun = true) :
    t.text.toList ≠ [] ∧ t.text.toList.all isNameChar = true ∧ Token.ofRun t.text.toList = t := by
  cases t with
  | name x =>
    obtain ⟨hne, hchars, hfun⟩ := ht
    refine ⟨hne, hchars, ?_⟩
    rw [Token.ofRun, Token.text, String.ofList_toList, hfun]
  | function f =>
    refine ⟨?_, isNameChar_of_name f, ?_⟩
    · cases f <;> decide
    · rw [Token.ofRun, Token.text, String.ofList_toList, Builtin.ofName?_name]
  | operator _ => cases hrun
  | left => cases hrun
  | right => cases hrun
  | comma => cases hrun

/-- A token that is no run is a single character. -/
theorem Token.symbol_of_not_isRun {t : Token} (hrun : t.isRun = false) :
    ∃ c, t.text.toList = [c] ∧ Token.ofSymbol? c = some t := by
  cases t with
  | name _ => cases hrun
  | function _ => cases hrun
  | operator o =>
    refine ⟨o.symbol, ?_, ?_⟩
    · rw [Token.text, Operator.text, String.toList_ofList]
    · cases o <;> rfl
  | left => exact ⟨'(', by decide, rfl⟩
  | right => exact ⟨')', by decide, rfl⟩
  | comma => exact ⟨',', by decide, rfl⟩

-- only positions of errors depend on the offset, so it does not matter which one comes next
theorem scan_append_run {w : List Char} (hw : w.all isNameChar = true) (run : List Char)
    (offset : Nat) (s : List Char) :
    ∃ next, scan run offset (w ++ s) = scan (w.reverse ++ run) next s := by
  induction w generalizing run offset with
  | nil => exact ⟨offset, rfl⟩
  | cons c w ih =>
    rw [List.all_cons, Bool.and_eq_true] at hw
    obtain ⟨next, h⟩ := ih hw.2 (c :: run) (offset + c.utf8Size)
    refine ⟨next, ?_⟩
    rw [List.cons_append, scan_nameChar hw.1, h, List.reverse_cons,
      List.append_assoc]
    rfl

/-- A run ends where no name character follows: what was collected is put in front of the tokens of
the rest. -/
theorem scan_run {s : List Char} {tokens : List Token} {offset : Nat}
    (hs : endsRun s = true) (h : scan [] offset s = .ok tokens)
    (run : List Char) : scan run offset s = .ok (closeRun run tokens) := by
  cases s with
  | nil =>
    rw [scan_nil] at h ⊢
    cases h
    rfl
  -- the character in front closes the run, whatever has been collected
  | cons c s =>
    have hc : isNameChar c = false := by
      rw [endsRun, Bool.not_eq_true'] at hs
      exact hs
    by_cases hb : isBlank c = true
    · rw [scan_blank hb] at h ⊢
      obtain ⟨rest, hrest, rfl⟩ := map_eq_ok_iff.1 h
      rw [hrest]
      rfl
    · cases ht : Token.ofSymbol? c with
      | none =>
        rw [scan_unexpected hc (by simpa using hb) ht] at h
        cases h
      | some t =>
        rw [scan_symbol ht] at h ⊢
        obtain ⟨rest, hrest, rfl⟩ := map_eq_ok_iff.1 h
        rw [hrest]
        rfl

/-! ### Reading a spelling -/

/-- A spelling of legible tokens is scanned as these tokens, whatever stands between them. -/
theorem scan_of_spelled {tokens : List Token} {s : List Char} (h : Spelled tokens s)
    (hlegible : ∀ t ∈ tokens, t.Legible) (offset : Nat) : scan [] offset s = .ok tokens := by
  induction h generalizing offset with
  | nil => rfl
  | blank hc _ ih =>
    rw [scan_blank hc, ih hlegible]
    rfl
  | @token t tokens s hend _ ih =>
    have hrest := ih fun u hu => hlegible u (List.mem_cons_of_mem _ hu)
    cases hrun : t.isRun with
    | true =>
      -- all of the run is collected before the text behind it closes it
      obtain ⟨hne, hchars, hself⟩ := (hlegible t List.mem_cons_self).run hrun
      obtain ⟨next, hscan⟩ := scan_append_run hchars [] offset s
      rw [hscan, List.append_nil, scan_run (hend hrun) (hrest next)]
      have hempty : t.text.toList.reverse.isEmpty = false := by
        rw [List.isEmpty_reverse]
        exact List.isEmpty_eq_false_iff.mpr hne
      rw [closeRun, hempty, List.reverse_reverse, hself]
      rfl
    | false =>
      obtain ⟨c, htext, hsymbol⟩ := Token.symbol_of_not_isRun hrun
      rw [htext, List.singleton_append, scan_symbol hsymbol, hrest]
      rfl

/-- Tokenizing inverts spelling. -/
theorem tokenize_of_spelled {tokens : List Token} {text : String}
    (h : Spelled tokens text.toList) (hlegible : ∀ t ∈ tokens, t.Legible) :
    tokenize text = .ok tokens :=
  scan_of_spelled h hlegible 0

end QuantityCalculus
