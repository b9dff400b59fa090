/-
Stored programs.

A program is stored as the texts of its tokens, with single spaces between them.  Such a text is
read back as the same program if every token is legible and none is a parenthesis or a comma.  The
tokens of any text are legible (`legible_of_tokenize`), and reordering a formula leaves no
parenthesis and no comma behind (`perm_of_reorder`), so this holds of every program that comes from
a text:

* `ofPostfix_text` : compiled and stored programs alike are reloaded as they are.
-/
import QuantityCalculus.Arithmetic.Double
import QuantityCalculus.Equation
import QuantityCalculus.Proofs.Reordering
import QuantityCalculus.Proofs.Spelling

namespace QuantityCalculus

/-! ### The tokens of a text are legible -/

theorem Token.legible_of_ofSymbol? {c : Char} {t : Token} (h : Token.ofSymbol? c = some t) :
    t.Legible := by
  unfold Token.ofSymbol? at h
  split at h
  · cases h
    trivial
  · cases h
    trivial
  · cases h
    trivial
  · obtain ⟨o, -, rfl⟩ := Option.map_eq_some_iff.mp h
    trivial

theorem Token.legible_ofRun {run : List Char} (hne : run ≠ [])
    (hrun : run.all isNameChar = true) : (Token.ofRun run).Legible := by
  rw [Token.ofRun]
  split
  · trivial
  · next hname =>
    refine ⟨?_, ?_, hname⟩
    · rw [String.toList_ofList]
      exact hne
    · rw [String.toList_ofList]
      exact hrun

theorem legible_of_closeRun {run : List Char} {rest : List Token}
    (hrun : run.all isNameChar = true) (hrest : ∀ t ∈ rest, t.Legible) :
    ∀ t ∈ closeRun run rest, t.Legible := by
  rw [closeRun]
  split
  · exact hrest
  · next hne =>
    rw [List.forall_mem_cons]
    refine ⟨Token.legible_ofRun ?_ ?_, hrest⟩
    · rw [ne_eq, List.reverse_eq_nil_iff]
      rintro rfl
      exact hne rfl
    · rw [List.all_reverse]
      exact hrun

-- induction on the text; the run collected so far consists of name characters
/-- Scanning makes legible tokens only, if the run in progress holds name characters. -/
theorem legible_of_scan {run s : List Char} {offset : Nat} {tokens : List Token}
    (hrun : run.all isNameChar = true) (h : scan run offset s = .ok tokens) :
    ∀ t ∈ tokens, t.Legible := by
  induction s generalizing run offset tokens with
  | nil =>
    rw [scan_nil] at h
    cases h
    exact legible_of_closeRun hrun fun t ht => absurd ht List.not_mem_nil
  | cons c s ih =>
    by_cases hname : isNameChar c = true
    · rw [scan_nameChar hname] at h
      refine ih ?_ h
      rw [List.all_cons, hname, hrun]
      rfl
    · by_cases hblank : isBlank c = true
      · rw [scan_blank hblank] at h
        obtain ⟨rest, hrest, rfl⟩ := map_eq_ok_iff.mp h
        exact legible_of_closeRun hrun (ih rfl hrest)
      · cases hsymbol : Token.ofSymbol? c with
        | none =>
          rw [scan_unexpected (by simpa using hname) (by simpa using hblank) hsymbol] at h
          cases h
        | some t =>
          rw [scan_symbol hsymbol] at h
          obtain ⟨rest, hrest, rfl⟩ := map_eq_ok_iff.mp h
          refine legible_of_closeRun hrun ?_
          rw [List.forall_mem_cons]
          exact ⟨Token.legible_of_ofSymbol? hsymbol, ih rfl hrest⟩

/-- Tokenizing makes legible tokens only. -/
theorem legible_of_tokenize {text : String} {tokens : List Token}
    (h : tokenize text = .ok tokens) : ∀ t ∈ tokens, t.Legible :=
  legible_of_scan rfl h

/-! ### Writing a program -/

/-- Tokens separated by blanks are a spelling of them, whichever they are. -/
theorem spelled_join (tokens : List Token) :
    Spelled tokens (" ".intercalate (tokens.map Token.text)).toList := by
  induction tokens with
  | nil => exact .nil
  | cons t ts ih =>
    cases ts with
    | nil =>
      rw [List.map_singleton, String.intercalate_singleton, ← List.append_nil t.text.toList]
      exact .token (fun _ => rfl) .nil
    | cons u us =>
      -- the space ends a run and is no part of the next one
      have hspace : " ".toList = [' '] := rfl
      rw [List.map_cons] at ih
      rw [List.map_cons, List.map_cons, String.intercalate_cons_cons, String.toList_append,
        String.toList_append, List.append_assoc, hspace]
      exact .token (fun _ => rfl) (.blank rfl ih)

/-- A program of legible tokens without grouping is read back from its text. -/
theorem ofPostfix_text_of_legible {p : Program} (hlegible : ∀ t ∈ p.tokens, t.Legible)
    (hgrouping : ∀ t ∈ p.tokens, t.isGrouping = false) : Program.ofPostfix p.text = .ok p := by
  rw [Program.ofPostfix_eq_ok_iff]
  exact ⟨tokenize_of_spelled (spelled_join p.tokens) hlegible, hgrouping⟩

/-! ### Reloading -/

/-- A compiled program is read back from its text. -/
theorem ofPostfix_text_of_compile {formula : String} {p : Program}
    (h : Program.compile formula = .ok p) : Program.ofPostfix p.text = .ok p := by
  obtain ⟨tokens, htokens, hpostfix⟩ := Program.compile_eq_ok_iff.mp h
  refine ofPostfix_text_of_legible (fun t ht => ?_) fun t ht => ?_
  · exact legible_of_tokenize htokens t (mem_of_toPostfix hpostfix ht).1
  · exact (mem_of_toPostfix hpostfix ht).2

theorem ofPostfix_text_of_ofPostfix {text : String} {p : Program}
    (h : Program.ofPostfix text = .ok p) : Program.ofPostfix p.text = .ok p := by
  obtain ⟨htokens, hgrouping⟩ := Program.ofPostfix_eq_ok_iff.mp h
  exact ofPostfix_text_of_legible (legible_of_tokenize htokens) hgrouping

/-- **Stored programs reload exactly**: the text of a program that was compiled or loaded is read
back as that program.  So the equation of a formula and the equation of its stored program are the
same, and both have the value of the program. -/
theorem ofPostfix_text {α : Type} (A : Arithmetic α) :
    (∀ (text : String) (p : Program),
      Program.compile text = .ok p ∨ Program.ofPostfix text = .ok p →
        Program.ofPostfix p.text = .ok p) ∧
    ∀ (formula : String) (p : Program) (bindings : List (Binding α)),
      Program.compile formula = .ok p →
        ∃ stored e, Program.postfixText formula = .ok stored ∧
          Equation.ofPostfix stored bindings = .ok e ∧
          Equation.ofFormula formula bindings = .ok e ∧
          e.calculate A = p.evaluate A bindings := by
  constructor
  · rintro text p (h | h)
    · exact ofPostfix_text_of_compile h
    · exact ofPostfix_text_of_ofPostfix h
  · intro formula p bindings h
    refine ⟨p.text, ⟨p, bindings⟩, ?_, ?_, ?_, rfl⟩
    · rw [Program.postfixText, h]
      rfl
    · rw [Equation.ofPostfix, ofPostfix_text_of_compile h]
      rfl
    · rw [Equation.ofFormula, h]
      rfl

/-- Names that contain the names of functions stay names, next to a function and next to each
other. -/
theorem ofPostfix_text_sine :
    Program.ofPostfix "sinx sin logs log10. ^ -" =
      .ok ⟨[.name "sinx", .function .sin, .name "logs", .name "log10.", .operator .power,
        .operator .subtract]⟩ ∧
    ∃ stored e, Program.postfixText "sin(sinx)-logs^log10." = .ok stored ∧
      Equation.ofPostfix stored [] = .ok e ∧
      Equation.ofFormula "sin(sinx)-logs^log10." [] = .ok e ∧
      e.calculate .double = .error (.unknownIdentifier "sinx") := by
  have h : Program.compile "sin(sinx)-logs^log10." =
      .ok ⟨[.name "sinx", .function .sin, .name "logs", .name "log10.", .operator .power,
        .operator .subtract]⟩ := rfl
  obtain ⟨hprogram, hequation⟩ := ofPostfix_text .double
  obtain ⟨stored, e, hstored, hload, hformula, hvalue⟩ := hequation _ _ [] h
  exact ⟨hprogram _ _ (.inl h), stored, e, hstored, hload, hformula, hvalue.trans rfl⟩

end QuantityCalculus
