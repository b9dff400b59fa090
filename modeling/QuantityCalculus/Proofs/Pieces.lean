/-
The pieces of a text.

A text is cut into pieces: its maximal runs of name characters, and every other character by itself
(`pieces`).  Each piece that is no blank is one token, so tokenizing is determined by what single
pieces stand for (`TokenOf`), and it fails exactly at the first character that no piece may hold.

* `pieces_append_cons` : a character that belongs to no run is a cut,
* `scan_eq_ok_iff` : the scanner, in the middle of a run, reads the pieces that begin with that run,
* `scan_eq_error_iff` : it stops at the first character that begins no token, behind the bytes of
  the characters in front of it,
* `tokenize_pieces` : the statement for whole texts.

The cuts are those of `List.splitBy`: two neighbours stay together if both are name characters.
-/
import Mathlib.Data.List.SplitBy
import QuantityCalculus.Proofs.Spelling

namespace QuantityCalculus

/-! ### Characters and pieces -/

/-- The characters that are tokens by themselves. -/
def symbolChars : List Char := ['+', '-', '*', '/', '^', '(', ')', ',']

/-- The character may occur in a formula. -/
def IsFormulaChar (c : Char) : Prop :=
  isBlank c = true ∨ isNameChar c = true ∨ c ∈ symbolChars

instance (c : Char) : Decidable (IsFormulaChar c) := inferInstanceAs (Decidable (_ ∨ _ ∨ _))

/-- The two neighbours belong to one run. -/
def inOneRun (c d : Char) : Bool := isNameChar c && isNameChar d

/-- The maximal runs of name characters, and every other character by itself, in order and without
the blanks. -/
def pieces (s : List Char) : List (List Char) :=
  (s.splitBy inOneRun).filter fun piece => !piece.all isBlank

/-- The token that a piece of a text stands for. -/
inductive TokenOf : List Char → Token → Prop
  | function (f : Builtin) : TokenOf f.name.toList (.function f)
  | name {x : String} (hrun : x.toList.all isNameChar = true) (hother : ∀ f : Builtin, x ≠ f.name) :
    TokenOf x.toList (.name x)
  | operator (o : Operator) : TokenOf [o.symbol] (.operator o)
  | left : TokenOf ['('] .left
  | right : TokenOf [')'] .right
  | comma : TokenOf [','] .comma

theorem isFormulaChar_iff {c : Char} :
    IsFormulaChar c ↔
      isNameChar c = true ∨ isBlank c = true ∨ ∃ t, Token.ofSymbol? c = some t := by
  have hsymbol : c ∈ symbolChars ↔ ∃ t, Token.ofSymbol? c = some t := by
    constructor
    · intro h
      simp only [symbolChars, List.mem_cons, List.not_mem_nil, or_false] at h
      rcases h with rfl | rfl | rfl | rfl | rfl | rfl | rfl | rfl <;> exact ⟨_, rfl⟩
    · rintro ⟨t, h⟩
      unfold Token.ofSymbol? at h
      split at h
      · decide
      · decide
      · decide
      · obtain ⟨o, ho, -⟩ := Option.map_eq_some_iff.mp h
        rw [Operator.ofSymbol?_eq_some_iff.mp ho]
        cases o <;> decide
  rw [IsFormulaChar, hsymbol]
  exact or_left_comm

/-! ### Tokens of pieces -/

/-- A token is written as the piece that it was read from. -/
theorem TokenOf.text {piece : List Char} {t : Token} (h : TokenOf piece t) :
    t.text.toList = piece := by
  cases h with
  | function f => rfl
  | name _ _ => rfl
  | operator o => rw [Token.text, Operator.text, String.toList_ofList]
  | left => rfl
  | right => rfl
  | comma => rfl

/-- A piece is a run, which stands for the function of that name or else for itself, or it is the
character of a symbol. -/
theorem tokenOf_iff {piece : List Char} {t : Token} :
    TokenOf piece t ↔
      piece.all isNameChar = true ∧ t = Token.ofRun piece ∨
        ∃ c, piece = [c] ∧ Token.ofSymbol? c = some t := by
  constructor
  · intro h
    cases h with
    | function f =>
      refine .inl ⟨isNameChar_of_name f, ?_⟩
      rw [Token.ofRun, String.ofList_toList, Builtin.ofName?_name]
    | @name x hrun hother =>
      have hnone : Builtin.ofName? x = none := by
        cases hf : Builtin.ofName? x with
        | none => rfl
        | some f => exact absurd (Builtin.ofName?_eq_some_iff.mp hf) (hother f)
      refine .inl ⟨hrun, ?_⟩
      rw [Token.ofRun, String.ofList_toList, hnone]
    | operator o => exact .inr ⟨o.symbol, rfl, by cases o <;> rfl⟩
    | left => exact .inr ⟨'(', rfl, rfl⟩
    | right => exact .inr ⟨')', rfl, rfl⟩
    | comma => exact .inr ⟨',', rfl, rfl⟩
  · rintro (⟨hrun, rfl⟩ | ⟨c, rfl, h⟩)
    -- a run is looked up among the functions, and is a name if none is called so
    · rw [Token.ofRun]
      split
      · next f hf =>
        have hname := Builtin.ofName?_eq_some_iff.mp hf
        have hpiece : piece = f.name.toList := by rw [← hname, String.toList_ofList]
        rw [hpiece]
        exact .function f
      · next hnone =>
        have hpiece : piece = (String.ofList piece).toList := String.toList_ofList.symm
        have hother : ∀ f : Builtin, String.ofList piece ≠ f.name := by
          intro f hf
          rw [Builtin.ofName?_eq_some_iff.mpr hf] at hnone
          cases hnone
        rw [hpiece] at hrun
        have htoken := TokenOf.name hrun hother
        rwa [← hpiece] at htoken
    -- the three marks and the operators have one symbol each
    · unfold Token.ofSymbol? at h
      split at h
      · cases h
        exact .left
      · cases h
        exact .right
      · cases h
        exact .comma
      · obtain ⟨o, ho, rfl⟩ := Option.map_eq_some_iff.mp h
        rw [Operator.ofSymbol?_eq_some_iff.mp ho]
        exact .operator o

/-- A symbol is a piece of one token only. -/
theorem tokenOf_symbol_iff {c : Char} {t u : Token} (h : Token.ofSymbol? c = some t) :
    TokenOf [c] u ↔ u = t := by
  have hc := (separator_of_ofSymbol? h).1
  simp [tokenOf_iff, hc, h, eq_comm]

theorem not_tokenOf_of_not_isFormulaChar {c : Char} (h : ¬ IsFormulaChar c) (t : Token) :
    ¬ TokenOf [c] t := by
  rw [isFormulaChar_iff, not_or, not_or, not_exists] at h
  simp [tokenOf_iff, h]

/-! ### Cuts -/

@[simp] theorem pieces_nil : pieces [] = [] := rfl

theorem pieces_blank {c : Char} (h : isBlank c = true) : pieces [c] = [] := by
  simp [pieces, List.splitBy, List.splitBy.loop, h]

theorem pieces_single {c : Char} (h : isBlank c = false) : pieces [c] = [[c]] := by
  simp [pieces, List.splitBy, List.splitBy.loop, h]

/-- A run of characters of names is one piece. -/
theorem pieces_run {run : List Char} (hne : run ≠ []) (hrun : run.all isNameChar = true) :
    pieces run = [run] := by
  have hname : ∀ c ∈ run, isNameChar c = true := List.all_eq_true.mp hrun
  have hchain : run.IsChain fun c d => inOneRun c d = true := by
    refine List.Pairwise.isChain (List.pairwise_of_forall_mem_list ?_)
    intro c hc d hd
    simp [inOneRun, hname c hc, hname d hd]
  have hblank : run.all isBlank = false := by
    obtain ⟨c, rest, rfl⟩ := List.exists_cons_of_ne_nil hne
    have hc := hname c List.mem_cons_self
    cases hb : isBlank c with
    | false => simp [hb]
    | true => simp [isNameChar_eq_false_of_isBlank hb] at hc
  simp [pieces, List.splitBy_of_isChain hne hchain, hblank]

/-- A character that is no name character is a cut on both sides. -/
theorem pieces_append_cons {c : Char} (hc : isNameChar c = false) (front back : List Char) :
    pieces (front ++ c :: back) = pieces front ++ (pieces [c] ++ pieces back) := by
  have hfront : (front ++ c :: back).splitBy inOneRun =
      front.splitBy inOneRun ++ (c :: back).splitBy inOneRun :=
    List.splitBy_append_cons back fun d _ => by simp [inOneRun, hc]
  have hback : (c :: back).splitBy inOneRun = [c].splitBy inOneRun ++ back.splitBy inOneRun :=
    List.splitBy_append (l := [c]) fun d hd e _ => by simp_all [inOneRun]
  rw [pieces, hfront, hback, List.filter_append, List.filter_append]
  rfl

/-- The pieces are the text without its blanks. -/
theorem flatten_pieces {run : List Char} (hrun : run.all isNameChar = true) (s : List Char) :
    (pieces (run ++ s)).flatten = run ++ s.filter fun c => !isBlank c := by
  -- induction on the text; the run in front of it is the one that its first characters extend
  have hflat : ∀ run : List Char, run.all isNameChar = true → (pieces run).flatten = run := by
    intro run hrun
    by_cases hne : run = []
    · rw [hne]
      rfl
    · rw [pieces_run hne hrun, List.flatten_singleton]
  induction s generalizing run with
  | nil => rw [List.append_nil, hflat run hrun, List.filter_nil, List.append_nil]
  | cons c s ih =>
    by_cases hname : isNameChar c = true
    · have hblank : isBlank c = false := by
        cases hb : isBlank c with
        | false => rfl
        | true => exact absurd hname (by simp [isNameChar_eq_false_of_isBlank hb])
      have hlonger : (run ++ [c]).all isNameChar = true := by simp [hrun, hname]
      have hrest := ih hlonger
      rw [List.append_assoc, List.singleton_append] at hrest
      rw [hrest]
      simp [hblank]
    · have hother : isNameChar c = false := by simpa using hname
      have hrest : (pieces s).flatten = s.filter fun c => !isBlank c := @ih [] rfl
      rw [pieces_append_cons hother, List.flatten_append, List.flatten_append, hflat run hrun,
        hrest]
      cases hb : isBlank c with
      | true => simp [pieces_blank hb, hb]
      | false => simp [pieces_single hb, hb]

/-! ### Scanning -/

/-- A finished run is one piece, unless it is empty. -/
theorem forall₂_closeRun_iff {run : List Char} (hrun : run.all isNameChar = true)
    {rest : List (List Char)} {tokens : List Token} :
    List.Forall₂ TokenOf (pieces run.reverse ++ rest) tokens ↔
      ∃ others, List.Forall₂ TokenOf rest others ∧ closeRun run others = tokens := by
  by_cases hne : run = []
  · simp [hne, closeRun]
  · have hrun' : run.reverse.all isNameChar = true := by rwa [List.all_reverse]
    have hne' : run.reverse ≠ [] := by simpa using hne
    have hself : ∀ t, TokenOf run.reverse t ↔ t = Token.ofRun run.reverse := by
      intro t
      rw [tokenOf_iff]
      constructor
      · rintro (⟨-, h⟩ | ⟨c, hc, h⟩)
        · exact h
        · -- a run is no symbol
          rw [hc] at hrun'
          simp [(separator_of_ofSymbol? h).1] at hrun'
      · intro h
        exact .inl ⟨hrun', h⟩
    have hclose : ∀ others, closeRun run others = Token.ofRun run.reverse :: others := by
      intro others
      simp [closeRun, hne]
    rw [pieces_run hne' hrun', List.singleton_append, List.forall₂_cons_left_iff]
    simp [hself, hclose, eq_comm]

-- induction on the text; a name character goes over to the run, and the pieces of run and text
-- together stay the same
/-- In the middle of a run, the scanner reads the pieces that begin with that run. -/
theorem scan_eq_ok_iff {run s : List Char} {offset : Nat} {tokens : List Token}
    (hrun : run.all isNameChar = true) :
    scan run offset s = .ok tokens ↔ List.Forall₂ TokenOf (pieces (run.reverse ++ s)) tokens := by
  induction s generalizing run offset tokens with
  | nil =>
    have hclose := @forall₂_closeRun_iff run hrun [] tokens
    rw [List.append_nil] at hclose
    rw [List.append_nil, scan_nil, hclose]
    simp
  | cons c s ih =>
    by_cases hname : isNameChar c = true
    · have hlonger : (c :: run).all isNameChar = true := by simp [hrun, hname]
      rw [scan_nameChar hname, ih hlonger, List.reverse_cons, List.append_assoc,
        List.singleton_append]
    · have hother : isNameChar c = false := by simpa using hname
      have hrest : ∀ others, scan [] (offset + c.utf8Size) s = .ok others ↔
          List.Forall₂ TokenOf (pieces s) others := fun others => @ih [] _ others rfl
      rw [pieces_append_cons hother, forall₂_closeRun_iff hrun]
      by_cases hblank : isBlank c = true
      · rw [scan_blank hblank, map_eq_ok_iff, pieces_blank hblank]
        simp [hrest]
      · have hblank' : isBlank c = false := by simpa using hblank
        rw [pieces_single hblank', List.singleton_append]
        cases hsymbol : Token.ofSymbol? c with
        | some t =>
          rw [scan_symbol hsymbol, map_eq_ok_iff]
          simp [hrest, List.forall₂_cons_left_iff, tokenOf_symbol_iff hsymbol]
        | none =>
          have hbad : ¬ IsFormulaChar c := by simp [isFormulaChar_iff, hother, hblank', hsymbol]
          rw [scan_unexpected hother hblank' hsymbol]
          simp [List.forall₂_cons_left_iff, not_tokenOf_of_not_isFormulaChar hbad]

theorem scan_isFormulaChar {c : Char} (hc : IsFormulaChar c) (run : List Char) (offset : Nat)
    (s : List Char) :
    ∃ next finish, scan run offset (c :: s) = (scan next (offset + c.utf8Size) s).map finish := by
  rcases isFormulaChar_iff.mp hc with hname | hblank | ⟨t, hsymbol⟩
  · refine ⟨c :: run, id, ?_⟩
    rw [scan_nameChar hname]
    cases scan (c :: run) (offset + c.utf8Size) s <;> rfl
  · exact ⟨[], closeRun run, scan_blank hblank run offset s⟩
  · exact ⟨[], _, scan_symbol hsymbol run offset s⟩

-- induction on the text; the offset has counted the bytes of the characters passed over
/-- The scanner stops at the first character that is none of formulas. -/
theorem scan_eq_error_iff {run s : List Char} {offset : Nat} {e : SyntaxError} :
    scan run offset s = .error e ↔
      ∃ front c back, s = front ++ c :: back ∧ (∀ d ∈ front, IsFormulaChar d) ∧
        ¬ IsFormulaChar c ∧
        e = .unexpectedCharacter c (offset + (String.ofList front).utf8ByteSize) := by
  induction s generalizing run offset with
  | nil => simp [scan_nil]
  | cons d s ih =>
    by_cases hd : IsFormulaChar d
    · obtain ⟨next, finish, hscan⟩ := scan_isFormulaChar hd run offset s
      rw [hscan, map_eq_error_iff, ih]
      constructor
      · rintro ⟨front, c, back, rfl, hfront, hc, rfl⟩
        refine ⟨d :: front, c, back, rfl, List.forall_mem_cons.mpr ⟨hd, hfront⟩, hc, ?_⟩
        simp [Nat.add_assoc]
      · rintro ⟨front, c, back, hs, hfront, hc, rfl⟩
        cases front with
        | nil =>
          cases hs
          exact absurd hd hc
        | cons d front =>
          cases hs
          refine ⟨front, c, back, rfl, (List.forall_mem_cons.mp hfront).2, hc, ?_⟩
          simp [Nat.add_assoc]
    · have hbad := hd
      rw [isFormulaChar_iff, not_or, not_or, not_exists] at hbad
      obtain ⟨hname, hblank, hsymbol⟩ := hbad
      have hnone : Token.ofSymbol? d = none := Option.eq_none_iff_forall_ne_some.mpr hsymbol
      rw [scan_unexpected (by simpa using hname) (by simpa using hblank) hnone]
      constructor
      · intro h
        cases h
        exact ⟨[], d, s, rfl, by simp, hd, by simp⟩
      · rintro ⟨front, c, back, hs, hfront, hc, rfl⟩
        cases front with
        | nil =>
          cases hs
          simp
        | cons d front =>
          cases hs
          exact absurd (hfront d List.mem_cons_self) hd

/-! ### Texts -/

/-- A text can be read exactly if it consists of characters of formulas. -/
theorem exists_scan_iff {s : List Char} :
    (∃ tokens, scan [] 0 s = .ok tokens) ↔ ∀ c ∈ s, IsFormulaChar c := by
  cases hfind : s.find? fun c => !decide (IsFormulaChar c) with
  | none =>
    have hall : ∀ c ∈ s, IsFormulaChar c := by simpa using hfind
    refine iff_of_true ?_ hall
    cases h : scan [] 0 s with
    | ok tokens => exact ⟨tokens, rfl⟩
    | error e =>
      obtain ⟨front, c, back, rfl, -, hc, -⟩ := scan_eq_error_iff.mp h
      exact absurd (hall c (by simp)) hc
  | some c =>
    obtain ⟨hc, front, back, rfl, hfront⟩ := List.find?_eq_some_iff_append.mp hfind
    have hbad : ¬ IsFormulaChar c := by simpa using hc
    have hgood : ∀ d ∈ front, IsFormulaChar d := by simpa using hfront
    refine iff_of_false ?_ fun hall => hbad (hall c (by simp))
    rw [scan_eq_error_iff.mpr ⟨front, c, back, rfl, hgood, hbad, rfl⟩]
    rintro ⟨tokens, h⟩
    cases h

/-- The tokens of pieces are written as the pieces one after the other. -/
theorem text_of_pieces {pieces : List (List Char)} {tokens : List Token}
    (h : List.Forall₂ TokenOf pieces tokens) :
    (String.join (tokens.map Token.text)).toList = pieces.flatten := by
  rw [String.toList_join]
  induction h with
  | nil => rfl
  | cons ht _ ih => rw [List.map_cons, List.flatMap_cons, ht.text, ih, List.flatten_cons]

/-- **The tokens of a text are those of its pieces**: a text has tokens exactly if it consists of
blanks, name characters and symbols.  They are then the tokens of its pieces in order, and their
texts are the text without its blanks.  Any other text is refused at the first other character, at
the place that the bytes in front of it make up. -/
theorem tokenize_pieces (s : String) :
    ((∃ tokens, tokenize s = .ok tokens) ↔ ∀ c ∈ s.toList, IsFormulaChar c) ∧
    (∀ tokens, tokenize s = .ok tokens ↔ List.Forall₂ TokenOf (pieces s.toList) tokens) ∧
    (∀ tokens, tokenize s = .ok tokens →
      String.join (tokens.map Token.text) =
        String.ofList (s.toList.filter fun c => !isBlank c)) ∧
    ∀ e, tokenize s = .error e ↔
      ∃ front c back, s.toList = front ++ c :: back ∧ (∀ d ∈ front, IsFormulaChar d) ∧
        ¬ IsFormulaChar c ∧ e = .unexpectedCharacter c (String.ofList front).utf8ByteSize := by
  have hpieces : ∀ tokens, tokenize s = .ok tokens ↔
      List.Forall₂ TokenOf (pieces s.toList) tokens := by
    intro tokens
    exact @scan_eq_ok_iff [] s.toList 0 tokens rfl
  refine ⟨exists_scan_iff, hpieces, ?_, fun e => ?_⟩
  · intro tokens h
    have htext := text_of_pieces ((hpieces tokens).mp h)
    have hflat : (pieces s.toList).flatten = s.toList.filter fun c => !isBlank c :=
      @flatten_pieces [] rfl s.toList
    rw [← String.toList_inj, htext, hflat, String.toList_ofList]
  · rw [tokenize, scan_eq_error_iff]
    simp only [Nat.zero_add]

/-- Names that begin like functions, a blank of three bytes, and a character that is none of
formulas behind another such blank. -/
theorem tokenize_pieces_sinh :
    String.join ([Token.function .sinh, .left, .name "sin2", .right, .operator .add,
        .name "1.5"].map Token.text) = "sinh(sin2)+1.5" ∧
      tokenize "\u2003a$%" = .error (.unexpectedCharacter '$' 4) := by
  have htokens : tokenize "sinh(sin2)\u2003+ 1.5" =
      .ok [.function .sinh, .left, .name "sin2", .right, .operator .add, .name "1.5"] := by
    decide +kernel
  obtain ⟨-, -, htexts, -⟩ := tokenize_pieces "sinh(sin2)\u2003+ 1.5"
  obtain ⟨-, -, -, herrors⟩ := tokenize_pieces "\u2003a$%"
  constructor
  · rw [htexts _ htokens]
    decide +kernel
  · have hfront : ∀ d ∈ ['\u2003', 'a'], IsFormulaChar d := by
      simp only [List.forall_mem_cons]
      exact ⟨.inl rfl, .inr (.inl rfl), fun _ h => absurd h List.not_mem_nil⟩
    rw [herrors]
    exact ⟨['\u2003', 'a'], '$', ['%'], by decide +kernel, hfront, by decide, by decide +kernel⟩

end QuantityCalculus
