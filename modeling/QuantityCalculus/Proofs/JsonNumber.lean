/-
Written numbers are JSON numbers.

Two kinds of number are written: words, and the interchange texts of finite doubles.  Both are the
text of parts that are well formed: whole digits without a superfluous zero, and digits behind the
point and behind the mark of the exponent, if these are there.  The parts of such a text are read
off it:

* `NumberParts.read?_chars` : reading a number inverts writing its parts,
* `NumberParts.exists_interchangeText` : the text of a finite double has well formed parts,
* `JsonValue.word?_ofWord` : every word is read back as itself.

Which double a number is read as is another matter and left to the double (`JsonReadsBack`, where
quantities are read back).
-/
import QuantityCalculus.Json.Record
import QuantityCalculus.Proofs.SerializedForm

namespace QuantityCalculus

/-! ### The text of the parts of a number -/

/-- Digits, and at least one. -/
def IsDigits (s : List Char) : Prop := s ≠ [] ∧ ∀ c ∈ s, c.isDigit = true

theorem isNumberChar_of_isDigit {c : Char} (h : c.isDigit = true) : isNumberChar c = true := by
  simp [isNumberChar, h]

namespace NumberParts

/-- The fraction digits behind the point. -/
def fractionChars : Option (List Char) → List Char
  | none => []
  | some digits => '.' :: digits

/-- The exponent behind its mark and its sign. -/
def exponentChars : Option (Bool × List Char) → List Char
  | none => []
  | some (negative, digits) => 'e' :: (if negative then '-' else '+') :: digits

/-- The text of a number with given parts. -/
def chars (p : NumberParts) : List Char :=
  signText p.negative ++ (p.whole ++ (fractionChars p.fraction ++ exponentChars p.exponent))

/-- The parts have the form that JSON asks for. -/
structure WellFormed (p : NumberParts) : Prop where
  isWhole : isWhole p.whole = true
  whole : ∀ c ∈ p.whole, c.isDigit = true
  fraction : ∀ digits ∈ p.fraction, IsDigits digits
  exponent : ∀ e ∈ p.exponent, IsDigits e.2

theorem ne_nil_of_isWhole {s : List Char} (h : isWhole s = true) : s ≠ [] := by
  rintro rfl
  exact absurd h (by decide)

theorem isWhole_cons {c : Char} (h : c ≠ '0') (s : List Char) : isWhole (c :: s) = true := by
  unfold isWhole
  split
  · next heq => cases heq
  · rfl
  · next heq =>
    cases heq
    exact bne_iff_ne.mpr h

theorem splitMinus_signText (negative : Bool) {c : Char} (hc : c.isDigit = true) (s : List Char) :
    splitMinus (signText negative ++ c :: s) = (negative, c :: s) := by
  cases negative with
  | true => rfl
  | false =>
    change splitMinus (c :: s) = _
    unfold splitMinus
    split
    · next heq =>
      cases heq
      exact absurd hc (by decide)
    · rfl

theorem stopsRun_exponentChars (e : Option (Bool × List Char)) :
    StopsRun Char.isDigit (exponentChars e) := by
  cases e with
  | none => exact stopsRun_nil
  | some e => exact stopsRun_cons rfl

theorem stopsRun_fractionChars (f : Option (List Char)) (e : Option (Bool × List Char)) :
    StopsRun Char.isDigit (fractionChars f ++ exponentChars e) := by
  cases f with
  | none => exact stopsRun_exponentChars e
  | some digits => exact stopsRun_cons rfl

/-- The fraction is read back, and the exponent is left. -/
theorem splitFraction?_chars {f : Option (List Char)} (hf : ∀ digits ∈ f, IsDigits digits)
    (e : Option (Bool × List Char)) :
    splitFraction? (fractionChars f ++ exponentChars e) = some (f, exponentChars e) := by
  cases f with
  | none => cases e <;> rfl
  | some digits =>
    obtain ⟨hne, hdigits⟩ := hf digits rfl
    have hempty : digits.isEmpty = false := List.isEmpty_eq_false_iff.mpr hne
    have htake := takeWhile_run hdigits (stopsRun_exponentChars e)
    have hdrop := dropWhile_run hdigits (stopsRun_exponentChars e)
    change splitFraction? ('.' :: (digits ++ exponentChars e)) = _
    rw [splitFraction?, htake, hdrop, hempty]
    rfl

theorem readExponent?_chars {e : Option (Bool × List Char)} (he : ∀ x ∈ e, IsDigits x.2) :
    readExponent? (exponentChars e) = some e := by
  cases e with
  | none => rfl
  | some e =>
    obtain ⟨negative, digits⟩ := e
    obtain ⟨hne, hdigits⟩ := he _ rfl
    have hempty : digits.isEmpty = false := List.isEmpty_eq_false_iff.mpr hne
    have hall : digits.all Char.isDigit = true := List.all_eq_true.mpr hdigits
    cases negative <;> simp [exponentChars, readExponent?, Decimal.splitSign, hempty, hall]

/-- The parts of a well formed number are read off its text. -/
theorem read?_chars {p : NumberParts} (h : p.WellFormed) : read? p.chars = some p := by
  obtain ⟨c, s, hs⟩ := List.exists_cons_of_ne_nil (ne_nil_of_isWhole h.isWhole)
  have hc : c.isDigit = true := h.whole c (by rw [hs]; exact List.mem_cons_self)
  have hstop := stopsRun_fractionChars p.fraction p.exponent
  have hminus : splitMinus p.chars =
      (p.negative, p.whole ++ (fractionChars p.fraction ++ exponentChars p.exponent)) := by
    rw [chars, hs]
    exact splitMinus_signText _ hc _
  rw [read?, hminus]
  simp only [takeWhile_run h.whole hstop, dropWhile_run h.whole hstop, h.isWhole, if_true,
    splitFraction?_chars h.fraction, readExponent?_chars h.exponent, Option.bind_eq_bind,
    Option.bind_some, Option.pure_def]

theorem isNumberChar_of_mem_chars {p : NumberParts} (h : p.WellFormed) {c : Char}
    (hc : c ∈ p.chars) : isNumberChar c = true := by
  rw [chars, List.mem_append, List.mem_append, List.mem_append] at hc
  rcases hc with hc | hc | hc | hc
  · cases hn : p.negative with
    | false =>
      rw [hn] at hc
      exact absurd hc List.not_mem_nil
    | true =>
      rw [hn] at hc
      rw [List.mem_singleton.mp hc]
      rfl
  · exact isNumberChar_of_isDigit (h.whole c hc)
  · cases hf : p.fraction with
    | none =>
      rw [hf] at hc
      exact absurd hc List.not_mem_nil
    | some digits =>
      rw [hf] at hc
      rcases List.mem_cons.mp hc with rfl | hc
      · rfl
      · exact isNumberChar_of_isDigit ((h.fraction digits hf).2 c hc)
  · cases he : p.exponent with
    | none =>
      rw [he] at hc
      exact absurd hc List.not_mem_nil
    | some e =>
      rw [he] at hc
      rcases List.mem_cons.mp hc with rfl | hc
      · rfl
      rcases List.mem_cons.mp hc with rfl | hc
      · cases e.1 <;> rfl
      · exact isNumberChar_of_isDigit ((h.exponent e he).2 c hc)

end NumberParts

/-! ### Digits of natural numbers -/

/-- The digits of a positive number do not begin with a zero. -/
theorem exists_toDigits_cons {n : Nat} (h : 0 < n) :
    ∃ c s, Nat.toDigits 10 n = c :: s ∧ c ≠ '0' := by
  induction n using Nat.strongRecOn with
  | ind n ih =>
    by_cases hlt : n < 10
    · refine ⟨n.digitChar, [], Nat.toDigits_of_lt_base hlt, ?_⟩
      have hall : ∀ m < 10, 0 < m → m.digitChar ≠ '0' := by decide
      exact hall n hlt h
    · obtain ⟨c, s, hs, hc⟩ := ih (n / 10) (by omega) (by omega)
      refine ⟨c, s ++ Nat.toDigits 10 (n % 10), ?_, hc⟩
      have hsplit := Nat.toDigits_append_toDigits (b := 10) (n := n / 10) (d := n % 10)
        (by omega) (by omega) (by omega)
      rw [Nat.div_add_mod, hs] at hsplit
      exact hsplit.symm

/-- The digits of a number are whole digits: no zero stands in front of others. -/
theorem isWhole_toDigits (n : Nat) : NumberParts.isWhole (Nat.toDigits 10 n) = true := by
  rcases Nat.eq_zero_or_pos n with rfl | hpos
  · rfl
  · obtain ⟨c, s, hs, hc⟩ := exists_toDigits_cons hpos
    rw [hs]
    exact NumberParts.isWhole_cons hc s

theorem isDigits_toDigits (n : Nat) : IsDigits (Nat.toDigits 10 n) :=
  ⟨Nat.toDigits_ne_nil, fun _ => isDigit_of_mem_toDigits⟩

/-! ### Words -/

/-- The parts of a word. -/
def wordParts (w : Int32) : NumberParts :=
  ⟨decide (w.toInt < 0), Nat.toDigits 10 w.toInt.natAbs, none, none⟩

/-- The digits of an integer are those of its amount, behind a sign if it is negative. -/
theorem intDigits_eq (n : Int) :
    intDigits n = signText (decide (n < 0)) ++ Nat.toDigits 10 n.natAbs := by
  cases n with
  | ofNat n =>
    have hsign : decide (Int.ofNat n < 0) = false := decide_eq_false (by simp)
    rw [hsign]
    rfl
  | negSucc n =>
    have hsign : decide (Int.negSucc n < 0) = true := decide_eq_true (Int.negSucc_lt_zero n)
    rw [hsign]
    rfl

theorem chars_wordParts (w : Int32) : (wordParts w).chars = wordDigits w := by
  rw [wordDigits, intDigits_eq]
  simp [wordParts, NumberParts.chars, NumberParts.fractionChars, NumberParts.exponentChars]

theorem wellFormed_wordParts (w : Int32) : (wordParts w).WellFormed where
  isWhole := isWhole_toDigits _
  whole := (isDigits_toDigits _).2
  fraction := fun _ h => absurd h (by simp [wordParts])
  exponent := fun _ h => absurd h (by simp [wordParts])

/-- The parts of a word have its value, zero included: it is written without a sign. -/
theorem integer?_wordParts (w : Int32) : (wordParts w).integer? = some w.toInt := by
  have hvalue : Decimal.digitsValue (Nat.toDigits 10 w.toInt.natAbs) = w.toInt.natAbs :=
    Nat.ofDigitChars_ten_toDigits
  simp only [NumberParts.integer?, wordParts, hvalue]
  by_cases hneg : w.toInt < 0
  · -- a negative word is not minus zero
    have hne : w.toInt.natAbs ≠ 0 := by omega
    simp only [hneg, decide_true, if_true, if_neg hne, Option.some.injEq]
    omega
  · simp only [hneg, decide_false, Bool.false_eq_true, if_false, Option.some.injEq]
    omega

theorem read?_wordDigits (w : Int32) :
    (NumberParts.read? (wordDigits w)).bind NumberParts.word? = some w := by
  have hread := NumberParts.read?_chars (wellFormed_wordParts w)
  rw [chars_wordParts] at hread
  rw [hread, Option.bind_some, NumberParts.word?, integer?_wordParts]
  simp [fitsWord_toInt]

/-- **Words are read back**, the two limits of their range included. -/
theorem JsonValue.word?_ofWord (w : Int32) : (JsonValue.ofWord w).word? = some w :=
  read?_wordDigits w

/-! ### Doubles -/

/-- The digits of a positive number: digits, the first of which is not zero. -/
def IsSignificant (s : List Char) : Prop :=
  (∃ c rest, s = c :: rest ∧ c ≠ '0') ∧ ∀ c ∈ s, c.isDigit = true

/-- Dropping characters of a class from the end keeps a first one that is not of the class. -/
theorem exists_dropTrailing {p : Char → Bool} {c : Char} (hc : p c = false) (s : List Char) :
    ∃ rest, ((c :: s).reverse.dropWhile p).reverse = c :: rest := by
  rw [List.reverse_cons, List.dropWhile_append]
  split
  · refine ⟨[], ?_⟩
    rw [List.dropWhile_cons_of_neg (by rw [hc]; exact Bool.false_ne_true)]
    rfl
  · exact ⟨(s.reverse.dropWhile p).reverse, by simp⟩

/-- The digits of a positive number begin with a digit that is not zero. -/
theorem isSignificant_ofScaled {n : Nat} (hn : 0 < n) (e : Int) :
    IsSignificant (DigitString.ofScaled n e).digits := by
  refine ⟨?_, fun c => isDigit_of_mem_ofScaled⟩
  obtain ⟨c, s, hs, hc⟩ := exists_toDigits_cons hn
  obtain ⟨rest, hrest⟩ := exists_dropTrailing (p := (· == '0')) (by simpa using hc) s
  refine ⟨c, rest, ?_, hc⟩
  rw [DigitString.ofScaled, hs]
  exact hrest

/-- So do the shortest digits of a positive double. -/
theorem isSignificant_shortestDigits (tie : Tie) {x : Binary} (hx : 0 < x.significand) :
    IsSignificant (shortestDigits tie x).digits := by
  obtain ⟨n, e, hn, hdigits⟩ := exists_ofScaled tie hx
  rw [hdigits]
  exact isSignificant_ofScaled hn e

theorem IsSignificant.isWhole_append {s : List Char} (h : IsSignificant s) (t : List Char) :
    NumberParts.isWhole (s ++ t) = true := by
  obtain ⟨⟨c, rest, rfl, hc⟩, -⟩ := h
  exact NumberParts.isWhole_cons hc (rest ++ t)

theorem IsSignificant.isWhole {s : List Char} (h : IsSignificant s) :
    NumberParts.isWhole s = true := by
  rw [← List.append_nil s]
  exact h.isWhole_append []

theorem IsSignificant.take {s : List Char} (h : IsSignificant s) {n : Nat} (hn : 0 < n) :
    IsSignificant (s.take n) := by
  obtain ⟨⟨c, rest, rfl, hc⟩, hdigits⟩ := h
  refine ⟨⟨c, rest.take (n - 1), List.take_cons hn, hc⟩, ?_⟩
  exact fun d hd => hdigits d (List.mem_of_mem_take hd)

theorem isDigits_drop {s : List Char} (hs : ∀ c ∈ s, c.isDigit = true) {n : Nat}
    (hn : n < s.length) : IsDigits (s.drop n) := by
  refine ⟨?_, fun c hc => hs c (List.mem_of_mem_drop hc)⟩
  rw [ne_eq, List.drop_eq_nil_iff]
  omega

theorem isDigits_zero : IsDigits ['0'] := ⟨List.cons_ne_nil _ _, by simp⟩

theorem isDigit_of_mem_zeros {n : Nat} {c : Char} (h : c ∈ List.replicate n '0') :
    c.isDigit = true := by
  rw [List.eq_of_mem_replicate h]
  rfl

theorem isDigits_zeros_append (n : Nat) {s : List Char} (h : IsDigits s) :
    IsDigits (List.replicate n '0' ++ s) := by
  refine ⟨List.append_ne_nil_of_right_ne_nil _ h.1, ?_⟩
  rw [List.forall_mem_append]
  exact ⟨fun c => isDigit_of_mem_zeros, h.2⟩

theorem IsSignificant.isDigits {s : List Char} (h : IsSignificant s) : IsDigits s := by
  obtain ⟨⟨c, rest, rfl, -⟩, hdigits⟩ := h
  exact ⟨List.cons_ne_nil _ _, hdigits⟩

namespace NumberParts

/-- Whole digits, a point and fraction digits are the text of a well formed number. -/
theorem exists_fraction (negative : Bool) {whole fraction : List Char}
    (hlead : isWhole whole = true) (hwhole : ∀ c ∈ whole, c.isDigit = true)
    (hfraction : IsDigits fraction) :
    ∃ p : NumberParts, p.WellFormed ∧
      p.chars = signText negative ++ (whole ++ '.' :: fraction) := by
  refine ⟨⟨negative, whole, some fraction, none⟩, ⟨hlead, hwhole, ?_, by simp⟩,
    by simp [chars, fractionChars, exponentChars]⟩
  intro digits hdigits
  rw [← Option.some.inj hdigits]
  exact hfraction

/-- The positional text of significant digits is a number. -/
theorem exists_positional {d : DigitString} (h : IsSignificant d.digits) (negative : Bool) :
    ∃ p : NumberParts, p.WellFormed ∧
      p.chars = signText negative ++ Layout.interchange.positional d := by
  rw [Layout.positional]
  split
  · exact exists_fraction negative rfl isDigits_zero.2 (isDigits_zeros_append _ h.isDigits)
  · next hpoint =>
    split
    · -- the mark of a whole number is a point and a zero
      refine exists_fraction negative (h.isWhole_append _) ?_ isDigits_zero
      rw [List.forall_mem_append]
      exact ⟨h.2, fun c => isDigit_of_mem_zeros⟩
    · next hlength =>
      have hwhole : IsSignificant (d.digits.take d.point.toNat) := h.take (by omega)
      exact exists_fraction negative hwhole.isWhole hwhole.2 (isDigits_drop h.2 (by omega))

/-- The text with an exponent of significant digits is a number. -/
theorem exists_scientific {digits : List Char} (h : IsSignificant digits) (negative : Bool)
    (exponent : Int) :
    ∃ p : NumberParts, p.WellFormed ∧
      p.chars = signText negative ++ Layout.scientific ['+'] digits exponent := by
  have hwhole := h.take (n := 1) (by decide)
  have hexponent : exponentChars (some (decide (exponent < 0), Nat.toDigits 10 exponent.natAbs)) =
      'e' :: ((if 0 ≤ exponent then ['+'] else []) ++ intDigits exponent) := by
    rw [intDigits_eq]
    by_cases hneg : exponent < 0
    · have hle : ¬ 0 ≤ exponent := by omega
      simp [exponentChars, signText, hneg, hle]
    · have hle : 0 ≤ exponent := by omega
      simp [exponentChars, signText, hneg, hle]
  -- the first digit stands in front of the point and the others behind it
  refine ⟨⟨negative, digits.take 1, if digits.length ≤ 1 then none else some (digits.drop 1),
    some (decide (exponent < 0), Nat.toDigits 10 exponent.natAbs)⟩,
    ⟨hwhole.isWhole, hwhole.2, ?_, ?_⟩, ?_⟩
  · intro fraction hfraction
    by_cases hlength : digits.length ≤ 1
    · rw [if_pos hlength] at hfraction
      exact absurd hfraction (by simp)
    · rw [if_neg hlength] at hfraction
      rw [← Option.some.inj hfraction]
      exact isDigits_drop h.2 (by omega)
  · intro e he
    rw [← Option.some.inj he]
    exact isDigits_toDigits _
  · rw [chars, Layout.scientific, hexponent]
    by_cases hlength : digits.length ≤ 1 <;> simp [hlength, fractionChars]

/-- The interchange text of every finite double is a number, that of zero too. -/
theorem exists_magnitude (x : Binary) (negative : Bool) :
    ∃ p : NumberParts, p.WellFormed ∧
      p.chars = signText negative ++ Layout.interchange.magnitude x := by
  rw [Layout.magnitude]
  by_cases hzero : x.significand = 0
  · rw [if_pos hzero]
    exact exists_fraction negative rfl isDigits_zero.2 isDigits_zero
  · have hdigits := isSignificant_shortestDigits Layout.interchange.tie (x := x) (by omega)
    rw [if_neg hzero]
    split
    · exact exists_positional hdigits negative
    · exact exists_scientific hdigits negative _

/-- The interchange text of a double is that of a well formed number. -/
theorem exists_interchangeText {x : Float} {s : List Char} (h : interchangeText? x = some s) :
    ∃ p : NumberParts, p.WellFormed ∧ p.chars = s := by
  rw [interchangeText?] at h
  split at h
  · next negative b _ =>
    obtain ⟨p, hp, hchars⟩ := exists_magnitude b negative
    exact ⟨p, hp, hchars.trans (Option.some.inj h)⟩
  · cases h

end NumberParts

end QuantityCalculus
