/-
The serialized form of quantities can be read back.

A field is read as it was written, because no field contains a comma or a blank: words are digits
behind a sign, and the plain text of a double is made of digits, a sign and a decimal point, or is a
word.  So a quantity is read back whenever its magnitude is:

* `readField_comma`, `readIntegers_append`, `readFields_append` : reading takes valid fields off the
  front of a text, and the rest decides what the result is,
* `toList_serialized` : the fields of a written quantity,
* `readSerialized_serialized` : reading inverts writing, and what was read and written anew is a
  normal form of what was read.

That the text of a double is read as that double is a property of the number format.  It is used for
the magnitude at hand only (`ReadsBack`).
-/
import Mathlib.Data.List.Forall2
import QuantityCalculus.Quantity.Serialized

namespace QuantityCalculus

/-! ### Runs of characters -/

/-- No character of a class stands at the front of the text. -/
def StopsRun (p : Char → Bool) (s : List Char) : Prop := ∀ c ∈ s.head?, p c = false

theorem stopsRun_nil {p : Char → Bool} : StopsRun p [] := fun _ h => absurd h (by simp)

theorem stopsRun_cons {p : Char → Bool} {c : Char} {s : List Char} (h : p c = false) :
    StopsRun p (c :: s) := by
  intro d hd
  rw [List.head?_cons, Option.mem_some] at hd
  rw [← hd]
  exact h

theorem stopsRun_append {p : Char → Bool} {s t : List Char} (hs : StopsRun p s)
    (ht : StopsRun p t) : StopsRun p (s ++ t) := by
  cases s with
  | nil => exact ht
  | cons c s => exact stopsRun_cons (hs c rfl)

theorem takeWhile_run {p : Char → Bool} {s rest : List Char} (hs : ∀ c ∈ s, p c = true)
    (hrest : StopsRun p rest) : (s ++ rest).takeWhile p = s := by
  rw [List.takeWhile_append_of_pos hs]
  cases rest with
  | nil => exact List.append_nil s
  | cons c rest =>
    have hc : p c = false := hrest c rfl
    rw [List.takeWhile_cons_of_neg (by rw [hc]; exact Bool.false_ne_true), List.append_nil]

theorem dropWhile_run {p : Char → Bool} {s rest : List Char} (hs : ∀ c ∈ s, p c = true)
    (hrest : StopsRun p rest) : (s ++ rest).dropWhile p = rest := by
  rw [List.dropWhile_append_of_pos hs]
  cases rest with
  | nil => rfl
  | cons c rest =>
    have hc : p c = false := hrest c rfl
    rw [List.dropWhile_cons_of_neg (by rw [hc]; exact Bool.false_ne_true)]

/-- A run is told from what stands behind it. -/
theorem run_append_inj {p : Char → Bool} {s s' rest rest' : List Char} (hs : ∀ c ∈ s, p c = true)
    (hs' : ∀ c ∈ s', p c = true) (hrest : StopsRun p rest) (hrest' : StopsRun p rest')
    (h : s ++ rest = s' ++ rest') : s = s' ∧ rest = rest' := by
  have htake := takeWhile_run hs hrest
  have hdrop := dropWhile_run hs hrest
  rw [h, takeWhile_run hs' hrest'] at htake
  rw [h, dropWhile_run hs' hrest'] at hdrop
  exact ⟨htake.symm, hdrop.symm⟩

/-! ### The characters of numbers -/

/-- The character is neither a comma nor a blank. -/
def IsFieldChar (c : Char) : Prop := c ≠ ',' ∧ isBlank c = false

instance (c : Char) : Decidable (IsFieldChar c) := inferInstanceAs (Decidable (_ ∧ _))

theorem isFieldChar_of_all {s : List Char} (h : (s.all fun c => decide (IsFieldChar c)) = true) :
    ∀ c ∈ s, IsFieldChar c :=
  fun c hc => of_decide_eq_true (List.all_eq_true.mp h c hc)

theorem toNat_of_isDigit {c : Char} (h : c.isDigit = true) : 48 ≤ c.toNat ∧ c.toNat ≤ 57 := by
  delta Char.isDigit at h
  simp only [Bool.and_eq_true, decide_eq_true_eq] at h
  exact h

/-- No digit is a comma or a blank: the table of blanks leaves the range of the digits out. -/
theorem isFieldChar_of_isDigit {c : Char} (h : c.isDigit = true) : IsFieldChar c := by
  have hrange := toNat_of_isDigit h
  constructor
  · rintro rfl
    exact absurd h (by decide)
  · rw [Bool.eq_false_iff, ne_eq]
    intro hblank
    simp only [isBlank, blankRanges, List.any_cons, List.any_nil, Bool.or_eq_true,
      Bool.and_eq_true, decide_eq_true_eq, Bool.false_eq_true, or_false] at hblank
    omega

theorem isFieldChar_of_mem_wordDigits {w : Int32} {c : Char} (h : c ∈ wordDigits w) :
    IsFieldChar c := by
  rcases isDigit_or_minus_of_mem_wordDigits h with h | rfl
  · exact isFieldChar_of_isDigit h
  · decide

theorem isDigit_of_mem_ofScaled {n : Nat} {e : Int} {c : Char}
    (h : c ∈ (DigitString.ofScaled n e).digits) : c.isDigit = true := by
  have hmem := (List.dropWhile_sublist _).mem (List.mem_reverse.mp h)
  exact isDigit_of_mem_toDigits (List.mem_reverse.mp hmem)

/-- No number that is selected for a positive double is zero. -/
theorem pos_of_contains {x : Binary} (hx : 0 < x.significand) {e : Int} {n : Nat}
    (h : ((RoundingInterval.ofBinary x).descale e).contains n = true) : 0 < n := by
  have hlower : 0 < ((RoundingInterval.ofBinary x).descale e).lower := by
    refine Nat.mul_pos (Nat.mul_pos ?_ (Nat.pow_pos (by decide))) (Nat.pow_pos (by decide))
    split <;> omega
  rcases Nat.eq_zero_or_pos n with rfl | hpos
  · rw [RoundingInterval.contains] at h
    simp only [Nat.zero_mul] at h
    split at h
    · rw [Bool.and_eq_true, decide_eq_true_eq] at h
      omega
    · rw [Bool.and_eq_true, decide_eq_true_eq] at h
      omega
  · exact hpos

/-- The shortest digits of a positive double are those of a positive number at some scale, also
where no short one was found. -/
theorem exists_ofScaled (tie : Tie) {x : Binary} (hx : 0 < x.significand) :
    ∃ n e, 0 < n ∧ shortestDigits tie x = .ofScaled n e := by
  rw [shortestDigits]
  cases hhit : List.findSome? _ _ with
  | none =>
    refine ⟨_, _, ?_, rfl⟩
    exact Nat.mul_pos (Nat.mul_pos hx (Nat.pow_pos (by decide))) (Nat.pow_pos (by decide))
  | some d =>
    obtain ⟨e, -, hcandidate⟩ := List.exists_of_findSome?_eq_some hhit
    obtain ⟨n, hn, rfl⟩ := Option.map_eq_some_iff.mp hcandidate
    exact ⟨n, e, pos_of_contains hx (RoundingInterval.candidate?_contained hn), rfl⟩

/-- Positional notation has digits, a point and the mark of whole numbers, and nothing else. -/
theorem mem_positional {l : Layout} {d : DigitString} (hd : ∀ c ∈ d.digits, c.isDigit = true)
    {c : Char} (h : c ∈ l.positional d) : c.isDigit = true ∨ c = '.' ∨ c ∈ l.wholeMark := by
  rw [Layout.positional] at h
  split at h
  · rw [List.mem_cons, List.mem_cons, List.mem_append, List.mem_replicate] at h
    rcases h with rfl | rfl | ⟨-, rfl⟩ | h
    · exact .inl rfl
    · exact .inr (.inl rfl)
    · exact .inl rfl
    · exact .inl (hd c h)
  · split at h
    · rw [List.mem_append, List.mem_append, List.mem_replicate] at h
      rcases h with (h | ⟨-, rfl⟩) | h
      · exact .inl (hd c h)
      · exact .inl rfl
      · exact .inr (.inr h)
    · rw [List.mem_append, List.mem_cons] at h
      rcases h with h | rfl | h
      · exact .inl (hd c (List.mem_of_mem_take h))
      · exact .inr (.inl rfl)
      · exact .inl (hd c (List.mem_of_mem_drop h))

/-- The plain layout is positional throughout: it has no exponents. -/
theorem exists_plain_positional (x : Binary) :
    ∃ d : DigitString, (∀ c ∈ d.digits, c.isDigit = true) ∧
      Layout.plain.magnitude x = Layout.plain.positional d := by
  rw [Layout.magnitude]
  by_cases hzero : x.significand = 0
  · rw [if_pos hzero]
    refine ⟨⟨['0'], 1⟩, ?_, rfl⟩
    intro c hc
    rw [List.mem_singleton.mp hc]
    rfl
  · rw [if_neg hzero]
    obtain ⟨n, e, -, hdigits⟩ := exists_ofScaled Layout.plain.tie (Nat.pos_of_ne_zero hzero)
    exact ⟨_, fun c hc => isDigit_of_mem_ofScaled (hdigits ▸ hc), rfl⟩

theorem isFieldChar_of_mem_signText {negative : Bool} {c : Char} (h : c ∈ signText negative) :
    IsFieldChar c := by
  cases negative with
  | true =>
    rw [List.mem_singleton.mp h]
    decide
  | false => exact absurd h List.not_mem_nil

/-- The plain text of a double contains neither a comma nor a blank. -/
theorem isFieldChar_of_mem_plainText {x : Float} {c : Char} (h : c ∈ (plainText x).toList) :
    IsFieldChar c := by
  rw [plainText] at h
  split at h
  · exact isFieldChar_of_all rfl c h
  · rw [String.toList_ofList, List.mem_append] at h
    rcases h with h | h
    · exact isFieldChar_of_mem_signText h
    · exact isFieldChar_of_all rfl c h
  · next negative b _ =>
    obtain ⟨d, hdigits, hmagnitude⟩ := exists_plain_positional b
    rw [String.toList_ofList, List.mem_append, hmagnitude] at h
    rcases h with h | h
    · exact isFieldChar_of_mem_signText h
    · rcases mem_positional hdigits h with h | rfl | h
      · exact isFieldChar_of_isDigit h
      · decide
      · exact absurd h List.not_mem_nil

/-! ### Fields -/

theorem dropWhile_isBlank {s : List Char} (h : ∀ c ∈ s, isBlank c = false) :
    s.dropWhile isBlank = s := by
  cases s with
  | nil => rfl
  | cons c s =>
    rw [List.dropWhile_cons_of_neg]
    rw [h c List.mem_cons_self]
    exact Bool.false_ne_true

theorem trim_eq_self {s : List Char} (h : ∀ c ∈ s, isBlank c = false) : trim s = s := by
  have hreverse : ∀ c ∈ s.reverse, isBlank c = false :=
    fun c hc => h c (List.mem_reverse.mp hc)
  rw [trim, trimLeft, dropWhile_isBlank h, trimRight, dropWhile_isBlank hreverse,
    List.reverse_reverse]

/-- The text is empty or begins with a comma. -/
def EndsField (s : List Char) : Prop := s = [] ∨ ∃ rest, s = ',' :: rest

/-- A field without a comma is taken off the front of a text, unless it is empty. -/
theorem readField_comma {β : Type} (read : List Char → Except SerialFault β)
    {field rest : List Char} (hfield : ',' ∉ field) (hrest : EndsField rest) :
    readField read (field ++ rest) =
      if field.isEmpty then .error (.missingField rest.head?)
      else (read (trim field)).map fun value => (value, rest) := by
  have hcomma : ∀ c ∈ field, (c != ',') = true :=
    fun c hc => bne_iff_ne.mpr fun heq => hfield (heq ▸ hc)
  have hfront : fieldOf (field ++ rest) = field := by
    rw [fieldOf, List.takeWhile_append_of_pos hcomma]
    rcases hrest with rfl | ⟨rest, rfl⟩ <;> exact List.append_nil field
  have hback : afterField (field ++ rest) = rest := by
    rw [afterField, List.dropWhile_append_of_pos hcomma]
    rcases hrest with rfl | ⟨rest, rfl⟩ <;> rfl
  rw [readField, hfront, hback]

/-- Fields, each behind a comma. -/
def commaFields (fields : List (List Char)) : List Char := fields.flatMap fun f => ',' :: f

theorem commaFields_cons (f : List Char) (fs : List (List Char)) :
    commaFields (f :: fs) = ',' :: (f ++ commaFields fs) := rfl

theorem endsField_commaFields (fs : List (List Char)) : EndsField (commaFields fs) := by
  cases fs with
  | nil => exact .inl rfl
  | cons f fs => exact .inr ⟨_, rfl⟩

/-- No field is empty that can be read. -/
theorem ne_nil_of_readDouble {field : List Char} {x : Float}
    (h : readDouble (trim field) = .ok x) : field ≠ [] := by
  rintro rfl
  have hempty : readDouble (trim []) = .error .empty := rfl
  rw [hempty] at h
  cases h

theorem ne_nil_of_readWord {field : List Char} {w : Int32} (h : readWord (trim field) = .ok w) :
    field ≠ [] := by
  rintro rfl
  have hempty : readWord (trim []) = .error .empty := rfl
  rw [hempty] at h
  cases h

/-- One more integer is read if the piece in front can be read. -/
theorem readIntegers_cons {n : Nat} {f : List Char} {fs : List (List Char)} (hcomma : ',' ∉ f) :
    readIntegers (n + 1) (commaFields (f :: fs)) =
      (if f.isEmpty then .error (.missingField (commaFields fs).head?)
        else readInteger (trim f)) >>= fun w =>
          (readIntegers n (commaFields fs)).map fun r => (w :: r.1, r.2) := by
  rw [commaFields_cons, readIntegers, readField_comma _ hcomma (endsField_commaFields fs)]
  cases f.isEmpty with
  | true => rfl
  | false => cases readInteger (trim f) <;> rfl

/-- Reading integers takes the valid fields off the front, and the rest of the text decides on
success. -/
theorem readIntegers_append {fs gs : List (List Char)} {ws : List Int32}
    (hcomma : ∀ f ∈ fs, ',' ∉ f)
    (hread : List.Forall₂ (fun f w => readWord (trim f) = .ok w) fs ws) (n : Nat) :
    readIntegers (fs.length + n) (commaFields (fs ++ gs)) =
      (readIntegers n (commaFields gs)).map fun r => (ws ++ r.1, r.2) := by
  induction hread with
  | nil =>
    rw [List.length_nil, Nat.zero_add, List.nil_append]
    cases readIntegers n (commaFields gs) <;> rfl
  | @cons f w fs ws hw hread ih =>
    have hne : f.isEmpty = false := List.isEmpty_eq_false_iff.mpr (ne_nil_of_readWord hw)
    have hinteger : readInteger (trim f) = .ok w := by
      rw [readInteger, hw]
      rfl
    have hlength : (f :: fs).length + n = fs.length + n + 1 := by
      rw [List.length_cons]
      omega
    rw [hlength, List.cons_append, readIntegers_cons (hcomma f List.mem_cons_self),
      hne, if_neg Bool.false_ne_true, hinteger,
      ih fun g hg => hcomma g (List.mem_cons_of_mem _ hg)]
    cases readIntegers n (commaFields gs) <;> rfl

/-- Valid fields in front are read one after the other; the rest decides what the result is. -/
theorem readFields_append {first : List Char} {fs : List (List Char)} {x : Float}
    {ws : List Int32} (hfirst : ',' ∉ first) (hcomma : ∀ f ∈ fs, ',' ∉ f)
    (hx : readDouble (trim first) = .ok x)
    (hws : List.Forall₂ (fun f w => readWord (trim f) = .ok w) fs ws) {n : Nat}
    (hn : fs.length + n = 8) (gs : List (List Char)) :
    Quantity.readFields (first ++ commaFields (fs ++ gs)) =
      readIntegers n (commaFields gs) >>= fun r =>
        (checkEnd r.2).map fun _ => Quantity.ofFields x (ws ++ r.1) := by
  have hne : first.isEmpty = false := List.isEmpty_eq_false_iff.mpr (ne_nil_of_readDouble hx)
  have hmagnitude : readMagnitude (trim first) = .ok x := by
    rw [readMagnitude, hx]
    rfl
  rw [Quantity.readFields, readField_comma _ hfirst (endsField_commaFields _), hne,
    if_neg Bool.false_ne_true, hmagnitude, ← hn]
  simp only [Except.map, bind, Except.bind, readIntegers_append hcomma hws]
  cases readIntegers n (commaFields gs) with
  | error fault => rfl
  | ok r => cases checkEnd r.2 <;> rfl

/-! ### Quantities -/

/-- Words, each behind a comma. -/
def commaWords (ws : List Int32) : List Char := ws.flatMap fun w => ',' :: wordDigits w

theorem commaWords_eq (ws : List Int32) : commaWords ws = commaFields (ws.map wordDigits) :=
  (List.flatMap_map ..).symm

theorem forall₂_wordDigits (ws : List Int32) :
    List.Forall₂ (fun f w => readWord (trim f) = .ok w) (ws.map wordDigits) ws := by
  rw [List.forall₂_map_left_iff, List.forall₂_same]
  intro w _
  rw [trim_eq_self fun c hc => (isFieldChar_of_mem_wordDigits hc).2, readWord_wordDigits]

theorem toList_join_words (w : Int32) (ws : List Int32) :
    ',' :: (",".intercalate ((w :: ws).map wordText)).toList = commaWords (w :: ws) := by
  induction ws generalizing w with
  | nil =>
    rw [List.map_singleton, String.intercalate_singleton, wordText, String.toList_ofList]
    exact (List.append_nil _).symm
  | cons v ws ih =>
    have hcomma : ",".toList = [','] := rfl
    have hrest := ih v
    rw [List.map_cons] at hrest
    rw [List.map_cons, List.map_cons, String.intercalate_cons_cons, String.toList_append,
      String.toList_append, hcomma, List.append_assoc, List.singleton_append, hrest, wordText,
      String.toList_ofList]
    rfl

/-- The fields of a written quantity are its magnitude, its scale and its exponents. -/
theorem toList_serialized (q : Quantity Float) :
    q.serialized.toList =
      (plainText q.magnitude).toList ++ commaWords (q.scale :: q.dimension.exponents) := by
  have hcomma : ",".toList = [','] := rfl
  have hexponents : ',' :: q.dimension.text.toList = commaWords q.dimension.exponents :=
    toList_join_words _ _
  rw [Quantity.serialized]
  simp only [String.toList_append, hcomma, List.append_assoc, List.singleton_append, hexponents,
    wordText, String.toList_ofList]
  rfl

/-- The plain text of the double is read as that double. -/
def ReadsBack (x : Float) : Prop := readDouble (plainText x).toList = .ok x

/-- A written quantity has no blanks, so trimming it changes nothing. -/
theorem isBlank_of_mem_serialized {q : Quantity Float} {c : Char} (h : c ∈ q.serialized.toList) :
    isBlank c = false := by
  rw [toList_serialized, List.mem_append, commaWords, List.mem_flatMap] at h
  rcases h with h | ⟨w, -, h⟩
  · exact (isFieldChar_of_mem_plainText h).2
  · rcases List.mem_cons.mp h with rfl | h
    · decide
    · exact (isFieldChar_of_mem_wordDigits h).2

/-- Reading inverts writing where the magnitude alone can be read back. -/
theorem readSerialized_of_readsBack {q : Quantity Float} (h : ReadsBack q.magnitude) :
    Quantity.readSerialized q.serialized = .ok q := by
  have hmagnitude : readDouble (trim (plainText q.magnitude).toList) = .ok q.magnitude := by
    rw [trim_eq_self fun c hc => (isFieldChar_of_mem_plainText hc).2]
    exact h
  have hfirst : ',' ∉ (plainText q.magnitude).toList :=
    fun hc => (isFieldChar_of_mem_plainText hc).1 rfl
  have hcomma : ∀ f ∈ (q.scale :: q.dimension.exponents).map wordDigits, ',' ∉ f := by
    intro f hf hc
    obtain ⟨w, -, rfl⟩ := List.mem_map.mp hf
    exact (isFieldChar_of_mem_wordDigits hc).1 rfl
  have hread := readFields_append hfirst hcomma hmagnitude (forall₂_wordDigits _) (n := 0) rfl []
  rw [List.append_nil] at hread
  rw [Quantity.readSerialized, trim_eq_self fun c hc => isBlank_of_mem_serialized hc,
    toList_serialized, commaWords_eq, hread]
  rfl

/-- Quantities whose magnitudes can be read back are determined by their written forms. -/
theorem serialized_injective {q q' : Quantity Float} (h : ReadsBack q.magnitude)
    (h' : ReadsBack q'.magnitude) (heq : q.serialized = q'.serialized) : q = q' := by
  have hread := readSerialized_of_readsBack h
  rw [heq, readSerialized_of_readsBack h'] at hread
  exact (Except.ok.inj hread).symm

/-- **Serialized quantities are read back**: a quantity whose magnitude is read back is read back as
a whole.  So writing what was read does not change what is read, and it is a normal form: two texts
are written alike exactly if they are read alike. -/
theorem readSerialized_serialized :
    (∀ q : Quantity Float, ReadsBack q.magnitude → Quantity.readSerialized q.serialized = .ok q) ∧
    (∀ (s : String) (q : Quantity Float), Quantity.readSerialized s = .ok q →
      ReadsBack q.magnitude → Quantity.readSerialized q.serialized = Quantity.readSerialized s) ∧
    ∀ (s s' : String) (q q' : Quantity Float), Quantity.readSerialized s = .ok q →
      Quantity.readSerialized s' = .ok q' → ReadsBack q.magnitude → ReadsBack q'.magnitude →
        (q.serialized = q'.serialized ↔
          Quantity.readSerialized s = Quantity.readSerialized s') := by
  refine ⟨fun q => readSerialized_of_readsBack, ?_, ?_⟩
  · intro s q hs hback
    rw [hs, readSerialized_of_readsBack hback]
  · intro s s' q q' hs hs' hback hback'
    rw [hs, hs']
    constructor
    · intro heq
      rw [serialized_injective hback hback' heq]
    · intro heq
      rw [Except.ok.inj heq]

/-- Words at both ends of their range.  The second spelling has an exponent, blanks, a plus sign,
superfluous zeros and a comma at its end. -/
theorem readSerialized_serialized_limits :
    Quantity.readSerialized "-0.0025,-2147483648,2147483647,-2147483648,0,0,0,0,0" =
        .ok ⟨-0.0025, -2147483648, ⟨2147483647, -2147483648, 0, 0, 0, 0, 0⟩⟩ ∧
      Quantity.readSerialized "-0.0025,-2147483648,2147483647,-2147483648,0,0,0,0,0" =
        Quantity.readSerialized " -25e-4 ,-2147483648, +2147483647,-2147483648,00,0,-0,0,0 ," := by
  have hback : ReadsBack (-0.0025) := rfl
  have hwritten : Quantity.serialized
      ⟨-0.0025, -2147483648, ⟨2147483647, -2147483648, 0, 0, 0, 0, 0⟩⟩ =
        "-0.0025,-2147483648,2147483647,-2147483648,0,0,0,0,0" := rfl
  have hspelling :
      Quantity.readSerialized " -25e-4 ,-2147483648, +2147483647,-2147483648,00,0,-0,0,0 ," =
        .ok ⟨-0.0025, -2147483648, ⟨2147483647, -2147483648, 0, 0, 0, 0, 0⟩⟩ := rfl
  obtain ⟨hread, hagain, -⟩ := readSerialized_serialized
  rw [← hwritten]
  exact ⟨hread _ hback, hagain _ _ hspelling hback⟩

end QuantityCalculus
