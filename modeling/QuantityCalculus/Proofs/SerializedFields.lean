/-
Which texts are serialized quantities.

A text is cut at its commas, without the blanks around it.  It is a serialized quantity exactly if
this gives nine pieces, or ten of which the last is empty, and the first piece is a literal and the
others are numerals of words, each without the blanks around it (`FieldsOf`).  In any other text
there is a leftmost problem (`FirstFault`), and it is the one that is reported:

* `intercalate_cons_eq`, `comma_not_mem_of_mem_splitOn` : a text and its pieces,
* `exists_valid_prefix` : pieces begin with valid fields, up to the first that is none,
* `readFields_of_field` : a field with a problem ends the reading, whatever follows it,
* `fieldsOf_or_firstFault` : pieces are fields of a quantity or have a leftmost problem,
* `readSerialized_fields` : which texts are read, and what is reported of the others.
-/
import QuantityCalculus.Proofs.SerializedForm

namespace QuantityCalculus

/-! ### Texts and their pieces -/

/-- The pieces of a text between its commas, without the blanks around the whole text. -/
def commaPieces (s : String) : List (List Char) := (trim s.toList).splitOn ','

theorem intercalate_cons_eq (first : List Char) (others : List (List Char)) :
    [','].intercalate (first :: others) = first ++ commaFields others := by
  induction others generalizing first with
  | nil => exact List.append_nil _ ▸ List.intercalate_singleton
  | cons f fs ih =>
    rw [List.intercalate_cons_cons, ih, commaFields_cons, List.append_assoc]
    rfl

theorem comma_not_mem_of_mem_splitOn {s piece : List Char} (h : piece ∈ s.splitOn ',') :
    ',' ∉ piece := by
  induction s generalizing piece with
  | nil =>
    rw [List.splitOn_nil, List.mem_singleton] at h
    rw [h]
    exact List.not_mem_nil
  | cons c s ih =>
    rw [List.splitOn_cons_eq_if_modifyHead] at h
    split at h
    · rcases List.mem_cons.mp h with rfl | h
      · exact List.not_mem_nil
      · exact ih h
    · next hc =>
      -- a character that is no comma joins the first piece of the rest
      obtain ⟨first, others, hsplit⟩ := List.exists_cons_of_ne_nil (List.splitOn_ne_nil ',' s)
      rw [hsplit] at h ih
      rcases List.mem_cons.mp h with rfl | h
      · rw [List.mem_cons, not_or]
        exact ⟨fun heq => hc (beq_iff_eq.mpr heq.symm), ih List.mem_cons_self⟩
      · exact ih (List.mem_cons_of_mem _ h)

/-! ### Valid fields and problems -/

/-- Checks the text of a field at a place: the first one has to be a literal, each further one a
numeral of a word. -/
def checkField (place : Nat) (text : List Char) : Except SerialFault Unit :=
  if place = 0 then (readMagnitude text).map fun _ => ()
  else (readInteger text).map fun _ => ()

/-- The fields can be read, the first of them standing at a place. -/
def ValidFields (place : Nat) : List (List Char) → Prop
  | [] => True
  | f :: fs => checkField place (trim f) = .ok () ∧ ValidFields (place + 1) fs

/-- The fields are those of the quantity: its magnitude, its scale and its seven exponents. -/
def FieldsOf (q : Quantity Float) (fields : List (List Char)) : Prop :=
  ∃ first others, fields = first :: others ∧ readDouble (trim first) = .ok q.magnitude ∧
    List.Forall₂ (fun f w => readWord (trim f) = .ok w) others (q.scale :: q.dimension.exponents)

/-- The leftmost problem of a text that is cut into pieces. -/
inductive FirstFault (pieces : List (List Char)) : SerialFault → Prop
  /-- a field without any character; what is found is the comma in front of the next, or the end -/
  | missing {before after : List (List Char)} (hpieces : pieces = before ++ [] :: after)
      (hplace : before.length < 9) (hbefore : ValidFields 0 before) :
      FirstFault pieces (.missingField (commaFields after).head?)
  /-- a field that cannot be read -/
  | invalid {before after : List (List Char)} {field : List Char} {fault : SerialFault}
      (hpieces : pieces = before ++ field :: after) (hplace : before.length < 9)
      (hbefore : ValidFields 0 before) (hfield : field ≠ [])
      (hfault : checkField before.length (trim field) = .error fault) : FirstFault pieces fault
  /-- valid fields, but too few of them -/
  | tooFew (hlength : pieces.length < 9) (hvalid : ValidFields 0 pieces) :
      FirstFault pieces .missingComma
  /-- a character behind nine valid fields and a comma -/
  | trailing {before after : List (List Char)} {piece : List Char} {c : Char}
      (hpieces : pieces = before ++ piece :: after) (hlength : before.length = 9)
      (hbefore : ValidFields 0 before) (hfound : (piece ++ commaFields after).head? = some c) :
      FirstFault pieces (.trailing c)

theorem checkField_zero_eq_ok_iff {text : List Char} :
    checkField 0 text = .ok () ↔ ∃ x, readDouble text = .ok x := by
  rw [checkField, if_pos rfl, map_eq_ok_iff]
  simp only [readMagnitude, mapError_eq_ok_iff, and_true]

theorem checkField_succ_eq_ok_iff {place : Nat} {text : List Char} :
    checkField (place + 1) text = .ok () ↔ ∃ w, readWord text = .ok w := by
  rw [checkField, if_neg (Nat.succ_ne_zero place), map_eq_ok_iff]
  simp only [readInteger, mapError_eq_ok_iff, and_true]

theorem checkField_zero_eq_error_iff {text : List Char} {fault : SerialFault} :
    checkField 0 text = .error fault ↔ readMagnitude text = .error fault := by
  rw [checkField, if_pos rfl, map_eq_error_iff]

theorem checkField_succ_eq_error_iff {place : Nat} {text : List Char} {fault : SerialFault} :
    checkField (place + 1) text = .error fault ↔ readInteger text = .error fault := by
  rw [checkField, if_neg (Nat.succ_ne_zero place), map_eq_error_iff]

/-- The reason that a field is invalid names the field. -/
theorem reason_of_checkField {place : Nat} {text : List Char} {fault : SerialFault}
    (h : checkField place text = .error fault) :
    ∃ cause, fault.reason = "invalid " ++ (if place = 0 then "magnitude" else "integer") ++ " `" ++
      String.ofList text ++ "`: " ++ cause := by
  rcases place with - | place
  · rw [checkField_zero_eq_error_iff, readMagnitude, mapError_eq_error_iff] at h
    obtain ⟨cause, -, rfl⟩ := h
    exact ⟨cause.message, rfl⟩
  · rw [checkField_succ_eq_error_iff, readInteger, mapError_eq_error_iff] at h
    obtain ⟨cause, -, rfl⟩ := h
    exact ⟨cause.message, rfl⟩

theorem exists_words {place : Nat} {fs : List (List Char)} (h : ValidFields (place + 1) fs) :
    ∃ ws, List.Forall₂ (fun f w => readWord (trim f) = .ok w) fs ws := by
  induction fs generalizing place with
  | nil => exact ⟨[], .nil⟩
  | cons f fs ih =>
    obtain ⟨w, hw⟩ := checkField_succ_eq_ok_iff.mp h.1
    obtain ⟨ws, hws⟩ := ih h.2
    exact ⟨w :: ws, .cons hw hws⟩

-- induction on the pieces, with the place of the first one in the text
/-- Pieces begin with valid fields, up to a limit or to the first piece that is none. -/
theorem exists_valid_prefix (limit place : Nat) (pieces : List (List Char)) :
    ∃ before after, pieces = before ++ after ∧ ValidFields place before ∧ before.length ≤ limit ∧
      (before.length < limit → ∀ field rest, after = field :: rest →
        checkField (place + before.length) (trim field) ≠ .ok ()) := by
  induction pieces generalizing limit place with
  | nil =>
    refine ⟨[], [], rfl, trivial, Nat.zero_le limit, ?_⟩
    intro _ field rest h
    cases h
  | cons f fs ih =>
    rcases limit with - | limit
    · exact ⟨[], f :: fs, rfl, trivial, Nat.le_refl 0, fun h => absurd h (Nat.lt_irrefl 0)⟩
    · by_cases hf : checkField place (trim f) = .ok ()
      · obtain ⟨before, after, rfl, hvalid, hlength, hnext⟩ := ih limit (place + 1)
        refine ⟨f :: before, after, rfl, ⟨hf, hvalid⟩, Nat.succ_le_succ hlength, ?_⟩
        intro hlt field rest hafter
        have hplace : place + (f :: before).length = place + 1 + before.length := by
          rw [List.length_cons]
          omega
        rw [hplace]
        exact hnext (Nat.lt_of_succ_lt_succ hlt) field rest hafter
      · refine ⟨[], f :: fs, rfl, trivial, Nat.zero_le _, ?_⟩
        intro _ field rest h
        cases h
        exact hf

/-! ### Reading pieces -/

theorem exists_fields {first : List Char} {fs : List (List Char)}
    (h : ValidFields 0 (first :: fs)) :
    ∃ x ws, readDouble (trim first) = .ok x ∧
      List.Forall₂ (fun f w => readWord (trim f) = .ok w) fs ws := by
  obtain ⟨x, hx⟩ := checkField_zero_eq_ok_iff.mp h.1
  obtain ⟨ws, hws⟩ := exists_words h.2
  exact ⟨x, ws, hx, hws⟩

/-- A field with a problem behind valid fields ends the reading, whatever follows it. -/
theorem readFields_of_field {before after : List (List Char)} {field : List Char}
    {fault : SerialFault} (hcomma : ∀ f ∈ before ++ field :: after, ',' ∉ f)
    (hplace : before.length < 9) (hbefore : ValidFields 0 before)
    (hfault : field = [] ∧ fault = .missingField (commaFields after).head? ∨
      field ≠ [] ∧ checkField before.length (trim field) = .error fault) :
    Quantity.readFields ([','].intercalate (before ++ field :: after)) = .error fault := by
  rcases before with - | ⟨first, fs⟩
  -- the first field is the magnitude; the others are words
  · have hfield : ',' ∉ field := hcomma field List.mem_cons_self
    rw [List.nil_append, intercalate_cons_eq, Quantity.readFields,
      readField_comma _ hfield (endsField_commaFields after)]
    rcases hfault with ⟨rfl, rfl⟩ | ⟨hne, hfault⟩
    · rfl
    · have hempty : field.isEmpty = false := List.isEmpty_eq_false_iff.mpr hne
      rw [hempty, if_neg Bool.false_ne_true, checkField_zero_eq_error_iff.mp hfault]
      rfl
  · rw [List.length_cons] at hplace
    obtain ⟨x, ws, hx, hws⟩ := exists_fields hbefore
    obtain ⟨n, hn⟩ : ∃ n, fs.length + (n + 1) = 8 := ⟨7 - fs.length, by omega⟩
    have hmem : ∀ f ∈ fs ++ field :: after, ',' ∉ f :=
      fun f hf => hcomma f (List.mem_cons_of_mem _ hf)
    rw [List.cons_append, intercalate_cons_eq,
      readFields_append (hcomma first List.mem_cons_self)
        (fun f hf => hmem f (List.mem_append_left _ hf)) hx hws hn,
      readIntegers_cons (hmem field (List.mem_append_right _ List.mem_cons_self))]
    rcases hfault with ⟨rfl, rfl⟩ | ⟨hne, hfault⟩
    · rfl
    · have hempty : field.isEmpty = false := List.isEmpty_eq_false_iff.mpr hne
      rw [hempty, if_neg Bool.false_ne_true, checkField_succ_eq_error_iff.mp hfault]
      rfl

/-- The end of a text behind nine valid fields and a comma. -/
theorem checkEnd_commaFields {piece : List Char} {after : List (List Char)} :
    checkEnd (commaFields (piece :: after)) =
      match (piece ++ commaFields after).head? with
      | none => .ok ()
      | some c => .error (.trailing c) := by
  rw [commaFields_cons]
  cases piece ++ commaFields after with
  | nil => rfl
  | cons c s => rfl

/-- Reading stops at the first field that is not valid, and with its fault. -/
theorem readFields_of_firstFault {pieces : List (List Char)} {fault : SerialFault}
    (hne : pieces ≠ []) (hcomma : ∀ f ∈ pieces, ',' ∉ f) (h : FirstFault pieces fault) :
    Quantity.readFields ([','].intercalate pieces) = .error fault := by
  cases h with
  | missing hpieces hplace hbefore =>
    subst hpieces
    exact readFields_of_field hcomma hplace hbefore (.inl ⟨rfl, rfl⟩)
  | invalid hpieces hplace hbefore hfield hfault =>
    subst hpieces
    exact readFields_of_field hcomma hplace hbefore (.inr ⟨hfield, hfault⟩)
  | tooFew hlength hvalid =>
    obtain ⟨first, fs, rfl⟩ := List.exists_cons_of_ne_nil hne
    rw [List.length_cons] at hlength
    obtain ⟨x, ws, hx, hws⟩ := exists_fields hvalid
    obtain ⟨n, hn⟩ : ∃ n, fs.length + (n + 1) = 8 := ⟨7 - fs.length, by omega⟩
    have hread := readFields_append (hcomma first List.mem_cons_self)
      (fun f hf => hcomma f (List.mem_cons_of_mem _ hf)) hx hws hn []
    rw [List.append_nil] at hread
    rw [intercalate_cons_eq, hread]
    rfl
  | @trailing before after piece c hpieces hlength hbefore hfound =>
    subst hpieces
    -- all nine fields are read, and a character behind the next comma is left
    rcases before with - | ⟨first, fs⟩
    · exact absurd hlength (by decide)
    · obtain ⟨x, ws, hx, hws⟩ := exists_fields hbefore
      have hn : fs.length + 0 = 8 := Nat.succ.inj hlength
      rw [List.cons_append, intercalate_cons_eq,
        readFields_append (hcomma first List.mem_cons_self)
          (fun f hf => hcomma f (List.mem_cons_of_mem _ (List.mem_append_left _ hf))) hx hws hn]
      show (checkEnd (commaFields (piece :: after))).map _ = _
      rw [checkEnd_commaFields, hfound]
      rfl

/-- Nine valid fields are read as their quantity, with or without a comma at the end. -/
theorem readFields_of_fieldsOf {q : Quantity Float} {fields pieces : List (List Char)}
    (hcomma : ∀ f ∈ fields, ',' ∉ f) (h : FieldsOf q fields)
    (hpieces : pieces = fields ∨ pieces = fields ++ [[]]) :
    Quantity.readFields ([','].intercalate pieces) = .ok q := by
  obtain ⟨first, others, rfl, hx, hws⟩ := h
  have hn : others.length + 0 = 8 := hws.length_eq
  have hread := readFields_append (hcomma first List.mem_cons_self)
    (fun f hf => hcomma f (List.mem_cons_of_mem _ hf)) hx hws hn
  rcases hpieces with rfl | rfl
  · have hend := hread []
    rw [List.append_nil] at hend
    rw [intercalate_cons_eq, hend]
    rfl
  · rw [List.cons_append, intercalate_cons_eq, hread [[]]]
    rfl

theorem integers_ofFields (x : Float) {ws : List Int32} (h : ws.length = 8) :
    (Quantity.ofFields x ws).scale :: (Quantity.ofFields x ws).dimension.exponents = ws := by
  match ws, h with
  | [_, _, _, _, _, _, _, _], _ => rfl

theorem exists_fieldsOf {fields : List (List Char)} (hvalid : ValidFields 0 fields)
    (hlength : fields.length = 9) : ∃ q, FieldsOf q fields := by
  obtain ⟨first, others, rfl⟩ :=
    List.exists_cons_of_ne_nil (List.ne_nil_of_length_eq_add_one hlength)
  obtain ⟨x, ws, hx, hws⟩ := exists_fields hvalid
  have height : ws.length = 8 := hws.length_eq ▸ Nat.succ.inj hlength
  refine ⟨.ofFields x ws, first, others, rfl, hx, ?_⟩
  rw [integers_ofFields x height]
  exact hws

/-- Pieces are the fields of a quantity, or they have a leftmost problem. -/
theorem fieldsOf_or_firstFault (pieces : List (List Char)) :
    (∃ q fields, (pieces = fields ∨ pieces = fields ++ [[]]) ∧ FieldsOf q fields) ∨
      ∃ fault, FirstFault pieces fault := by
  obtain ⟨before, after, rfl, hvalid, hlength, hnext⟩ := exists_valid_prefix 9 0 pieces
  rcases Nat.lt_or_ge before.length 9 with hlt | hge
  · -- reading stops before the ninth field
    right
    rcases after with - | ⟨field, rest⟩
    · rw [List.append_nil]
      exact ⟨_, .tooFew hlt hvalid⟩
    · by_cases hfield : field = []
      · subst hfield
        exact ⟨_, .missing rfl hlt hvalid⟩
      · have hcheck := hnext hlt field rest rfl
        rw [Nat.zero_add] at hcheck
        cases hfault : checkField before.length (trim field) with
        | ok u => exact absurd hfault hcheck
        | error fault => exact ⟨fault, .invalid rfl hlt hvalid hfield hfault⟩
  · -- nine fields are valid, and at most one comma may follow them
    have hnine : before.length = 9 := Nat.le_antisymm hlength hge
    obtain ⟨q, hq⟩ := exists_fieldsOf hvalid hnine
    rcases after with - | ⟨piece, rest⟩
    · exact .inl ⟨q, before, .inl (List.append_nil before), hq⟩
    · cases hfound : (piece ++ commaFields rest).head? with
      | some c => exact .inr ⟨_, .trailing rfl hnine hvalid hfound⟩
      | none =>
        obtain ⟨rfl, hrest⟩ := List.append_eq_nil_iff.mp (List.head?_eq_none_iff.mp hfound)
        rcases rest with - | ⟨f, fs⟩
        · exact .inl ⟨q, before, .inr rfl, hq⟩
        · exact absurd hrest (List.cons_ne_nil _ _)

/-! ### Texts -/

theorem trim_eq_intercalate (s : String) : trim s.toList = [','].intercalate (commaPieces s) :=
  (List.intercalate_splitOn ',').symm

theorem comma_not_mem_of_mem_commaPieces {s : String} {piece : List Char}
    (h : piece ∈ commaPieces s) : ',' ∉ piece :=
  comma_not_mem_of_mem_splitOn h

theorem readSerialized_of_fieldsOf {s : String} {q : Quantity Float} {fields : List (List Char)}
    (hpieces : commaPieces s = fields ∨ commaPieces s = fields ++ [[]]) (h : FieldsOf q fields) :
    Quantity.readSerialized s = .ok q := by
  have hcomma : ∀ f ∈ fields, ',' ∉ f := by
    intro f hf
    refine comma_not_mem_of_mem_commaPieces (s := s) ?_
    rcases hpieces with hpieces | hpieces <;> rw [hpieces]
    · exact hf
    · exact List.mem_append_left _ hf
  rw [Quantity.readSerialized, trim_eq_intercalate, readFields_of_fieldsOf hcomma h hpieces]
  rfl

theorem readSerialized_of_firstFault {s : String} {fault : SerialFault}
    (h : FirstFault (commaPieces s) fault) : Quantity.readSerialized s = .error ⟨s, fault⟩ := by
  have hne : commaPieces s ≠ [] := List.splitOn_ne_nil _ _
  rw [Quantity.readSerialized, trim_eq_intercalate,
    readFields_of_firstFault hne (fun f => comma_not_mem_of_mem_commaPieces) h]
  rfl

/-- A text is read as a quantity exactly if its pieces are the nine fields of that quantity, up to a
comma at the end. -/
theorem readSerialized_eq_ok_iff {s : String} {q : Quantity Float} :
    Quantity.readSerialized s = .ok q ↔
      ∃ fields, (commaPieces s = fields ∨ commaPieces s = fields ++ [[]]) ∧ FieldsOf q fields := by
  constructor
  · intro hread
    rcases fieldsOf_or_firstFault (commaPieces s) with ⟨q', fields, hpieces, hq⟩ | ⟨fault, hfault⟩
    · have hq' := readSerialized_of_fieldsOf hpieces hq
      rw [hread] at hq'
      cases hq'
      exact ⟨fields, hpieces, hq⟩
    · rw [readSerialized_of_firstFault hfault] at hread
      cases hread
  · rintro ⟨fields, hpieces, hq⟩
    exact readSerialized_of_fieldsOf hpieces hq

/-- A text is refused exactly with the first fault among its pieces. -/
theorem readSerialized_eq_error_iff {s : String} {e : SerialError} :
    Quantity.readSerialized s = .error e ↔ e.input = s ∧ FirstFault (commaPieces s) e.fault := by
  constructor
  · intro hread
    rcases fieldsOf_or_firstFault (commaPieces s) with ⟨q, fields, hpieces, hq⟩ | ⟨fault, hfault⟩
    · rw [readSerialized_of_fieldsOf hpieces hq] at hread
      cases hread
    · rw [readSerialized_of_firstFault hfault] at hread
      cases hread
      exact ⟨rfl, hfault⟩
  · rintro ⟨rfl, hfault⟩
    exact readSerialized_of_firstFault hfault

/-- **Serialized quantities and their fields**: a text is the quantity `q` exactly if its pieces
are the fields of `q`, or these and an empty piece behind them.  Any other text is reported as it
stands, with the leftmost problem of its pieces: a field that cannot be read behind fields that can
be is named, without the blanks around it, whatever follows it. -/
theorem readSerialized_fields (s : String) :
    (∀ q, Quantity.readSerialized s = .ok q ↔
      ∃ fields, (commaPieces s = fields ∨ commaPieces s = fields ++ [[]]) ∧ FieldsOf q fields) ∧
    (∀ e, Quantity.readSerialized s = .error e ↔
      e.input = s ∧ FirstFault (commaPieces s) e.fault) ∧
    ∀ before field after fault, commaPieces s = before ++ field :: after → before.length < 9 →
      ValidFields 0 before → field ≠ [] → checkField before.length (trim field) = .error fault →
        Quantity.readSerialized s = .error ⟨s, fault⟩ ∧
          ∃ cause, fault.reason =
            "invalid " ++ (if before.length = 0 then "magnitude" else "integer") ++ " `" ++
              String.ofList (trim field) ++ "`: " ++ cause := by
  refine ⟨fun q => readSerialized_eq_ok_iff, fun e => readSerialized_eq_error_iff, ?_⟩
  intro before field after fault hpieces hplace hbefore hfield hfault
  have hfirst : FirstFault (commaPieces s) fault := .invalid hpieces hplace hbefore hfield hfault
  exact ⟨readSerialized_of_firstFault hfirst, reason_of_checkField hfault⟩

/-- Blanks around fields and a comma behind the last one; the second text has a scale that is no
numeral, an empty field and one that is no word. -/
theorem readSerialized_fields_blanks :
    Quantity.readSerialized " 10, 6, -2, 2, 1, 0, 0, 0, 0," = .ok ⟨10, 6, ⟨-2, 2, 1, 0, 0, 0, 0⟩⟩ ∧
      Quantity.readSerialized "1, x ,,99999999999" =
        .error ⟨"1, x ,,99999999999", .invalidInteger ['x'] .invalidDigit⟩ := by
  have hok := (readSerialized_fields " 10, 6, -2, 2, 1, 0, 0, 0, 0,").1
    ⟨10, 6, ⟨-2, 2, 1, 0, 0, 0, 0⟩⟩
  have herror := (readSerialized_fields "1, x ,,99999999999").2.2 [['1']] [' ', 'x', ' ']
    [[], "99999999999".toList] (.invalidInteger ['x'] .invalidDigit)
  have hmagnitude : checkField 0 (trim ['1']) = .ok () := rfl
  have hfields : List.Forall₂ (fun f w => readWord (trim f) = .ok w)
      [" 6".toList, " -2".toList, " 2".toList, " 1".toList, " 0".toList, " 0".toList,
        " 0".toList, " 0".toList] [6, -2, 2, 1, 0, 0, 0, 0] := by
    repeat' constructor
  exact ⟨hok.mpr ⟨_, .inr rfl, _, _, rfl, rfl, hfields⟩,
    (herror rfl (by decide) ⟨hmagnitude, trivial⟩ (by decide) rfl).1⟩

end QuantityCalculus
