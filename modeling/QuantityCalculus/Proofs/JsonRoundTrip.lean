/-
What is written in JSON is read back.

Every value that is written is canonical, so its text is read as that value
(`JsonValue.readJson_chars`), and what remains is that each record finds its fields again:

* `Dictionary.ofList_of_perm` : a dictionary is rebuilt from its entries in any order,
* `Quantity.ofJson?_toJson`, `Binding.ofJson?_toJson` : everything but the magnitude is read back as
  it is, and the magnitude is what its own number is read as,
* `SymbolTable.ofJson?_of_lists` : a symbol table is read back however its content is listed,
* `readText_text` : the round trips.

That the number of a finite magnitude is read as that magnitude is a property of the number format.
It is used for the magnitude at hand only (`JsonReadsBack`).  A magnitude that is not finite is
written as null, which is no number.
-/
import Mathlib.Data.List.Perm.Basic
import QuantityCalculus.Json.Codec
import QuantityCalculus.Proofs.JsonText

namespace QuantityCalculus

/-! ### Dictionaries from their entries -/

namespace Dictionary

variable {κ ν : Type}

/-- No two entries have the same key. -/
def DistinctKeys (entries : List (κ × ν)) : Prop := entries.Pairwise fun a b => a.1 ≠ b.1

theorem DistinctKeys.perm {entries entries' : List (κ × ν)} (h : DistinctKeys entries)
    (hperm : entries.Perm entries') : DistinctKeys entries' :=
  (hperm.pairwise_iff fun hne => hne.symm).mp h

variable [LT κ] [LE κ] [Std.LawfulOrderLT κ]

/-- Entries in strictly increasing order have distinct keys. -/
theorem distinctKeys_entries (d : Dictionary κ ν) : DistinctKeys d.entries := by
  refine d.sorted.imp fun hlt heq => ?_
  rw [heq] at hlt
  exact Std.lt_irrefl hlt

variable [DecidableLT κ] [Std.IsLinearOrder κ]

/-- Inserting at a new key adds one entry. -/
theorem perm_insertEntry {key : κ} {value : ν} {entries : List (κ × ν)}
    (h : ∀ e ∈ entries, key ≠ e.1) :
    (insertEntry key value entries).Perm ((key, value) :: entries) := by
  induction entries with
  | nil => exact .refl _
  | cons e entries ih =>
    obtain ⟨hne, hrest⟩ := List.forall_mem_cons.mp h
    rw [insertEntry]
    split
    · exact .refl _
    · next hnlt =>
      have hgt : e.1 < key := by
        rcases Std.lt_trichotomy key e.1 with hlt | heq | hgt
        · exact absurd hlt hnlt
        · exact absurd heq hne
        · exact hgt
      rw [if_pos hgt]
      exact ((ih hrest).cons e).trans (.swap _ _ _)

-- the entries inserted so far and those still to come never share a key, so nothing is replaced
theorem perm_foldl_insert (d : Dictionary κ ν) {entries : List (κ × ν)}
    (h : DistinctKeys (d.entries ++ entries)) :
    (entries.foldl (fun d e => d.insert e.1 e.2) d).entries.Perm (d.entries ++ entries) := by
  induction entries generalizing d with
  | nil => rw [List.append_nil, List.foldl_nil]
  | cons e entries ih =>
    have hmiddle : (d.entries ++ e :: entries).Perm (e :: (d.entries ++ entries)) :=
      List.perm_middle
    have hnew : ∀ a ∈ d.entries, e.1 ≠ a.1 := fun a ha =>
      (List.pairwise_cons.mp (h.perm hmiddle)).1 a (List.mem_append_left _ ha)
    have hinsert : ((d.insert e.1 e.2).entries ++ entries).Perm (d.entries ++ e :: entries) :=
      ((perm_insertEntry hnew).append_right entries).trans hmiddle.symm
    rw [List.foldl_cons]
    exact (ih _ (h.perm hinsert.symm)).trans hinsert

/-- A dictionary of entries with distinct keys has just these entries. -/
theorem perm_ofList {entries : List (κ × ν)} (h : DistinctKeys entries) :
    (ofList entries).entries.Perm entries :=
  perm_foldl_insert empty h

/-- The order in which the entries of a dictionary are listed does not matter. -/
theorem ofList_of_perm {d : Dictionary κ ν} {entries : List (κ × ν)}
    (h : entries.Perm d.entries) : ofList entries = d := by
  have hdistinct : DistinctKeys entries := d.distinctKeys_entries.perm h.symm
  refine ext_entries (((perm_ofList hdistinct).trans h).eq_of_pairwise ?_ (ofList entries).sorted
    d.sorted)
  intro a b _ _ hab hba
  exact absurd (Std.lt_trans hab hba) Std.lt_irrefl

end Dictionary

/-! ### Reading a text as a value of some type -/

/-- Reads a value of some type off a JSON text. -/
def readText {β : Type} (ofJson? : JsonValue → Option β) (text : String) : Option β :=
  (readJson text.toList).bind ofJson?

/-- A canonical value is read from its text as it is from the value. -/
theorem readText_of_canonical {β : Type} (ofJson? : JsonValue → Option β) {v : JsonValue}
    (h : v.Canonical) : readText ofJson? v.text = ofJson? v := by
  rw [readText, JsonValue.text, String.toList_ofList, JsonValue.readJson_chars h]
  rfl

theorem mapM_map_of_reads {α β : Type} {write : α → β} {read : β → Option α}
    (h : ∀ a, read (write a) = some a) (as : List α) : (as.map write).mapM read = some as := by
  induction as with
  | nil => rfl
  | cons a as ih => simp [h, ih]

namespace JsonValue

theorem canonical_ofWord (w : Int32) : (ofWord w).Canonical := by
  rw [ofWord, ← chars_wordParts]
  exact .number (wellFormed_wordParts w)

theorem canonical_ofText (s : String) : (ofText s).Canonical := .string _

theorem canonical_record {fields : List (String × JsonValue)} (h : ∀ f ∈ fields, f.2.Canonical) :
    (object (fields.map fun f => (fieldName f.1, f.2))).Canonical := by
  refine .object ?_ ?_
  · intro f hf
    obtain ⟨g, -, rfl⟩ := List.mem_map.mp hf
    exact ⟨_, rfl⟩
  · intro f hf
    obtain ⟨g, hg, rfl⟩ := List.mem_map.mp hf
    exact h g hg

theorem text?_ofText (s : String) : (ofText s).text? = some s := by
  rw [ofText, text?, decodeString_encodeString, Option.map_some, String.ofList_toList]

/-- The fields of a record are found under their names. -/
theorem record?_object (fields : List (String × JsonValue)) (names : List String) :
    (object (fields.map fun f => (fieldName f.1, f.2))).record? names =
      names.mapM (single? fields) := by
  have hfields : (fields.map fun f => (fieldName f.1, f.2)).mapM
      (fun f => (decodeString f.1).map fun name => (String.ofList name, f.2)) = some fields := by
    refine mapM_map_of_reads (fun f => ?_) fields
    rw [fieldName, decodeString_encodeString, Option.map_some, String.ofList_toList]
  rw [record?, hfields]
  rfl

/-- A field is found wherever it stands. -/
theorem single?_of_perm {fields fields' : List (String × JsonValue)} {name : String}
    {value : Option JsonValue} (hperm : fields.Perm fields')
    (h : single? fields' name = some value) : single? fields name = some value := by
  have hfilter := hperm.filter fun f => f.1 == name
  rw [single?] at h ⊢
  split at h
  · next hnil =>
    rw [hnil] at hfilter
    rw [hfilter.eq_nil]
    exact h
  · next f hsingle =>
    rw [hsingle] at hfilter
    rw [hfilter.eq_singleton]
    exact h
  · cases h

end JsonValue

open JsonValue (canonical_record canonical_ofWord canonical_ofText)

/-! ### Dimensions -/

theorem Dimension.canonical_toJson (d : Dimension) : d.toJson.Canonical := by
  refine .array fun item hitem => ?_
  obtain ⟨w, -, rfl⟩ := List.mem_map.mp hitem
  exact canonical_ofWord w

/-- A dimension is read back. -/
theorem Dimension.ofJson?_toJson (d : Dimension) : Dimension.ofJson? d.toJson = some d := by
  have hwords : (d.exponents.map JsonValue.ofWord).mapM JsonValue.word? = some d.exponents := by
    exact mapM_map_of_reads JsonValue.word?_ofWord _
  simp only [Dimension.ofJson?, Dimension.toJson, JsonValue.items?, hwords, Option.bind_eq_bind,
    Option.bind_some]
  rfl

/-! ### Quantities and bindings -/

/-- The double stands for a number. -/
def IsFinite (x : Float) : Prop := ∃ negative b, DoubleValue.ofFloat x = .finite negative b

/-- The number that is written for a finite double is read as that double. -/
def JsonReadsBack (x : Float) : Prop :=
  ∀ s, interchangeText? x = some s → (JsonValue.number s).double? = some x

theorem canonical_magnitudeToJson (x : Float) : (magnitudeToJson x).Canonical := by
  rw [magnitudeToJson]
  split
  · next s hs =>
    obtain ⟨p, hp, rfl⟩ := NumberParts.exists_interchangeText hs
    exact .number hp
  · exact .null

/-- A finite magnitude is read back if its text is. -/
theorem double?_magnitudeToJson {x : Float} (hfinite : IsFinite x) (hback : JsonReadsBack x) :
    (magnitudeToJson x).double? = some x := by
  obtain ⟨negative, b, hvalue⟩ := hfinite
  have htext : interchangeText? x = some (signText negative ++ Layout.interchange.magnitude b) := by
    rw [interchangeText?, hvalue]
  rw [magnitudeToJson, htext]
  exact hback _ htext

/-- A magnitude that is not finite is written as nothing, which is no number. -/
theorem double?_of_not_finite {x : Float} (h : ¬ IsFinite x) :
    (magnitudeToJson x).double? = none := by
  have htext : interchangeText? x = none := by
    rw [interchangeText?]
    split
    · next negative b hvalue => exact absurd ⟨negative, b, hvalue⟩ h
    · rfl
  rw [magnitudeToJson, htext]
  rfl

namespace Quantity

/-- The fields of a quantity. -/
def fields (q : Quantity Float) : List (String × JsonValue) :=
  [("magnitude", magnitudeToJson q.magnitude), ("scale", .ofWord q.scale),
   ("unit", q.dimension.toJson)]

theorem canonical_toJson (q : Quantity Float) : q.toJson.Canonical := by
  have hfields : ∀ f ∈ q.fields, f.2.Canonical := by
    simp only [fields, List.forall_mem_cons]
    exact ⟨canonical_magnitudeToJson _, canonical_ofWord _, q.dimension.canonical_toJson,
      fun _ h => absurd h List.not_mem_nil⟩
  exact canonical_record hfields

/-- A quantity is read back with what its magnitude is read as. -/
theorem ofJson?_toJson (q : Quantity Float) :
    ofJson? q.toJson =
      (magnitudeToJson q.magnitude).double?.map fun x => ⟨x, q.scale, q.dimension⟩ := by
  have hrecord : q.toJson.record? ["magnitude", "scale", "unit"] =
      some [some (magnitudeToJson q.magnitude), some (.ofWord q.scale), some q.dimension.toJson] :=
    (JsonValue.record?_object q.fields _).trans rfl
  simp only [ofJson?, hrecord, JsonValue.word?_ofWord, Dimension.ofJson?_toJson,
    Option.bind_eq_bind, Option.bind_some, Option.pure_def]
  cases (magnitudeToJson q.magnitude).double? <;> rfl

end Quantity

namespace Binding

/-- The fields of a binding. -/
def fields (b : Binding Float) : List (String × JsonValue) :=
  [("id", .ofText b.id), ("quantity", b.quantity.toJson)]

theorem canonical_toJson (b : Binding Float) : b.toJson.Canonical := by
  have hfields : ∀ f ∈ b.fields, f.2.Canonical := by
    simp only [fields, List.forall_mem_cons]
    exact ⟨canonical_ofText _, b.quantity.canonical_toJson, fun _ h => absurd h List.not_mem_nil⟩
  exact canonical_record hfields

/-- A binding is read back with what its magnitude is read as. -/
theorem ofJson?_toJson (b : Binding Float) :
    ofJson? b.toJson =
      (magnitudeToJson b.quantity.magnitude).double?.map fun x =>
        ⟨b.id, x, b.quantity.scale, b.quantity.dimension⟩ := by
  have hrecord : b.toJson.record? ["id", "quantity"] =
      some [some (.ofText b.id), some b.quantity.toJson] :=
    (JsonValue.record?_object b.fields _).trans rfl
  simp only [ofJson?, hrecord, JsonValue.text?_ofText, Quantity.ofJson?_toJson,
    Option.bind_eq_bind, Option.bind_some, Option.pure_def]
  cases (magnitudeToJson b.quantity.magnitude).double? <;> rfl

end Binding

/-! ### Symbol tables -/

namespace SymbolTable

/-- An object that lists entries under the texts of their keys. -/
def listing {κ : Type} (keyText : κ → String) (entries : List (κ × String)) : JsonValue :=
  .object (entries.map fun e => (JsonValue.fieldName (keyText e.1), .ofText e.2))

/-- The value is an object with the two fields of the table in any order, and each of them lists its
entries in any order. -/
def Lists (v : JsonValue) (t : SymbolTable) : Prop :=
  ∃ units prefixes, units.Perm t.units.entries ∧ prefixes.Perm t.prefixes.entries ∧
    ∃ fields : List (String × JsonValue),
      fields.Perm [("units", listing id units), ("prefixes", listing wordText prefixes)] ∧
        v = .object (fields.map fun f => (JsonValue.fieldName f.1, f.2))

theorem canonical_listing {κ : Type} (keyText : κ → String) (entries : List (κ × String)) :
    (listing keyText entries).Canonical := by
  have hfields : ∀ f ∈ entries.map fun e => (keyText e.1, JsonValue.ofText e.2), f.2.Canonical := by
    intro f hf
    obtain ⟨e, -, rfl⟩ := List.mem_map.mp hf
    exact canonical_ofText e.2
  have hcanonical := canonical_record hfields
  rw [List.map_map] at hcanonical
  exact hcanonical

/-- A dictionary is read back from its entries in any order, if its keys are read back. -/
theorem dictionary?_listing {κ : Type} [LT κ] [LE κ] [DecidableLT κ] [Std.IsLinearOrder κ]
    [Std.LawfulOrderLT κ] {key? : List Char → Option κ} {keyText : κ → String}
    (hkey : ∀ k, key? (JsonValue.fieldName (keyText k)) = some k) {d : Dictionary κ String}
    {entries : List (κ × String)} (h : entries.Perm d.entries) :
    dictionary? key? (some (listing keyText entries)) = some d := by
  have hentries : (listing keyText entries).map? key? JsonValue.text? = some entries := by
    refine mapM_map_of_reads (fun e => ?_) entries
    rw [hkey, JsonValue.text?_ofText]
    rfl
  rw [dictionary?, hentries, Option.map_some, Dictionary.ofList_of_perm h]

theorem unitKey?_fieldName (s : String) : unitKey? (JsonValue.fieldName s) = some s := by
  rw [unitKey?, JsonValue.fieldName, decodeString_encodeString, Option.map_some,
    String.ofList_toList]

theorem le_of_isNumberChar {c : Char} (h : isNumberChar c = true) : 32 ≤ c.toNat := by
  simp only [isNumberChar, Bool.or_eq_true, beq_iff_eq] at h
  rcases h with ((((h | rfl) | rfl) | rfl) | rfl) | rfl
  · have hrange := toNat_of_isDigit h
    omega
  all_goals decide

theorem escapeChar_of_isNumberChar {c : Char} (h : isNumberChar c = true) : escapeChar c = [c] := by
  have hne : ∀ d, isNumberChar d = false → c ≠ d := by
    rintro d hd rfl
    rw [hd] at h
    exact Bool.false_ne_true h
  have hlow := le_of_isNumberChar h
  have hcontrol : ¬ c.toNat < 32 := by omega
  rw [escapeChar, if_neg (hne '"' rfl), if_neg (hne '\\' rfl), if_neg (hne '\n' rfl),
    if_neg (hne '\t' rfl), if_neg (hne '\r' rfl), if_neg (hne '\x08' rfl), if_neg (hne '\x0c' rfl),
    if_neg hcontrol]

/-- The characters of a number stand for themselves between quotes. -/
theorem encodeString_of_numberChars {s : List Char} (h : ∀ c ∈ s, isNumberChar c = true) :
    encodeString s = s := by
  induction s with
  | nil => rfl
  | cons c s ih =>
    obtain ⟨hc, hs⟩ := List.forall_mem_cons.mp h
    rw [encodeString, List.flatMap_cons, escapeChar_of_isNumberChar hc]
    exact congrArg (c :: ·) (ih hs)

theorem fieldName_wordText (w : Int32) : JsonValue.fieldName (wordText w) = wordDigits w := by
  rw [JsonValue.fieldName, wordText, String.toList_ofList]
  refine encodeString_of_numberChars fun c hc => ?_
  rw [← chars_wordParts] at hc
  exact NumberParts.isNumberChar_of_mem_chars (wellFormed_wordParts w) hc

/-- A scale is read back from the name of its field. -/
theorem scaleKey?_fieldName (w : Int32) :
    scaleKey? (JsonValue.fieldName (wordText w)) = some w := by
  rw [fieldName_wordText, scaleKey?, read?_wordDigits]

theorem wordText_injective {v w : Int32} (h : wordText v = wordText w) : v = w :=
  wordDigits_injective (String.ofList_inj.mp h)

theorem canonical_of_lists {v : JsonValue} {t : SymbolTable} (h : Lists v t) : v.Canonical := by
  obtain ⟨units, prefixes, -, -, fields, hfields, rfl⟩ := h
  refine canonical_record fun f hf => ?_
  rcases List.mem_pair.mp (hfields.mem_iff.mp hf) with rfl | rfl
  · exact canonical_listing id units
  · exact canonical_listing wordText prefixes

/-- A table is read back from any order of its entries. -/
theorem ofJson?_of_lists {v : JsonValue} {t : SymbolTable} (h : Lists v t) :
    ofJson? v = some t := by
  obtain ⟨units, prefixes, hunits, hprefixes, fields, hfields, rfl⟩ := h
  have hrecord : (JsonValue.object (fields.map fun f => (JsonValue.fieldName f.1, f.2))).record?
      ["units", "prefixes"] = some [some (listing id units), some (listing wordText prefixes)] := by
    have hunitsField : JsonValue.single? fields "units" = some (some (listing id units)) :=
      JsonValue.single?_of_perm hfields rfl
    have hprefixesField :
        JsonValue.single? fields "prefixes" = some (some (listing wordText prefixes)) :=
      JsonValue.single?_of_perm hfields rfl
    rw [JsonValue.record?_object]
    simp only [List.mapM_cons, List.mapM_nil, hunitsField, hprefixesField, Option.bind_eq_bind,
      Option.bind_some, Option.pure_def]
  have hunitsRead : dictionary? unitKey? (some (listing id units)) = some t.units :=
    dictionary?_listing unitKey?_fieldName hunits
  have hprefixesRead : dictionary? scaleKey? (some (listing wordText prefixes)) = some t.prefixes :=
    dictionary?_listing scaleKey?_fieldName hprefixes
  simp only [ofJson?, hrecord, hunitsRead, hprefixesRead, Option.bind_eq_bind, Option.bind_some,
    Option.pure_def]

theorem lists_toJson (t : SymbolTable) : Lists t.toJson t := by
  have hdistinct :
      Dictionary.DistinctKeys (t.prefixes.entries.map fun e => (wordText e.1, e.2)) := by
    rw [Dictionary.DistinctKeys, List.pairwise_map]
    exact t.prefixes.distinctKeys_entries.imp fun hne heq => hne (wordText_injective heq)
  -- the entries under the texts of the keys are in another order than those under the keys
  obtain ⟨prefixes, hprefixes, hperm⟩ :
      Relation.Comp (fun a b => a = b.map fun e => (wordText e.1, e.2)) List.Perm
        t.prefixTexts.entries t.prefixes.entries := by
    rw [List.eq_map_comp_perm]
    exact Dictionary.perm_ofList hdistinct
  have hlisting : entriesToJson t.prefixTexts = listing wordText prefixes := by
    rw [entriesToJson, hprefixes, List.map_map]
    rfl
  refine ⟨t.units.entries, prefixes, .refl _, hperm,
    [("prefixes", entriesToJson t.prefixTexts), ("units", entriesToJson t.units)], ?_, rfl⟩
  rw [hlisting]
  exact .swap _ _ _

end SymbolTable

/-! ### The round trips -/

theorem readText_quantity {q : Quantity Float} :
    readText Quantity.ofJson? q.toJson.text =
      (magnitudeToJson q.magnitude).double?.map fun x => ⟨x, q.scale, q.dimension⟩ := by
  rw [readText_of_canonical _ q.canonical_toJson, Quantity.ofJson?_toJson]

theorem readText_binding {b : Binding Float} :
    readText Binding.ofJson? b.toJson.text =
      (magnitudeToJson b.quantity.magnitude).double?.map fun x =>
        ⟨b.id, x, b.quantity.scale, b.quantity.dimension⟩ := by
  rw [readText_of_canonical _ b.canonical_toJson, Binding.ofJson?_toJson]

/-- A written table is read back, in whatever order its entries were written. -/
theorem readText_of_lists {v : JsonValue} {t : SymbolTable} (h : SymbolTable.Lists v t) :
    readText SymbolTable.ofJson? v.text = some t := by
  rw [readText_of_canonical _ (SymbolTable.canonical_of_lists h), SymbolTable.ofJson?_of_lists h]

/-- **JSON texts are read back**: every dimension and every symbol table, however its content is
listed, and every quantity and binding whose magnitude is finite and read back.  Without a finite
magnitude a quantity or binding is not read at all. -/
theorem readText_text :
    (∀ d : Dimension, readText Dimension.ofJson? d.toJson.text = some d) ∧
    (∀ q : Quantity Float, IsFinite q.magnitude → JsonReadsBack q.magnitude →
      readText Quantity.ofJson? q.toJson.text = some q) ∧
    (∀ b : Binding Float, IsFinite b.quantity.magnitude → JsonReadsBack b.quantity.magnitude →
      readText Binding.ofJson? b.toJson.text = some b) ∧
    (∀ t : SymbolTable, readText SymbolTable.ofJson? t.toJson.text = some t ∧
      ∀ v, SymbolTable.Lists v t → readText SymbolTable.ofJson? v.text = some t) ∧
    (∀ q : Quantity Float, ¬ IsFinite q.magnitude →
      readText Quantity.ofJson? q.toJson.text = none) ∧
    ∀ b : Binding Float, ¬ IsFinite b.quantity.magnitude →
      readText Binding.ofJson? b.toJson.text = none := by
  refine ⟨fun d => ?_, fun q hfinite hback => ?_, fun b hfinite hback => ?_,
    fun t => ⟨?_, fun v => readText_of_lists⟩, fun q hfinite => ?_, fun b hfinite => ?_⟩
  · rw [readText_of_canonical _ d.canonical_toJson, Dimension.ofJson?_toJson]
  · rw [readText_quantity, double?_magnitudeToJson hfinite hback]
    rfl
  · rw [readText_binding, double?_magnitudeToJson hfinite hback]
    rfl
  · exact readText_of_lists t.lists_toJson
  · rw [readText_quantity, double?_of_not_finite hfinite]
    rfl
  · rw [readText_binding, double?_of_not_finite hfinite]
    rfl

/-- A name with a quote, a backslash, control characters and letters that are not ASCII; words at
both ends of their range; a table whose entries are listed against their order; an infinite
magnitude. -/
theorem readText_text_limits :
    readText Binding.ofJson?
        ("\x7b\"id\":\"\\\"\\\\\\n\\u0001é𝒳\",\"quantity\":\x7b\"magnitude\":-0.0025," ++
          "\"scale\":-2147483648,\"unit\":[2147483647,-2147483648,0,0,0,0,0]\x7d\x7d") =
      some ⟨"\"\\\n\x01é𝒳", -0.0025, -2147483648, 2147483647, -2147483648, 0, 0, 0, 0, 0⟩ ∧
    readText SymbolTable.ofJson?
        ("\x7b\"units\":\x7b\"\\t\":\"μ\"\x7d," ++
          "\"prefixes\":\x7b\"2147483647\":\"\",\"-2147483648\":\"\\\"\"\x7d\x7d") =
      some ⟨.ofList [("\t", "μ")], .ofList [(-2147483648, "\""), (2147483647, "")]⟩ ∧
    readText Quantity.ofJson? (Quantity.toJson ⟨infiniteDouble, 0, .dimensionless⟩).text =
      none := by
  obtain ⟨-, -, hbinding, htable, hinfinite, -⟩ := readText_text
  refine ⟨?_, ?_, ?_⟩
  · have hfinite : IsFinite (-0.0025) := ⟨_, _, rfl⟩
    have hback : JsonReadsBack (-0.0025) := by
      intro s hs
      cases hs
      rfl
    have hread := hbinding
      ⟨"\"\\\n\x01é𝒳", -0.0025, -2147483648, 2147483647, -2147483648, 0, 0, 0, 0, 0⟩ hfinite hback
    refine (congrArg (readText Binding.ofJson?) ?_).trans hread
    decide +kernel
  · have hlists : SymbolTable.Lists
        (.object
          [(JsonValue.fieldName "units", SymbolTable.listing id [("\t", "μ")]),
           (JsonValue.fieldName "prefixes",
            SymbolTable.listing wordText [(2147483647, ""), (-2147483648, "\"")])])
        ⟨.ofList [("\t", "μ")], .ofList [(-2147483648, "\""), (2147483647, "")]⟩ :=
      ⟨_, _, .refl _, .swap _ _ _, _, .refl _, rfl⟩
    refine (congrArg (readText SymbolTable.ofJson?) ?_).trans ((htable _).2 _ hlists)
    decide +kernel
  · refine hinfinite ⟨infiniteDouble, 0, .dimensionless⟩ ?_
    rintro ⟨negative, b, hvalue⟩
    have hinfinity : DoubleValue.ofFloat infiniteDouble = .infinity false := rfl
    rw [hinfinity] at hvalue
    cases hvalue

end QuantityCalculus
