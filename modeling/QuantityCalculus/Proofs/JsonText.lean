/-
The text of a JSON value can be read back.

A value is canonical if its numbers are well formed and its texts are the encodings of some
characters; every value that is written is.  Such a value is read off the front of its text,
whatever follows it, as long as nothing follows that would continue a number:

* `JsonValue.Legible` : what it means for a value to be read off the front of a text,
* `JsonValue.legible_array`, `JsonValue.legible_object` : a list or record of legible values is
  legible,
* `JsonValue.readJson_chars` : a canonical value is read back from its text.

The count of steps of the reader is twice the length of what it reads, and one or two more: opening
a bracket takes a step and a character, stepping to the next item takes a step and the comma.
-/
import QuantityCalculus.Proofs.JsonNumber

namespace QuantityCalculus

/-! ### Blanks and numbers -/

theorem skipJsonBlanks_cons {c : Char} (h : isJsonBlank c = false) (s : List Char) :
    skipJsonBlanks (c :: s) = c :: s := by
  rw [skipJsonBlanks, List.dropWhile_cons_of_neg]
  rw [h]
  exact Bool.false_ne_true

theorem isJsonBlank_of_isNumberChar {c : Char} (h : isNumberChar c = true) :
    isJsonBlank c = false := by
  rw [Bool.eq_false_iff, ne_eq]
  intro hblank
  simp only [isJsonBlank, Bool.or_eq_true, beq_iff_eq] at hblank
  rcases hblank with ((rfl | rfl) | rfl) | rfl <;> exact absurd h (by decide)

/-- A number ends at the first character that cannot be part of one. -/
theorem splitNumber_chars {p : NumberParts} (h : p.WellFormed) {rest : List Char}
    (hrest : StopsRun isNumberChar rest) :
    splitNumber (p.chars ++ rest) = some (p.chars, rest) := by
  have hchars : ∀ c ∈ p.chars, isNumberChar c = true :=
    fun c => NumberParts.isNumberChar_of_mem_chars h
  rw [splitNumber, takeWhile_run hchars hrest, dropWhile_run hchars hrest,
    NumberParts.read?_chars h]
  rfl

namespace JsonValue

/-! ### The first character of a value -/

/-- The text begins with a character that is neither blank nor a closing bracket. -/
def OpensValue (s : List Char) : Prop := ∃ c rest, s = c :: rest ∧ isJsonBlank c = false ∧ c ≠ ']'

theorem OpensValue.append {s : List Char} (h : OpensValue s) (t : List Char) :
    OpensValue (s ++ t) := by
  obtain ⟨c, rest, rfl, hc⟩ := h
  exact ⟨c, rest ++ t, rfl, hc⟩

/-- A value that begins like a number is read as a number. -/
theorem readValue_numberChar {c : Char} (hc : isNumberChar c = true) (steps : Nat)
    (s : List Char) :
    readValue (steps + 1) (c :: s) =
      (splitNumber (c :: s)).map fun r => (JsonValue.number r.1, r.2) := by
  rw [readValue, skipJsonBlanks_cons (isJsonBlank_of_isNumberChar hc)]
  split <;> next heq => first | rfl | (cases heq; exact absurd hc (by decide))

/-- An array that is not empty is read item by item. -/
theorem readValue_array {s : List Char} (h : OpensValue s) (steps : Nat) :
    readValue (steps + 1) ('[' :: s) =
      (readItems steps s).map fun r => (JsonValue.array r.1, r.2) := by
  obtain ⟨c, rest, rfl, hblank, hc⟩ := h
  rw [readValue, skipJsonBlanks_cons rfl]
  simp only [skipJsonBlanks_cons hblank]
  split
  · next heq =>
    cases heq
    exact absurd rfl hc
  · rfl

theorem readValue_object (s : List Char) (steps : Nat) :
    readValue (steps + 1) ('\x7b' :: '"' :: s) =
      (readFields steps ('"' :: s)).map fun r => (JsonValue.object r.1, r.2) := by
  rw [readValue, skipJsonBlanks_cons rfl]
  simp only [skipJsonBlanks_cons (c := '"') rfl]
  rfl

/-! ### Legible values -/

/-- The value is read off the front of every text that goes on after it with something that is no
part of a number. -/
structure Legible (v : JsonValue) : Prop where
  opens : OpensValue v.chars
  reads : ∀ (steps : Nat) (rest : List Char), StopsRun isNumberChar rest →
    2 * v.chars.length + 1 ≤ steps → readValue steps (v.chars ++ rest) = some (v, rest)

theorem legible_null : Legible .null where
  opens := ⟨'n', _, rfl, by decide⟩
  reads := by
    intro steps rest _ hsteps
    obtain ⟨steps, rfl⟩ : ∃ k, steps = k + 1 := ⟨steps - 1, by omega⟩
    rfl

theorem legible_bool (b : Bool) : Legible (.bool b) where
  opens := by
    cases b with
    | true => exact ⟨'t', _, rfl, by decide⟩
    | false => exact ⟨'f', _, rfl, by decide⟩
  reads := by
    intro steps rest _ hsteps
    obtain ⟨steps, rfl⟩ : ∃ k, steps = k + 1 := ⟨steps - 1, by omega⟩
    cases b <;> rfl

theorem legible_number {p : NumberParts} (h : p.WellFormed) : Legible (.number p.chars) := by
  have hne : p.chars ≠ [] := by
    rw [NumberParts.chars]
    exact List.append_ne_nil_of_right_ne_nil _
      (List.append_ne_nil_of_left_ne_nil (NumberParts.ne_nil_of_isWhole h.isWhole) _)
  obtain ⟨c, s, hs⟩ := List.exists_cons_of_ne_nil hne
  have hc : isNumberChar c = true :=
    NumberParts.isNumberChar_of_mem_chars h (by rw [hs]; exact List.mem_cons_self)
  constructor
  · refine ⟨c, s, hs, isJsonBlank_of_isNumberChar hc, ?_⟩
    rintro rfl
    exact absurd hc (by decide)
  · intro steps rest hrest hsteps
    obtain ⟨steps, rfl⟩ : ∃ k, steps = k + 1 := ⟨steps - 1, by omega⟩
    have hsplit := splitNumber_chars h hrest
    change readValue (steps + 1) (p.chars ++ rest) = _
    rw [hs, List.cons_append] at hsplit ⊢
    rw [readValue_numberChar hc, hsplit]
    rfl

theorem legible_string (s : List Char) : Legible (.string (encodeString s)) where
  opens := ⟨'"', _, rfl, by decide⟩
  reads := by
    intro steps rest _ hsteps
    obtain ⟨steps, rfl⟩ : ∃ k, steps = k + 1 := ⟨steps - 1, by omega⟩
    have hchars : (string (encodeString s)).chars ++ rest =
        '"' :: (encodeString s ++ '"' :: rest) := by
      simp [chars]
    rw [hchars, readValue, skipJsonBlanks_cons rfl]
    simp only [splitString_encodeString, Option.map_some]

/-! ### Lists and records -/

theorem opensValue_itemsChars {items : List JsonValue} (hne : items ≠ [])
    (h : ∀ item ∈ items, item.Legible) : OpensValue (itemsChars items) := by
  match items, hne with
  | [item], _ => exact (h item List.mem_cons_self).opens
  | item :: next :: items, _ => exact (h item List.mem_cons_self).opens.append _

-- induction on the items; the comma behind an item pays for the two steps to the next one
/-- Items are read back in front of the closing bracket if each of them is; two steps for each
character are enough. -/
theorem readItems_itemsChars {items : List JsonValue} (hne : items ≠ [])
    (h : ∀ item ∈ items, item.Legible) (steps : Nat)
    (hsteps : 2 * (itemsChars items).length + 2 ≤ steps) (rest : List Char) :
    readItems steps (itemsChars items ++ ']' :: rest) = some (items, rest) := by
  induction items generalizing steps with
  | nil => exact absurd rfl hne
  | cons item items ih =>
    obtain ⟨steps, rfl⟩ : ∃ k, steps = k + 1 := ⟨steps - 1, by omega⟩
    have hitem := (h item List.mem_cons_self).reads
    cases items with
    | nil =>
      rw [itemsChars] at hsteps ⊢
      have hread := hitem steps (']' :: rest) (stopsRun_cons rfl) (by omega)
      rw [readItems, hread]
      simp only [Option.bind_eq_bind, Option.bind_some, skipJsonBlanks_cons (c := ']') rfl]
    | cons next items =>
      have hlength : (itemsChars (item :: next :: items)).length =
          item.chars.length + (itemsChars (next :: items)).length + 1 := by
        simp [itemsChars]
        omega
      have hread := hitem steps (',' :: (itemsChars (next :: items) ++ ']' :: rest))
        (stopsRun_cons rfl) (by omega)
      have hrest := ih (List.cons_ne_nil _ _) (fun v hv => h v (List.mem_cons_of_mem _ hv))
        steps (by omega)
      rw [itemsChars, List.append_assoc, List.cons_append, readItems, hread]
      simp only [Option.bind_eq_bind, Option.bind_some, skipJsonBlanks_cons (c := ',') rfl, hrest,
        Option.map_some]

/-- An array is read back if its items are. -/
theorem legible_array {items : List JsonValue} (h : ∀ item ∈ items, item.Legible) :
    Legible (.array items) where
  opens := ⟨'[', _, rfl, by decide⟩
  reads := by
    intro steps rest _ hsteps
    obtain ⟨steps, rfl⟩ : ∃ k, steps = k + 1 := ⟨steps - 1, by omega⟩
    have hchars : (array items).chars ++ rest = '[' :: (itemsChars items ++ ']' :: rest) := by
      simp [chars]
    have hlength : (array items).chars.length = (itemsChars items).length + 2 := by
      simp [chars]
    rw [hchars]
    by_cases hne : items = []
    · rw [hne]
      rfl
    · rw [readValue_array ((opensValue_itemsChars hne h).append _),
        readItems_itemsChars hne h steps (by omega)]
      rfl

/-- The name of a field and its colon. -/
def nameChars (name : List Char) : List Char := '"' :: (name ++ ['"', ':'])

theorem fieldsChars_single (f : List Char × JsonValue) :
    fieldsChars [f] = nameChars f.1 ++ f.2.chars := by
  simp [fieldsChars, nameChars]

theorem fieldsChars_cons_cons (f next : List Char × JsonValue)
    (fields : List (List Char × JsonValue)) :
    fieldsChars (f :: next :: fields) =
      nameChars f.1 ++ (f.2.chars ++ ',' :: fieldsChars (next :: fields)) := by
  simp [fieldsChars, nameChars]

theorem splitName_nameChars (s rest : List Char) :
    splitName (nameChars (encodeString s) ++ rest) = some (encodeString s, rest) := by
  have hchars : nameChars (encodeString s) ++ rest =
      '"' :: (encodeString s ++ '"' :: ':' :: rest) := by
    simp [nameChars]
  rw [hchars, splitName, skipJsonBlanks_cons rfl]
  simp only [splitString_encodeString, Option.bind_eq_bind, Option.bind_some,
    skipJsonBlanks_cons (c := ':') rfl]

/-- The field has an encoded name and a legible value. -/
def LegibleField (f : List Char × JsonValue) : Prop := (∃ s, f.1 = encodeString s) ∧ f.2.Legible

-- as for the items of a list; names take no steps of their own
/-- Fields are read back in front of the closing brace if the value of each of them is. -/
theorem readFields_fieldsChars {fields : List (List Char × JsonValue)} (hne : fields ≠ [])
    (h : ∀ f ∈ fields, LegibleField f) (steps : Nat)
    (hsteps : 2 * (fieldsChars fields).length + 2 ≤ steps) (rest : List Char) :
    readFields steps (fieldsChars fields ++ '\x7d' :: rest) = some (fields, rest) := by
  induction fields generalizing steps with
  | nil => exact absurd rfl hne
  | cons f fields ih =>
    obtain ⟨steps, rfl⟩ : ∃ k, steps = k + 1 := ⟨steps - 1, by omega⟩
    obtain ⟨name, value⟩ := f
    obtain ⟨⟨s, rfl⟩, hvalue⟩ := h _ List.mem_cons_self
    cases fields with
    | nil =>
      rw [fieldsChars_single] at hsteps ⊢
      rw [List.length_append] at hsteps
      have hread := hvalue.reads steps ('\x7d' :: rest) (stopsRun_cons rfl) (by omega)
      rw [List.append_assoc, readFields, splitName_nameChars]
      simp only [Option.bind_eq_bind, Option.bind_some, hread,
        skipJsonBlanks_cons (c := '\x7d') rfl]
    | cons next fields =>
      rw [fieldsChars_cons_cons] at hsteps ⊢
      rw [List.length_append, List.length_append, List.length_cons] at hsteps
      have hread := hvalue.reads steps (',' :: (fieldsChars (next :: fields) ++ '\x7d' :: rest))
        (stopsRun_cons rfl) (by omega)
      have hrest := ih (List.cons_ne_nil _ _) (fun f hf => h f (List.mem_cons_of_mem _ hf))
        steps (by omega)
      rw [List.append_assoc, List.append_assoc, List.cons_append, readFields, splitName_nameChars]
      simp only [Option.bind_eq_bind, Option.bind_some, hread, skipJsonBlanks_cons (c := ',') rfl,
        hrest, Option.map_some]

theorem exists_fieldsChars_cons {fields : List (List Char × JsonValue)} (hne : fields ≠ []) :
    ∃ s, fieldsChars fields = '"' :: s := by
  match fields, hne with
  | [f], _ => exact ⟨_, fieldsChars_single f⟩
  | f :: next :: fields, _ => exact ⟨_, fieldsChars_cons_cons f next fields⟩

theorem legible_object {fields : List (List Char × JsonValue)} (h : ∀ f ∈ fields, LegibleField f) :
    Legible (.object fields) where
  opens := ⟨'\x7b', _, rfl, by decide⟩
  reads := by
    intro steps rest _ hsteps
    obtain ⟨steps, rfl⟩ : ∃ k, steps = k + 1 := ⟨steps - 1, by omega⟩
    have hchars : (object fields).chars ++ rest =
        '\x7b' :: (fieldsChars fields ++ '\x7d' :: rest) := by
      simp [chars]
    have hlength : (object fields).chars.length = (fieldsChars fields).length + 2 := by
      simp [chars]
    rw [hchars]
    by_cases hne : fields = []
    · rw [hne]
      rfl
    · obtain ⟨s, hs⟩ := exists_fieldsChars_cons hne
      have hread := readFields_fieldsChars hne h steps (by omega) rest
      rw [hs, List.cons_append] at hread ⊢
      rw [readValue_object, hread]
      rfl

/-! ### Canonical values -/

/-- The values that are written: numbers are well formed, texts and names are encoded. -/
inductive Canonical : JsonValue → Prop where
  | null : Canonical .null
  | bool (b : Bool) : Canonical (.bool b)
  | number {p : NumberParts} (h : p.WellFormed) : Canonical (.number p.chars)
  | string (s : List Char) : Canonical (.string (encodeString s))
  | array {items : List JsonValue} (h : ∀ item ∈ items, Canonical item) : Canonical (.array items)
  | object {fields : List (List Char × JsonValue)}
      (hname : ∀ f ∈ fields, ∃ s, f.1 = encodeString s) (h : ∀ f ∈ fields, Canonical f.2) :
      Canonical (.object fields)

/-- Every canonical value is read back, by induction on its structure. -/
theorem Canonical.legible {v : JsonValue} (h : v.Canonical) : v.Legible := by
  induction h with
  | null => exact legible_null
  | bool b => exact legible_bool b
  | number hp => exact legible_number hp
  | string s => exact legible_string s
  | array _ ih => exact legible_array ih
  | object hname _ ih => exact legible_object fun f hf => ⟨hname f hf, ih f hf⟩

/-- **JSON texts are read back**: a canonical value is what its text is read as. -/
theorem readJson_chars {v : JsonValue} (h : v.Canonical) : readJson v.chars = some v := by
  have hread := h.legible.reads (2 * v.chars.length + 2) [] stopsRun_nil (by omega)
  rw [List.append_nil] at hread
  rw [readJson, hread]
  rfl

end JsonValue

end QuantityCalculus
