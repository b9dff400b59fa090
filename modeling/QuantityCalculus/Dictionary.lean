/-
Dictionaries.

A dictionary is a list of entries in strictly increasing order of their keys, so two dictionaries
with the same content are equal and their entries are listed in one order.

* `Dictionary.insertEntry_sorted` : an insertion keeps the order, so it gives a dictionary again,
* `Dictionary.ext_entries` : the entries determine a dictionary.
-/

namespace QuantityCalculus

/-- Entries in increasing order of their keys. -/
structure Dictionary (κ ν : Type) [LT κ] where
  entries : List (κ × ν)
  sorted : entries.Pairwise fun a b => a.1 < b.1

namespace Dictionary

variable {κ ν : Type} [LT κ]

/-- The entries determine a dictionary. -/
theorem ext_entries {d e : Dictionary κ ν} (h : d.entries = e.entries) : d = e := by
  cases d; cases e
  cases h
  rfl

/-- The dictionary without entries. -/
def empty : Dictionary κ ν := ⟨[], .nil⟩

/-- The value at a key. -/
def find? [DecidableEq κ] (d : Dictionary κ ν) (key : κ) : Option ν :=
  (d.entries.find? fun e => e.1 == key).map Prod.snd

/-- Puts an entry at its place, instead of an entry with the same key. -/
def insertEntry [DecidableLT κ] (key : κ) (value : ν) : List (κ × ν) → List (κ × ν)
  | [] => [(key, value)]
  | e :: rest =>
    if key < e.1 then (key, value) :: e :: rest
    else if e.1 < key then e :: insertEntry key value rest
    else (key, value) :: rest

/-- An insertion brings in no other key than its own. -/
theorem fst_of_mem_insertEntry [DecidableLT κ] {key : κ} {value : ν} {entries : List (κ × ν)}
    {e : κ × ν} (h : e ∈ insertEntry key value entries) : e.1 = key ∨ e ∈ entries := by
  induction entries with
  | nil =>
    simp only [insertEntry, List.mem_singleton] at h
    exact .inl (by rw [h])
  | cons a rest ih =>
    rw [insertEntry] at h
    split at h
    · rcases List.mem_cons.1 h with rfl | h
      · exact .inl rfl
      · exact .inr h
    · split at h
      · rcases List.mem_cons.1 h with rfl | h
        · exact .inr List.mem_cons_self
        · exact (ih h).imp_right (List.mem_cons_of_mem _)
      · rcases List.mem_cons.1 h with rfl | h
        · exact .inl rfl
        · exact .inr (List.mem_cons_of_mem _ h)

variable [LE κ] [DecidableLT κ] [Std.IsLinearOrder κ] [Std.LawfulOrderLT κ]

/-- An insertion keeps the order of the keys. -/
theorem insertEntry_sorted {key : κ} {value : ν} {entries : List (κ × ν)}
    (h : entries.Pairwise fun a b => a.1 < b.1) :
    (insertEntry key value entries).Pairwise fun a b => a.1 < b.1 := by
  induction entries with
  | nil => exact List.pairwise_singleton _ _
  | cons a rest ih =>
    obtain ⟨ha, hrest⟩ := List.pairwise_cons.1 h
    rw [insertEntry]
    split
    · next hlt =>
      -- the new key comes first
      refine List.pairwise_cons.2 ⟨fun b hb => ?_, h⟩
      rcases List.mem_cons.1 hb with rfl | hb
      · exact hlt
      · exact Std.lt_trans hlt (ha b hb)
    · next hnlt =>
      split
      · next hgt =>
        -- the new key comes later, so the first one stays below all others
        refine List.pairwise_cons.2 ⟨fun b hb => ?_, ih hrest⟩
        rcases fst_of_mem_insertEntry hb with hkey | hb
        · rw [hkey]
          exact hgt
        · exact ha b hb
      · next hngt =>
        -- neither is smaller, so the first key is the new one
        refine List.pairwise_cons.2 ⟨fun b hb => ?_, hrest⟩
        rcases Std.lt_trichotomy key a.1 with hk | hk | hk
        · exact absurd hk hnlt
        · change key < b.1
          rw [hk]
          exact ha b hb
        · exact absurd hk hngt

/-- The dictionary with a value at a key; an older value there is replaced. -/
def insert (d : Dictionary κ ν) (key : κ) (value : ν) : Dictionary κ ν :=
  ⟨insertEntry key value d.entries, insertEntry_sorted d.sorted⟩

/-- The dictionary of a list of entries; of entries with the same key the last one counts. -/
def ofList (entries : List (κ × ν)) : Dictionary κ ν :=
  entries.foldl (fun d e => d.insert e.1 e.2) empty

end Dictionary

end QuantityCalculus
