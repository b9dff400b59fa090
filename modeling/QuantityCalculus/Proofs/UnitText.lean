/-
Units are read from the right.

A dimension in base units is a row of symbols, each with its exponent behind it unless that is one,
and nothing between them.  From the left a symbol may be the beginning of another one, as the metre
is of the mole.  From the right there is no such doubt: no two symbols end alike, none ends in a
bracket, and the digits of an exponent end at the bracket in front of them.  So the last base unit
of a text can be taken off whatever stands in front of it, and after it the one before:

* `componentChars_append_inj` : the last base unit of a text, with its exponent,
* `componentsChars_append` : rows of base units behind two texts differ only in front, where one of
  the texts ends in base units,
* `Dimension.components_injective` : the base units that occur determine a dimension,
* `unitChars_append` : units behind two texts, where the bare kilogram is shown as a gram; they are
  the same unit unless one of the texts ends in base units or in the prefix of the kilogram.
-/
import Mathlib.Data.List.Induction
import QuantityCalculus.Proofs.SerializedForm
import QuantityCalculus.Quantity.Verbose

namespace QuantityCalculus

/-! ### The last character of a base unit -/

namespace BaseUnit

/-- The last character of the symbol. -/
def lastChar : BaseUnit → Char
  | second => 's'
  | metre => 'm'
  | kilogram => 'g'
  | ampere => 'A'
  | kelvin => 'K'
  | mole => 'l'
  | candela => 'd'

/-- The base unit whose symbol ends in a character. -/
def ofLastChar? : Char → Option BaseUnit
  | 's' => some second
  | 'm' => some metre
  | 'g' => some kilogram
  | 'A' => some ampere
  | 'K' => some kelvin
  | 'l' => some mole
  | 'd' => some candela
  | _ => none

/-- A base unit is known by the last character of its symbol. -/
theorem ofLastChar?_lastChar (b : BaseUnit) : ofLastChar? b.lastChar = some b := by cases b <;> rfl

/-- No two symbols end alike. -/
theorem lastChar_injective {b c : BaseUnit} (h : b.lastChar = c.lastChar) : b = c := by
  have hb := ofLastChar?_lastChar b
  rw [h, ofLastChar?_lastChar] at hb
  exact (Option.some.inj hb).symm

theorem exists_symbol (b : BaseUnit) : ∃ stem, b.symbol.toList = stem ++ [b.lastChar] := by
  cases b with
  | second => exact ⟨[], rfl⟩
  | metre => exact ⟨[], rfl⟩
  | kilogram => exact ⟨['k'], rfl⟩
  | ampere => exact ⟨[], rfl⟩
  | kelvin => exact ⟨[], rfl⟩
  | mole => exact ⟨['m', 'o'], rfl⟩
  | candela => exact ⟨['c'], rfl⟩

theorem isDigit_lastChar (b : BaseUnit) : b.lastChar.isDigit = false := by cases b <;> rfl

theorem lastChar_ne_bracket (b : BaseUnit) : b.lastChar ≠ ')' := by cases b <;> decide

/-- The symbol at the end of a text is determined by the text: no symbol ends with another. -/
theorem symbol_append_inj {v v' : List Char} {b c : BaseUnit}
    (h : v ++ b.symbol.toList = v' ++ c.symbol.toList) : v = v' ∧ b = c := by
  obtain ⟨stem, hb⟩ := b.exists_symbol
  obtain ⟨stem', hc⟩ := c.exists_symbol
  have hlast : (v ++ stem) ++ [b.lastChar] = (v' ++ stem') ++ [c.lastChar] := by
    rw [List.append_assoc, List.append_assoc, ← hb, ← hc]
    exact h
  obtain rfl := lastChar_injective (List.append_singleton_inj.mp hlast).2
  exact ⟨List.append_cancel_right h, rfl⟩

end BaseUnit

/-! ### Base units with their exponents -/

/-- The characters of a base unit with its exponent. -/
def componentChars (c : BaseUnit × Int32) : List Char := (componentText c).toList

theorem componentChars_one (b : BaseUnit) : componentChars (b, 1) = b.symbol.toList := rfl

theorem componentChars_of_ne_one (b : BaseUnit) {n : Int32} (hn : n ≠ 1) :
    componentChars (b, n) = (b.symbol.toList ++ ['^']) ++ ('(' :: wordDigits n) ++ [')'] := by
  have hopen : "^(".toList = ['^', '('] := rfl
  have hclose : ")".toList = [')'] := rfl
  rw [componentChars, componentText, if_neg hn]
  simp only [String.toList_append, hopen, hclose, wordText, String.toList_ofList]
  simp

/-- The last character of a base unit with its exponent. -/
def componentLast (c : BaseUnit × Int32) : Char := if c.2 = 1 then c.1.lastChar else ')'

theorem exists_componentChars (c : BaseUnit × Int32) :
    ∃ stem, componentChars c = stem ++ [componentLast c] := by
  obtain ⟨b, n⟩ := c
  by_cases hn : n = 1
  · rw [hn]
    exact b.exists_symbol
  · rw [componentLast, if_neg hn]
    exact ⟨_, componentChars_of_ne_one b hn⟩

theorem componentChars_ne_nil (c : BaseUnit × Int32) : componentChars c ≠ [] := by
  obtain ⟨stem, hstem⟩ := exists_componentChars c
  rw [hstem]
  exact List.append_ne_nil_of_right_ne_nil _ (List.cons_ne_nil _ _)

theorem isDigit_componentLast (c : BaseUnit × Int32) : (componentLast c).isDigit = false := by
  rw [componentLast]
  split
  · exact c.1.isDigit_lastChar
  · rfl

/-- Only the gram to the first power ends with its letter. -/
theorem componentLast_eq_g_iff {c : BaseUnit × Int32} :
    componentLast c = 'g' ↔ c = (.kilogram, 1) := by
  obtain ⟨b, n⟩ := c
  rw [componentLast]
  by_cases hn : n = 1
  · rw [if_pos hn, hn]
    cases b <;> decide
  · rw [if_neg hn]
    exact iff_of_false (by decide) fun h => hn (congrArg Prod.snd h)

/-- An exponent is no part of the text in front of its bracket. -/
theorem digits_append_inj {v v' : List Char} {m n : Int32}
    (h : v ++ '(' :: wordDigits m = v' ++ '(' :: wordDigits n) : v = v' ∧ m = n := by
  have hclass (w : Int32) : ∀ c ∈ (wordDigits w).reverse, (c != '(') = true := by
    intro c hc
    rcases isDigit_or_minus_of_mem_wordDigits (List.mem_reverse.mp hc) with hdigit | rfl
    · refine bne_iff_ne.mpr ?_
      rintro rfl
      exact absurd hdigit (by decide)
    · rfl
  have hstop (s : List Char) : StopsRun (· != '(') ('(' :: s) := stopsRun_cons rfl
  have hreverse := congrArg List.reverse h
  simp only [List.reverse_append, List.reverse_cons, List.append_assoc, List.singleton_append]
    at hreverse
  obtain ⟨hdigits, hfront⟩ :=
    run_append_inj (hclass m) (hclass n) (hstop v.reverse) (hstop v'.reverse) hreverse
  exact ⟨List.reverse_inj.mp (List.cons.inj hfront).2,
    wordDigits_injective (List.reverse_inj.mp hdigits)⟩

/-- The component at the end of a text is determined by the text. -/
theorem componentChars_append_inj {v v' : List Char} {c c' : BaseUnit × Int32}
    (h : v ++ componentChars c = v' ++ componentChars c') : v = v' ∧ c = c' := by
  -- first the last character: it tells the symbols from the exponents
  have hlast : componentLast c = componentLast c' := by
    obtain ⟨stem, hstem⟩ := exists_componentChars c
    obtain ⟨stem', hstem'⟩ := exists_componentChars c'
    rw [hstem, hstem', ← List.append_assoc, ← List.append_assoc] at h
    exact (List.append_singleton_inj.mp h).2
  obtain ⟨b, m⟩ := c
  obtain ⟨b', n⟩ := c'
  rw [componentLast, componentLast] at hlast
  by_cases hm : m = 1
  · by_cases hn : n = 1
    · rw [hm, hn] at h ⊢
      obtain ⟨rfl, rfl⟩ := BaseUnit.symbol_append_inj h
      exact ⟨rfl, rfl⟩
    · rw [if_pos hm, if_neg hn] at hlast
      exact absurd hlast b.lastChar_ne_bracket
  · by_cases hn : n = 1
    · rw [if_neg hm, if_pos hn] at hlast
      exact absurd hlast.symm b'.lastChar_ne_bracket
    · rw [componentChars_of_ne_one b hm, componentChars_of_ne_one b' hn] at h
      -- from the right: the bracket, the digits of the exponent, what opens it, the symbol
      simp only [← List.append_assoc] at h
      obtain ⟨hfront, rfl⟩ := digits_append_inj (List.append_cancel_right h)
      obtain ⟨rfl, rfl⟩ := BaseUnit.symbol_append_inj (List.append_cancel_right hfront)
      exact ⟨rfl, rfl⟩

/-! ### Rows of base units -/

/-- The characters of a row of base units. -/
def componentsChars (cs : List (BaseUnit × Int32)) : List Char := cs.flatMap componentChars

theorem componentsChars_append_singleton (cs : List (BaseUnit × Int32)) (c : BaseUnit × Int32) :
    componentsChars (cs ++ [c]) = componentsChars cs ++ componentChars c := by
  rw [componentsChars, List.flatMap_append, List.flatMap_singleton]
  rfl

theorem componentsChars_eq_nil_iff {cs : List (BaseUnit × Int32)} :
    componentsChars cs = [] ↔ cs = [] := by
  constructor
  · intro h
    cases cs with
    | nil => rfl
    | cons c cs =>
      rw [componentsChars, List.flatMap_cons, List.append_eq_nil_iff] at h
      exact absurd h.1 (componentChars_ne_nil c)
  · rintro rfl
    rfl

theorem nil_of_singleton_eq {v : List Char} {cs : List (BaseUnit × Int32)} {c : Char}
    (h : [c] = v ++ componentsChars cs ++ [c]) : v = [] ∧ cs = [] := by
  have hfront : [] ++ [c] = v ++ componentsChars cs ++ [c] := h
  have hnil := (List.append_singleton_inj.mp hfront).1.symm
  rw [List.append_eq_nil_iff, componentsChars_eq_nil_iff] at hnil
  exact hnil

/-- The base units at the end of two texts are the same, as far as both go. -/
theorem componentsChars_append {v v' : List Char} {cs cs' : List (BaseUnit × Int32)}
    (h : v ++ componentsChars cs = v' ++ componentsChars cs') :
    (∃ ds, v = v' ++ componentsChars ds ∧ cs' = ds ++ cs) ∨
      ∃ ds, v' = v ++ componentsChars ds ∧ cs = ds ++ cs' := by
  induction cs using List.reverseRecOn generalizing cs' with
  | nil =>
    refine .inl ⟨cs', ?_, (List.append_nil cs').symm⟩
    rw [← h]
    exact (List.append_nil v).symm
  | append_singleton cs c ih =>
    rcases List.eq_nil_or_concat' cs' with rfl | ⟨cs', c', rfl⟩
    · refine .inr ⟨cs ++ [c], ?_, (List.append_nil _).symm⟩
      rw [h]
      exact (List.append_nil v').symm
    · rw [componentsChars_append_singleton, componentsChars_append_singleton,
        ← List.append_assoc, ← List.append_assoc] at h
      obtain ⟨hfront, rfl⟩ := componentChars_append_inj h
      obtain ⟨ds, hv, rfl⟩ | ⟨ds, hv, rfl⟩ := ih hfront
      · exact .inl ⟨ds, hv, List.append_assoc ..⟩
      · exact .inr ⟨ds, hv, List.append_assoc ..⟩

/-! ### Dimensions -/

namespace Dimension

theorem toList_baseText (d : Dimension) : d.baseText.toList = componentsChars d.components := by
  rw [baseText, String.toList_join, List.flatMap_map]
  rfl

/-- The components are the base units with an exponent other than zero, each with its exponent. -/
theorem mem_components_iff {d : Dimension} {c : BaseUnit × Int32} :
    c ∈ d.components ↔ c.2 = d.exponent c.1 ∧ c.2 ≠ 0 := by
  rw [components, List.mem_filter, List.mem_map, bne_iff_ne]
  constructor
  · rintro ⟨⟨b, -, rfl⟩, hne⟩
    exact ⟨rfl, hne⟩
  · rintro ⟨hexponent, hne⟩
    exact ⟨⟨c.1, c.1.mem_all, by rw [← hexponent]⟩, hne⟩

/-- A dimension is determined by its components. -/
theorem components_injective {d e : Dimension} (h : d.components = e.components) : d = e := by
  -- what one dimension has of a base unit, the other one has as well
  have hle {d e : Dimension} (h : d.components = e.components) {b : BaseUnit}
      (hb : d.exponent b ≠ 0) : d.exponent b = e.exponent b := by
    have hmem : (b, d.exponent b) ∈ d.components := mem_components_iff.mpr ⟨rfl, hb⟩
    rw [h] at hmem
    exact (mem_components_iff.mp hmem).1
  refine ext_exponent fun b => ?_
  by_cases hd : d.exponent b = 0
  · by_cases he : e.exponent b = 0
    · rw [hd, he]
    · exact (hle h.symm he).symm
  · exact hle h hd

theorem components_ne_nil {d : Dimension} (hd : d ≠ .dimensionless) : d.components ≠ [] := by
  intro h
  have hnone : components dimensionless = [] := by decide
  exact hd (components_injective (h.trans hnone.symm))

theorem components_kilogram : (ofBaseUnit .kilogram).components = [(.kilogram, 1)] := by decide

/-- Base units are listed in their order. -/
theorem components_sorted (d : Dimension) :
    d.components.Pairwise fun c c' => c.1.index < c'.1.index := by
  have hall : BaseUnit.all.Pairwise fun b c => b.index < c.index := by decide
  exact (List.Pairwise.map (fun b => (b, d.exponent b)) (fun _ _ h => h) hall).filter _

/-- The characters of a unit behind its prefix; a bare kilogram is shown in grams. -/
def unitChars (d : Dimension) : List Char :=
  if d.isKilogram then ['g'] else componentsChars d.components

theorem unitChars_kilogram : unitChars (ofBaseUnit .kilogram) = ['g'] := by decide

theorem unitChars_of_ne {d : Dimension} (hd : d ≠ .ofBaseUnit .kilogram) :
    d.unitChars = componentsChars d.components :=
  if_neg (mt isKilogram_iff.mp hd)

end Dimension

/-- The first text ends in what the unit behind the second text has in front of the unit behind the
first: in base units, or in base units and the prefix of a kilogram, of which the gram is left. -/
inductive TakesFrom (v : List Char) (d : Dimension) (v' : List Char) (d' : Dimension) : Prop
  | units {ds : List (BaseUnit × Int32)} (hne : ds ≠ []) (hv : v = v' ++ componentsChars ds)
      (hd : d ≠ .ofBaseUnit .kilogram) (hcomponents : d'.components = ds ++ d.components)
  | kilo {ds : List (BaseUnit × Int32)} (hne : ds ≠ [])
      (hv : v = v' ++ componentsChars ds ++ ['k'])

theorem TakesFrom.exists_last {v v' : List Char} {d d' : Dimension} (h : TakesFrom v d v' d') :
    ∃ stem c, v = stem ++ [c] ∧ c.isDigit = false := by
  cases h with
  | @units ds hne hv _ _ =>
    rcases List.eq_nil_or_concat' ds with rfl | ⟨ds, c, rfl⟩
    · exact absurd rfl hne
    · obtain ⟨stem, hstem⟩ := exists_componentChars c
      rw [componentsChars_append_singleton, hstem, ← List.append_assoc, ← List.append_assoc] at hv
      exact ⟨_, _, hv, isDigit_componentLast c⟩
  | kilo _ hv => exact ⟨_, 'k', hv, rfl⟩

/-- Where the letter of a lone kilogram ends another unit, that unit takes the rest of its text from
what stands in front of the letter. -/
theorem takesFrom_of_kilogram {v v' : List Char} {d' : Dimension} (hunits : d' ≠ .dimensionless)
    (hd' : d' ≠ .ofBaseUnit .kilogram) (h : v ++ ['g'] = v' ++ d'.unitChars) :
    TakesFrom v (.ofBaseUnit .kilogram) v' d' := by
  rw [Dimension.unitChars_of_ne hd'] at h
  rcases List.eq_nil_or_concat' d'.components with hnil | ⟨ds, c, hcomponents⟩
  · exact absurd hnil (Dimension.components_ne_nil hunits)
  · obtain ⟨stem, hstem⟩ := exists_componentChars c
    rw [hcomponents, componentsChars_append_singleton, ← List.append_assoc] at h
    have hlast := h
    rw [hstem, ← List.append_assoc] at hlast
    -- only kilograms end like the gram
    obtain rfl := componentLast_eq_g_iff.mp (List.append_singleton_inj.mp hlast).2.symm
    have hkilo : componentChars (.kilogram, 1) = ['k'] ++ ['g'] := rfl
    rw [hkilo, ← List.append_assoc] at h
    refine .kilo ?_ (List.append_cancel_right h)
    rintro rfl
    exact hd' (Dimension.components_injective
      (hcomponents.trans Dimension.components_kilogram.symm))

/-- **Units are read from the right**: if two texts are the same with units at their ends, these are
one unit, unless one of the texts goes on into the unit of the other. -/
theorem unitChars_append {v v' : List Char} {d d' : Dimension} (hd : d ≠ .dimensionless)
    (hd' : d' ≠ .dimensionless) (h : v ++ d.unitChars = v' ++ d'.unitChars) :
    v = v' ∧ d = d' ∨ TakesFrom v d v' d' ∨ TakesFrom v' d' v d := by
  -- a lone kilogram is the only unit that is not written as its components
  by_cases hkilogram : d = .ofBaseUnit .kilogram
  · by_cases hkilogram' : d' = .ofBaseUnit .kilogram
    · rw [hkilogram, hkilogram'] at h ⊢
      exact .inl ⟨List.append_cancel_right h, rfl⟩
    · rw [hkilogram, Dimension.unitChars_kilogram] at h
      rw [hkilogram]
      exact .inr (.inl (takesFrom_of_kilogram hd' hkilogram' h))
  · by_cases hkilogram' : d' = .ofBaseUnit .kilogram
    · rw [hkilogram', Dimension.unitChars_kilogram] at h
      rw [hkilogram']
      exact .inr (.inr (takesFrom_of_kilogram hd hkilogram h.symm))
    · rw [Dimension.unitChars_of_ne hkilogram, Dimension.unitChars_of_ne hkilogram'] at h
      obtain ⟨ds, hv, hcomponents⟩ | ⟨ds, hv, hcomponents⟩ := componentsChars_append h
      · by_cases hne : ds = []
        · subst hne
          exact .inl
            ⟨hv.trans (List.append_nil v'), Dimension.components_injective hcomponents.symm⟩
        · exact .inr (.inl (.units hne hv hkilogram hcomponents))
      · by_cases hne : ds = []
        · subst hne
          exact .inl
            ⟨(hv.trans (List.append_nil v)).symm, Dimension.components_injective hcomponents⟩
        · exact .inr (.inr (.units hne hv hkilogram' hcomponents))

end QuantityCalculus
