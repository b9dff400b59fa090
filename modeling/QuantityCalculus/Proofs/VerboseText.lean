/-
Which quantities are shown alike.

The text that shows a quantity is its number, its scale and its unit, with nothing in between.  The
number ends where its figures end, because neither a scale nor a unit begins with a figure.  Scale
and unit are then parted from the right, where units can be told (`unitChars_append`): a doubt is
left only if the text of a scale can end like a unit, and without prefixes no scale does.

* `numberText_append_inj` : the number is told from what stands behind it,
* `SymbolTable.scaleText_injective` : a scale is told from its text, if no two scales have one
  prefix and no prefix looks like a number or a power of ten,
* `Quantity.verbose_eq_iff`, `Quantity.scaledUnitChars_cases` : so two texts are the same exactly if
  their numbers, their scales and their units are the same, unless a scale goes on into a unit,
* `exists_prefix_of_takesFrom` : only a prefix does that,
* `Quantity.verbose_empty_eq_iff` : without prefixes the text tells the quantity.

Pure numbers are left out, since they show no scale.
-/
import QuantityCalculus.Proofs.UnitText

namespace QuantityCalculus

/-! ### Numbers -/

/-- The characters of a number behind its sign, words apart. -/
def isFigure (c : Char) : Bool := c.isDigit || c == '.'

/-- The words that stand for numbers. -/
def numberWords : List (List Char) := [['i', 'n', 'f'], ['N', 'a', 'N']]

/-- The characters of a number behind its sign. -/
inductive IsUnsigned : List Char → Prop
  | figures {s : List Char} (hne : s ≠ []) (hs : ∀ c ∈ s, isFigure c = true) : IsUnsigned s
  | word {w : List Char} (hw : w ∈ numberWords) : IsUnsigned w

/-- The characters of a number. -/
def IsNumberText (s : List Char) : Prop :=
  ∃ negative unsigned, IsUnsigned unsigned ∧ s = signText negative ++ unsigned

theorem positional_ne_nil (l : Layout) (d : DigitString) : l.positional d ≠ [] := by
  rw [Layout.positional]
  split
  · exact List.cons_ne_nil _ _
  · next hpoint =>
    split
    · intro hnil
      rw [List.append_eq_nil_iff, List.append_eq_nil_iff, List.replicate_eq_nil_iff] at hnil
      obtain ⟨⟨hdigits, hzeros⟩, -⟩ := hnil
      rw [hdigits, List.length_nil] at hzeros
      omega
    · exact List.append_ne_nil_of_right_ne_nil _ (List.cons_ne_nil _ _)

/-- The plain text of a double is digits and points, or a word, behind a sign if there is one. -/
theorem isNumberText_plainText (x : Float) : IsNumberText (plainText x).toList := by
  rw [plainText]
  split
  · exact ⟨false, ['N', 'a', 'N'], .word (by decide), rfl⟩
  · next negative _ =>
    exact ⟨negative, ['i', 'n', 'f'], .word (by decide), String.toList_ofList⟩
  · next negative b _ =>
    obtain ⟨d, hdigits, hmagnitude⟩ := exists_plain_positional b
    refine ⟨negative, Layout.plain.positional d, .figures (positional_ne_nil _ _) ?_, ?_⟩
    · intro c hc
      rw [isFigure, Bool.or_eq_true]
      rcases mem_positional hdigits hc with hdigit | hpoint | hmark
      · exact .inl hdigit
      · exact .inr (beq_iff_eq.mpr hpoint)
      · exact absurd hmark List.not_mem_nil
    · rw [String.toList_ofList, hmagnitude]

theorem stopsRun_word {w rest : List Char} (hw : w ∈ numberWords) :
    StopsRun isFigure (w ++ rest) := by
  rw [numberWords, List.mem_pair] at hw
  rcases hw with rfl | rfl <;> exact stopsRun_cons rfl

/-- No text that begins with figures begins with a word for a number. -/
theorem figures_ne_word {s w : List Char} (hne : s ≠ []) (hs : ∀ c ∈ s, isFigure c = true)
    (hw : w ∈ numberWords) (rest rest' : List Char) : s ++ rest ≠ w ++ rest' := by
  intro h
  have hstop : StopsRun isFigure (s ++ rest) := h ▸ stopsRun_word hw
  cases s with
  | nil => exact hne rfl
  | cons c s =>
    have hc : isFigure c = false := hstop c rfl
    rw [hs c List.mem_cons_self] at hc
    cases hc

/-- A number without sign ends where its figures end; the two words have the same length. -/
theorem unsigned_append_inj {s s' rest rest' : List Char} (hs : IsUnsigned s)
    (hs' : IsUnsigned s') (hrest : StopsRun isFigure rest) (hrest' : StopsRun isFigure rest')
    (h : s ++ rest = s' ++ rest') : s = s' ∧ rest = rest' := by
  cases hs with
  | figures hne hs =>
    cases hs' with
    | figures _ hs' => exact run_append_inj hs hs' hrest hrest' h
    | word hw' => exact absurd h (figures_ne_word hne hs hw' rest rest')
  | word hw =>
    cases hs' with
    | figures hne hs' => exact absurd h.symm (figures_ne_word hne hs' hw rest' rest)
    | word hw' =>
      have hlength : ∀ w ∈ numberWords, w.length = 3 := by decide
      exact List.append_inj h ((hlength _ hw).trans (hlength _ hw').symm)

/-- No number begins with a second sign. -/
theorem stopsRun_unsigned {s : List Char} (hs : IsUnsigned s) (rest : List Char) :
    StopsRun (· == '-') (s ++ rest) := by
  cases hs with
  | figures hne hs =>
    cases s with
    | nil => exact absurd rfl hne
    | cons c s =>
      refine stopsRun_cons (beq_eq_false_iff_ne.mpr ?_)
      rintro rfl
      exact absurd (hs '-' List.mem_cons_self) (by decide)
  | word hw =>
    rw [numberWords, List.mem_pair] at hw
    rcases hw with rfl | rfl <;> exact stopsRun_cons rfl

/-- A number ends where its figures end. -/
theorem numberText_append_inj {s s' rest rest' : List Char} (hs : IsNumberText s)
    (hs' : IsNumberText s') (hrest : StopsRun isFigure rest) (hrest' : StopsRun isFigure rest')
    (h : s ++ rest = s' ++ rest') : s = s' ∧ rest = rest' := by
  obtain ⟨negative, unsigned, hunsigned, rfl⟩ := hs
  obtain ⟨negative', unsigned', hunsigned', rfl⟩ := hs'
  have hsign (negative : Bool) : ∀ c ∈ signText negative, (c == '-') = true := by
    intro c hc
    cases negative with
    | true =>
      rw [List.mem_singleton.mp hc]
      rfl
    | false => exact absurd hc List.not_mem_nil
  rw [List.append_assoc, List.append_assoc] at h
  obtain ⟨hsigns, h⟩ := run_append_inj (hsign negative) (hsign negative')
    (stopsRun_unsigned hunsigned rest) (stopsRun_unsigned hunsigned' rest') h
  obtain ⟨rfl, rfl⟩ := unsigned_append_inj hunsigned hunsigned' hrest hrest' h
  rw [hsigns]
  exact ⟨rfl, rfl⟩

/-! ### What stands behind a number -/

theorem stopsRun_symbol (b : BaseUnit) : StopsRun isFigure b.symbol.toList := by
  cases b <;> exact stopsRun_cons rfl

theorem stopsRun_componentsChars (cs : List (BaseUnit × Int32)) :
    StopsRun isFigure (componentsChars cs) := by
  induction cs with
  | nil => exact stopsRun_nil
  | cons c cs ih =>
    obtain ⟨b, n⟩ := c
    refine stopsRun_append ?_ ih
    by_cases hn : n = 1
    · rw [hn]
      exact stopsRun_symbol b
    · rw [componentChars_of_ne_one b hn, List.append_assoc, List.append_assoc]
      exact stopsRun_append (stopsRun_symbol b) (stopsRun_cons rfl)

/-- No number goes on into a unit. -/
theorem Dimension.stopsRun_unitChars (d : Dimension) : StopsRun isFigure d.unitChars := by
  rw [unitChars]
  split
  · exact stopsRun_cons rfl
  · exact stopsRun_componentsChars d.components

theorem exists_last_digit (w : Int32) :
    ∃ stem c, wordDigits w = stem ++ [c] ∧ c.isDigit = true := by
  have hdigits (n : Nat) : ∃ stem c, Nat.toDigits 10 n = stem ++ [c] ∧ c.isDigit = true := by
    rcases List.eq_nil_or_concat' (Nat.toDigits 10 n) with hnil | ⟨stem, c, hlast⟩
    · exact absurd hnil Nat.toDigits_ne_nil
    · refine ⟨stem, c, hlast, isDigit_of_mem_toDigits (n := n) ?_⟩
      rw [hlast]
      exact List.mem_append_right _ (List.mem_singleton_self c)
  rw [wordDigits]
  cases w.toInt with
  | ofNat n => exact hdigits n
  | negSucc n =>
    obtain ⟨stem, c, hlast, hc⟩ := hdigits (n + 1)
    exact ⟨'-' :: stem, c, congrArg ('-' :: ·) hlast, hc⟩

/-! ### Scales -/

namespace SymbolTable

/-- The prefixes of a table tell the scales, and none of them looks like a number or like a power of
ten.  A prefix of the scale zero does not matter, since that scale is not shown. -/
structure Legible (t : SymbolTable) : Prop where
  front : ∀ {scale p}, scale ≠ 0 → t.prefixOf? scale = some p →
    ∃ c ∈ p.toList.head?, isFigure c = false ∧ c ≠ '*'
  unique : ∀ {scale scale' p}, t.prefixOf? scale = some p → t.prefixOf? scale' = some p →
    scale = scale'

/-- The text of a scale is nothing, a prefix or a power of ten. -/
inductive ShowsScale (t : SymbolTable) (scale : Int32) (s : List Char) : Prop
  | none (hscale : scale = 0) (hs : s = [])
  | named {p : String} (hscale : scale ≠ 0) (hp : t.prefixOf? scale = some p) (hs : s = p.toList)
  | power (hscale : scale ≠ 0) (hs : s = '*' :: '1' :: '0' :: '^' :: wordDigits scale)

theorem showsScale (t : SymbolTable) (scale : Int32) :
    t.ShowsScale scale (t.scaleText scale).toList := by
  rw [scaleText]
  by_cases hscale : scale = 0
  · rw [if_pos hscale]
    exact .none hscale rfl
  · rw [if_neg hscale]
    split
    · next p hp => exact .named hscale hp rfl
    · refine .power hscale ?_
      have hpower : "*10^".toList = ['*', '1', '0', '^'] := rfl
      rw [String.toList_append, hpower, wordText, String.toList_ofList]
      rfl

variable {t : SymbolTable}

theorem Legible.toList_ne_nil (ht : t.Legible) {scale : Int32} {p : String} (hscale : scale ≠ 0)
    (hp : t.prefixOf? scale = some p) : p.toList ≠ [] := by
  intro hnil
  obtain ⟨c, hc, -⟩ := ht.front hscale hp
  rw [hnil] at hc
  cases hc

/-- In a legible table no prefix looks like a power of ten. -/
theorem Legible.toList_ne_power (ht : t.Legible) {scale : Int32} {p : String} (hscale : scale ≠ 0)
    (hp : t.prefixOf? scale = some p) (s : List Char) : p.toList ≠ '*' :: s := by
  intro hpower
  obtain ⟨c, hc, -, hstar⟩ := ht.front hscale hp
  rw [hpower] at hc
  exact hstar (Option.mem_some.mp hc).symm

/-- In a legible table a text shows one scale at most. -/
theorem Legible.scale_unique (ht : t.Legible) {scale scale' : Int32} {s : List Char}
    (h : t.ShowsScale scale s) (h' : t.ShowsScale scale' s) : scale = scale' := by
  -- texts of different kinds differ in their first character, or one of them is empty
  cases h with
  | none hscale hs =>
    cases h' with
    | none hscale' hs' => exact hscale.trans hscale'.symm
    | named hscale' hp' hs' => exact absurd (hs'.symm.trans hs) (ht.toList_ne_nil hscale' hp')
    | power hscale' hs' => exact absurd (hs'.symm.trans hs) (List.cons_ne_nil _ _)
  | named hscale hp hs =>
    cases h' with
    | none hscale' hs' => exact absurd (hs.symm.trans hs') (ht.toList_ne_nil hscale hp)
    | named hscale' hp' hs' =>
      obtain rfl := String.toList_inj.mp (hs.symm.trans hs')
      exact ht.unique hp hp'
    | power hscale' hs' => exact absurd (hs.symm.trans hs') (ht.toList_ne_power hscale hp _)
  | power hscale hs =>
    cases h' with
    | none hscale' hs' => exact absurd (hs.symm.trans hs') (List.cons_ne_nil _ _)
    | named hscale' hp' hs' => exact absurd (hs'.symm.trans hs) (ht.toList_ne_power hscale' hp' _)
    | power hscale' hs' =>
      have hpower : ['*', '1', '0', '^'] ++ wordDigits scale =
          ['*', '1', '0', '^'] ++ wordDigits scale' := hs.symm.trans hs'
      exact wordDigits_injective (List.append_cancel_left hpower)

/-- A scale is told from its text. -/
theorem scaleText_injective (ht : t.Legible) {scale scale' : Int32}
    (h : t.scaleText scale = t.scaleText scale') : scale = scale' := by
  have hshows := t.showsScale scale
  rw [h] at hshows
  exact ht.scale_unique hshows (t.showsScale scale')

/-- No number goes on into the text of a scale. -/
theorem stopsRun_scaleText (ht : t.Legible) (scale : Int32) :
    StopsRun isFigure (t.scaleText scale).toList := by
  rcases t.showsScale scale with ⟨-, hs⟩ | ⟨hscale, hp, hs⟩ | ⟨-, hs⟩
  · rw [hs]
    exact stopsRun_nil
  · obtain ⟨c, hc, hfigure, -⟩ := ht.front hscale hp
    rw [hs]
    intro d hd
    rw [Option.mem_unique hd hc]
    exact hfigure
  · rw [hs]
    exact stopsRun_cons rfl

/-- A text of a scale that does not end in a digit is a prefix. -/
theorem exists_prefix_of_last {scale : Int32} {v : List Char} {c : Char}
    (h : (t.scaleText scale).toList = v ++ [c]) (hc : c.isDigit = false) :
    ∃ p, scale ≠ 0 ∧ t.prefixOf? scale = some p ∧ p.toList = v ++ [c] := by
  rcases t.showsScale scale with ⟨-, hs⟩ | ⟨hscale, hp, hs⟩ | ⟨-, hs⟩
  · exact absurd (h.symm.trans hs) (List.append_ne_nil_of_right_ne_nil _ (List.cons_ne_nil _ _))
  · exact ⟨_, hscale, hp, hs.symm.trans h⟩
  · obtain ⟨stem, d, hd, hdigit⟩ := exists_last_digit scale
    rw [hs, hd] at h
    have hlast : ('*' :: '1' :: '0' :: '^' :: stem) ++ [d] = v ++ [c] := h
    rw [← (List.append_singleton_inj.mp hlast).2, hdigit] at hc
    cases hc

end SymbolTable

/-! ### Quantities -/

namespace Quantity

/-- The characters of the scale and the unit of a quantity that is shown in base units. -/
def scaledUnitChars (t : SymbolTable) (q : Quantity Float) : List Char :=
  (t.scaleText q.scale).toList ++ q.dimension.unitChars

variable {t : SymbolTable} {q r : Quantity Float} {b b' : Bool}

/-- A quantity without symbol of its own is shown as its number, its scale and its unit. -/
theorem toList_verbose (hq : q.isDimensionless = false) (hsymbol : q.shownSymbol? t b = none) :
    (q.verbose t b).toList = (plainText q.magnitude).toList ++ q.scaledUnitChars t := by
  have hgram : "g".toList = ['g'] := rfl
  rw [verbose, unitText, hsymbol, hq, String.toList_append, scaledUnitChars, Dimension.unitChars]
  cases q.dimension.isKilogram with
  | true => rw [if_neg Bool.false_ne_true, if_pos rfl, if_pos rfl, String.toList_append, hgram]
  | false =>
    rw [if_neg Bool.false_ne_true, if_neg Bool.false_ne_true, if_neg Bool.false_ne_true,
      String.toList_append, Dimension.toList_baseText]

/-- In base units two quantities are shown alike exactly if their numbers are written alike, and so
are their scales together with their units. -/
theorem verbose_eq_iff (ht : t.Legible) (hq : q.isDimensionless = false)
    (hr : r.isDimensionless = false) (hsymbol : q.shownSymbol? t b = none)
    (hsymbol' : r.shownSymbol? t b' = none) :
    q.verbose t b = r.verbose t b' ↔
      plainText q.magnitude = plainText r.magnitude ∧
        q.scaledUnitChars t = r.scaledUnitChars t := by
  have hstop (q : Quantity Float) : StopsRun isFigure (q.scaledUnitChars t) :=
    stopsRun_append (SymbolTable.stopsRun_scaleText ht q.scale) q.dimension.stopsRun_unitChars
  rw [← String.toList_inj, toList_verbose hq hsymbol, toList_verbose hr hsymbol']
  constructor
  · intro h
    obtain ⟨hnumber, hunit⟩ := numberText_append_inj (isNumberText_plainText _)
      (isNumberText_plainText _) (hstop q) (hstop r) h
    exact ⟨String.toList_inj.mp hnumber, hunit⟩
  · rintro ⟨hnumber, hunit⟩
    rw [hnumber, hunit]

/-- Quantities whose scales and units are written alike have the same ones, unless the text of one
of the scales ends like a unit. -/
theorem scaledUnitChars_cases (ht : t.Legible) (hq : q.isDimensionless = false)
    (hr : r.isDimensionless = false) (h : q.scaledUnitChars t = r.scaledUnitChars t) :
    q.scale = r.scale ∧ q.dimension = r.dimension ∨
      TakesFrom (t.scaleText q.scale).toList q.dimension (t.scaleText r.scale).toList r.dimension ∨
      TakesFrom (t.scaleText r.scale).toList r.dimension (t.scaleText q.scale).toList
        q.dimension := by
  have hunits {q : Quantity Float} (hq : q.isDimensionless = false) :
      q.dimension ≠ .dimensionless := by
    intro hnone
    rw [isDimensionless, Dimension.isDimensionless_iff.mpr hnone] at hq
    cases hq
  rcases unitChars_append (hunits hq) (hunits hr) h with ⟨hscale, hdimension⟩ | htakes
  · exact .inl ⟨SymbolTable.scaleText_injective ht (String.toList_inj.mp hscale), hdimension⟩
  · exact .inr htakes

end Quantity

/-- Only a prefix can end like a unit. -/
theorem exists_prefix_of_takesFrom {t : SymbolTable} {scale : Int32} {d d' : Dimension}
    {v' : List Char} (h : TakesFrom (t.scaleText scale).toList d v' d') :
    ∃ p, scale ≠ 0 ∧ t.prefixOf? scale = some p ∧ p.toList = (t.scaleText scale).toList := by
  obtain ⟨stem, c, hlast, hc⟩ := h.exists_last
  rw [hlast]
  exact SymbolTable.exists_prefix_of_last hlast hc

/-! ### No symbols and prefixes -/

namespace SymbolTable

theorem legible_empty : empty.Legible where
  front _ h := nomatch h
  unique h := nomatch h

end SymbolTable

namespace Quantity

variable {q r : Quantity Float} {b b' : Bool}

theorem shownSymbol?_empty (q : Quantity Float) (b : Bool) : q.shownSymbol? .empty b = none := by
  cases b <;> rfl

/-- **Without prefixes no two quantities are shown alike**: the text tells the number, the scale and
the unit. -/
theorem verbose_empty_eq_iff (hq : q.isDimensionless = false) (hr : r.isDimensionless = false) :
    q.verbose .empty b = r.verbose .empty b' ↔
      plainText q.magnitude = plainText r.magnitude ∧ q.scale = r.scale ∧
        q.dimension = r.dimension := by
  have hnone {scale : Int32} {d d' : Dimension} {v' : List Char} :
      ¬ TakesFrom (SymbolTable.empty.scaleText scale).toList d v' d' := by
    intro h
    obtain ⟨p, -, hp, -⟩ := exists_prefix_of_takesFrom h
    cases hp
  rw [verbose_eq_iff SymbolTable.legible_empty hq hr (shownSymbol?_empty q b)
    (shownSymbol?_empty r b')]
  refine and_congr_right fun _ => ⟨fun h => ?_, fun ⟨hscale, hdimension⟩ => ?_⟩
  · rcases scaledUnitChars_cases SymbolTable.legible_empty hq hr h with hsame | htakes | htakes
    · exact hsame
    · exact absurd htakes hnone
    · exact absurd htakes hnone
  · rw [scaledUnitChars, scaledUnitChars, hscale, hdimension]

/-- A metre mole is not shown like a thousandth of a mole. -/
theorem verbose_empty_eq_iff_moles :
    verbose .empty true ⟨1, 0, ⟨0, 1, 0, 0, 0, 1, 0⟩⟩ ≠
      verbose .empty false ⟨1, -3, ⟨0, 0, 0, 0, 0, 1, 0⟩⟩ := by
  intro h
  obtain ⟨-, hscale, -⟩ := (verbose_empty_eq_iff rfl rfl).mp h
  exact absurd hscale (by decide)

end Quantity

end QuantityCalculus
