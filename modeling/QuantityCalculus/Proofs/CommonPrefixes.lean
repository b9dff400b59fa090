/-
Quantities with the common prefixes.

A prefix is written in front of a unit without a mark between them, so a text is read in two ways
where a prefix ends in a base unit.  Of the common prefixes this is true of one: the `m` of a
thousandth is the symbol of the metre.  Only the second stands in front of the metre in a unit, so
what is behind the `m` decides whether it can be a metre.

* `SymbolTable.common_prefix_eq_componentsChars`, `SymbolTable.common_prefix_ne_kilo` : what a
  common prefix can end in,
* `Dimension.components_eq_metre_cons_iff` : when a metre stands in front of a unit,
* `Quantity.verbose_common_eq_iff` : the pairs of quantities that are shown alike.
-/
import QuantityCalculus.Proofs.VerboseText

namespace QuantityCalculus

/-! ### The common prefixes -/

namespace SymbolTable

theorem mem_entries_of_prefixOf? {t : SymbolTable} {scale : Int32} {p : String}
    (h : t.prefixOf? scale = some p) : (scale, p) ∈ t.prefixes.entries := by
  obtain ⟨e, hfind, rfl⟩ := Option.map_eq_some_iff.mp h
  have hkey := List.find?_some hfind
  rw [← beq_iff_eq.mp hkey]
  exact List.mem_of_find?_eq_some hfind

theorem entries_common :
    common.prefixes.entries = [(-9, "n"), (-6, "μ"), (-3, "m"), (-2, "c"), (-1, "d"), (0, ""),
      (1, "da"), (2, "h"), (3, "k"), (6, "M"), (9, "G")] := rfl

/-- The common prefixes are legible: no two scales share one, and none looks like a number or like a
power of ten. -/
theorem legible_common : common.Legible where
  front := by
    have hall : ∀ e ∈ common.prefixes.entries, e.1 ≠ 0 →
        (e.2.toList.head?.any fun c => !isFigure c && c != '*') = true := by
      rw [entries_common]
      decide
    intro scale p hscale h
    obtain ⟨c, hc, hfront⟩ :=
      (Option.any_eq_true _ _).mp (hall _ (mem_entries_of_prefixOf? h) hscale)
    rw [Bool.and_eq_true, Bool.not_eq_true', bne_iff_ne] at hfront
    exact ⟨c, hc, hfront⟩
  unique := by
    have hall : ∀ e ∈ common.prefixes.entries, ∀ e' ∈ common.prefixes.entries,
        e.2 = e'.2 → e.1 = e'.1 := by
      rw [entries_common]
      decide
    intro scale scale' p h h'
    exact hall _ (mem_entries_of_prefixOf? h) _ (mem_entries_of_prefixOf? h') rfl

/-- The prefix of a thousandth is the only common one that ends in a base unit. -/
theorem common_prefix_eq_componentsChars {scale : Int32} {p : String}
    (hp : common.prefixOf? scale = some p) {v : List Char} {ds : List (BaseUnit × Int32)}
    (hne : ds ≠ []) (h : p.toList = v ++ componentsChars ds) :
    scale = -3 ∧ v = [] ∧ ds = [(.metre, 1)] := by
  rcases List.eq_nil_or_concat' ds with rfl | ⟨ds, ⟨b, n⟩, rfl⟩
  · exact absurd rfl hne
  · rw [componentsChars_append_singleton, ← List.append_assoc] at h
    by_cases hn : n = 1
    · rw [hn, componentChars_one] at h
      have hall : ∀ e ∈ common.prefixes.entries, ∀ b ∈ BaseUnit.all,
          b.symbol.toList <:+ e.2.toList → e.1 = -3 ∧ e.2 = "m" ∧ b = .metre := by
        rw [entries_common]
        decide
      obtain ⟨hscale, hm : p = "m", rfl⟩ :=
        hall _ (mem_entries_of_prefixOf? hp) b b.mem_all ⟨_, h.symm⟩
      rw [hm] at h
      obtain ⟨hv, rfl⟩ := nil_of_singleton_eq h
      exact ⟨hscale, hv, by rw [hn]; rfl⟩
    · rw [componentChars_of_ne_one b hn, ← List.append_assoc] at h
      have hall : ∀ e ∈ common.prefixes.entries, ¬ [')'] <:+ e.2.toList := by
        rw [entries_common]
        decide
      exact absurd ⟨_, h.symm⟩ (hall _ (mem_entries_of_prefixOf? hp))

/-- No common prefix is a text of components with a kilo behind it. -/
theorem common_prefix_ne_kilo {scale : Int32} {p : String}
    (hp : common.prefixOf? scale = some p) {v : List Char} {ds : List (BaseUnit × Int32)}
    (hne : ds ≠ []) : p.toList ≠ v ++ componentsChars ds ++ ['k'] := by
  intro h
  have hall : ∀ e ∈ common.prefixes.entries, ['k'] <:+ e.2.toList → e.2 = "k" := by
    rw [entries_common]
    decide
  have hk : p = "k" := hall _ (mem_entries_of_prefixOf? hp) ⟨_, h.symm⟩
  rw [hk] at h
  exact hne (nil_of_singleton_eq h).2

end SymbolTable

/-- A metre stands in front of the base units exactly if it is the first power of the metre, and
neither seconds nor other metres occur. -/
theorem Dimension.components_eq_metre_cons_iff {d e : Dimension} :
    e.components = (.metre, 1) :: d.components ↔
      d.second = 0 ∧ d.metre = 0 ∧ e = { d with metre := 1 } := by
  have hcons {d : Dimension} (hsecond : d.second = 0) (hmetre : d.metre = 0) :
      components { d with metre := 1 } = (.metre, 1) :: d.components := by
    cases d
    cases hsecond
    cases hmetre
    rfl
  constructor
  · intro h
    have hsorted := e.components_sorted
    rw [h, List.pairwise_cons] at hsorted
    -- what stands behind the metre comes after it in the order
    have hzero {b : BaseUnit} (hb : b.index ≤ BaseUnit.metre.index) : d.exponent b = 0 := by
      by_contra hne
      have hmem : (b, d.exponent b) ∈ d.components := mem_components_iff.mpr ⟨rfl, hne⟩
      exact absurd (hsorted.1 _ hmem) (Nat.not_lt.mpr hb)
    have hsecond : d.second = 0 := hzero (b := .second) (by decide)
    have hmetre : d.metre = 0 := hzero (b := .metre) (by decide)
    exact ⟨hsecond, hmetre, components_injective (h.trans (hcons hsecond hmetre).symm)⟩
  · rintro ⟨hsecond, hmetre, rfl⟩
    exact hcons hsecond hmetre

namespace Quantity

variable {q r : Quantity Float}

/-- The `m` between the number and the rest of the unit is a thousandth in the first quantity and a
metre in the second one. -/
structure MilliForMetre (q r : Quantity Float) : Prop where
  milli : q.scale = -3
  unscaled : r.scale = 0
  notKilogram : q.dimension ≠ .ofBaseUnit .kilogram
  noSecond : q.dimension.second = 0
  noMetre : q.dimension.metre = 0
  oneMetre : r.dimension = { q.dimension with metre := 1 }

/-- The milli taken for a metre is the one way in which a unit takes characters from a common
prefix. -/
theorem milliForMetre_of_takesFrom
    (h : TakesFrom (SymbolTable.common.scaleText q.scale).toList q.dimension
      (SymbolTable.common.scaleText r.scale).toList r.dimension) : MilliForMetre q r := by
  obtain ⟨p, -, hp, hscale⟩ := exists_prefix_of_takesFrom h
  cases h with
  | units hne hv hkilogram hcomponents =>
    obtain ⟨hmilli, hnil, rfl⟩ :=
      SymbolTable.common_prefix_eq_componentsChars hp hne (hscale.trans hv)
    have hzero : SymbolTable.common.scaleText 0 = "" := rfl
    have hunscaled : r.scale = 0 :=
      SymbolTable.scaleText_injective SymbolTable.legible_common
        ((String.toList_eq_nil_iff.mp hnil).trans hzero.symm)
    obtain ⟨hsecond, hmetre, hone⟩ := Dimension.components_eq_metre_cons_iff.mp hcomponents
    exact ⟨hmilli, hunscaled, hkilogram, hsecond, hmetre, hone⟩
  | kilo hne hv => exact absurd (hscale.trans hv) (SymbolTable.common_prefix_ne_kilo hp hne)

/-- A milli in front of a unit and a metre at its front are written alike. -/
theorem MilliForMetre.scaledUnitChars_eq (h : MilliForMetre q r) :
    q.scaledUnitChars .common = r.scaledUnitChars .common := by
  have hcomponents := Dimension.components_eq_metre_cons_iff.mpr ⟨h.noSecond, h.noMetre, h.oneMetre⟩
  have hkilogram : r.dimension ≠ .ofBaseUnit .kilogram := by
    intro hkilogram
    rw [hkilogram, Dimension.components_kilogram] at hcomponents
    exact absurd (List.cons.inj hcomponents).1 (by decide)
  rw [scaledUnitChars, scaledUnitChars, h.milli, h.unscaled,
    Dimension.unitChars_of_ne h.notKilogram, Dimension.unitChars_of_ne hkilogram, hcomponents]
  rfl

/-- Two quantities have the same scale and unit in writing exactly if these are the same, or one has
a milli where the other has a metre. -/
theorem scaledUnitChars_common_eq_iff (hq : q.isDimensionless = false)
    (hr : r.isDimensionless = false) :
    q.scaledUnitChars .common = r.scaledUnitChars .common ↔
      q.scale = r.scale ∧ q.dimension = r.dimension ∨ MilliForMetre q r ∨ MilliForMetre r q := by
  constructor
  · intro h
    rcases scaledUnitChars_cases SymbolTable.legible_common hq hr h with hsame | htakes | htakes
    · exact .inl hsame
    · exact .inr (.inl (milliForMetre_of_takesFrom htakes))
    · exact .inr (.inr (milliForMetre_of_takesFrom htakes))
  · rintro (⟨hscale, hdimension⟩ | hmilli | hmilli)
    · rw [scaledUnitChars, scaledUnitChars, hscale, hdimension]
    · exact hmilli.scaledUnitChars_eq
    · exact hmilli.scaledUnitChars_eq.symm

/-- **With the common prefixes only a thousandth and a metre are shown alike**: in base units the
text tells the number, the scale and the unit, up to an `m` that may be either. -/
theorem verbose_common_eq_iff (hq : q.isDimensionless = false) (hr : r.isDimensionless = false) :
    q.verbose .common true = r.verbose .common true ↔
      plainText q.magnitude = plainText r.magnitude ∧
        (q.scale = r.scale ∧ q.dimension = r.dimension ∨ MilliForMetre q r ∨
          MilliForMetre r q) := by
  rw [verbose_eq_iff SymbolTable.legible_common hq hr rfl rfl, scaledUnitChars_common_eq_iff hq hr]

/-- A thousandth of a mole is shown like a metre mole. -/
theorem verbose_common_eq_iff_moles :
    verbose .common true ⟨2.5, -3, ⟨0, 0, 0, 0, 0, 1, 0⟩⟩ =
      verbose .common true ⟨2.5, 0, ⟨0, 1, 0, 0, 0, 1, 0⟩⟩ := by
  have hmilli : MilliForMetre ⟨2.5, -3, ⟨0, 0, 0, 0, 0, 1, 0⟩⟩ ⟨2.5, 0, ⟨0, 1, 0, 0, 0, 1, 0⟩⟩ :=
    ⟨rfl, rfl, by decide, rfl, rfl, rfl⟩
  exact (verbose_common_eq_iff rfl rfl).mpr ⟨rfl, .inr (.inl hmilli)⟩

/-- The text in base units does not tell the scale and the unit, whatever the magnitudes are: a
milliampere and a metre ampere are both shown as `1mA`. -/
theorem not_verbose_common_injective :
    ¬ ∀ q r : Quantity Float, q.isDimensionless = false → r.isDimensionless = false →
      DoubleValue.ofFloat q.magnitude ≠ .nan → DoubleValue.ofFloat r.magnitude ≠ .nan →
      q.verbose .common true = r.verbose .common true →
        q.scale = r.scale ∧ q.dimension = r.dimension := by
  intro h
  have hone : DoubleValue.ofFloat 1 ≠ .nan := by decide
  have hsame := h ⟨1, -3, .ofBaseUnit .ampere⟩ ⟨1, 0, ⟨0, 1, 0, 1, 0, 0, 0⟩⟩ rfl rfl hone hone rfl
  exact absurd hsame.1 (by decide)

end Quantity

end QuantityCalculus
