/-
Normalizing quantities.

A normalized quantity has its value as its magnitude and is marked with scale zero.  For all units
but one that is the same quantity at another scale, and nothing is left to do for a second
normalization.  The bare kilogram is the exception: its magnitude now counts kilograms, but at scale
zero it is taken for grams, so a normalized mass stands for a thousandth of what it came from, and
each further normalization divides it by a thousand again.

* `normalize_of_inReach` : normalizing shifts the magnitude, if the scale is in reach,
* `normalize_scale_zero` : a second normalization changes nothing, except that it divides masses,
* `value_of_scale_zero` : the magnitude at scale zero is the value, except for masses,
* `not_normalize_value` : two kilograms are normalized to two grams,
* `normalize_value` : what normalizing does to the value of a quantity, and what doing it again
  does.
-/
import Mathlib.Tactic.NormNum
import QuantityCalculus.Arithmetic.Double
import QuantityCalculus.Proofs.DoubleUnit
import QuantityCalculus.Proofs.Value

namespace QuantityCalculus

open Quantity (InReach)

/-! ### One normalization and another -/

section

variable {α : Type} {A : Arithmetic α}

/-- Normalizing shifts the magnitude by the scale in coherent units. -/
theorem normalize_of_inReach {q : Quantity α} (h : InReach q.scale (kiloOffset q.dimension)) :
    q.normalize A = .ok ⟨A.shift q.magnitude q.baseExponent, 0, q.dimension⟩ := by
  have hconvert := (Quantity.convert_eq_ok_iff A (q := q)).mpr ⟨h, rfl⟩
  rw [Quantity.normalize_eq, hconvert, Quantity.baseExponent]
  rfl

/-- Normalizing fails for the lowest scales only. -/
theorem inReach_kiloOffset {s : Int32} (hs : -2147483644 ≤ s.toInt) (d : Dimension) :
    InReach s (kiloOffset d) := by
  have hfits := fitsWord_toInt s
  rw [FitsWord] at hfits
  rw [InReach, kiloOffset_toInt]
  split <;> omega

/-- Only the magnitude of a mass changes when it is normalized again. -/
theorem normalize_scale_zero (hone : ∀ x, A.mul x A.one = x) (x : α) (d : Dimension) :
    (⟨x, 0, d⟩ : Quantity α).normalize A =
      .ok ⟨if d.isKilogram then A.div x (A.powTen 3) else x, 0, d⟩ := by
  have hreach : InReach 0 (kiloOffset d) := inReach_kiloOffset (by decide) d
  rw [normalize_of_inReach (q := ⟨x, 0, d⟩) hreach, Quantity.baseExponent, kiloOffset_toInt]
  by_cases hd : d.isKilogram = true
  · rw [if_pos hd, if_pos hd]
    rfl
  · have hzero : A.shift x 0 = x := hone x
    rw [if_neg hd, if_neg hd]
    show Except.ok (⟨A.shift x 0, 0, d⟩ : Quantity α) = _
    rw [hzero]

end

/-! ### Values -/

/-- At scale zero a magnitude counts coherent units, or grams for the bare kilogram. -/
theorem value_of_scale_zero (x : ℚ) (d : Dimension) :
    (⟨x, 0, d⟩ : Quantity ℚ).value = if d.isKilogram then x / 1000 else x := by
  show x * 10 ^ ((0 : ℤ) - (kiloOffset d).toInt) = _
  rw [kiloOffset_toInt]
  by_cases hd : d.isKilogram = true
  · rw [if_pos hd, if_pos hd]
    norm_num
    ring
  · rw [if_neg hd, if_neg hd, sub_zero, zpow_zero, mul_one]

/-- Normalizing what is marked with scale zero divides a bare kilogram by a thousand and keeps all
other magnitudes. -/
theorem normalize_again_rational (C : Completion) (x : ℚ) (d : Dimension) :
    (⟨x, 0, d⟩ : Quantity ℚ).normalize (.rational C) =
      .ok ⟨if d.isKilogram then x / 1000 else x, 0, d⟩ := by
  have hone (y : ℚ) : (Arithmetic.rational C).mul y (Arithmetic.rational C).one = y := by
    rw [Arithmetic.one_eq]
    exact mul_one y
  have hthousand : (Arithmetic.rational C).powTen 3 = 1000 := by
    rw [Arithmetic.powTen_eq]
    norm_num
  rw [normalize_scale_zero hone, hthousand]
  rfl

/-- So it does with doubles, without a rounding of its own for other units. -/
theorem normalize_again_double (x : Float) (d : Dimension) :
    (⟨x, 0, d⟩ : Quantity Float).normalize .double =
      .ok ⟨if d.isKilogram then x / 1000.0 else x, 0, d⟩ := by
  have hone (y : Float) : Arithmetic.double.mul y Arithmetic.double.one = y := double_mul_one y
  have hthousand : Arithmetic.double.powTen 3 = 1000.0 := rfl
  rw [normalize_scale_zero hone, hthousand]
  rfl

/-- Two kilograms become two grams, and two grams become two thousandths of a gram. -/
theorem not_normalize_value :
    (¬ ∀ q r : Quantity ℚ, q.normalize (.rational default) = .ok r → r.value = q.value) ∧
      ¬ ∀ q r : Quantity Float, q.normalize .double = .ok r → r.normalize .double = .ok r := by
  have hoffset : kiloOffset (.ofBaseUnit .kilogram) = 3 := by decide
  constructor
  · intro hall
    have hvalue := value_of_coherent 2 (.ofBaseUnit .kilogram)
    rw [hoffset] at hvalue
    have hsame := hall ⟨2, 3, .ofBaseUnit .kilogram⟩ _
      ((normalize_eq_ok_iff_value default).mpr ⟨inReach_kiloOffset (by decide) _, rfl⟩)
    rw [hvalue, value_of_scale_zero, if_pos (by decide)] at hsame
    norm_num at hsame
  · intro hall
    have hnormalize : (⟨2.0, 3, .ofBaseUnit .kilogram⟩ : Quantity Float).normalize .double =
        .ok ⟨2.0, 0, .ofBaseUnit .kilogram⟩ := rfl
    have hsame := hall _ _ hnormalize
    rw [normalize_again_double, if_pos (by decide)] at hsame
    exact absurd hsame (by decide)

/-- **Normalizing and values**: a quantity whose scale is in reach is normalized to its value, at
scale zero.  Unless it is a bare kilogram it stands for the same value then, and normalizing it
again changes nothing, in exact arithmetic and in doubles.  A bare kilogram comes out in kilograms
and stands for a thousandth of its value, and normalizing it again divides it by a thousand. -/
theorem normalize_value (C : Completion) :
    (∀ q : Quantity ℚ, InReach q.scale (kiloOffset q.dimension) →
      ∃ r, q.normalize (.rational C) = .ok r ∧
        r.magnitude = q.value ∧ r.scale = 0 ∧ r.dimension = q.dimension ∧
        (q.dimension ≠ .ofBaseUnit .kilogram →
          r.value = q.value ∧ r.normalize (.rational C) = .ok r) ∧
        (q.dimension = .ofBaseUnit .kilogram →
          r.value = q.value / 1000 ∧
            r.normalize (.rational C) = .ok ⟨q.value / 1000, 0, q.dimension⟩)) ∧
    ∀ q : Quantity Float, InReach q.scale (kiloOffset q.dimension) →
      ∃ r, q.normalize .double = .ok r ∧ r.scale = 0 ∧ r.dimension = q.dimension ∧
        (q.dimension ≠ .ofBaseUnit .kilogram → r.normalize .double = .ok r) ∧
        (q.dimension = .ofBaseUnit .kilogram →
          r.normalize .double = .ok ⟨r.magnitude / 1000.0, 0, q.dimension⟩) := by
  constructor
  · intro q hreach
    have hvalue := value_of_scale_zero q.value q.dimension
    have hagain := normalize_again_rational C q.value q.dimension
    refine ⟨⟨q.value, 0, q.dimension⟩, (normalize_eq_ok_iff_value C).mpr ⟨hreach, rfl⟩, rfl, rfl,
      rfl, ?_, ?_⟩
    · intro hd
      rw [if_neg (mt Dimension.isKilogram_iff.mp hd)] at hvalue hagain
      exact ⟨hvalue, hagain⟩
    · intro hd
      rw [if_pos (Dimension.isKilogram_iff.mpr hd)] at hvalue hagain
      exact ⟨hvalue, hagain⟩
  · intro q hreach
    have hagain := normalize_again_double (Arithmetic.double.shift q.magnitude q.baseExponent)
      q.dimension
    refine ⟨_, normalize_of_inReach hreach, rfl, rfl, ?_, ?_⟩
    · intro hd
      rw [if_neg (mt Dimension.isKilogram_iff.mp hd)] at hagain
      exact hagain
    · intro hd
      rw [if_pos (Dimension.isKilogram_iff.mpr hd)] at hagain
      exact hagain

/-- Three kilometres, which come out in metres, and two kilograms. -/
theorem normalize_value_kilometres :
    (∃ r, (⟨3, 3, .ofBaseUnit .metre⟩ : Quantity ℚ).normalize (.rational default) = .ok r ∧
      r.value = (⟨3, 3, .ofBaseUnit .metre⟩ : Quantity ℚ).value ∧
      r.normalize (.rational default) = .ok r) ∧
    ∃ r, (⟨2.0, 3, .ofBaseUnit .kilogram⟩ : Quantity Float).normalize .double = .ok r ∧
      r.normalize .double = .ok ⟨r.magnitude / 1000.0, 0, .ofBaseUnit .kilogram⟩ := by
  obtain ⟨hvalues, hdoubles⟩ := normalize_value default
  obtain ⟨r, hr, -, -, -, hother, -⟩ := hvalues ⟨3, 3, .ofBaseUnit .metre⟩
    (inReach_kiloOffset (by decide) _)
  obtain ⟨m, hm, -, -, -, hmass⟩ := hdoubles ⟨2.0, 3, .ofBaseUnit .kilogram⟩
    (inReach_kiloOffset (by decide) _)
  exact ⟨⟨r, hr, hother (by decide)⟩, m, hm, hmass rfl⟩

end QuantityCalculus
