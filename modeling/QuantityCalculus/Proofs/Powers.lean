/-
When powers succeed.

A power brings its exponent to scale zero, normalizes its base, and brings the result back to the
scale of the base.  At moderate scales none of these steps can fail, so a power succeeds exactly if
its dimension can be formed.  For a base with units that takes an integral exponent within a word;
then every exponent of the base is multiplied by it, as checked words.  The bound on the exponent
alone does not keep these products within words.

* `Dimension.scale_eq_error_iff` : a dimension is scaled unless one of the products is no word,
* `power_of_moderate` : at moderate scales a power is decided by its dimension,
* `not_power_answers` : a square metre has no power with an exponent of two thousand million,
* `power_answers` : the result of a power at moderate scales, for every base and exponent.
-/
import QuantityCalculus.Arithmetic.Double
import QuantityCalculus.Proofs.Normalization

namespace QuantityCalculus

open Quantity (InReach)

/-! ### Dimensions of powers -/

namespace Dimension

/-- A dimension that cannot be built has an exponent that cannot. -/
theorem exists_error_of_ofExponentsM {f : BaseUnit → Except Overflow Int32} {o : Overflow}
    (h : ofExponentsM f = .error o) : ∃ b, f b = .error o := by
  simp only [ofExponentsM, bind_eq_error_iff] at h
  obtain h | ⟨_, -, h | ⟨_, -, h | ⟨_, -, h | ⟨_, -, h | ⟨_, -, h | ⟨_, -, h | ⟨_, -, h⟩⟩⟩⟩⟩⟩⟩ := h
  · exact ⟨.second, h⟩
  · exact ⟨.metre, h⟩
  · exact ⟨.kilogram, h⟩
  · exact ⟨.ampere, h⟩
  · exact ⟨.kelvin, h⟩
  · exact ⟨.mole, h⟩
  · exact ⟨.candela, h⟩
  · cases h

/-- A power of a dimension is lost exactly if one of the products of exponents is no word. -/
theorem scale_eq_error_iff {d : Dimension} {n : Int32} {o : Overflow} :
    d.scale n = .error o ↔
      o = .multiply ∧ ∃ b, ¬ FitsWord ((d.exponent b).toInt * n.toInt) := by
  constructor
  · intro h
    obtain ⟨b, hb⟩ := exists_error_of_ofExponentsM h
    obtain ⟨hfits, ho⟩ := Overflow.check_eq_error_iff.mp hb
    exact ⟨ho, b, hfits⟩
  · rintro ⟨rfl, b, hb⟩
    cases hscale : d.scale n with
    | ok r =>
      have hword := scale_eq_ok_iff.mp hscale b
      rw [← hword] at hb
      exact absurd (fitsWord_toInt _) hb
    | error o =>
      obtain ⟨c, hc⟩ := exists_error_of_ofExponentsM hscale
      rw [(Overflow.check_eq_error_iff.mp hc).2]

theorem exists_scale {d : Dimension} {n : Int32}
    (h : ∀ b, FitsWord ((d.exponent b).toInt * n.toInt)) : ∃ e, d.scale n = .ok e := by
  cases hscale : d.scale n with
  | ok e => exact ⟨e, rfl⟩
  | error o =>
    obtain ⟨-, b, hb⟩ := scale_eq_error_iff.mp hscale
    exact absurd (h b) hb

end Dimension

section

variable {α : Type} {A : Arithmetic α}

/-- An exponent for dimensions is an integer of at most the greatest word, in either direction. -/
theorem wordExponent?_eq_some_iff {x : α} {n : Int32} :
    Quantity.wordExponent? A x = some n ↔
      A.toInt? x = some n.toInt ∧ n.toInt.natAbs ≤ 2147483647 := by
  rw [Quantity.wordExponent?]
  cases A.toInt? x with
  | none => simp
  | some m =>
    simp only [Option.some.injEq]
    constructor
    · intro h
      split at h
      · next hm =>
        cases h
        rw [toInt_ofInt_of_fitsWord ⟨by omega, by omega⟩]
        exact ⟨rfl, hm⟩
      · cases h
    · rintro ⟨rfl, hn⟩
      rw [if_pos hn, Int32.ofInt_toInt]

theorem wordExponent?_eq_none_iff {x : α} :
    Quantity.wordExponent? A x = none ↔ ∀ n, A.toInt? x = some n → 2147483647 < n.natAbs := by
  rw [Quantity.wordExponent?]
  cases A.toInt? x with
  | none => simp
  | some m => simp

/-! ### Powers at moderate scales -/

theorem inReach_of_natAbs_le {s t : Int32} (h : s.toInt.natAbs + t.toInt.natAbs ≤ 2147483647) :
    InReach s t := by
  rw [InReach]
  omega

theorem natAbs_kiloOffset_le (d : Dimension) : (kiloOffset d).toInt.natAbs ≤ 3 := by
  rw [kiloOffset_toInt]
  split <;> decide

/-- At a moderate scale the exponent can be brought to scale zero. -/
theorem exists_exponent {r : Quantity α} (hr : r.scale.toInt.natAbs ≤ 1000000000) :
    ∃ p, r.convert A 0 = .ok p := by
  have hzero : (0 : Int32).toInt.natAbs = 0 := by decide
  have hreach : InReach r.scale 0 := inReach_of_natAbs_le (by omega)
  exact ⟨_, (Quantity.convert_eq_ok_iff A).mpr ⟨hreach, rfl⟩⟩

/-- Nothing but the dimension of a power can fail. -/
theorem power_of_moderate {q r : Quantity α} {p : α}
    (hq : q.scale.toInt.natAbs ≤ 1000000000) (hpure : r.isDimensionless = true)
    (hp : r.convert A 0 = .ok p) :
    q.power A r = (Quantity.powerDimension A q.dimension p).map fun d =>
      ⟨A.shift (A.pow (A.shift q.magnitude q.baseExponent) p)
        ((kiloOffset d).toInt - q.scale.toInt), q.scale, d⟩ := by
  -- the scale moves to the offset of its own unit and back from the offset of the result
  have hthere (d : Dimension) : InReach q.scale (kiloOffset d) := by
    have hoffset := natAbs_kiloOffset_le d
    exact inReach_of_natAbs_le (by omega)
  have hback (d : Dimension) : InReach (kiloOffset d) q.scale := by
    have hoffset := natAbs_kiloOffset_le d
    exact inReach_of_natAbs_le (by omega)
  rw [Quantity.power_eq, if_pos hpure, hp, normalize_of_inReach (hthere q.dimension)]
  show (Quantity.powerDimension A q.dimension p >>= fun d => lifted (Quantity.withScale A
    ⟨A.pow (A.shift q.magnitude q.baseExponent) p, kiloOffset d, d⟩ q.scale)) = _
  cases Quantity.powerDimension A q.dimension p with
  | error e => rfl
  | ok d =>
    have hconvert := (Quantity.convert_eq_ok_iff A
      (q := ⟨A.pow (A.shift q.magnitude q.baseExponent) p, kiloOffset d, d⟩)).mpr ⟨hback d, rfl⟩
    show lifted (Quantity.withScale A
      ⟨A.pow (A.shift q.magnitude q.baseExponent) p, kiloOffset d, d⟩ q.scale) = _
    rw [Quantity.withScale_eq, hconvert]
    rfl

end

/-- The square of a length is not raised to the power of two thousand million: its exponent would be
twice that, and no error of its own says so. -/
theorem not_power_answers :
    ¬ ∀ q r : Quantity Float, q.scale.toInt.natAbs ≤ 1000000000 →
      r.scale.toInt.natAbs ≤ 1000000000 → WithoutOverflow (q.power .double r) := by
  intro hall
  have hpower : (⟨1.0, 0, ⟨0, 2, 0, 0, 0, 0, 0⟩⟩ : Quantity Float).power .double
      ⟨2000000000.0, 0, .dimensionless⟩ = .error (.overflow .multiply) := rfl
  exact hall _ _ (by decide) (by decide) _ hpower trivial

/-- **When powers succeed**: at moderate scales, an exponent with units is refused; a pure number
has all its powers, at its own scale; and a quantity with units has its integral powers within a
word, at its own scale and with all exponents multiplied, and no others.  Only where one of these
products is no word the power is lost in an overflow. -/
theorem power_answers {α : Type} (A : Arithmetic α) {q r : Quantity α}
    (hq : q.scale.toInt.natAbs ≤ 1000000000) (hr : r.scale.toInt.natAbs ≤ 1000000000) :
    (r.dimension ≠ .dimensionless → q.power A r = .error (.exponentHasUnits r.dimension)) ∧
    (r.dimension = .dimensionless → ∃ p, r.convert A 0 = .ok p ∧
      (q.dimension = .dimensionless → ∃ m, q.power A r = .ok ⟨m, q.scale, q.dimension⟩) ∧
      (q.dimension ≠ .dimensionless →
        (∀ n, A.toInt? p = some n → n.natAbs ≤ 2147483647 →
          (∀ b, FitsWord ((q.dimension.exponent b).toInt * n)) →
            ∃ m d, q.power A r = .ok ⟨m, q.scale, d⟩ ∧
              ∀ b, (d.exponent b).toInt = (q.dimension.exponent b).toInt * n) ∧
        (∀ n, A.toInt? p = some n → n.natAbs ≤ 2147483647 →
          (∃ b, ¬ FitsWord ((q.dimension.exponent b).toInt * n)) →
            q.power A r = .error (.overflow .multiply)) ∧
        ((∀ n, A.toInt? p = some n → 2147483647 < n.natAbs) →
          q.power A r = .error (.fractionalExponent q.dimension p)))) := by
  constructor
  · intro hunits
    exact (Quantity.power_eq A q r).trans (if_neg (mt Dimension.isDimensionless_iff.mp hunits))
  · intro hpure
    obtain ⟨p, hp⟩ := exists_exponent (A := A) hr
    rw [power_of_moderate hq (Dimension.isDimensionless_iff.mpr hpure) hp]
    refine ⟨p, hp, fun hbase => ?_, fun hbase => ?_⟩
    · rw [Quantity.powerDimension, if_pos (Dimension.isDimensionless_iff.mpr hbase)]
      exact ⟨_, rfl⟩
    · rw [Quantity.powerDimension, if_neg (mt Dimension.isDimensionless_iff.mp hbase)]
      -- the exponent is a word that all products fit, or one that some product does not, or no word
      refine ⟨fun n hn hle hfits => ?_, fun n hn hle hfits => ?_, fun hnone => ?_⟩
      · obtain ⟨w, rfl⟩ := exists_word (n := n) ⟨by omega, by omega⟩
        obtain ⟨d, hd⟩ := Dimension.exists_scale hfits
        rw [wordExponent?_eq_some_iff.mpr ⟨hn, hle⟩]
        dsimp only
        rw [hd]
        exact ⟨_, d, rfl, Dimension.scale_eq_ok_iff.mp hd⟩
      · obtain ⟨w, rfl⟩ := exists_word (n := n) ⟨by omega, by omega⟩
        rw [wordExponent?_eq_some_iff.mpr ⟨hn, hle⟩]
        dsimp only
        rw [Dimension.scale_eq_error_iff.mpr ⟨rfl, hfits⟩]
        rfl
      · rw [wordExponent?_eq_none_iff.mpr hnone]
        rfl

/-- The cube of a reciprocal area in square kilometres, with the exponent given in tenths. -/
theorem power_answers_cube :
    (∃ m d, (⟨2.0, 6, ⟨0, -2, 0, 0, 0, 0, 0⟩⟩ : Quantity Float).power .double
        ⟨30.0, -1, .dimensionless⟩ = .ok ⟨m, 6, d⟩ ∧ (d.exponent .metre).toInt = -6) ∧
    (⟨2.0, 6, ⟨0, -2, 0, 0, 0, 0, 0⟩⟩ : Quantity Float).power .double
        ⟨2.5, 0, .dimensionless⟩ = .error (.fractionalExponent ⟨0, -2, 0, 0, 0, 0, 0⟩ 2.5) := by
  constructor
  · obtain ⟨-, hpure⟩ := power_answers .double
      (q := ⟨2.0, 6, ⟨0, -2, 0, 0, 0, 0, 0⟩⟩) (r := ⟨30.0, -1, .dimensionless⟩)
      (by decide) (by decide)
    obtain ⟨p, hp, -, hunits⟩ := hpure rfl
    have hthree : Arithmetic.double.toInt? p = some 3 := by
      cases hp
      rfl
    have hfits : ∀ b, FitsWord
        (((⟨0, -2, 0, 0, 0, 0, 0⟩ : Dimension).exponent b).toInt * 3) := by
      intro b
      cases b <;> decide
    obtain ⟨m, d, hpower, hexponents⟩ := (hunits (by decide)).1 3 hthree (by decide) hfits
    exact ⟨m, d, hpower, hexponents .metre⟩
  · obtain ⟨-, hpure⟩ := power_answers .double
      (q := ⟨2.0, 6, ⟨0, -2, 0, 0, 0, 0, 0⟩⟩) (r := ⟨2.5, 0, .dimensionless⟩)
      (by decide) (by decide)
    obtain ⟨p, hp, -, hunits⟩ := hpure rfl
    cases hp
    exact (hunits (by decide)).2.2 (fun n hn => by cases hn)

end QuantityCalculus
