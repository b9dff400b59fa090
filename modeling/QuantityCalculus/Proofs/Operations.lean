/-
The operations on quantities, as equations.

Proofs about calculations use these equations and leave the operations folded.  Where an operation
checks words, the equation says on the integers when the checks succeed.

* `convert_eq_ok_iff` : a quantity is brought to another scale if the scale is in reach,
* `add_eq`, `subtract_eq` : both align the right operand with the left one (`align`),
* `multiply_eq`, `divide_eq` : both combine dimensions and base scales (`combine`),
* `power_eq`, `mapNumber_eq`, `log_eq` : dimensions are checked first, then pure numbers are brought
  to scale zero.
-/
import QuantityCalculus.Quantity.Basic

namespace QuantityCalculus

namespace Arithmetic

variable {α : Type} (A : Arithmetic α)

/-- The magnitude times a power of ten. -/
def shift (x : α) (n : Int) : α :=
  if 0 ≤ n then A.mul x (A.powTen n.toNat) else A.div x (A.powTen (-n).toNat)

end Arithmetic

/-- The error is an overflow of a word. -/
def EvalError.IsOverflow {α : Type} : EvalError α → Prop
  | overflow _ => True
  | _ => False

instance {α : Type} : (e : EvalError α) → Decidable e.IsOverflow
  | .overflow _ => isTrue trivial
  | .dimensionMismatch .. | .exponentHasUnits _ | .fractionalExponent .. |
    .insufficientOperands .. | .unknownIdentifier _ | .unrecognizedOperator _ |
    .notImplemented _ | .malformedProgram _ => isFalse id

/-- No word overflows in the calculation. -/
def WithoutOverflow {α β : Type} (x : Except (EvalError α) β) : Prop :=
  ∀ e, x = .error e → ¬ e.IsOverflow

instance {α β : Type} : (x : Except (EvalError α) β) → Decidable (WithoutOverflow x)
  | .ok _ => isTrue fun _ h => nomatch h
  | .error e =>
    if h : e.IsOverflow then isFalse fun hfits => hfits e rfl h
    else isTrue fun _ h' => Except.error.inj h' ▸ h

/-- A checked step as a step of a calculation. -/
abbrev lifted {α β : Type} (x : Except Overflow β) : Except (EvalError α) β := x.mapError .overflow

/-- Naming an overflow as an error of evaluation keeps the results. -/
theorem lifted_eq_ok_iff {α β : Type} {x : Except Overflow β} {b : β} :
    (lifted x : Except (EvalError α) β) = .ok b ↔ x = .ok b :=
  mapError_eq_ok_iff

/-- A computation on words fails with an overflow and nothing else. -/
theorem lifted_eq_error_iff {α β : Type} {x : Except Overflow β} {e : EvalError α} :
    lifted x = .error e ↔ ∃ o, x = .error o ∧ e = .overflow o := by
  rw [lifted, mapError_eq_error_iff]
  simp only [eq_comm]

/-- Every integer in the range of words is the value of a word. -/
theorem exists_word {n : Int} (h : FitsWord n) : ∃ w : Int32, w.toInt = n :=
  ⟨Int32.ofInt n, toInt_ofInt_of_fitsWord h⟩

/-- The offset of a bare kilogram is three, and no other unit has one. -/
theorem kiloOffset_toInt (d : Dimension) :
    (kiloOffset d).toInt = if d.isKilogram then 3 else 0 := by
  rw [kiloOffset]
  split <;> rfl

theorem kiloOffset_of_isDimensionless {d : Dimension} (h : d.isDimensionless = true) :
    kiloOffset d = 0 := by
  rw [Dimension.isDimensionless_iff] at h
  subst h
  decide

namespace Quantity

variable {α : Type} (A : Arithmetic α)

/-! ### Scales -/

/-- The scales are close enough for a quantity to go from the one to the other. -/
def InReach (s t : Int32) : Prop := (s.toInt - t.toInt).natAbs ≤ 2147483647

/-- The scale relative to coherent units, as an integer. -/
def baseExponent (q : Quantity α) : Int := q.scale.toInt - (kiloOffset q.dimension).toInt

/-- A conversion succeeds exactly if the target is in reach, and it shifts the magnitude by the
difference of the scales. -/
theorem convert_eq_ok_iff {q : Quantity α} {target : Int32} {m : α} :
    q.convert A target = .ok m ↔
      InReach q.scale target ∧ m = A.shift q.magnitude (q.scale.toInt - target.toInt) := by
  rw [convert, bind_eq_ok_iff, InReach]
  simp only [subChecked_eq_ok_iff]
  constructor
  · rintro ⟨d, hd, h⟩
    have hfits := fitsWord_toInt d
    rw [FitsWord] at hfits
    rw [← hd, Arithmetic.shift]
    split at h
    · next hpos =>
      rw [if_pos hpos]
      exact ⟨by omega, (Except.ok.inj h).symm⟩
    · next hneg =>
      -- the most negative distance has no opposite
      obtain ⟨opposite, hopposite, h⟩ := bind_eq_ok_iff.mp h
      rw [negChecked_eq_ok_iff] at hopposite
      have hfits' := fitsWord_toInt opposite
      rw [FitsWord] at hfits'
      rw [if_neg hneg, ← hopposite]
      exact ⟨by omega, (Except.ok.inj h).symm⟩
  · rintro ⟨hreach, rfl⟩
    obtain ⟨d, hd⟩ := exists_word (n := q.scale.toInt - target.toInt) ⟨by omega, by omega⟩
    refine ⟨d, hd, ?_⟩
    rw [← hd, Arithmetic.shift]
    split
    · rfl
    · next hneg =>
      obtain ⟨opposite, hopposite⟩ := exists_word (n := -d.toInt) ⟨by omega, by omega⟩
      rw [bind_eq_ok_iff]
      refine ⟨opposite, negChecked_eq_ok_iff.mpr hopposite, ?_⟩
      rw [hopposite]
      rfl

/-- Changing the scale converts the magnitude and keeps the dimension. -/
theorem withScale_eq (q : Quantity α) (target : Int32) :
    q.withScale A target = (q.convert A target).map fun m => ⟨m, target, q.dimension⟩ := by
  rw [withScale]
  cases q.convert A target <;> rfl

/-- Normalizing converts to the offset of the unit and marks the result with scale zero. -/
theorem normalize_eq (q : Quantity α) :
    q.normalize A =
      (q.convert A (kiloOffset q.dimension)).map fun m => ⟨m, 0, q.dimension⟩ := by
  rw [normalize]
  cases q.convert A (kiloOffset q.dimension) <;> rfl

/-- The scale in coherent units is found exactly if it is a word. -/
theorem baseScale_eq_ok_iff {q : Quantity α} {w : Int32} :
    q.baseScale = .ok w ↔ w.toInt = q.baseExponent := by
  rw [baseScale, subChecked_eq_ok_iff, baseExponent]

/-! ### Arithmetic -/

/-- An operation on quantities of one dimension, at the scale of the left one. -/
def align (op : α → α → α) (q r : Quantity α) : Except (EvalError α) (Quantity α) :=
  if q.dimension = r.dimension then
    (lifted (r.convert A q.scale)).map fun other => ⟨op q.magnitude other, q.scale, q.dimension⟩
  else .error (.dimensionMismatch q.dimension r.dimension)

/-- Sums and differences are one operation with two rules for magnitudes. -/
theorem add_eq (q r : Quantity α) : q.add A r = align A A.add q r := by
  rw [add, checkSameDimension, align]
  split
  · cases r.convert A q.scale <;> rfl
  · rfl

theorem subtract_eq (q r : Quantity α) : q.subtract A r = align A A.sub q r := by
  rw [subtract, checkSameDimension, align]
  split
  · cases r.convert A q.scale <;> rfl
  · rfl

/-- An operation that combines magnitudes, dimensions and base scales.  The scale of the result is
in its own unit. -/
def combine (dimensions : Dimension → Dimension → Except Overflow Dimension)
    (scales : Int32 → Int32 → Except Overflow Int32) (op : α → α → α) (q r : Quantity α) :
    Except Overflow (Quantity α) := do
  let dimension ← dimensions q.dimension r.dimension
  let left ← q.baseScale
  let right ← r.baseScale
  let scale ← addChecked (← scales left right) (kiloOffset dimension)
  return ⟨op q.magnitude r.magnitude, scale, dimension⟩

/-- Products and quotients are one operation with different rules for dimensions, scales and
magnitudes. -/
theorem multiply_eq (q r : Quantity α) :
    q.multiply A r = combine Dimension.add addChecked A.mul q r := rfl

theorem divide_eq (q r : Quantity α) :
    q.divide A r = combine Dimension.sub subChecked A.div q r := rfl

/-- A product or quotient succeeds exactly if its dimension can be formed and all scales on the way
are words; its scale is the combination of the base scales, with the offset of its own unit put
back. -/
theorem combine_eq_ok_iff {dimensions : Dimension → Dimension → Except Overflow Dimension}
    {scales : Int32 → Int32 → Except Overflow Int32} {f : Int → Int → Int}
    (hscales : ∀ a b w : Int32, scales a b = .ok w ↔ w.toInt = f a.toInt b.toInt) {op : α → α → α}
    {q r p : Quantity α} :
    combine dimensions scales op q r = .ok p ↔
      dimensions q.dimension r.dimension = .ok p.dimension ∧
        FitsWord q.baseExponent ∧ FitsWord r.baseExponent ∧
        FitsWord (f q.baseExponent r.baseExponent) ∧
        p.baseExponent = f q.baseExponent r.baseExponent ∧
        p.magnitude = op q.magnitude r.magnitude := by
  simp only [combine, bind_eq_ok_iff, baseScale_eq_ok_iff, hscales, addChecked_eq_ok_iff]
  constructor
  · rintro ⟨d, hd, left, hleft, right, hright, sum, hsum, scale, hscale, h⟩
    have hp := Except.ok.inj h
    subst hp
    have hexponent : scale.toInt - (kiloOffset d).toInt = sum.toInt := by omega
    rw [← hleft, ← hright, ← hsum]
    exact ⟨hd, fitsWord_toInt left, fitsWord_toInt right, fitsWord_toInt sum, hexponent, rfl⟩
  · rintro ⟨hd, hleft, hright, hsum, hexponent, hmagnitude⟩
    obtain ⟨left, hl⟩ := exists_word hleft
    obtain ⟨right, hr⟩ := exists_word hright
    obtain ⟨sum, hs⟩ := exists_word hsum
    -- the offset of the result is the part that the base scale of the result leaves out
    have hscale : p.scale.toInt = sum.toInt + (kiloOffset p.dimension).toInt := by
      rw [hs, ← hexponent, baseExponent]
      omega
    refine ⟨p.dimension, hd, left, hl, right, hr, sum, ?_, p.scale, hscale, ?_⟩
    · rw [hs, hl, hr]
    · rw [← hmagnitude]
      rfl

/-- The power, with its four steps in the order in which they can fail. -/
theorem power_eq (q r : Quantity α) :
    q.power A r =
      if r.isDimensionless then do
        let exponent ← lifted (r.convert A 0)
        let dimension ← powerDimension A q.dimension exponent
        let base ← lifted (q.normalize A)
        lifted (withScale A
          ⟨A.pow base.magnitude exponent, kiloOffset dimension, dimension⟩ q.scale)
      else .error (.exponentHasUnits r.dimension) := by
  rw [power]
  split <;> rfl

/-- A function of a pure number looks at the dimension first, then at the scale. -/
theorem mapNumber_eq (f : α → α) (q : Quantity α) :
    q.mapNumber A f =
      if q.isDimensionless then
        (lifted (q.convert A 0)).map fun x => ofNumber (A.clamp (f x))
      else .error (.dimensionMismatch .dimensionless q.dimension) := by
  rw [mapNumber, checkDimensionless]
  split
  · cases q.convert A 0 <;> rfl
  · rfl

/-- The logarithm looks at both dimensions first, then at both scales. -/
theorem log_eq (q base : Quantity α) :
    q.log A base =
      if q.isDimensionless then
        if base.isDimensionless then do
          let x ← lifted (q.convert A 0)
          let b ← lifted (base.convert A 0)
          return ofNumber (A.clamp (A.div (A.elementary .ln x) (A.elementary .ln b)))
        else .error (.dimensionMismatch .dimensionless base.dimension)
      else .error (.dimensionMismatch .dimensionless q.dimension) := by
  rw [log, checkDimensionless, checkDimensionless]
  split
  · split <;> rfl
  · rfl

end Quantity

end QuantityCalculus
