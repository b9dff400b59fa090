/-
Dimensional homogeneity.

A base unit may be replaced by a smaller or a greater one: then every magnitude is multiplied by a
power of one factor, and the power is the exponent of that base unit in the dimension
(`Quantity.changeUnit`).  A calculation whose dimensions are checked cannot tell: its result is
multiplied by the power that belongs to its own dimension, and its errors stay what they are.

* `convert_changeUnit`, `withScale_changeUnit`, `normalize_changeUnit` : scales do not interfere,
* `align_changeUnit`, `combine_changeUnit`, `power_changeUnit` : operations on dimensioned
  quantities multiply with the power of the dimension that they give to their result,
* `mapNumber_changeUnit`, `log_changeUnit` : functions see pure numbers only, and these stay as they
  are,
* `evaluate_changeUnit` : the statement for programs.

All of them are equations between calculations, so they cover errors, overflows included.  Powers
are the point where a number reaches a dimension: the exponent is a pure number and does not change.
-/
import QuantityCalculus.Proofs.Agreement
import QuantityCalculus.Proofs.Value

namespace QuantityCalculus

/-- What magnitudes of a dimension are multiplied by when `c` of the new units make up the base
unit `b`. -/
def Dimension.unitFactor (b : BaseUnit) (c : ℚ) (d : Dimension) : ℚ := c ^ (d.exponent b).toInt

/-- The quantity in a system of units in which `c` units make up the base unit `b`. -/
def Quantity.changeUnit (b : BaseUnit) (c : ℚ) (q : Quantity ℚ) : Quantity ℚ :=
  { q with magnitude := q.magnitude * q.dimension.unitFactor b c }

/-- The binding of the same name in a system of units in which `c` units make up the base unit
`b`. -/
def Binding.changeUnit (b : BaseUnit) (c : ℚ) (x : Binding ℚ) : Binding ℚ :=
  { x with quantity := x.quantity.changeUnit b c }

variable (C : Completion) {b : BaseUnit} {c : ℚ}

@[simp] theorem changeUnit_scale (q : Quantity ℚ) : (q.changeUnit b c).scale = q.scale := rfl

@[simp] theorem changeUnit_dimension (q : Quantity ℚ) :
    (q.changeUnit b c).dimension = q.dimension := rfl

@[simp] theorem changeUnit_magnitude (q : Quantity ℚ) :
    (q.changeUnit b c).magnitude = q.magnitude * q.dimension.unitFactor b c := rfl

@[simp] theorem isDimensionless_changeUnit (q : Quantity ℚ) :
    (q.changeUnit b c).isDimensionless = q.isDimensionless := rfl

@[simp] theorem baseScale_changeUnit (q : Quantity ℚ) :
    (q.changeUnit b c).baseScale = q.baseScale := rfl

/-! ### Pure numbers -/

/-- Pure numbers do not depend on the unit. -/
theorem unitFactor_of_isDimensionless {d : Dimension} (h : d.isDimensionless = true) :
    d.unitFactor b c = 1 := by
  have hzero : (d.exponent b).toInt = 0 := by
    rw [Dimension.isDimensionless_iff.mp h]
    cases b <;> rfl
  rw [Dimension.unitFactor, hzero, zpow_zero]

theorem changeUnit_of_isDimensionless {q : Quantity ℚ} (h : q.isDimensionless = true) :
    q.changeUnit b c = q := by
  rw [Quantity.changeUnit, unitFactor_of_isDimensionless h, mul_one]

@[simp] theorem changeUnit_ofNumber (x : ℚ) :
    (Quantity.ofNumber x).changeUnit b c = Quantity.ofNumber x :=
  changeUnit_of_isDimensionless rfl

/-! ### Scales -/

/-- The distance from one scale to another; it and its opposite have to be words. -/
def scaleDistance (s t : Int32) : Except Overflow Int := do
  let difference ← subChecked s t
  if 0 ≤ difference.toInt then return difference.toInt
  else
    let opposite ← negChecked difference
    return -opposite.toInt

/-- Only the scales decide whether a quantity can be brought to another scale. -/
theorem convert_eq {α : Type} (A : Arithmetic α) (q : Quantity α) (target : Int32) :
    q.convert A target = (scaleDistance q.scale target).map (A.shift q.magnitude) := by
  rw [Quantity.convert, scaleDistance]
  cases subChecked q.scale target with
  | error o => rfl
  | ok difference =>
    simp only [bind, Except.bind]
    split
    · next hpos =>
      show _ = Except.ok (A.shift q.magnitude difference.toInt)
      rw [Arithmetic.shift, if_pos hpos]
      rfl
    · next hneg =>
      cases hopposite : negChecked difference with
      | error o => rfl
      | ok opposite =>
        have hvalue := negChecked_eq_ok_iff.mp hopposite
        show _ = Except.ok (A.shift q.magnitude (-opposite.toInt))
        rw [Arithmetic.shift, if_neg (by omega), Int.neg_neg]
        rfl

/-- Powers of ten and changes of the unit commute. -/
theorem shift_mul (x k : ℚ) (n : ℤ) :
    (Arithmetic.rational C).shift (x * k) n = (Arithmetic.rational C).shift x n * k := by
  rw [Arithmetic.shift_eq, Arithmetic.shift_eq]
  ring

/-- Conversions look at scales only, so the change goes through them. -/
theorem convert_changeUnit (q : Quantity ℚ) (target : Int32) :
    (q.changeUnit b c).convert (.rational C) target =
      (q.convert (.rational C) target).map (· * q.dimension.unitFactor b c) := by
  rw [convert_eq, convert_eq, changeUnit_scale, changeUnit_magnitude]
  cases scaleDistance q.scale target with
  | error o => rfl
  | ok n => exact congrArg Except.ok (shift_mul C _ _ n)

theorem withScale_changeUnit (q : Quantity ℚ) (target : Int32) :
    (q.changeUnit b c).withScale (.rational C) target =
      (q.withScale (.rational C) target).map (Quantity.changeUnit b c) := by
  rw [Quantity.withScale_eq, Quantity.withScale_eq, convert_changeUnit]
  cases q.convert (.rational C) target <;> rfl

theorem normalize_changeUnit (q : Quantity ℚ) :
    (q.changeUnit b c).normalize (.rational C) =
      (q.normalize (.rational C)).map (Quantity.changeUnit b c) := by
  rw [Quantity.normalize_eq, Quantity.normalize_eq, convert_changeUnit, changeUnit_dimension]
  cases q.convert (.rational C) (kiloOffset q.dimension) <;> rfl

/-! ### Sums, products and quotients -/

/-- Sums and differences go through a change of the unit, because both operands take the same
factor. -/
theorem align_changeUnit {op : ℚ → ℚ → ℚ} (hop : ∀ x y k, op x y * k = op (x * k) (y * k))
    (q r : Quantity ℚ) :
    (q.changeUnit b c).align (.rational C) op (r.changeUnit b c) =
      (q.align (.rational C) op r).map (Quantity.changeUnit b c) := by
  rw [Quantity.align, Quantity.align, changeUnit_dimension, changeUnit_dimension]
  split
  · next hdimension =>
    -- both magnitudes are multiplied by the factor of one dimension
    rw [changeUnit_scale, convert_changeUnit, ← hdimension]
    cases r.convert (.rational C) q.scale with
    | error o => rfl
    | ok m =>
      have hmagnitude := hop q.magnitude m (q.dimension.unitFactor b c)
      show Except.ok _ = Except.ok _
      rw [Quantity.changeUnit, Quantity.changeUnit, hmagnitude]
  · rfl

/-- Products and quotients go through a change of the unit if the factors of their operands combine
to their own. -/
theorem combine_changeUnit {dimensions : Dimension → Dimension → Except Overflow Dimension}
    {scales : Int32 → Int32 → Except Overflow Int32} {op : ℚ → ℚ → ℚ}
    (hop : ∀ x y d e g, dimensions d e = .ok g →
      op (x * d.unitFactor b c) (y * e.unitFactor b c) = op x y * g.unitFactor b c)
    (q r : Quantity ℚ) :
    (q.changeUnit b c).combine dimensions scales op (r.changeUnit b c) =
      (q.combine dimensions scales op r).map (Quantity.changeUnit b c) := by
  simp only [Quantity.combine, changeUnit_dimension, changeUnit_magnitude, baseScale_changeUnit]
  cases hdimension : dimensions q.dimension r.dimension with
  | error o => rfl
  | ok d =>
    have hmagnitude := hop q.magnitude r.magnitude _ _ d hdimension
    cases q.baseScale with
    | error o => rfl
    | ok left =>
      cases r.baseScale with
      | error o => rfl
      | ok right =>
        cases hscales : scales left right with
        | error o => simp [bind, Except.bind, Except.map, hscales]
        | ok sum =>
          simp only [bind, Except.bind, hscales, hmagnitude]
          cases addChecked sum (kiloOffset d) <;> rfl

/-- The factor of a product is the product of the factors. -/
theorem unitFactor_add (hc : c ≠ 0) {d e g : Dimension} (h : d.add e = .ok g) :
    g.unitFactor b c = d.unitFactor b c * e.unitFactor b c := by
  rw [Dimension.unitFactor, Dimension.add_eq_ok_iff.mp h b, zpow_add₀ hc]
  rfl

theorem unitFactor_sub (hc : c ≠ 0) {d e g : Dimension} (h : d.sub e = .ok g) :
    g.unitFactor b c = d.unitFactor b c / e.unitFactor b c := by
  rw [Dimension.unitFactor, Dimension.sub_eq_ok_iff.mp h b, zpow_sub₀ hc]
  rfl

theorem multiply_changeUnit (hc : c ≠ 0) (q r : Quantity ℚ) :
    (q.changeUnit b c).multiply (.rational C) (r.changeUnit b c) =
      (q.multiply (.rational C) r).map (Quantity.changeUnit b c) := by
  rw [Quantity.multiply_eq, Quantity.multiply_eq]
  refine combine_changeUnit (fun x y d e g h => ?_) q r
  rw [unitFactor_add hc h]
  exact mul_mul_mul_comm _ _ _ _

theorem divide_changeUnit (hc : c ≠ 0) (q r : Quantity ℚ) :
    (q.changeUnit b c).divide (.rational C) (r.changeUnit b c) =
      (q.divide (.rational C) r).map (Quantity.changeUnit b c) := by
  rw [Quantity.divide_eq, Quantity.divide_eq]
  refine combine_changeUnit (fun x y d e g h => ?_) q r
  rw [unitFactor_sub hc h]
  exact (div_mul_div_comm _ _ _ _).symm

/-! ### Powers -/

theorem unitFactor_scale {d e : Dimension} {n : Int32} (h : d.scale n = .ok e) :
    e.unitFactor b c = d.unitFactor b c ^ n.toInt := by
  rw [Dimension.unitFactor, Dimension.scale_eq_ok_iff.mp h b, zpow_mul]
  rfl

theorem eq_of_wordExponent? {x : ℚ} {n : Int32}
    (h : Quantity.wordExponent? (.rational C) x = some n) : x = n.toInt := by
  rw [Quantity.wordExponent?] at h
  split at h
  · next m hm =>
    split at h
    · next hfits =>
      cases h
      rw [toInt_ofInt_of_fitsWord ⟨by omega, by omega⟩]
      exact (Arithmetic.toInt?_eq_some_iff C).mp hm
    · cases h
  · cases h

/-- A power multiplies with the power that belongs to its dimension. -/
theorem pow_unitFactor {d e : Dimension} {x : ℚ}
    (h : Quantity.powerDimension (.rational C) d x = .ok e) (m : ℚ) :
    (Arithmetic.rational C).pow (m * d.unitFactor b c) x =
      (Arithmetic.rational C).pow m x * e.unitFactor b c := by
  rw [Quantity.powerDimension] at h
  split at h
  · next hpure =>
    cases h
    rw [unitFactor_of_isDimensionless hpure, mul_one, mul_one]
  · split at h
    · next n hn =>
      rw [eq_of_wordExponent? C hn, Arithmetic.pow_intCast, Arithmetic.pow_intCast, mul_zpow,
        unitFactor_scale (lifted_eq_ok_iff.mp h)]
    · cases h

/-- Powers go through a change of the unit: the exponent is a pure number, and the base takes its
factor along. -/
theorem power_changeUnit (q r : Quantity ℚ) :
    (q.changeUnit b c).power (.rational C) (r.changeUnit b c) =
      (q.power (.rational C) r).map (Quantity.changeUnit b c) := by
  rw [Quantity.power_eq, Quantity.power_eq, isDimensionless_changeUnit, changeUnit_dimension,
    changeUnit_scale]
  split
  · next hpure =>
    rw [changeUnit_of_isDimensionless hpure, normalize_changeUnit]
    cases r.convert (.rational C) 0 with
    | error o => rfl
    | ok x =>
      cases hdimension : Quantity.powerDimension (.rational C) q.dimension x with
      | error e => simp [bind, Except.bind, Except.map, Except.mapError, hdimension]
      | ok d =>
        cases hnormal : q.normalize (.rational C) with
        | error o => simp [bind, Except.bind, Except.map, Except.mapError, hdimension]
        | ok base =>
          have hbase : base.dimension = q.dimension := by
            rw [Quantity.normalize_eq] at hnormal
            obtain ⟨m, -, rfl⟩ := map_eq_ok_iff.mp hnormal
            rfl
          -- the factor of the base, raised to the exponent, is the factor of the result
          have hpower : (⟨(Arithmetic.rational C).pow (base.changeUnit b c).magnitude x,
                kiloOffset d, d⟩ : Quantity ℚ) =
              (⟨(Arithmetic.rational C).pow base.magnitude x, kiloOffset d, d⟩ :
                Quantity ℚ).changeUnit b c := by
            rw [changeUnit_magnitude, hbase, pow_unitFactor C hdimension]
            rfl
          simp only [bind, Except.bind, Except.map, Except.mapError, hdimension]
          rw [hpower, withScale_changeUnit]
          cases Quantity.withScale (.rational C) _ q.scale <;> rfl
  · rfl

/-! ### Functions of pure numbers -/

/-- Functions see pure numbers only, which do not change. -/
theorem mapNumber_changeUnit (kernel : ℚ → ℚ) (q : Quantity ℚ) :
    (q.changeUnit b c).mapNumber (.rational C) kernel =
      (q.mapNumber (.rational C) kernel).map (Quantity.changeUnit b c) := by
  rw [Quantity.mapNumber_eq, Quantity.mapNumber_eq, isDimensionless_changeUnit]
  split
  · next hpure =>
    rw [changeUnit_of_isDimensionless hpure]
    cases q.convert (.rational C) 0 with
    | error o => rfl
    | ok x => exact congrArg Except.ok (changeUnit_ofNumber _).symm
  · rfl

theorem log_changeUnit (q base : Quantity ℚ) :
    (q.changeUnit b c).log (.rational C) (base.changeUnit b c) =
      (q.log (.rational C) base).map (Quantity.changeUnit b c) := by
  rw [Quantity.log_eq, Quantity.log_eq, isDimensionless_changeUnit, isDimensionless_changeUnit]
  split
  · next hpure =>
    split
    · next hbase =>
      rw [changeUnit_of_isDimensionless hpure, changeUnit_of_isDimensionless hbase]
      cases q.convert (.rational C) 0 with
      | error o => rfl
      | ok x =>
        cases base.convert (.rational C) 0 with
        | error o => rfl
        | ok y => exact congrArg Except.ok (changeUnit_ofNumber _).symm
    · rfl
  · rfl

/-! ### Programs -/

/-- Every operator goes through a change of the unit. -/
theorem operator_changeUnit (hc : c ≠ 0) (o : Operator) (l r : Quantity ℚ) :
    o.apply (.rational C) (l.changeUnit b c) (r.changeUnit b c) =
      (o.apply (.rational C) l r).map (Quantity.changeUnit b c) := by
  cases o with
  | add =>
    show (l.changeUnit b c).add (.rational C) _ = (l.add (.rational C) r).map _
    rw [Quantity.add_eq, Quantity.add_eq]
    exact align_changeUnit C add_mul l r
  | subtract =>
    show (l.changeUnit b c).subtract (.rational C) _ = (l.subtract (.rational C) r).map _
    rw [Quantity.subtract_eq, Quantity.subtract_eq]
    exact align_changeUnit C sub_mul l r
  | multiply =>
    show lifted ((l.changeUnit b c).multiply (.rational C) _) = _
    rw [multiply_changeUnit C hc]
    show _ = (lifted (l.multiply (.rational C) r)).map _
    cases l.multiply (.rational C) r <;> rfl
  | divide =>
    show lifted ((l.changeUnit b c).divide (.rational C) _) = _
    rw [divide_changeUnit C hc]
    show _ = (lifted (l.divide (.rational C) r)).map _
    cases l.divide (.rational C) r <;> rfl
  | power => exact power_changeUnit C l r

/-- The quantities are the same, in two systems of units. -/
def SameInUnits (b : BaseUnit) (c : ℚ) (q q' : Quantity ℚ) : Prop := q' = q.changeUnit b c

theorem relatedBindings_changeUnit (bindings : List (Binding ℚ)) :
    RelatedBindings (SameInUnits b c) bindings (bindings.map (Binding.changeUnit b c)) := by
  induction bindings with
  | nil => exact .nil
  | cons x bindings ih => exact .cons ⟨rfl, rfl⟩ ih

/-- Runs before and after a change of the unit agree in everything, errors and overflows
included. -/
theorem agree_changeUnit (hc : c ≠ 0) (tokens : List Token) (bindings : List (Binding ℚ)) :
    Agree (fun _ => False) (SameInUnits b c)
      ((Program.mk tokens).evaluate (.rational C) bindings)
      ((Program.mk tokens).evaluate (.rational C) (bindings.map (Binding.changeUnit b c))) := by
  have hstep : ∀ before t after s s', before ++ t :: after = tokens →
      List.Forall₂ (SameInUnits b c) s s' →
      Agree (fun _ => False) (List.Forall₂ (SameInUnits b c)) (step (.rational C) bindings s t)
        (step (.rational C) (bindings.map (Binding.changeUnit b c)) s' t) := by
    intro before t after s s' _ hs
    refine agree_step ?_ ?_ ?_ hs
    · intro x _
      exact agree_resolve (relatedBindings_changeUnit bindings)
        (fun x => (changeUnit_ofNumber x).symm) x
    · rintro o l r rest _ _ rest' _ _ _ rfl rfl
      exact .of_map (operator_changeUnit C hc o l r)
    · intro f operands operands' _ hlen hoperands
      refine agree_apply ?_ ?_ hlen hoperands
      · rintro kernel q _ rfl
        exact .of_map (mapNumber_changeUnit C kernel q)
      · rintro q base _ _ rfl rfl
        exact .of_map (log_changeUnit C q base)
  exact agree_evaluate (fun before => hstep before) .nil fun s s' hs => hs

/-- **Checked calculations are dimensionally homogeneous**: in a system of units in which `c` units
make up the base unit `b`, a program has the same error, or the same result in those units. -/
theorem evaluate_changeUnit (hc : 0 < c) (p : Program) (bindings : List (Binding ℚ)) :
    p.evaluate (.rational C) (bindings.map (Binding.changeUnit b c)) =
      (p.evaluate (.rational C) bindings).map (Quantity.changeUnit b c) :=
  (agree_changeUnit C hc.ne' p.tokens bindings).eq_map

/-- Twice a kinetic energy of nine joules, with lengths in centimetres. -/
theorem evaluate_changeUnit_centimetres :
    (Program.mk [.name "m", .name "v", .name "2", .operator .power, .operator .multiply]).evaluate
        (.rational default) [⟨"m", ⟨2, 3, .ofBaseUnit .kilogram⟩⟩,
          ⟨"v", ⟨300, 0, ⟨-1, 1, 0, 0, 0, 0, 0⟩⟩⟩] =
      .ok ⟨180000, 0, ⟨-2, 2, 1, 0, 0, 0, 0⟩⟩ := by
  have hmetres : (Program.mk [.name "m", .name "v", .name "2", .operator .power,
        .operator .multiply]).evaluate (.rational default)
        [⟨"m", ⟨2, 3, .ofBaseUnit .kilogram⟩⟩, ⟨"v", ⟨3, 0, ⟨-1, 1, 0, 0, 0, 0, 0⟩⟩⟩] =
      .ok ⟨18, 0, ⟨-2, 2, 1, 0, 0, 0, 0⟩⟩ := by
    decide +kernel
  have hunits := evaluate_changeUnit default (b := .metre) (c := 100) (by norm_num)
    (Program.mk [.name "m", .name "v", .name "2", .operator .power, .operator .multiply])
    [⟨"m", ⟨2, 3, .ofBaseUnit .kilogram⟩⟩, ⟨"v", ⟨3, 0, ⟨-1, 1, 0, 0, 0, 0, 0⟩⟩⟩]
  rw [hmetres] at hunits
  refine Eq.trans ?_ (hunits.trans ?_)
  · congr 1
    decide +kernel
  · decide +kernel

end QuantityCalculus
