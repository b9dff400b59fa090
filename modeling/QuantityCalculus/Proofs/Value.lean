/-
What quantities stand for.

In exact arithmetic a quantity stands for its magnitude times ten to the power of its scale, where
three is taken off the scale of a bare kilogram (`Quantity.value`).  The offset of the kilogram
comes and goes as dimensions combine, but no operation can tell: each one is the operation of that
name on values.

* `Quantity.ext_value` : scale, dimension and value determine a quantity,
* `withScale_eq_ok_iff_value` : the scale of a quantity is no part of what it stands for,
* `add_eq_ok_iff_value` .. `power_eq_ok_iff_value` : operations on quantities are operations on
  their values,
* `approxEqual_eq_ok_iff_value` : and comparisons are comparisons of their values.

Each statement is an equivalence: it also says which scales and dimensions an operation accepts, and
which it gives to its result.
-/
import QuantityCalculus.Operator.Apply
import QuantityCalculus.Proofs.RationalArithmetic

namespace QuantityCalculus

open Quantity (InReach)

variable (C : Completion)

/-- The exact value of a quantity, in coherent units. -/
def Quantity.value (q : Quantity ℚ) : ℚ := q.magnitude * 10 ^ q.baseExponent

/-! ### Scales -/

theorem zpow_ten_ne_zero (n : ℤ) : (10 : ℚ) ^ n ≠ 0 := zpow_ne_zero n (by norm_num)

theorem zpow_ten_add (m n : ℤ) : (10 : ℚ) ^ (m + n) = 10 ^ m * 10 ^ n :=
  zpow_add₀ (by norm_num) m n

/-- Scale, dimension and value determine a quantity. -/
theorem Quantity.ext_value {p q : Quantity ℚ} (hscale : p.scale = q.scale)
    (hdimension : p.dimension = q.dimension) (hvalue : p.value = q.value) : p = q := by
  have hexponent : p.baseExponent = q.baseExponent := by
    rw [baseExponent, baseExponent, hscale, hdimension]
  rw [value, value, hexponent] at hvalue
  have hmagnitude : p.magnitude = q.magnitude := mul_right_cancel₀ (zpow_ten_ne_zero _) hvalue
  obtain ⟨m, s, d⟩ := p
  rw [mk.injEq]
  exact ⟨hmagnitude, hscale, hdimension⟩

/-- At the offset of its own unit, the magnitude of a quantity is its value. -/
theorem value_of_coherent (x : ℚ) (d : Dimension) :
    (⟨x, kiloOffset d, d⟩ : Quantity ℚ).value = x := by
  rw [Quantity.value, Quantity.baseExponent, sub_self, zpow_zero, mul_one]

/-- Conversion succeeds exactly if the target is in reach, with the number that has the same value
there. -/
theorem convert_eq_ok_iff_value {q : Quantity ℚ} {target : Int32} {m : ℚ} :
    q.convert (.rational C) target = .ok m ↔
      InReach q.scale target ∧
        m * 10 ^ (target.toInt - (kiloOffset q.dimension).toInt) = q.value := by
  -- the way to the coherent scale leads over the target
  have hsum : q.baseExponent = q.scale.toInt - target.toInt +
      (target.toInt - (kiloOffset q.dimension).toInt) := by
    rw [Quantity.baseExponent]
    omega
  rw [Quantity.convert_eq_ok_iff, Arithmetic.shift_eq, Quantity.value, hsum, zpow_ten_add,
    ← mul_assoc, mul_left_inj' (zpow_ten_ne_zero _)]

/-- A pure number at scale zero has its value as its magnitude. -/
theorem convert_zero_eq_ok_iff_value {q : Quantity ℚ} {x : ℚ} (hq : q.isDimensionless = true) :
    q.convert (.rational C) 0 = .ok x ↔ InReach q.scale 0 ∧ x = q.value := by
  rw [convert_eq_ok_iff_value, kiloOffset_of_isDimensionless hq, sub_self, zpow_zero, mul_one]

/-- A change of scale keeps the value and the dimension, and fails only out of reach. -/
theorem withScale_eq_ok_iff_value {q r : Quantity ℚ} {target : Int32} :
    q.withScale (.rational C) target = .ok r ↔
      InReach q.scale target ∧ r.scale = target ∧ r.dimension = q.dimension ∧
        r.value = q.value := by
  rw [Quantity.withScale_eq, map_eq_ok_iff]
  simp only [convert_eq_ok_iff_value]
  constructor
  · rintro ⟨m, ⟨hreach, hm⟩, rfl⟩
    exact ⟨hreach, rfl, rfl, hm⟩
  · rintro ⟨hreach, hscale, hdimension, hvalue⟩
    have hm : r.magnitude * 10 ^ (target.toInt - (kiloOffset q.dimension).toInt) = q.value := by
      rw [← hvalue, Quantity.value, Quantity.baseExponent, hscale, hdimension]
    exact ⟨r.magnitude, ⟨hreach, hm⟩,
      Quantity.ext_value hscale.symm hdimension.symm (hm.trans hvalue.symm)⟩

/-- Normalizing gives the value itself at scale zero. -/
theorem normalize_eq_ok_iff_value {q r : Quantity ℚ} :
    q.normalize (.rational C) = .ok r ↔
      InReach q.scale (kiloOffset q.dimension) ∧ r = ⟨q.value, 0, q.dimension⟩ := by
  rw [Quantity.normalize_eq, map_eq_ok_iff]
  simp only [convert_eq_ok_iff_value, sub_self, zpow_zero, mul_one]
  constructor
  · rintro ⟨m, ⟨hreach, rfl⟩, rfl⟩
    exact ⟨hreach, rfl⟩
  · rintro ⟨hreach, rfl⟩
    exact ⟨q.value, ⟨hreach, rfl⟩, rfl⟩

/-! ### Sums and differences -/

/-- An operation that commutes with scaling acts on the values of quantities of one dimension. -/
theorem align_eq_ok_iff_value {op : ℚ → ℚ → ℚ} (hop : ∀ x y c, op x y * c = op (x * c) (y * c))
    {q r p : Quantity ℚ} :
    q.align (.rational C) op r = .ok p ↔
      q.dimension = r.dimension ∧ InReach r.scale q.scale ∧ p.scale = q.scale ∧
        p.dimension = q.dimension ∧ p.value = op q.value r.value := by
  rw [Quantity.align]
  split
  · next hdimension =>
    -- at the scale of the left quantity both values are magnitudes times one power of ten
    have hvalue : ∀ m, m * 10 ^ (q.scale.toInt - (kiloOffset r.dimension).toInt) = r.value →
        (⟨op q.magnitude m, q.scale, q.dimension⟩ : Quantity ℚ).value = op q.value r.value := by
      intro m hm
      rw [← hm, ← hdimension]
      exact hop _ _ _
    simp only [map_eq_ok_iff, lifted_eq_ok_iff, convert_eq_ok_iff_value]
    constructor
    · rintro ⟨m, ⟨hreach, hm⟩, rfl⟩
      exact ⟨hdimension, hreach, rfl, rfl, hvalue m hm⟩
    · rintro ⟨-, hreach, hscale, hdim, hp⟩
      have hm := div_mul_cancel₀ r.value
        (zpow_ten_ne_zero (q.scale.toInt - (kiloOffset r.dimension).toInt))
      exact ⟨_, ⟨hreach, hm⟩,
        Quantity.ext_value hscale.symm hdim.symm ((hvalue _ hm).trans hp.symm)⟩
  · next hdimension =>
    constructor
    · intro h
      cases h
    · intro h
      exact absurd h.1 hdimension

/-- The value of a sum is the sum of the values. -/
theorem add_eq_ok_iff_value {q r p : Quantity ℚ} :
    q.add (.rational C) r = .ok p ↔
      q.dimension = r.dimension ∧ InReach r.scale q.scale ∧ p.scale = q.scale ∧
        p.dimension = q.dimension ∧ p.value = q.value + r.value := by
  rw [Quantity.add_eq]
  exact align_eq_ok_iff_value C add_mul

theorem subtract_eq_ok_iff_value {q r p : Quantity ℚ} :
    q.subtract (.rational C) r = .ok p ↔
      q.dimension = r.dimension ∧ InReach r.scale q.scale ∧ p.scale = q.scale ∧
        p.dimension = q.dimension ∧ p.value = q.value - r.value := by
  rw [Quantity.subtract_eq]
  exact align_eq_ok_iff_value C sub_mul

/-! ### Products and quotients -/

/-- A product of numbers and powers of ten acts on the values, whatever the scales are. -/
theorem combine_eq_ok_iff_value
    {dimensions : Dimension → Dimension → Except Overflow Dimension}
    {scales : Int32 → Int32 → Except Overflow Int32} {f : ℤ → ℤ → ℤ} {op : ℚ → ℚ → ℚ}
    (hscales : ∀ a b w : Int32, scales a b = .ok w ↔ w.toInt = f a.toInt b.toInt)
    (hop : ∀ x y m n, op (x * 10 ^ m) (y * 10 ^ n) = op x y * 10 ^ f m n) {q r p : Quantity ℚ} :
    q.combine dimensions scales op r = .ok p ↔
      dimensions q.dimension r.dimension = .ok p.dimension ∧
        FitsWord q.baseExponent ∧ FitsWord r.baseExponent ∧
        FitsWord (f q.baseExponent r.baseExponent) ∧
        p.baseExponent = f q.baseExponent r.baseExponent ∧ p.value = op q.value r.value := by
  rw [Quantity.combine_eq_ok_iff hscales]
  have hvalue : p.baseExponent = f q.baseExponent r.baseExponent →
      (p.magnitude = op q.magnitude r.magnitude ↔ p.value = op q.value r.value) := by
    intro hexponent
    rw [Quantity.value, Quantity.value, Quantity.value, hop, hexponent,
      mul_left_inj' (zpow_ten_ne_zero _)]
  constructor
  · rintro ⟨hd, hl, hr, hs, hexponent, hmagnitude⟩
    exact ⟨hd, hl, hr, hs, hexponent, (hvalue hexponent).mp hmagnitude⟩
  · rintro ⟨hd, hl, hr, hs, hexponent, hp⟩
    exact ⟨hd, hl, hr, hs, hexponent, (hvalue hexponent).mpr hp⟩

/-- The value of a product is the product of the values, its base exponent the sum of the base
exponents. -/
theorem multiply_eq_ok_iff_value {q r p : Quantity ℚ} :
    q.multiply (.rational C) r = .ok p ↔
      q.dimension.add r.dimension = .ok p.dimension ∧
        FitsWord q.baseExponent ∧ FitsWord r.baseExponent ∧
        FitsWord (q.baseExponent + r.baseExponent) ∧
        p.baseExponent = q.baseExponent + r.baseExponent ∧ p.value = q.value * r.value := by
  rw [Quantity.multiply_eq]
  refine combine_eq_ok_iff_value (f := (· + ·)) (fun _ _ _ => addChecked_eq_ok_iff) ?_
  intro x y m n
  rw [zpow_ten_add]
  exact mul_mul_mul_comm _ _ _ _

theorem divide_eq_ok_iff_value {q r p : Quantity ℚ} :
    q.divide (.rational C) r = .ok p ↔
      q.dimension.sub r.dimension = .ok p.dimension ∧
        FitsWord q.baseExponent ∧ FitsWord r.baseExponent ∧
        FitsWord (q.baseExponent - r.baseExponent) ∧
        p.baseExponent = q.baseExponent - r.baseExponent ∧ p.value = q.value / r.value := by
  rw [Quantity.divide_eq]
  refine combine_eq_ok_iff_value (f := (· - ·)) (fun _ _ _ => subChecked_eq_ok_iff) ?_
  intro x y m n
  rw [zpow_sub₀ (by norm_num)]
  exact (div_mul_div_comm _ _ _ _).symm

/-! ### Powers -/

/-- A power of a quantity is that power of its value, whatever powers are. -/
theorem power_eq_ok_iff_value {q r p : Quantity ℚ} :
    q.power (.rational C) r = .ok p ↔
      r.isDimensionless = true ∧ InReach r.scale 0 ∧
        Quantity.powerDimension (.rational C) q.dimension r.value = .ok p.dimension ∧
        InReach q.scale (kiloOffset q.dimension) ∧ InReach (kiloOffset p.dimension) q.scale ∧
        p.scale = q.scale ∧ p.value = (Arithmetic.rational C).pow q.value r.value := by
  rw [Quantity.power_eq]
  split
  · next hpure =>
    simp only [bind_eq_ok_iff, lifted_eq_ok_iff, convert_zero_eq_ok_iff_value C hpure,
      normalize_eq_ok_iff_value, withScale_eq_ok_iff_value, value_of_coherent]
    constructor
    · rintro ⟨_, ⟨hexponent, rfl⟩, d, hd, _, ⟨hbase, rfl⟩, hreach, hscale, hdimension, hvalue⟩
      rw [← hdimension] at hd hreach
      exact ⟨hpure, hexponent, hd, hbase, hreach, hscale, hvalue⟩
    · rintro ⟨-, hexponent, hd, hbase, hreach, hscale, hvalue⟩
      exact ⟨_, ⟨hexponent, rfl⟩, p.dimension, hd, _, ⟨hbase, rfl⟩, hreach, hscale, rfl, hvalue⟩
  · next hpure =>
    constructor
    · intro h
      cases h
    · intro h
      exact absurd h.1 hpure

theorem isOverflow_of_lifted {α β : Type} {x : Except Overflow β} {e : EvalError α}
    (h : lifted x = .error e) : e.IsOverflow := by
  obtain ⟨o, -, rfl⟩ := lifted_eq_error_iff.mp h
  trivial

/-- A whole exponent fails by overflow, or because it is beyond a word and there is a dimension that
it would have to scale. -/
theorem error_of_powerDimension {d : Dimension} {n : ℤ} {e : EvalError ℚ}
    (h : Quantity.powerDimension (.rational C) d (n : ℚ) = .error e) :
    e.IsOverflow ∨ d ≠ .dimensionless ∧ 2147483647 < n.natAbs ∧ e = .fractionalExponent d n := by
  rw [Quantity.powerDimension] at h
  split at h
  · cases h
  · next hd =>
    rw [Quantity.wordExponent?, (Arithmetic.toInt?_eq_some_iff C).mpr rfl] at h
    simp only [] at h
    by_cases hn : n.natAbs ≤ 2147483647
    · rw [if_pos hn] at h
      exact .inl (isOverflow_of_lifted h)
    · rw [if_neg hn] at h
      have he := Except.error.inj h
      exact .inr ⟨fun heq => hd (Dimension.isDimensionless_iff.mpr heq), by omega, he.symm⟩

/-- An integral power fails only where a word overflows, or where the exponent is beyond a word and
there are dimensions that it would have to scale. -/
theorem error_of_power {q r : Quantity ℚ} {n : ℤ} {e : EvalError ℚ}
    (hr : r.isDimensionless = true) (hn : r.value = n)
    (h : q.power (.rational C) r = .error e) :
    e.IsOverflow ∨ q.dimension ≠ .dimensionless ∧ 2147483647 < n.natAbs ∧
      e = .fractionalExponent q.dimension n := by
  rw [Quantity.power_eq, if_pos hr, bind_eq_error_iff] at h
  obtain hconvert | ⟨x, hx, h⟩ := h
  · exact .inl (isOverflow_of_lifted hconvert)
  · rw [lifted_eq_ok_iff, convert_zero_eq_ok_iff_value C hr, hn] at hx
    rw [hx.2, bind_eq_error_iff] at h
    obtain hdimension | ⟨d, -, h⟩ := h
    · exact error_of_powerDimension C hdimension
    · -- behind the dimension only changes of scale can fail
      refine .inl ?_
      rw [bind_eq_error_iff] at h
      obtain hbase | ⟨base, -, hscale⟩ := h
      · exact isOverflow_of_lifted hbase
      · exact isOverflow_of_lifted hscale

/-! ### Operators -/

/-- What an operator does to values. -/
def Operator.onValues : Operator → ℚ → ℚ → ℚ
  | add => (· + ·)
  | subtract => (· - ·)
  | multiply => (· * ·)
  | divide => (· / ·)
  | power => (Arithmetic.rational C).pow

theorem value_of_operator {o : Operator} {l r p : Quantity ℚ}
    (h : o.apply (.rational C) l r = .ok p) : p.value = o.onValues C l.value r.value := by
  cases o with
  | add =>
    obtain ⟨-, -, -, -, hvalue⟩ := (add_eq_ok_iff_value C).mp h
    exact hvalue
  | subtract =>
    obtain ⟨-, -, -, -, hvalue⟩ := (subtract_eq_ok_iff_value C).mp h
    exact hvalue
  | multiply =>
    obtain ⟨-, -, -, -, -, hvalue⟩ := (multiply_eq_ok_iff_value C).mp (lifted_eq_ok_iff.mp h)
    exact hvalue
  | divide =>
    obtain ⟨-, -, -, -, -, hvalue⟩ := (divide_eq_ok_iff_value C).mp (lifted_eq_ok_iff.mp h)
    exact hvalue
  | power =>
    obtain ⟨-, -, -, -, -, -, hvalue⟩ := (power_eq_ok_iff_value C).mp h
    exact hvalue

/-! ### Comparisons -/

theorem ok_decide_eq_ok_iff {ε : Type} {P : Prop} [Decidable P] {verdict : Bool} :
    (Except.ok (decide P) : Except ε Bool) = .ok verdict ↔ (verdict = true ↔ P) := by
  rw [Except.ok.injEq, Bool.eq_iff_iff, decide_eq_true_eq]
  exact iff_comm

/-- Quantities of one dimension are approximately equal if their values are. -/
theorem approxEqual_eq_ok_iff_value {q r : Quantity ℚ} {tolerance : ℚ} {verdict : Bool} :
    q.approxEqual (.rational C) r tolerance = .ok verdict ↔
      (q.dimension = r.dimension →
        InReach q.scale (kiloOffset q.dimension) ∧ InReach r.scale (kiloOffset r.dimension)) ∧
      (verdict = true ↔ q.dimension = r.dimension ∧
        |q.value - r.value| ≤ tolerance * max (max |q.value| |r.value|) 1) := by
  rw [Quantity.approxEqual]
  split
  · next hdimension =>
    simp only [bind_eq_ok_iff, normalize_eq_ok_iff_value, Arithmetic.max_eq, Arithmetic.one_eq,
      and_iff_right hdimension]
    constructor
    · rintro ⟨_, ⟨hq, rfl⟩, _, ⟨hr, rfl⟩, h⟩
      exact ⟨fun _ => ⟨hq, hr⟩, ok_decide_eq_ok_iff.mp h⟩
    · rintro ⟨hreach, h⟩
      obtain ⟨hq, hr⟩ := hreach hdimension
      exact ⟨_, ⟨hq, rfl⟩, _, ⟨hr, rfl⟩, ok_decide_eq_ok_iff.mpr h⟩
  · next hdimension =>
    have hfalse : q.dimension = r.dimension ∧
        |q.value - r.value| ≤ tolerance * max (max |q.value| |r.value|) 1 ↔ False :=
      ⟨fun h => hdimension h.1, False.elim⟩
    rw [hfalse, ← ok_decide_eq_ok_iff (ε := Overflow)]
    exact ⟨fun h => ⟨fun heq => absurd heq hdimension, h⟩, And.right⟩

end QuantityCalculus
