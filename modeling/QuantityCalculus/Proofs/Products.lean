/-
Products and quotients, however ordered and grouped.

A tree of products and quotients counts each quantity at its leaves with a sign, which turns at
every divisor that the leaf lies under.  Exponents and base scales add up with these signs, because
each product adds them and each quotient subtracts them; the offset of the bare kilogram is no part
of a base scale, so it does not matter at which nodes it comes and goes:

* `multiply_exponent`, `divide_exponent`, `multiply_baseExponent`, `divide_baseExponent` : what one
  operation does to a count,
* `signedSum_factors` : what a tree does to a count that products add and quotients subtract,
* `value_factors` : dimension and scale of a tree are those signed sums, so they depend on the
  signed leaves alone.

A tree has a value exactly if none of its operations overflows.
-/
import Mathlib.Algebra.BigOperators.Group.List.Basic
import Mathlib.Algebra.Order.Ring.Int
import QuantityCalculus.Arithmetic.Double
import QuantityCalculus.Proofs.Operations

namespace QuantityCalculus

/-- A tree of products and quotients with quantities at its leaves. -/
inductive Product (α : Type) where
  | quantity (q : Quantity α)
  | times (left right : Product α)
  | per (left right : Product α)

namespace Product

variable {α : Type} {A : Arithmetic α}

/-- The value of a tree. -/
def value (A : Arithmetic α) : Product α → Except Overflow (Quantity α)
  | quantity q => .ok q
  | times left right => do
    let q ← left.value A
    let r ← right.value A
    q.multiply A r
  | per left right => do
    let q ← left.value A
    let r ← right.value A
    q.divide A r

/-- The quantities at the leaves of a tree that lies under a number of divisors, each with the sign
of its own number of divisors. -/
def factors (divisors : Nat) : Product α → List (Int × Quantity α)
  | quantity q => [((-1) ^ divisors, q)]
  | times left right => left.factors divisors ++ right.factors divisors
  | per left right => left.factors divisors ++ right.factors (divisors + 1)

/-- The signed sum of a count of quantities. -/
def signedSum (f : Quantity α → Int) (factors : List (Int × Quantity α)) : Int :=
  (factors.map fun c => c.1 * f c.2).sum

theorem signedSum_append (f : Quantity α → Int) (cs ds : List (Int × Quantity α)) :
    signedSum f (cs ++ ds) = signedSum f cs + signedSum f ds := by
  rw [signedSum, List.map_append, List.sum_append]
  rfl

/-- The order of the factors does not matter for a signed sum. -/
theorem signedSum_perm (f : Quantity α → Int) {cs ds : List (Int × Quantity α)}
    (h : cs.Perm ds) : signedSum f cs = signedSum f ds :=
  (h.map _).sum_eq

/-! ### One operation -/

/-- A product adds the exponents of a base unit. -/
theorem multiply_exponent (b : BaseUnit) {q r p : Quantity α} (h : q.multiply A r = .ok p) :
    (p.dimension.exponent b).toInt =
      (q.dimension.exponent b).toInt + (r.dimension.exponent b).toInt := by
  rw [Quantity.multiply_eq, Quantity.combine_eq_ok_iff fun _ _ _ => addChecked_eq_ok_iff] at h
  exact Dimension.add_eq_ok_iff.mp h.1 b

theorem divide_exponent (b : BaseUnit) {q r p : Quantity α} (h : q.divide A r = .ok p) :
    (p.dimension.exponent b).toInt =
      (q.dimension.exponent b).toInt - (r.dimension.exponent b).toInt := by
  rw [Quantity.divide_eq, Quantity.combine_eq_ok_iff fun _ _ _ => subChecked_eq_ok_iff] at h
  exact Dimension.sub_eq_ok_iff.mp h.1 b

/-- A product adds the scales in coherent units. -/
theorem multiply_baseExponent {q r p : Quantity α} (h : q.multiply A r = .ok p) :
    p.baseExponent = q.baseExponent + r.baseExponent := by
  rw [Quantity.multiply_eq, Quantity.combine_eq_ok_iff fun _ _ _ => addChecked_eq_ok_iff] at h
  obtain ⟨-, -, -, -, hexponent, -⟩ := h
  exact hexponent

theorem divide_baseExponent {q r p : Quantity α} (h : q.divide A r = .ok p) :
    p.baseExponent = q.baseExponent - r.baseExponent := by
  rw [Quantity.divide_eq, Quantity.combine_eq_ok_iff fun _ _ _ => subChecked_eq_ok_iff] at h
  obtain ⟨-, -, -, -, hexponent, -⟩ := h
  exact hexponent

/-! ### Whole trees -/

/-- What products add and quotients subtract is the signed sum over the factors of a tree, by
induction on the tree; under an odd number of divisors all signs are reversed. -/
theorem signedSum_factors {f : Quantity α → Int}
    (hmultiply : ∀ {q r p : Quantity α}, q.multiply A r = .ok p → f p = f q + f r)
    (hdivide : ∀ {q r p : Quantity α}, q.divide A r = .ok p → f p = f q - f r)
    {t : Product α} {p : Quantity α} (h : t.value A = .ok p) (divisors : Nat) :
    signedSum f (t.factors divisors) = (-1) ^ divisors * f p := by
  induction t generalizing p divisors with
  | quantity q =>
    cases h
    exact List.sum_singleton
  | times left right ihl ihr =>
    rw [value, bind_eq_ok_iff] at h
    obtain ⟨q, hq, h⟩ := h
    obtain ⟨r, hr, h⟩ := bind_eq_ok_iff.mp h
    rw [factors, signedSum_append, ihl hq, ihr hr, hmultiply h, Int.mul_add]
  | per left right ihl ihr =>
    rw [value, bind_eq_ok_iff] at h
    obtain ⟨q, hq, h⟩ := h
    obtain ⟨r, hr, h⟩ := bind_eq_ok_iff.mp h
    -- the leaves of the divisor have one divisor more above them
    have hsign : (-1 : Int) ^ (divisors + 1) = -(-1) ^ divisors := by
      rw [pow_succ, Int.mul_neg, Int.mul_one]
    rw [factors, signedSum_append, ihl hq, ihr hr, hdivide h, hsign, Int.neg_mul, Int.mul_sub]
    rfl

/-- The exponents of the value are the signed sums of the exponents of the factors. -/
theorem exponent_value (b : BaseUnit) {t : Product α} {p : Quantity α}
    (h : t.value A = .ok p) :
    (p.dimension.exponent b).toInt =
      signedSum (fun q => (q.dimension.exponent b).toInt) (t.factors 0) := by
  rw [signedSum_factors (multiply_exponent b) (divide_exponent b) h, pow_zero, Int.one_mul]

/-- The scale of the value in coherent units is the signed sum of those of the factors. -/
theorem baseExponent_value {t : Product α} {p : Quantity α} (h : t.value A = .ok p) :
    p.baseExponent = signedSum Quantity.baseExponent (t.factors 0) := by
  rw [signedSum_factors multiply_baseExponent divide_baseExponent h, pow_zero, Int.one_mul]

/-- The scale is the one in coherent units, and three more for the bare kilogram. -/
theorem scale_eq (q : Quantity α) :
    q.scale.toInt = q.baseExponent + if q.dimension.isKilogram then 3 else 0 := by
  rw [Quantity.baseExponent, ← kiloOffset_toInt]
  exact (Int.sub_add_cancel _ _).symm

/-- Exponents and base scale determine dimension and scale. -/
theorem dimension_scale_eq {p q : Quantity α}
    (hexponents : ∀ b, (p.dimension.exponent b).toInt = (q.dimension.exponent b).toInt)
    (hbase : p.baseExponent = q.baseExponent) :
    p.dimension = q.dimension ∧ p.scale = q.scale := by
  have hdimension : p.dimension = q.dimension :=
    Dimension.ext_exponent fun b => Int32.toInt_inj.mp (hexponents b)
  refine ⟨hdimension, Int32.toInt_inj.mp ?_⟩
  rw [scale_eq p, scale_eq q, hbase, hdimension]

/-- **Only the signed leaves count**: the dimension of a tree of products and quotients is the
signed sum of the dimensions of its leaves, and its scale is that of their base scales, in the unit
of the result.  So trees with the same signed leaves agree in both, and a factor that is divided out
again leaves no trace in them. -/
theorem value_factors :
    (∀ (t : Product α) (p : Quantity α), t.value A = .ok p →
      (∀ b, (p.dimension.exponent b).toInt =
        signedSum (fun q => (q.dimension.exponent b).toInt) (t.factors 0)) ∧
      p.scale.toInt = signedSum Quantity.baseExponent (t.factors 0) +
        if p.dimension.isKilogram then 3 else 0) ∧
    (∀ (t u : Product α) (p q : Quantity α), t.value A = .ok p → u.value A = .ok q →
      (t.factors 0).Perm (u.factors 0) → p.dimension = q.dimension ∧ p.scale = q.scale) ∧
    ∀ (t u : Product α) (p q : Quantity α), t.value A = .ok p →
      ((t.times u).per u).value A = .ok q → q.dimension = p.dimension ∧ q.scale = p.scale := by
  refine ⟨?_, ?_, ?_⟩
  · intro t p h
    refine ⟨fun b => exponent_value b h, ?_⟩
    rw [← baseExponent_value h]
    exact scale_eq p
  · intro t u p q ht hu hperm
    refine dimension_scale_eq (fun b => ?_) ?_
    · rw [exponent_value b ht, exponent_value b hu, signedSum_perm _ hperm]
    · rw [baseExponent_value ht, baseExponent_value hu, signedSum_perm _ hperm]
  · intro t u p q ht h
    rw [value, bind_eq_ok_iff] at h
    obtain ⟨product, hproduct, h⟩ := h
    obtain ⟨divisor, hdivisor, hquotient⟩ := bind_eq_ok_iff.mp h
    rw [value, ht, hdivisor] at hproduct
    refine dimension_scale_eq (fun b => ?_) ?_
    · rw [divide_exponent b hquotient, multiply_exponent b hproduct, Int.add_sub_cancel]
    · rw [divide_baseExponent hquotient, multiply_baseExponent hproduct, Int.add_sub_cancel]

/-- Kilograms squared over a mass in milligrams, and the same masses in another order; on the way
the one is no bare kilogram and the other no mass at all. -/
theorem value_factors_masses :
    ∃ p q,
      (((quantity ⟨2, 3, .ofBaseUnit .kilogram⟩).times
        (quantity ⟨3, 3, .ofBaseUnit .kilogram⟩)).per
          (quantity ⟨4, -3, .ofBaseUnit .kilogram⟩)).value .double = .ok p ∧
      (((quantity ⟨3, 3, .ofBaseUnit .kilogram⟩).per
        (quantity ⟨4, -3, .ofBaseUnit .kilogram⟩)).times
          (quantity ⟨2, 3, .ofBaseUnit .kilogram⟩)).value .double = .ok q ∧
      p.dimension = q.dimension ∧ p.scale = q.scale ∧ p.scale.toInt = 6 + 3 := by
  obtain ⟨p, hp, hkilogram⟩ : ∃ p,
      (((quantity ⟨2, 3, .ofBaseUnit .kilogram⟩).times
        (quantity ⟨3, 3, .ofBaseUnit .kilogram⟩)).per
          (quantity ⟨4, -3, .ofBaseUnit .kilogram⟩)).value .double = .ok p ∧
        p.dimension.isKilogram = true := ⟨_, rfl, rfl⟩
  obtain ⟨q, hq⟩ : ∃ q,
      (((quantity ⟨3, 3, .ofBaseUnit .kilogram⟩).per
        (quantity ⟨4, -3, .ofBaseUnit .kilogram⟩)).times
          (quantity ⟨2, 3, .ofBaseUnit .kilogram⟩)).value .double = .ok q := ⟨_, rfl⟩
  obtain ⟨hsums, hleaves, -⟩ := @value_factors _ .double
  obtain ⟨hdimension, hscale⟩ := hleaves _ _ p q hp hq
    (show List.Perm ([_] ++ [_, _]) ([_, _] ++ [_]) from List.perm_append_comm)
  have hsum := (hsums _ p hp).2
  rw [hkilogram] at hsum
  exact ⟨p, q, hp, hq, hdimension, hscale, hsum⟩

end Product

end QuantityCalculus
