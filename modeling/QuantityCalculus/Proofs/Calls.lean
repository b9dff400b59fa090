/-
When functions have values.

Each function reads as many operands as it has arguments, from the front, and no others.  Two of the
functions are known by name only.  All others ask for pure numbers, and the first operand that is
none is the one they report; what they give is again a pure number, at scale zero, without the noise
that real functions leave at both ends.  So whether a function has a value is decided by dimensions
alone, except that the lowest scale has no opposite and cannot be brought to zero.

* `inReach_zero_iff` : every scale but the lowest one can be brought to zero,
* `apply_append` : operands behind the arguments are ignored,
* `apply_of_scales` : what a function does with its arguments,
* `isClamped_clamp` : the numbers that a function can give,
* `apply_answers` : the result of a call, for every function and all operands.
-/
import Mathlib.Data.List.Basic
import QuantityCalculus.Arithmetic.Double
import QuantityCalculus.Builtin.Apply
import QuantityCalculus.Proofs.Operations

namespace QuantityCalculus

open Quantity (InReach)

section

variable {α : Type} {A : Arithmetic α}

/-! ### Pure numbers -/

/-- Every scale but the lowest one can be brought to zero. -/
theorem inReach_zero_iff {s : Int32} : InReach s 0 ↔ s ≠ Int32.minValue := by
  have hfits := fitsWord_toInt s
  have hzero : (0 : Int32).toInt = 0 := by decide
  have hlowest : Int32.minValue.toInt = -2147483648 := by decide
  rw [FitsWord] at hfits
  rw [InReach, ne_eq, ← Int32.toInt_inj, hzero, hlowest]
  omega

/-- Within reach of scale zero only the dimension can keep a function from having a value. -/
theorem mapNumber_of_inReach {q : Quantity α} (hq : InReach q.scale 0) (kernel : α → α) :
    q.mapNumber A kernel =
      if q.isDimensionless then
        .ok (.ofNumber (A.clamp (kernel (A.shift q.magnitude (q.scale.toInt - (0 : Int32).toInt)))))
      else .error (.dimensionMismatch .dimensionless q.dimension) := by
  rw [Quantity.mapNumber_eq, (Quantity.convert_eq_ok_iff A).mpr ⟨hq, rfl⟩]
  rfl

/-- The first operand that is no pure number. -/
def firstWithUnits? (operands : List (Quantity α)) : Option (Quantity α) :=
  operands.find? fun q => !q.isDimensionless

theorem firstWithUnits?_eq_none_iff {operands : List (Quantity α)} :
    firstWithUnits? operands = none ↔ ∀ q ∈ operands, q.dimension = .dimensionless := by
  simp [firstWithUnits?, Quantity.isDimensionless, Dimension.isDimensionless_iff]

theorem firstWithUnits?_cons (q : Quantity α) (operands : List (Quantity α)) :
    firstWithUnits? (q :: operands) =
      if q.isDimensionless then firstWithUnits? operands else some q := by
  rw [firstWithUnits?, List.find?_cons]
  cases q.isDimensionless <;> rfl

/-! ### Calls -/

/-- Operands behind the arguments are ignored. -/
theorem apply_append {f : Builtin} {operands : List (Quantity α)}
    (hlen : operands.length = f.arity) (ignored : List (Quantity α)) :
    f.apply A (operands ++ ignored) = f.apply A operands := by
  rcases f.kind A with rfl | hf | ⟨harity, kernel, hkernel⟩
  · obtain ⟨q, base, rfl⟩ := List.length_eq_two.mp hlen
    exact (Builtin.apply_log A q base ignored).trans (Builtin.apply_log A q base []).symm
  · have harity : f.arity = 2 := by
      rcases hf with rfl | rfl <;> rfl
    obtain ⟨q, r, rfl⟩ := List.length_eq_two.mp (hlen.trans harity)
    exact (Builtin.apply_unimplemented A hf q r ignored).trans
      (Builtin.apply_unimplemented A hf q r []).symm
  · obtain ⟨q, rfl⟩ := List.length_eq_one_iff.mp (hlen.trans harity)
    exact (hkernel q ignored).trans (hkernel q []).symm

theorem apply_take {f : Builtin} {operands : List (Quantity α)} (h : f.arity ≤ operands.length) :
    f.apply A operands = f.apply A (operands.take f.arity) := by
  have hlen : (operands.take f.arity).length = f.arity := List.length_take_of_le h
  have happend := apply_append (A := A) hlen (operands.drop f.arity)
  rw [List.take_append_drop] at happend
  exact happend

/-- Operands that are the same as far as the arguments go have the same result. -/
theorem apply_congr {f : Builtin} {operands operands' : List (Quantity α)}
    (h : f.arity ≤ operands.length) (htake : operands'.take f.arity = operands.take f.arity) :
    f.apply A operands' = f.apply A operands := by
  have hlen := congrArg List.length htake
  rw [List.length_take, List.length_take] at hlen
  rw [apply_take (by omega), htake, ← apply_take h]

/-- At scales that can be brought to zero, an implemented function has a value, or complains about
the first argument with units. -/
theorem apply_of_scales {f : Builtin} (hmin : f ≠ .min) (hmax : f ≠ .max)
    {operands : List (Quantity α)} (hlen : operands.length = f.arity)
    (hscales : ∀ q ∈ operands, q.scale ≠ Int32.minValue) :
    (∀ q, firstWithUnits? operands = some q →
      f.apply A operands = .error (.dimensionMismatch .dimensionless q.dimension)) ∧
    (firstWithUnits? operands = none →
      ∃ x, f.apply A operands = .ok (.ofNumber (A.clamp x))) := by
  rcases f.kind A with rfl | hf | ⟨harity, kernel, hkernel⟩
  · obtain ⟨q, base, rfl⟩ := List.length_eq_two.mp hlen
    have hq : InReach q.scale 0 := inReach_zero_iff.mpr (hscales q (by simp))
    have hbase : InReach base.scale 0 := inReach_zero_iff.mpr (hscales base (by simp))
    rw [Builtin.apply_log, Quantity.log_eq, (Quantity.convert_eq_ok_iff A).mpr ⟨hq, rfl⟩,
      (Quantity.convert_eq_ok_iff A).mpr ⟨hbase, rfl⟩, firstWithUnits?_cons, firstWithUnits?_cons]
    -- the number is looked at before the base
    cases q.isDimensionless with
    | false => exact ⟨fun r hr => by cases hr; rfl, nofun⟩
    | true =>
      cases base.isDimensionless with
      | false => exact ⟨fun r hr => by cases hr; rfl, nofun⟩
      | true => exact ⟨nofun, fun _ => ⟨_, rfl⟩⟩
  · rcases hf with rfl | rfl
    · exact absurd rfl hmin
    · exact absurd rfl hmax
  · obtain ⟨q, rfl⟩ := List.length_eq_one_iff.mp (hlen.trans harity)
    have hq : InReach q.scale 0 := inReach_zero_iff.mpr (hscales q (by simp))
    rw [hkernel, mapNumber_of_inReach hq, firstWithUnits?_cons]
    cases q.isDimensionless with
    | false => exact ⟨fun r hr => by cases hr; rfl, nofun⟩
    | true => exact ⟨nofun, fun _ => ⟨_, rfl⟩⟩

end

/-! ### Calls with doubles -/

/-- The double is infinite or zero, or none of the comparisons with the limits of functions
holds. -/
def IsClamped (x : Float) : Prop :=
  x = infiniteDouble ∨ x = -infiniteDouble ∨ x = 0.0 ∨ ¬ 1e9 < x ∧ ¬ x < -1e9 ∧ ¬ x.abs < 1e-9

/-- What clamping leaves is within the limits, NaN included, or infinite or zero. -/
theorem isClamped_clamp (x : Float) : IsClamped (Arithmetic.double.clamp x) := by
  obtain h | h | h | ⟨h, habove, hbelow, hnoise⟩ := Arithmetic.double.clamp_cases x
  · exact .inl h
  · exact .inr (.inl h)
  · exact .inr (.inr (.inl h))
  · rw [h]
    exact .inr (.inr (.inr ⟨of_decide_eq_false habove, of_decide_eq_false hbelow,
      of_decide_eq_false hnoise⟩))

/-- **When functions have values**: without enough operands a function reports how many there are.
With enough of them the least and the greatest of two quantities are not implemented; every other
function has a value exactly if its arguments are pure numbers, and else reports the first one that
is not.  Operands behind the arguments do not matter, and a value is a pure number at scale zero
within the limits of functions. -/
theorem apply_answers (f : Builtin) (operands : List (Quantity Float)) :
    (operands.length < f.arity → f.apply .double operands =
      .error (.insufficientOperands (.function f) f.arity operands.length)) ∧
    (f.arity ≤ operands.length →
      (f = .min ∨ f = .max → f.apply .double operands = .error (.notImplemented f)) ∧
      (f ≠ .min → f ≠ .max → (∀ q ∈ operands.take f.arity, q.scale ≠ Int32.minValue) →
        ((∃ value, f.apply .double operands = .ok value) ↔
          ∀ q ∈ operands.take f.arity, q.dimension = .dimensionless) ∧
        (∀ q, firstWithUnits? (operands.take f.arity) = some q →
          f.apply .double operands = .error (.dimensionMismatch .dimensionless q.dimension)) ∧
        ∀ value, f.apply .double operands = .ok value →
          value.dimension = .dimensionless ∧ value.scale = 0 ∧ IsClamped value.magnitude) ∧
      ∀ operands', operands'.take f.arity = operands.take f.arity →
        f.apply .double operands' = f.apply .double operands) := by
  refine ⟨Builtin.apply_short .double, fun henough => ⟨fun hf => ?_, fun hmin hmax hscales => ?_,
    fun _ => apply_congr henough⟩⟩
  -- both functions without an implementation take two operands
  · have harity : f.arity = 2 := by
      rcases hf with rfl | rfl <;> rfl
    match operands, harity ▸ henough with
    | q :: r :: ignored, _ => exact Builtin.apply_unimplemented .double hf q r ignored
  · obtain ⟨herror, hok⟩ := apply_of_scales (A := .double) hmin hmax
      (List.length_take_of_le henough) hscales
    rw [apply_take henough]
    cases hfirst : firstWithUnits? (operands.take f.arity) with
    | some q =>
      have happly := herror q hfirst
      have hunits : ¬ ∀ q ∈ operands.take f.arity, q.dimension = .dimensionless := by
        rw [← firstWithUnits?_eq_none_iff, hfirst]
        exact nofun
      rw [happly]
      exact ⟨iff_of_false nofun hunits, fun r hr => by cases hr; rfl, nofun⟩
    | none =>
      obtain ⟨x, happly⟩ := hok hfirst
      rw [happly]
      refine ⟨iff_of_true ⟨_, rfl⟩ (firstWithUnits?_eq_none_iff.mp hfirst), nofun, ?_⟩
      rintro value ⟨⟩
      exact ⟨rfl, rfl, isClamped_clamp x⟩

/-- The logarithm of eight to the base of two, in front of a length at the lowest scale; and the
logarithm of a length to the base of a duration, which complains about the length. -/
theorem apply_answers_log :
    (∃ value, Builtin.log.apply .double [⟨8.0, 0, .dimensionless⟩, ⟨2.0, 0, .dimensionless⟩,
      ⟨1.0, -2147483648, .ofBaseUnit .metre⟩] = .ok value ∧ value.scale = 0) ∧
    Builtin.log.apply .double [⟨8.0, 0, .ofBaseUnit .metre⟩, ⟨2.0, 0, .ofBaseUnit .second⟩] =
      .error (.dimensionMismatch .dimensionless (.ofBaseUnit .metre)) := by
  constructor
  · obtain ⟨-, henough⟩ := apply_answers .log [⟨8.0, 0, .dimensionless⟩,
      ⟨2.0, 0, .dimensionless⟩, ⟨1.0, -2147483648, .ofBaseUnit .metre⟩]
    obtain ⟨hiff, -, hvalue⟩ := (henough (by decide)).2.1 (by decide) (by decide)
      (by simp [Builtin.arity]; decide)
    obtain ⟨value, happly⟩ := hiff.mpr (by simp [Builtin.arity])
    exact ⟨value, happly, (hvalue value happly).2.1⟩
  · obtain ⟨-, henough⟩ := apply_answers .log [⟨8.0, 0, .ofBaseUnit .metre⟩,
      ⟨2.0, 0, .ofBaseUnit .second⟩]
    obtain ⟨-, herror, -⟩ := (henough (by decide)).2.1 (by decide) (by decide)
      (by simp [Builtin.arity]; decide)
    exact herror ⟨8.0, 0, .ofBaseUnit .metre⟩ rfl

end QuantityCalculus
