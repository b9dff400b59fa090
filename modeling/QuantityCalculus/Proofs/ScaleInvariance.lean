/-
Scales do not show in results.

Two quantities of one dimension that stand for the same value are interchangeable: each operation,
on either of them, gives results that are so again, or fails in the same way (`SameValue`).  It
follows that members of a calculation can be brought to any scales beforehand.

* `operator_sameValue`, `mapNumber_sameValue`, `log_sameValue` : what single operations do,
* `agree_sameValue`, `evaluate_withScale` : what programs do,
* `value_laws` : the laws of values, for operations and for programs.

That dimensions and errors are the same was shown for all numbers at once, so it remains to compare
values.  An exponent is a pure number at scale zero and is thus its value: this is what powers need.
-/
import QuantityCalculus.Proofs.DimensionChecking
import QuantityCalculus.Proofs.Value

namespace QuantityCalculus

open Quantity (InReach)

variable (C : Completion)

/-- The quantities have the same dimension and stand for the same value. -/
def SameValue (q q' : Quantity ℚ) : Prop := SameDimension q q' ∧ q.value = q'.value

/-- Changing the scale keeps the value. -/
theorem sameValue_of_withScale {q r : Quantity ℚ} {target : Int32}
    (h : q.withScale (.rational C) target = .ok r) : SameValue q r := by
  obtain ⟨-, -, hdimension, hvalue⟩ := (withScale_eq_ok_iff_value C).mp h
  exact ⟨hdimension.symm, hvalue.symm⟩

/-- Pure numbers of the same value are the same number at scale zero. -/
theorem convert_zero_eq {q q' : Quantity ℚ} {x x' : ℚ} (h : SameValue q q')
    (hpure : q.isDimensionless = true) (hx : q.convert (.rational C) 0 = .ok x)
    (hx' : q'.convert (.rational C) 0 = .ok x') : x = x' := by
  obtain ⟨hdimension, hvalue⟩ := h
  have hpure' : q'.isDimensionless = true := by
    rw [Quantity.isDimensionless, ← show q.dimension = q'.dimension from hdimension]
    exact hpure
  rw [convert_zero_eq_ok_iff_value C hpure] at hx
  rw [convert_zero_eq_ok_iff_value C hpure'] at hx'
  rw [hx.2, hx'.2, hvalue]

/-! ### Operations -/

/-- Operators give the same value to operands of the same value. -/
theorem operator_sameValue {o : Operator} {l r l' r' : Quantity ℚ} (hl : SameValue l l')
    (hr : SameValue r r') :
    Agree EvalError.IsOverflow SameValue (o.apply (.rational C) l r)
      (o.apply (.rational C) l' r') := by
  have hdimensions : Agree EvalError.IsOverflow SameDimension (o.apply (.rational C) l r)
      (o.apply (.rational C) l' r') :=
    operator_agree hl.1 hr.1 fun _ _ _ hpure hx hx' => convert_zero_eq C hr hpure hx hx'
  refine hdimensions.and_of_ok fun p p' hp hp' _ => ?_
  rw [value_of_operator C hp, value_of_operator C hp', hl.2, hr.2]

/-- Functions see the value of a pure number, not its scale. -/
theorem mapNumber_sameValue (kernel : ℚ → ℚ) {q q' : Quantity ℚ} (hq : SameValue q q') :
    Agree EvalError.IsOverflow SameValue (q.mapNumber (.rational C) kernel)
      (q'.mapNumber (.rational C) kernel) := by
  refine (mapNumber_agree kernel hq.1).and_of_ok fun p p' hp hp' _ => ?_
  rw [Quantity.mapNumber_eq] at hp hp'
  split at hp
  · next hpure =>
    split at hp'
    · obtain ⟨x, hx, rfl⟩ := map_eq_ok_iff.mp hp
      obtain ⟨x', hx', rfl⟩ := map_eq_ok_iff.mp hp'
      rw [convert_zero_eq C hq hpure (lifted_eq_ok_iff.mp hx) (lifted_eq_ok_iff.mp hx')]
    · cases hp'
  · cases hp

theorem log_sameValue {q b q' b' : Quantity ℚ} (hq : SameValue q q') (hb : SameValue b b') :
    Agree EvalError.IsOverflow SameValue (q.log (.rational C) b) (q'.log (.rational C) b') := by
  have hdimension : q'.dimension = q.dimension := hq.1.symm
  have hbase : b'.dimension = b.dimension := hb.1.symm
  rw [Quantity.log_eq, Quantity.log_eq, Quantity.isDimensionless, Quantity.isDimensionless,
    Quantity.isDimensionless, Quantity.isDimensionless, hdimension, hbase]
  split
  · next hpure =>
    split
    · next hpure' =>
      refine (agree_lifted fun x x' => convert_zero_eq C hq hpure).bind fun x x' hx => ?_
      refine (agree_lifted fun y y' => convert_zero_eq C hb hpure').bind fun y y' hy => ?_
      rw [hx, hy]
      exact .ok ⟨rfl, rfl⟩
    · exact .error _
  · exact .error _

/-! ### Programs -/

/-- Programs do not tell quantities of the same value apart. -/
theorem agree_sameValue {bindings bindings' : List (Binding ℚ)} (tokens : List Token)
    (hbindings : RelatedBindings SameValue bindings bindings') :
    Agree EvalError.IsOverflow SameValue ((Program.mk tokens).evaluate (.rational C) bindings)
      ((Program.mk tokens).evaluate (.rational C) bindings') := by
  have hstep : ∀ before t after s s', before ++ t :: after = tokens →
      List.Forall₂ SameValue s s' →
      Agree EvalError.IsOverflow (List.Forall₂ SameValue) (step (.rational C) bindings s t)
        (step (.rational C) bindings' s' t) := by
    intro before t after s s' _ hs
    refine agree_step ?_ ?_ ?_ hs
    · intro x _
      exact agree_resolve hbindings (fun _ => ⟨rfl, rfl⟩) x
    · intro o l r rest l' r' rest' _ _ _ hl hr
      exact operator_sameValue C hl hr
    · intro f operands operands' _ hlen hoperands
      exact agree_apply (fun kernel q q' => mapNumber_sameValue C kernel)
        (fun q b q' b' => log_sameValue C) hlen hoperands
  exact agree_evaluate (fun before => hstep before) .nil fun s s' hs => hs

/-- Rescaling members leaves the value of a program, or its error, as it is. -/
theorem evaluate_withScale {bindings bindings' : List (Binding ℚ)} (tokens : List Token)
    (hbindings : RelatedBindings
      (fun q q' => ∃ target, q.withScale (.rational C) target = .ok q') bindings bindings')
    (hfits : WithoutOverflow ((Program.mk tokens).evaluate (.rational C) bindings))
    (hfits' : WithoutOverflow ((Program.mk tokens).evaluate (.rational C) bindings')) :
    (∃ p p', (Program.mk tokens).evaluate (.rational C) bindings = .ok p ∧
      (Program.mk tokens).evaluate (.rational C) bindings' = .ok p' ∧
      p.dimension = p'.dimension ∧ p.value = p'.value) ∨
    ∃ e, (Program.mk tokens).evaluate (.rational C) bindings = .error e ∧
      (Program.mk tokens).evaluate (.rational C) bindings' = .error e := by
  have hvalues : RelatedBindings SameValue bindings bindings' := by
    refine List.Forall₂.imp (fun b b' hb => ?_) hbindings
    obtain ⟨hid, target, htarget⟩ := hb
    exact ⟨hid, sameValue_of_withScale C htarget⟩
  exact (agree_sameValue C tokens hvalues).cases_of_not_excused hfits hfits'

/-- **Quantities calculate with their values**: a change of scale keeps the value; sums,
differences, products, quotients, integral powers and comparisons are those of the values, wherever
no word overflows; and a program on members at other scales has the same dimension and value, or
fails with the same error. -/
theorem value_laws :
    (∀ (q r : Quantity ℚ) (target : Int32), q.withScale (.rational C) target = .ok r ↔
      InReach q.scale target ∧ r.scale = target ∧ r.dimension = q.dimension ∧
        r.value = q.value) ∧
    (∀ q r p : Quantity ℚ, q.add (.rational C) r = .ok p ↔
      q.dimension = r.dimension ∧ InReach r.scale q.scale ∧ p.scale = q.scale ∧
        p.dimension = q.dimension ∧ p.value = q.value + r.value) ∧
    (∀ q r p : Quantity ℚ, q.subtract (.rational C) r = .ok p ↔
      q.dimension = r.dimension ∧ InReach r.scale q.scale ∧ p.scale = q.scale ∧
        p.dimension = q.dimension ∧ p.value = q.value - r.value) ∧
    (∀ q r p : Quantity ℚ, q.multiply (.rational C) r = .ok p ↔
      q.dimension.add r.dimension = .ok p.dimension ∧
        FitsWord q.baseExponent ∧ FitsWord r.baseExponent ∧
        FitsWord (q.baseExponent + r.baseExponent) ∧
        p.baseExponent = q.baseExponent + r.baseExponent ∧ p.value = q.value * r.value) ∧
    (∀ q r p : Quantity ℚ, q.divide (.rational C) r = .ok p ↔
      q.dimension.sub r.dimension = .ok p.dimension ∧
        FitsWord q.baseExponent ∧ FitsWord r.baseExponent ∧
        FitsWord (q.baseExponent - r.baseExponent) ∧
        p.baseExponent = q.baseExponent - r.baseExponent ∧ p.value = q.value / r.value) ∧
    (∀ (q r : Quantity ℚ) (n : ℤ), r.isDimensionless = true → r.value = n →
      (∀ p, q.power (.rational C) r = .ok p ↔
        InReach r.scale 0 ∧
          Quantity.powerDimension (.rational C) q.dimension n = .ok p.dimension ∧
          InReach q.scale (kiloOffset q.dimension) ∧ InReach (kiloOffset p.dimension) q.scale ∧
          p.scale = q.scale ∧ p.value = q.value ^ n) ∧
      ∀ e, q.power (.rational C) r = .error e →
        e.IsOverflow ∨ q.dimension ≠ .dimensionless ∧ 2147483647 < n.natAbs ∧
          e = .fractionalExponent q.dimension n) ∧
    (∀ (q r : Quantity ℚ) (tolerance : ℚ) (verdict : Bool),
      q.approxEqual (.rational C) r tolerance = .ok verdict ↔
        (q.dimension = r.dimension →
          InReach q.scale (kiloOffset q.dimension) ∧ InReach r.scale (kiloOffset r.dimension)) ∧
        (verdict = true ↔ q.dimension = r.dimension ∧
          |q.value - r.value| ≤ tolerance * max (max |q.value| |r.value|) 1)) ∧
    ∀ (tokens : List Token) (bindings bindings' : List (Binding ℚ)),
      RelatedBindings (fun q q' => ∃ target, q.withScale (.rational C) target = .ok q')
        bindings bindings' →
      WithoutOverflow ((Program.mk tokens).evaluate (.rational C) bindings) →
      WithoutOverflow ((Program.mk tokens).evaluate (.rational C) bindings') →
        (∃ p p', (Program.mk tokens).evaluate (.rational C) bindings = .ok p ∧
          (Program.mk tokens).evaluate (.rational C) bindings' = .ok p' ∧
          p.dimension = p'.dimension ∧ p.value = p'.value) ∨
        ∃ e, (Program.mk tokens).evaluate (.rational C) bindings = .error e ∧
          (Program.mk tokens).evaluate (.rational C) bindings' = .error e := by
  refine ⟨fun q r target => withScale_eq_ok_iff_value C, fun q r p => add_eq_ok_iff_value C,
    fun q r p => subtract_eq_ok_iff_value C, fun q r p => multiply_eq_ok_iff_value C,
    fun q r p => divide_eq_ok_iff_value C, ?_,
    fun q r tolerance verdict => approxEqual_eq_ok_iff_value C,
    fun tokens bindings bindings' => evaluate_withScale C tokens⟩
  intro q r n hpure hn
  refine ⟨fun p => ?_, fun e he => error_of_power C hpure hn he⟩
  rw [power_eq_ok_iff_value, hn, Arithmetic.pow_intCast]
  exact and_iff_right hpure

/-- The offset of the kilogram disappears and comes back, for two scales of one mass. -/
theorem value_laws_kilogram :
    ∃ p p', (Program.mk [.name "m", .name "m", .operator .multiply, .name "m",
        .operator .divide]).evaluate (.rational default)
        [⟨"m", ⟨2, 3, .ofBaseUnit .kilogram⟩⟩] = .ok p ∧
      (Program.mk [.name "m", .name "m", .operator .multiply, .name "m",
        .operator .divide]).evaluate (.rational default)
        [⟨"m", ⟨2000, 0, .ofBaseUnit .kilogram⟩⟩] = .ok p' ∧
      p.dimension = p'.dimension ∧ p.value = p'.value := by
  obtain ⟨-, -, -, -, -, -, -, hprograms⟩ := value_laws default
  have hrescaled : RelatedBindings
      (fun q q' => ∃ target, q.withScale (.rational default) target = .ok q')
      [⟨"m", ⟨2, 3, .ofBaseUnit .kilogram⟩⟩] [⟨"m", ⟨2000, 0, .ofBaseUnit .kilogram⟩⟩] :=
    .cons ⟨rfl, 0, by decide +kernel⟩ .nil
  have hruns := hprograms [.name "m", .name "m", .operator .multiply, .name "m",
    .operator .divide] _ _ hrescaled (by decide +kernel) (by decide +kernel)
  obtain hvalue | ⟨e, he, -⟩ := hruns
  · exact hvalue
  · have hok : ((Program.mk [.name "m", .name "m", .operator .multiply, .name "m",
        .operator .divide]).evaluate (.rational default)
        [⟨"m", ⟨2, 3, .ofBaseUnit .kilogram⟩⟩]).isOk = true := by decide +kernel
    rw [he] at hok
    cases hok

end QuantityCalculus
