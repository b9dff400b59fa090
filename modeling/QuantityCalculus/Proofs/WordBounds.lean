/-
Programs in which no word overflows.

Without powers, exponents and scales only ever add up.  If each binding is within a bound, then a
value to which `w` names have contributed has exponents of at most `w` times that bound, and a base
scale of at most `w` times the bound and the offset of the kilogram (`Weighs`).  The scale itself
would not do: the offset comes and goes as dimensions combine, but it is never in a base scale.

* `InRange` : a calculation does not overflow, and its result has a property; this is kept by
  sequencing (`InRange.bind`, `InRange.map`),
* `align_inRange`, `combine_inRange`, `mapNumber_inRange`, `log_inRange` : what single operations
  add to the bounds of their operands,
* `step_inRange`, `run_inRange` : each token keeps the total weight of the stack, a name adds one,
* `evaluate_inRange` : so the number of names in a program bounds its result, and if the bound is
  within the range of a word no operation on the way overflows.
-/
import Mathlib.Algebra.Order.BigOperators.Group.List
import Mathlib.Algebra.Order.Ring.Nat
import Mathlib.Tactic.Choose
import QuantityCalculus.Arithmetic.Double
import QuantityCalculus.Proofs.Operations
import QuantityCalculus.Proofs.StackHeight

namespace QuantityCalculus

open Quantity (InReach)

variable {α β γ : Type}

/-! ### Calculations without overflow -/

/-- No word overflows in the calculation, and its result, if there is one, has the property. -/
inductive InRange (P : β → Prop) : Except (EvalError α) β → Prop
  | ok {b : β} (h : P b) : InRange P (.ok b)
  | error {e : EvalError α} (h : ¬ e.IsOverflow) : InRange P (.error e)

namespace InRange

variable {P : β → Prop} {Q : γ → Prop} {x : Except (EvalError α) β}

/-- Sequencing: the second calculation has to be in range on what the first one can give. -/
theorem bind {f : β → Except (EvalError α) γ} (h : InRange P x)
    (hf : ∀ b, P b → InRange Q (f b)) : InRange Q (x >>= f) := by
  cases h with
  | ok h => exact hf _ h
  | error h => exact .error h

theorem map {f : β → γ} (h : InRange P x) (hf : ∀ b, P b → Q (f b)) : InRange Q (x.map f) := by
  cases h with
  | ok h => exact .ok (hf _ h)
  | error h => exact .error h

theorem mono {P' : β → Prop} (h : InRange P x) (hP : ∀ b, P b → P' b) : InRange P' x := by
  cases h with
  | ok h => exact .ok (hP _ h)
  | error h => exact .error h

theorem of_lifted {y : Except Overflow β} {b : β} (hy : y = .ok b) (h : P b) :
    InRange P (lifted y : Except (EvalError α) β) := by
  rw [hy]
  exact .ok h

theorem withoutOverflow (h : InRange P x) : WithoutOverflow x := by
  rintro e rfl
  cases h with
  | error h => exact h

theorem of_ok {b : β} (h : InRange P (.ok b : Except (EvalError α) β)) : P b := by
  cases h with
  | ok h => exact h

end InRange

theorem fitsWord_of_natAbs_le {n : Int} {bound : Nat} (h : n.natAbs ≤ bound)
    (hbound : bound ≤ 2147483647) : FitsWord n :=
  ⟨by omega, by omega⟩

/-! ### Operations -/

/-- Bounds on the exponents of a quantity and on its base scale. -/
structure Bounded (exponents base : Nat) (q : Quantity α) : Prop where
  exponent_le : ∀ b, (q.dimension.exponent b).toInt.natAbs ≤ exponents
  baseExponent_le : q.baseExponent.natAbs ≤ base

variable {A : Arithmetic α} {q r : Quantity α} {e e' s s' : Nat}

theorem Bounded.mono (hq : Bounded e s q) (he : e ≤ e') (hs : s ≤ s') : Bounded e' s' q :=
  ⟨fun b => (hq.exponent_le b).trans he, hq.baseExponent_le.trans hs⟩

theorem bounded_ofNumber (x : α) : Bounded e s (Quantity.ofNumber x) := by
  refine ⟨fun b => ?_, Nat.zero_le s⟩
  cases b <;> exact Nat.zero_le e

theorem exists_convert {target : Int32} (h : InReach q.scale target) :
    ∃ m, q.convert A target = .ok m :=
  ⟨_, (Quantity.convert_eq_ok_iff A).mpr ⟨h, rfl⟩⟩

/-- A sum or difference is within the bounds of its left operand, whose scale and dimension it
takes. -/
theorem align_inRange (op : α → α → α) (hq : Bounded e s q) (hr : Bounded e' s' r)
    (hs : s + s' ≤ 2147483647) : InRange (Bounded e s) (q.align A op r) := by
  rw [Quantity.align]
  split
  · next hdimension =>
    -- scales of one dimension are as far apart as their base scales
    have hreach : InReach r.scale q.scale := by
      have hleft := hq.baseExponent_le
      have hright := hr.baseExponent_le
      rw [Quantity.baseExponent] at hleft hright
      rw [hdimension] at hleft
      rw [InReach]
      omega
    obtain ⟨m, hm⟩ := exists_convert (A := A) hreach
    rw [hm]
    exact .ok ⟨hq.exponent_le, hq.baseExponent_le⟩
  · exact .error id

/-- In products and quotients the bounds of the operands add up.  The three spare places in the
range of words are for the offset of the kilogram, which is in the scale but not in the base
scale. -/
theorem combine_inRange {dimensions : Dimension → Dimension → Except Overflow Dimension}
    {scales : Int32 → Int32 → Except Overflow Int32} {f : Int → Int → Int}
    (hdimensions : ∀ c d p : Dimension, dimensions c d = .ok p ↔
      ∀ b, (p.exponent b).toInt = f (c.exponent b).toInt (d.exponent b).toInt)
    (hscales : ∀ a b w : Int32, scales a b = .ok w ↔ w.toInt = f a.toInt b.toInt)
    (hf : ∀ x y, (f x y).natAbs ≤ x.natAbs + y.natAbs) (op : α → α → α)
    (hq : Bounded e s q) (hr : Bounded e' s' r) (he : e + e' ≤ 2147483647)
    (hs : s + s' + 3 ≤ 2147483647) :
    InRange (Bounded (e + e') (s + s'))
      (lifted (q.combine dimensions scales op r) : Except (EvalError α) (Quantity α)) := by
  have hexponent : ∀ b, (f (q.dimension.exponent b).toInt (r.dimension.exponent b).toInt).natAbs ≤
      e + e' :=
    fun b => (hf _ _).trans (Nat.add_le_add (hq.exponent_le b) (hr.exponent_le b))
  have hbase : (f q.baseExponent r.baseExponent).natAbs ≤ s + s' :=
    (hf _ _).trans (Nat.add_le_add hq.baseExponent_le hr.baseExponent_le)
  choose g hg using fun b => exists_word (fitsWord_of_natAbs_le (hexponent b) he)
  -- the offset of the result is all that its scale has beyond its base scale
  have hoffset := kiloOffset_toInt (.ofExponents g)
  obtain ⟨scale, hscale⟩ := exists_word
    (n := f q.baseExponent r.baseExponent + (kiloOffset (.ofExponents g)).toInt)
    (by rw [FitsWord, hoffset]; split <;> omega)
  have hresult : (⟨op q.magnitude r.magnitude, scale, .ofExponents g⟩ : Quantity α).baseExponent =
      f q.baseExponent r.baseExponent := by
    show scale.toInt - (kiloOffset (.ofExponents g)).toInt = _
    rw [hscale]
    exact Int.add_sub_cancel _ _
  have hleft := fitsWord_of_natAbs_le hq.baseExponent_le (by omega)
  have hright := fitsWord_of_natAbs_le hr.baseExponent_le (by omega)
  refine .of_lifted ((Quantity.combine_eq_ok_iff hscales).mpr ⟨?_, hleft, hright,
    fitsWord_of_natAbs_le hbase (by omega), hresult, rfl⟩) ⟨fun b => ?_, ?_⟩
  · rw [hdimensions]
    intro b
    rw [Dimension.exponent_ofExponents, hg]
  · rw [Dimension.exponent_ofExponents, hg]
    exact hexponent b
  · rw [hresult]
    exact hbase

/-- A number within bounds can be brought to scale zero, since its scale is its base scale. -/
theorem inReach_zero (hq : Bounded e s q) (hs : s ≤ 2147483647) (hpure : q.isDimensionless = true) :
    InReach q.scale 0 := by
  have hbase := hq.baseExponent_le
  rw [Quantity.baseExponent, kiloOffset_of_isDimensionless hpure] at hbase
  rw [InReach]
  omega

theorem mapNumber_inRange (kernel : α → α) (hq : Bounded e s q) (hs : s ≤ 2147483647) :
    InRange (Bounded e s) (q.mapNumber A kernel) := by
  rw [Quantity.mapNumber_eq]
  split
  · next hpure =>
    obtain ⟨x, hx⟩ := exists_convert (A := A) (inReach_zero hq hs hpure)
    rw [hx]
    exact .ok (bounded_ofNumber _)
  · exact .error id

theorem log_inRange (hq : Bounded e s q) (hr : Bounded e' s' r) (hs : s ≤ 2147483647)
    (hs' : s' ≤ 2147483647) : InRange (Bounded e s) (q.log A r) := by
  rw [Quantity.log_eq]
  split
  · next hvalue =>
    split
    · next hbase =>
      obtain ⟨x, hx⟩ := exists_convert (A := A) (inReach_zero hq hs hvalue)
      obtain ⟨y, hy⟩ := exists_convert (A := A) (inReach_zero hr hs' hbase)
      rw [hx, hy]
      exact .ok (bounded_ofNumber _)
    · exact .error id
  · exact .error id

/-- Each operator other than the power adds the bounds of its operands at most. -/
theorem operator_inRange {o : Operator} (ho : o ≠ .power) (hq : Bounded e s q)
    (hr : Bounded e' s' r) (he : e + e' ≤ 2147483647) (hs : s + s' + 3 ≤ 2147483647) :
    InRange (Bounded (e + e') (s + s')) (o.apply A q r) := by
  -- a sum or difference stays within the bounds of its left operand alone
  have hmono : ∀ p : Quantity α, Bounded e s p → Bounded (e + e') (s + s') p :=
    fun p hp => hp.mono (Nat.le_add_right e e') (Nat.le_add_right s s')
  cases o with
  | add =>
    rw [Operator.apply, Quantity.add_eq]
    exact (align_inRange _ hq hr (by omega)).mono hmono
  | subtract =>
    rw [Operator.apply, Quantity.subtract_eq]
    exact (align_inRange _ hq hr (by omega)).mono hmono
  | multiply =>
    rw [Operator.apply, Quantity.multiply_eq]
    exact combine_inRange (fun _ _ _ => Dimension.add_eq_ok_iff)
      (fun _ _ _ => addChecked_eq_ok_iff) Int.natAbs_add_le _ hq hr he hs
  | divide =>
    rw [Operator.apply, Quantity.divide_eq]
    exact combine_inRange (fun _ _ _ => Dimension.sub_eq_ok_iff)
      (fun _ _ _ => subChecked_eq_ok_iff) (fun x y => by omega) _ hq hr he hs
  | power => exact absurd rfl ho

/-! ### Programs -/

/-- The quantity is bounded like a product of `weight` bindings, each of which is within `bound`. -/
def Weighs (bound : Nat) (q : Quantity α) (weight : Nat) : Prop :=
  Bounded (weight * bound) (weight * (bound + 3)) q

variable {bindings : List (Binding α)} {bound : Nat}

theorem Weighs.mono {v w : Nat} (hq : Weighs bound q v) (h : v ≤ w) : Weighs bound q w :=
  Bounded.mono hq (Nat.mul_le_mul_right _ h) (Nat.mul_le_mul_right _ h)

theorem Weighs.fits {v w : Nat} (hv : v ≤ w) (hfits : w * (bound + 3) + 3 ≤ 2147483647) :
    v * (bound + 3) ≤ 2147483647 := by
  have hle := Nat.mul_le_mul_right (bound + 3) hv
  omega

/-- A name weighs one, whether it is bound or read as a number. -/
theorem resolve_inRange (hbindings : ∀ b ∈ bindings, Weighs bound b.quantity 1) (x : String) :
    InRange (fun q => Weighs bound q 1) (resolve A bindings x) := by
  rw [resolve]
  split
  · next b hb => exact .ok (hbindings b (List.mem_of_find?_eq_some hb))
  · split
    · exact .ok (bounded_ofNumber _)
    · exact .error id

/-- The result of an operator weighs as much as its operands together. -/
theorem operator_weighs {o : Operator} (ho : o ≠ .power) {v w : Nat} (hq : Weighs bound q v)
    (hr : Weighs bound r w) (hfits : (v + w) * (bound + 3) + 3 ≤ 2147483647) :
    InRange (fun p => Weighs bound p (v + w)) (o.apply A q r) := by
  have hexponents : (v + w) * bound ≤ (v + w) * (bound + 3) :=
    Nat.mul_le_mul_left _ (Nat.le_add_right bound 3)
  simp only [Weighs, Nat.add_mul] at *
  exact operator_inRange ho hq hr (by omega) hfits

/-- The result of a function weighs no more than its operands together. -/
theorem function_weighs {f : Builtin} {operands : List (Quantity α)} {weights : List Nat}
    (hlen : operands.length = f.arity) (h : List.Forall₂ (Weighs bound) operands weights)
    (hfits : weights.sum * (bound + 3) + 3 ≤ 2147483647) :
    InRange (fun p => Weighs bound p weights.sum) (f.apply A operands) := by
  rcases f.kind A with rfl | hf | ⟨harity, kernel, hkernel⟩
  -- the logarithm is a number, and so within the bounds of either operand
  · obtain ⟨q, r, rfl⟩ := List.length_eq_two.mp hlen
    match weights, h with
    | [v, w], .cons hq (.cons hr .nil) =>
      have hsum : [v, w].sum = v + w := by simp
      rw [hsum] at hfits ⊢
      rw [Builtin.apply_log]
      have hlog := log_inRange (A := A) hq hr (Weighs.fits (Nat.le_add_right v w) hfits)
        (Weighs.fits (Nat.le_add_left w v) hfits)
      exact hlog.mono fun p hp => Weighs.mono hp (Nat.le_add_right v w)
  · have harity : f.arity = 2 := by
      rcases hf with rfl | rfl <;> rfl
    obtain ⟨q, r, rfl⟩ := List.length_eq_two.mp (hlen.trans harity)
    rw [Builtin.apply_unimplemented A hf]
    exact .error id
  · obtain ⟨q, rfl⟩ := List.length_eq_one_iff.mp (hlen.trans harity)
    match weights, h with
    | [v], .cons hq .nil =>
      rw [List.sum_singleton] at hfits ⊢
      rw [hkernel]
      exact mapNumber_inRange kernel hq (Weighs.fits (Nat.le_refl v) hfits)

/-- The value of a token weighs as much as its operands, and one more if the token is a name. -/
theorem valueOf_weighs (hbindings : ∀ b ∈ bindings, Weighs bound b.quantity 1) {t : Token}
    (ht : t ≠ .operator .power) {operands : List (Quantity α)} {weights : List Nat}
    (hlen : operands.length = t.operands) (h : List.Forall₂ (Weighs bound) operands weights)
    (hfits : weights.sum * (bound + 3) + 3 ≤ 2147483647) :
    InRange (fun p => Weighs bound p (weights.sum + if t.isName then 1 else 0))
      (t.valueOf A bindings operands) := by
  cases t with
  | name x =>
    refine (resolve_inRange hbindings x).mono fun p hp => hp.mono ?_
    exact Nat.le_add_left 1 weights.sum
  | operator o =>
    obtain ⟨l, r, rfl⟩ := List.length_eq_two.mp hlen
    match weights, h with
    | [v, w], .cons hl (.cons hr .nil) =>
      have hsum : [v, w].sum = v + w := by simp
      rw [hsum] at hfits ⊢
      show InRange (fun p => Weighs bound p (v + w)) (o.apply A l r)
      exact operator_weighs (fun ho => ht (congrArg _ ho)) hl hr hfits
  | function f => exact function_weighs hlen h hfits
  | left => exact .error id
  | right => exact .error id
  | comma => exact .error id

/-- Each token keeps the total weight of the stack, except that a name adds one. -/
theorem step_inRange (hbindings : ∀ b ∈ bindings, Weighs bound b.quantity 1) {t : Token}
    (ht : t ≠ .operator .power) {stack : List (Quantity α)} {weights : List Nat}
    (h : List.Forall₂ (Weighs bound) stack weights)
    (hfits : weights.sum * (bound + 3) + 3 ≤ 2147483647) :
    InRange (fun next => ∃ weights', List.Forall₂ (Weighs bound) next weights' ∧
      weights'.sum = weights.sum + if t.isName then 1 else 0) (step A bindings stack t) := by
  by_cases hshort : stack.length < t.operands
  · rw [step_short hshort]
    exact .error id
  · obtain ⟨operands, rest, weights₁, weights₂, hlen, rfl, rfl, hoperands, hrest⟩ :=
      exists_operands_forall₂ h (Nat.le_of_not_lt hshort)
    rw [List.sum_append, List.sum_reverse] at hfits ⊢
    have hle : weights₁.sum * (bound + 3) ≤ (weights₁.sum + weights₂.sum) * (bound + 3) :=
      Nat.mul_le_mul_right _ (Nat.le_add_right _ _)
    rw [step_operands hlen]
    refine (valueOf_weighs hbindings ht hlen hoperands (by omega)).map fun value hvalue => ?_
    refine ⟨_, .cons hvalue hrest, ?_⟩
    rw [List.sum_cons]
    omega

/-- A run adds one to the weight of the stack for each name, and no word overflows on the way. -/
theorem run_inRange (hbindings : ∀ b ∈ bindings, Weighs bound b.quantity 1) {tokens : List Token}
    (htokens : .operator .power ∉ tokens) {stack : List (Quantity α)} {weights : List Nat}
    (h : List.Forall₂ (Weighs bound) stack weights)
    (hfits : (weights.sum + tokens.countP Token.isName) * (bound + 3) + 3 ≤ 2147483647) :
    InRange (fun last => ∃ weights', List.Forall₂ (Weighs bound) last weights' ∧
      weights'.sum = weights.sum + tokens.countP Token.isName) (run A bindings stack tokens) := by
  -- what the names still to be read will add is set aside from the start
  induction tokens generalizing stack weights with
  | nil => exact .ok ⟨weights, h, rfl⟩
  | cons t ts ih =>
    rw [List.countP_cons] at hfits ⊢
    rw [List.mem_cons, not_or] at htokens
    have hle : weights.sum * (bound + 3) ≤
        (weights.sum + (ts.countP Token.isName + if t.isName then 1 else 0)) * (bound + 3) :=
      Nat.mul_le_mul_right _ (Nat.le_add_right _ _)
    rw [run_cons]
    refine (step_inRange hbindings (Ne.symm htokens.1) h (by omega)).bind ?_
    rintro next ⟨weights', hnext, hsum⟩
    have htotal : weights'.sum + ts.countP Token.isName =
        weights.sum + (ts.countP Token.isName + if t.isName then 1 else 0) := by omega
    rw [← htotal] at hfits ⊢
    exact ih htokens.2 hnext hfits

theorem result_inRange {stack : List (Quantity α)} {weights : List Nat}
    (h : List.Forall₂ (Weighs bound) stack weights) :
    InRange (fun q => Weighs bound q weights.sum) (result stack) := by
  match stack, weights, h with
  | [], [], .nil => exact .error id
  | [q], [w], .cons hq .nil =>
    rw [List.sum_singleton]
    exact .ok hq
  | _ :: _ :: _, _, _ => exact .error id

/-- A binding within the bound weighs one: the offset of the kilogram makes up for the difference
between scale and base scale. -/
theorem weighs_one (hscale : q.scale.toInt.natAbs ≤ bound)
    (hexponent : ∀ b, (q.dimension.exponent b).toInt.natAbs ≤ bound) : Weighs bound q 1 := by
  rw [Weighs, Nat.one_mul, Nat.one_mul]
  refine ⟨hexponent, ?_⟩
  rw [Quantity.baseExponent, kiloOffset_toInt]
  split <;> omega

theorem Weighs.scale_le {w : Nat} (hq : Weighs bound q w) :
    q.scale.toInt.natAbs ≤ w * (bound + 3) + 3 := by
  have hbase := hq.baseExponent_le
  rw [Quantity.baseExponent, kiloOffset_toInt] at hbase
  split at hbase <;> omega

/-- **Programs without powers do not overflow**: if the bindings are within a bound, and that bound
with the offset of the kilogram, taken once for each name of the program, is within the range of a
word, then no operation overflows.  Exponents and scale of a result are bounded in the same way. -/
theorem evaluate_inRange {tokens : List Token} {n : Nat}
    (hpower : Token.operator .power ∉ tokens) (hnames : tokens.countP Token.isName = n)
    (hfits : n * (bound + 3) + 3 ≤ 2147483647)
    (hbindings : ∀ b ∈ bindings, b.quantity.scale.toInt.natAbs ≤ bound ∧
      ∀ u, (b.quantity.dimension.exponent u).toInt.natAbs ≤ bound) :
    WithoutOverflow ((Program.mk tokens).evaluate A bindings) ∧
      ∀ q, (Program.mk tokens).evaluate A bindings = .ok q →
        (∀ u, (q.dimension.exponent u).toInt.natAbs ≤ n * bound) ∧
          q.scale.toInt.natAbs ≤ n * (bound + 3) + 3 := by
  have hweighs : ∀ b ∈ bindings, Weighs bound b.quantity 1 :=
    fun b hb => weighs_one (hbindings b hb).1 (hbindings b hb).2
  have hsum : ([] : List Nat).sum + tokens.countP Token.isName = n := by
    rw [List.sum_nil, Nat.zero_add, hnames]
  have hrun := run_inRange (A := A) hweighs hpower (.nil : List.Forall₂ (Weighs bound) [] [])
    (hsum.symm ▸ hfits)
  rw [hsum] at hrun
  have hvalue : InRange (fun q => Weighs bound q n) ((Program.mk tokens).evaluate A bindings) := by
    refine hrun.bind ?_
    rintro last ⟨weights, hlast, rfl⟩
    exact result_inRange hlast
  refine ⟨hvalue.withoutOverflow, fun q hq => ?_⟩
  rw [hq] at hvalue
  exact ⟨hvalue.of_ok.exponent_le, hvalue.of_ok.scale_le⟩

/-- Two names at half the range of a word; the offset of the kilogram widens their distance. -/
theorem evaluate_inRange_halves :
    2 * (1073741819 + 3) + 3 = 2147483647 ∧
      ∃ q, (Program.mk [.name "a", .name "b", .operator .divide]).evaluate .double
          [⟨"a", ⟨6, 1073741819, .ofBaseUnit .metre⟩⟩,
            ⟨"b", ⟨3, -1073741819, .ofBaseUnit .kilogram⟩⟩] = .ok q ∧
        (∀ u, (q.dimension.exponent u).toInt.natAbs ≤ 2 * 1073741819) ∧
          q.scale.toInt.natAbs ≤ 2147483647 := by
  have hbindings : ∀ b ∈ ([⟨"a", ⟨6, 1073741819, .ofBaseUnit .metre⟩⟩,
      ⟨"b", ⟨3, -1073741819, .ofBaseUnit .kilogram⟩⟩] : List (Binding Float)),
      b.quantity.scale.toInt.natAbs ≤ 1073741819 ∧
        ∀ u, (b.quantity.dimension.exponent u).toInt.natAbs ≤ 1073741819 := by
    rw [List.forall_mem_cons, List.forall_mem_singleton]
    refine ⟨⟨by decide, fun u => ?_⟩, ⟨by decide, fun u => ?_⟩⟩
    · cases u <;> decide
    · cases u <;> decide
  obtain ⟨q, hq⟩ : ∃ q, (Program.mk [.name "a", .name "b", .operator .divide]).evaluate .double
      [⟨"a", ⟨6, 1073741819, .ofBaseUnit .metre⟩⟩,
        ⟨"b", ⟨3, -1073741819, .ofBaseUnit .kilogram⟩⟩] = .ok q := ⟨_, rfl⟩
  have hpower : Token.operator .power ∉ [.name "a", .name "b", .operator .divide] := by decide
  obtain ⟨-, hresult⟩ := evaluate_inRange (A := .double) hpower rfl (by decide) hbindings
  exact ⟨rfl, q, hq, hresult q hq⟩

end QuantityCalculus
