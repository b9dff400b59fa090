/-
Dimension checking does not depend on the numbers.

Two runs of one program on quantities of the same dimensions, but with unrelated magnitudes and
scales, get the same dimensions at every step and fail at the same token with the same error, as
long as no word overflows.  The one operation through which a number could reach a dimension is the
power; it cannot if its exponent is written out, that is, if it is a name without a binding.

* `align_agree` .. `log_agree` : the dimensions of the operands decide the dimension of the result,
* `power_agree` : for a power they do so together with the number in the exponent,
* `evaluate_sameDimension` : the statement for programs.

The invariant of the two runs is that their stacks have the same dimensions entry by entry, and that
behind a name without a binding they have the same value on top.
-/
import QuantityCalculus.Arithmetic.Double
import QuantityCalculus.Proofs.Agreement

namespace QuantityCalculus

variable {α : Type} {A : Arithmetic α}

/-- The quantities have the same dimension. -/
def SameDimension (q q' : Quantity α) : Prop := q.dimension = q'.dimension

/-! ### Operations -/

/-- Whether a sum exists and what dimension it has is decided by the dimensions. -/
theorem align_agree (op : α → α → α) {q r q' r' : Quantity α} (hq : SameDimension q q')
    (hr : SameDimension r r') :
    Agree EvalError.IsOverflow SameDimension (q.align A op r) (q'.align A op r') := by
  rw [SameDimension] at hq hr
  rw [Quantity.align, Quantity.align, ← hq, ← hr]
  split
  · exact (agree_lifted_any _ _).map fun _ _ _ => rfl
  · exact .error _

/-- Products and quotients get their dimension from the dimensions of the operands. -/
theorem combine_agree {dimensions : Dimension → Dimension → Except Overflow Dimension}
    {scales : Int32 → Int32 → Except Overflow Int32} {f : Int → Int → Int}
    (hscales : ∀ a b w : Int32, scales a b = .ok w ↔ w.toInt = f a.toInt b.toInt) (op : α → α → α)
    {q r q' r' : Quantity α} (hq : SameDimension q q') (hr : SameDimension r r') :
    Agree (EvalError.IsOverflow (α := α)) SameDimension
      (lifted (q.combine dimensions scales op r))
      (lifted (q'.combine dimensions scales op r')) := by
  rw [SameDimension] at hq hr
  refine agree_lifted fun p p' hp hp' => ?_
  obtain ⟨hd, -⟩ := (Quantity.combine_eq_ok_iff hscales).mp hp
  obtain ⟨hd', -⟩ := (Quantity.combine_eq_ok_iff hscales).mp hp'
  rw [← hq, ← hr, hd] at hd'
  exact Except.ok.inj hd'

/-- The dimension of the base and the number in the exponent decide the dimension of a power. -/
theorem power_agree {q r q' r' : Quantity α} (hq : SameDimension q q') (hr : SameDimension r r')
    (hexponent : ∀ x x', r.isDimensionless = true → r.convert A 0 = .ok x →
      r'.convert A 0 = .ok x' → x = x') :
    Agree EvalError.IsOverflow SameDimension (q.power A r) (q'.power A r') := by
  rw [SameDimension] at hq hr
  rw [Quantity.power_eq, Quantity.power_eq, ← hq, Quantity.isDimensionless,
    Quantity.isDimensionless, ← hr]
  split
  · next hpure =>
    refine (agree_lifted fun x x' => hexponent x x' hpure).bind fun x x' hx => ?_
    -- from here on the exponents are one number, and so are the dimensions
    subst hx
    refine (Agree.refl fun d => Eq.refl d).bind fun d d' hd => ?_
    subst hd
    refine (agree_lifted_any _ _).bind fun base base' _ => ?_
    refine agree_lifted fun p p' hp hp' => ?_
    rw [Quantity.withScale_eq] at hp hp'
    obtain ⟨m, -, rfl⟩ := map_eq_ok_iff.mp hp
    obtain ⟨m', -, rfl⟩ := map_eq_ok_iff.mp hp'
    rfl
  · exact .error _

/-- A function accepts pure numbers and gives one, whatever the number is. -/
theorem mapNumber_agree (kernel : α → α) {q q' : Quantity α} (hq : SameDimension q q') :
    Agree EvalError.IsOverflow SameDimension (q.mapNumber A kernel) (q'.mapNumber A kernel) := by
  rw [SameDimension] at hq
  rw [Quantity.mapNumber_eq, Quantity.mapNumber_eq, Quantity.isDimensionless,
    Quantity.isDimensionless, ← hq]
  split
  · exact (agree_lifted_any _ _).map fun _ _ _ => rfl
  · exact .error _

theorem log_agree {q b q' b' : Quantity α} (hq : SameDimension q q') (hb : SameDimension b b') :
    Agree EvalError.IsOverflow SameDimension (q.log A b) (q'.log A b') := by
  rw [SameDimension] at hq hb
  rw [Quantity.log_eq, Quantity.log_eq, Quantity.isDimensionless, Quantity.isDimensionless,
    Quantity.isDimensionless, Quantity.isDimensionless, ← hq, ← hb]
  split
  · split
    · refine (agree_lifted_any _ _).bind fun _ _ _ => ?_
      refine (agree_lifted_any _ _).bind fun _ _ _ => ?_
      exact .ok rfl
    · exact .error _
  · exact .error _

/-- Every operator decides by dimensions, the power with the same number in both exponents. -/
theorem operator_agree {o : Operator} {l r l' r' : Quantity α} (hl : SameDimension l l')
    (hr : SameDimension r r')
    (hexponent : o = .power → ∀ x x', r.isDimensionless = true → r.convert A 0 = .ok x →
      r'.convert A 0 = .ok x' → x = x') :
    Agree EvalError.IsOverflow SameDimension (o.apply A l r) (o.apply A l' r') := by
  cases o with
  | add =>
    show Agree _ _ (l.add A r) (l'.add A r')
    rw [Quantity.add_eq, Quantity.add_eq]
    exact align_agree A.add hl hr
  | subtract =>
    show Agree _ _ (l.subtract A r) (l'.subtract A r')
    rw [Quantity.subtract_eq, Quantity.subtract_eq]
    exact align_agree A.sub hl hr
  | multiply => exact combine_agree (f := (· + ·)) (fun _ _ _ => addChecked_eq_ok_iff) A.mul hl hr
  | divide => exact combine_agree (f := (· - ·)) (fun _ _ _ => subChecked_eq_ok_iff) A.div hl hr
  | power => exact power_agree hl hr (hexponent rfl)

/-! ### Programs -/

/-- Directly in front of every power stands a name outside of a list. -/
def ExponentsOutside (bound : List String) (tokens : List Token) : Prop :=
  ∀ before after, tokens = before ++ .operator .power :: after →
    ∃ x, before.getLast? = some (.name x) ∧ x ∉ bound

/-- The stacks of two runs: the same dimensions entry by entry, and the same value on top behind a
name outside of a list. -/
def SameDimensions (bound : List String) (before : List Token) (s s' : List (Quantity α)) : Prop :=
  List.Forall₂ SameDimension s s' ∧
    ∀ x, before.getLast? = some (.name x) → x ∉ bound → s.head? = s'.head?

theorem resolve_unbound {bindings : List (Binding α)} {x : String}
    (hx : x ∉ bindings.map Binding.id) : resolve A bindings x = resolve A [] x := by
  have hnone : bindings.find? (fun b => b.id == x) = none :=
    find?_id_eq_none_iff.mpr fun b hb heq => hx (List.mem_map.mpr ⟨b, hb, heq⟩)
  rw [resolve, hnone, resolve, List.find?_nil]

theorem ids_of_relatedBindings {R : Quantity α → Quantity α → Prop}
    {bindings bindings' : List (Binding α)} (h : RelatedBindings R bindings bindings') :
    bindings.map Binding.id = bindings'.map Binding.id := by
  induction h with
  | nil => rfl
  | cons hb _ ih => rw [List.map_cons, List.map_cons, ih, hb.1]

/-- A name puts quantities of one dimension on both stacks, and one quantity if it is not bound. -/
theorem step_name_sameDimensions {bindings bindings' : List (Binding α)} {before : List Token}
    {s s' : List (Quantity α)} (hbindings : RelatedBindings SameDimension bindings bindings')
    (hs : SameDimensions (bindings.map Binding.id) before s s') (x : String) :
    Agree EvalError.IsOverflow (SameDimensions (bindings.map Binding.id) (before ++ [.name x]))
      (step A bindings s (.name x)) (step A bindings' s' (.name x)) := by
  rw [step_name, step_name]
  by_cases hx : x ∈ bindings.map Binding.id
  · refine (agree_resolve hbindings (fun _ => rfl) x).map fun q q' hq => ⟨.cons hq hs.1, ?_⟩
    intro y hy hbound
    rw [List.getLast?_append_of_ne_nil _ (List.cons_ne_nil _ _)] at hy
    cases hy
    exact absurd hx hbound
  · -- without a binding both runs read the same number
    have hx' := ids_of_relatedBindings hbindings ▸ hx
    rw [resolve_unbound hx, resolve_unbound hx']
    refine (Agree.refl fun q => Eq.refl q).map fun q q' hq => ?_
    subst hq
    exact ⟨.cons rfl hs.1, fun _ _ _ => rfl⟩

/-- One step keeps the dimensions of the two stacks together. -/
theorem step_sameDimensions {bindings bindings' : List (Binding α)}
    {tokens before after : List Token} {t : Token} {s s' : List (Quantity α)}
    (hbindings : RelatedBindings SameDimension bindings bindings')
    (hexponents : ExponentsOutside (bindings.map Binding.id) tokens)
    (htokens : before ++ t :: after = tokens)
    (hs : SameDimensions (bindings.map Binding.id) before s s') :
    Agree EvalError.IsOverflow (SameDimensions (bindings.map Binding.id) (before ++ [t]))
      (step A bindings s t) (step A bindings' s' t) := by
  by_cases hname : ∃ x, t = .name x
  · obtain ⟨x, rfl⟩ := hname
    exact step_name_sameDimensions hbindings hs x
  · -- any other token leaves no name behind, so only the dimensions have to be kept
    obtain ⟨hentries, htop⟩ := hs
    have hstep : Agree EvalError.IsOverflow (List.Forall₂ SameDimension) (step A bindings s t)
        (step A bindings' s' t) := by
      refine agree_step (fun x hx => absurd ⟨x, hx⟩ hname) ?_ ?_ hentries
      · rintro o l r rest l' r' rest' rfl rfl rfl hl hr
        refine operator_agree hl hr ?_
        rintro rfl
        obtain ⟨x, hx, hbound⟩ := hexponents before after htokens.symm
        cases htop x hx hbound
        intro x x' _ hr hr'
        exact Except.ok.inj (hr.symm.trans hr')
      · intro f operands operands' _ hlen hoperands
        exact agree_apply (fun kernel q q' => mapNumber_agree kernel)
          (fun q b q' b' => log_agree) hlen hoperands
    refine hstep.mono fun next next' hnext => ⟨hnext, ?_⟩
    intro x hx _
    rw [List.getLast?_append_of_ne_nil _ (List.cons_ne_nil _ _)] at hx
    exact absurd ⟨x, Option.some.inj hx⟩ hname

/-- Two runs on quantities of the same dimensions agree up to overflows. -/
theorem agree_sameDimension {bindings bindings' : List (Binding α)} {tokens : List Token}
    (hbindings : RelatedBindings SameDimension bindings bindings')
    (hexponents : ExponentsOutside (bindings.map Binding.id) tokens) :
    Agree EvalError.IsOverflow SameDimension ((Program.mk tokens).evaluate A bindings)
      ((Program.mk tokens).evaluate A bindings') :=
  agree_evaluate (fun _ _ _ _ _ htokens hs => step_sameDimensions hbindings hexponents htokens hs)
    ⟨.nil, fun _ _ _ => rfl⟩ fun _ _ hs => hs.1

/-- **Dimension checking does not depend on the numbers**: under bindings of the same names to
quantities of the same dimensions, a program whose exponents are not bound gives results of the same
dimension or fails with the same error, unless a word overflows. -/
theorem evaluate_sameDimension {bindings bindings' : List (Binding α)} {tokens : List Token}
    (hbindings : RelatedBindings SameDimension bindings bindings')
    (hexponents : ExponentsOutside (bindings.map Binding.id) tokens)
    (hfits : WithoutOverflow ((Program.mk tokens).evaluate A bindings))
    (hfits' : WithoutOverflow ((Program.mk tokens).evaluate A bindings')) :
    (∃ q q', (Program.mk tokens).evaluate A bindings = .ok q ∧
      (Program.mk tokens).evaluate A bindings' = .ok q' ∧ q.dimension = q'.dimension) ∨
    ∃ e, (Program.mk tokens).evaluate A bindings = .error e ∧
      (Program.mk tokens).evaluate A bindings' = .error e :=
  (agree_sameDimension hbindings hexponents).cases_of_not_excused hfits hfits'

/-- The square of a length has one dimension, whatever the length. -/
theorem evaluate_sameDimension_square :
    (∃ q q', (Program.mk [.name "a", .name "2", .operator .power]).evaluate .double
        [⟨"a", ⟨3, -2, .ofBaseUnit .metre⟩⟩] = .ok q ∧
      (Program.mk [.name "a", .name "2", .operator .power]).evaluate .double
        [⟨"a", ⟨-7, 5, .ofBaseUnit .metre⟩⟩] = .ok q' ∧ q.dimension = q'.dimension) ∨
    ∃ e, (Program.mk [.name "a", .name "2", .operator .power]).evaluate .double
        [⟨"a", ⟨3, -2, .ofBaseUnit .metre⟩⟩] = .error e ∧
      (Program.mk [.name "a", .name "2", .operator .power]).evaluate .double
        [⟨"a", ⟨-7, 5, .ofBaseUnit .metre⟩⟩] = .error e := by
  refine evaluate_sameDimension (.cons ⟨rfl, rfl⟩ .nil) ?_ (by decide +kernel) (by decide +kernel)
  intro before after h
  match before, h with
  | [_, _], h =>
    injection h with _ h
    injection h with h
    exact ⟨"2", h ▸ rfl, by decide⟩
  | _ :: _ :: _ :: _, h => simp at h

end QuantityCalculus
