/-
Checked arithmetic on 32-bit words.

Scales and exponents are 32-bit signed integers.  A sum, a difference, a product or a negation whose
exact value is no such integer does not wrap: it fails, and the failure names the operation.

* `Overflow.check_eq_ok_iff` : a checked result is the word of that value, and nothing else,
* `Overflow.check_eq_error_iff` : a check fails exactly outside the range of a word,
* `bind_eq_ok_iff` : a sequence of checked steps succeeds if each of them does.

Every operation is stated on the exact integer values of its operands, so later proofs reason about
`Int` only.
-/

namespace QuantityCalculus

/-- The operation whose exact value left the range of a 32-bit word. -/
inductive Overflow where
  | add
  | subtract
  | multiply
  | negate
deriving DecidableEq, Repr

/-- The integer is the value of a 32-bit word. -/
def FitsWord (n : Int) : Prop := -2147483648 ≤ n ∧ n ≤ 2147483647

instance (n : Int) : Decidable (FitsWord n) := inferInstanceAs (Decidable (_ ∧ _))

namespace Overflow

/-- The text that reports an overflow. -/
def message : Overflow → String
  | add => "attempt to add with overflow"
  | subtract => "attempt to subtract with overflow"
  | multiply => "attempt to multiply with overflow"
  | negate => "attempt to negate with overflow"

/-- The word of value `n`, if there is one. -/
def check (operation : Overflow) (n : Int) : Except Overflow Int32 :=
  if FitsWord n then .ok (Int32.ofInt n) else .error operation

end Overflow

theorem fitsWord_toInt (w : Int32) : FitsWord w.toInt :=
  ⟨w.le_toInt, by have := w.toInt_lt; omega⟩

/-- An integer in the range of words is the value of its word. -/
theorem toInt_ofInt_of_fitsWord {n : Int} (h : FitsWord n) : (Int32.ofInt n).toInt = n :=
  Int32.toInt_ofInt_of_le h.1 (by have := h.2; omega)

namespace Overflow

/-- A checked result is the word that has the exact result as its value. -/
theorem check_eq_ok_iff {operation : Overflow} {n : Int} {w : Int32} :
    operation.check n = .ok w ↔ w.toInt = n := by
  rw [check]
  constructor
  · intro h
    split at h
    · next hn =>
      cases h
      exact toInt_ofInt_of_fitsWord hn
    · cases h
  · rintro rfl
    rw [if_pos (fitsWord_toInt w), Int32.ofInt_toInt]

/-- A checked result fails exactly if no word has it as its value, and the failure names the
operation. -/
theorem check_eq_error_iff {operation cause : Overflow} {n : Int} :
    operation.check n = .error cause ↔ ¬ FitsWord n ∧ cause = operation := by
  rw [check]
  split
  · next hn => simp [hn]
  · next hn => simp [hn, eq_comm]

end Overflow

/-- Steps that may fail succeed in sequence exactly if each of them succeeds. -/
theorem bind_eq_ok_iff {ε α β : Type} {x : Except ε α} {f : α → Except ε β} {b : β} :
    (x >>= f) = .ok b ↔ ∃ a, x = .ok a ∧ f a = .ok b := by
  cases x <;> simp [bind, Except.bind]

/-- A sequence of steps fails with the error of the first step that fails. -/
theorem bind_eq_error_iff {ε α β : Type} {x : Except ε α} {f : α → Except ε β} {e : ε} :
    (x >>= f) = .error e ↔ x = .error e ∨ ∃ a, x = .ok a ∧ f a = .error e := by
  cases x <;> simp [bind, Except.bind]

theorem map_eq_ok_iff {ε α β : Type} {x : Except ε α} {f : α → β} {b : β} :
    x.map f = .ok b ↔ ∃ a, x = .ok a ∧ f a = b := by
  cases x <;> simp [Except.map]

theorem map_eq_error_iff {ε α β : Type} {x : Except ε α} {f : α → β} {e : ε} :
    x.map f = .error e ↔ x = .error e := by
  cases x <;> simp [Except.map]

theorem mapError_eq_ok_iff {ε δ α : Type} {x : Except ε α} {f : ε → δ} {a : α} :
    x.mapError f = .ok a ↔ x = .ok a := by
  cases x with
  | ok b =>
    show Except.ok b = Except.ok a ↔ _
    rw [Except.ok.injEq, Except.ok.injEq]
  | error e =>
    constructor
    · intro h
      cases h
    · intro h
      cases h

theorem mapError_eq_error_iff {ε δ α : Type} {x : Except ε α} {f : ε → δ} {d : δ} :
    x.mapError f = .error d ↔ ∃ e, x = .error e ∧ f e = d := by
  cases x with
  | ok b =>
    constructor
    · intro h
      cases h
    · rintro ⟨e, h, -⟩
      cases h
  | error e =>
    constructor
    · intro h
      exact ⟨e, rfl, Except.error.inj h⟩
    · rintro ⟨e', h, rfl⟩
      cases h
      rfl

/-- The sum of two words. -/
def addChecked (a b : Int32) : Except Overflow Int32 :=
  Overflow.add.check (a.toInt + b.toInt)

/-- The difference of two words. -/
def subChecked (a b : Int32) : Except Overflow Int32 :=
  Overflow.subtract.check (a.toInt - b.toInt)

/-- The product of two words. -/
def mulChecked (a b : Int32) : Except Overflow Int32 :=
  Overflow.multiply.check (a.toInt * b.toInt)

/-- The negation of a word. -/
def negChecked (a : Int32) : Except Overflow Int32 :=
  Overflow.negate.check (-a.toInt)

/-- A checked sum is the word of the exact sum; the other three operations are checked alike. -/
theorem addChecked_eq_ok_iff {a b w : Int32} :
    addChecked a b = .ok w ↔ w.toInt = a.toInt + b.toInt :=
  Overflow.check_eq_ok_iff

theorem subChecked_eq_ok_iff {a b w : Int32} :
    subChecked a b = .ok w ↔ w.toInt = a.toInt - b.toInt :=
  Overflow.check_eq_ok_iff

theorem mulChecked_eq_ok_iff {a b w : Int32} :
    mulChecked a b = .ok w ↔ w.toInt = a.toInt * b.toInt :=
  Overflow.check_eq_ok_iff

theorem negChecked_eq_ok_iff {a w : Int32} : negChecked a = .ok w ↔ w.toInt = -a.toInt :=
  Overflow.check_eq_ok_iff

end QuantityCalculus
