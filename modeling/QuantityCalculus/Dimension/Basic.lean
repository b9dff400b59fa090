/-
Dimensions of physical quantities.

A `Dimension` records how often each of the seven base units of the SI occurs in a unit, in the
fixed order second, metre, kilogram, ampere, kelvin, mole, candela.  Multiplying quantities adds
dimensions, dividing subtracts them, an integral power scales them; each of these is checked,
because exponents are 32-bit words.

* `Dimension.ofExponentsM_eq_ok_iff` : a dimension built component by component has exactly those
  components,
* `Dimension.ext_exponent` : the seven exponents determine the dimension.

The three operations are one scheme, `ofExponentsM`, applied to three rules for a single exponent.
-/
import QuantityCalculus.Text.Numeral

namespace QuantityCalculus

/-- The base units, in the order in which their exponents are stored. -/
inductive BaseUnit where
  | second
  | metre
  | kilogram
  | ampere
  | kelvin
  | mole
  | candela
deriving DecidableEq, Repr

namespace BaseUnit

/-- All base units, in order. -/
def all : List BaseUnit := [second, metre, kilogram, ampere, kelvin, mole, candela]

theorem mem_all (b : BaseUnit) : b ∈ all := by cases b <;> decide

/-- The place of a base unit in the order. -/
def index : BaseUnit → Nat
  | second => 0
  | metre => 1
  | kilogram => 2
  | ampere => 3
  | kelvin => 4
  | mole => 5
  | candela => 6

/-- The symbol of a base unit. -/
def symbol : BaseUnit → String
  | second => "s"
  | metre => "m"
  | kilogram => "kg"
  | ampere => "A"
  | kelvin => "K"
  | mole => "mol"
  | candela => "cd"

end BaseUnit

/-- The exponents of the base units in a unit. -/
structure Dimension where
  second : Int32
  metre : Int32
  kilogram : Int32
  ampere : Int32
  kelvin : Int32
  mole : Int32
  candela : Int32
deriving DecidableEq, Repr

namespace Dimension

/-- The exponent of one base unit. -/
def exponent (d : Dimension) : BaseUnit → Int32
  | .second => d.second
  | .metre => d.metre
  | .kilogram => d.kilogram
  | .ampere => d.ampere
  | .kelvin => d.kelvin
  | .mole => d.mole
  | .candela => d.candela

/-- The dimension with the given exponents. -/
def ofExponents (f : BaseUnit → Int32) : Dimension :=
  ⟨f .second, f .metre, f .kilogram, f .ampere, f .kelvin, f .mole, f .candela⟩

@[simp] theorem exponent_ofExponents (f : BaseUnit → Int32) (b : BaseUnit) :
    (ofExponents f).exponent b = f b := by
  cases b <;> rfl

/-- The seven exponents determine a dimension. -/
theorem ext_exponent {d e : Dimension} (h : ∀ b, d.exponent b = e.exponent b) : d = e := by
  cases d; cases e
  simp only [mk.injEq]
  exact ⟨h .second, h .metre, h .kilogram, h .ampere, h .kelvin, h .mole, h .candela⟩

/-- Builds a dimension from exponents that may fail, in the order of the base units; the first
failure decides. -/
def ofExponentsM (f : BaseUnit → Except Overflow Int32) : Except Overflow Dimension := do
  let second ← f .second
  let metre ← f .metre
  let kilogram ← f .kilogram
  let ampere ← f .ampere
  let kelvin ← f .kelvin
  let mole ← f .mole
  let candela ← f .candela
  return ⟨second, metre, kilogram, ampere, kelvin, mole, candela⟩

/-- The unit of a pure number. -/
def dimensionless : Dimension := ⟨0, 0, 0, 0, 0, 0, 0⟩

/-- The dimension of a base unit. -/
def ofBaseUnit (b : BaseUnit) : Dimension := ofExponents fun c => if c = b then 1 else 0

/-- Every exponent is zero. -/
def isDimensionless (d : Dimension) : Bool := d == dimensionless

/-- The unit is exactly one kilogram.  It is the one base unit whose name carries a scale of its
own, so its scale is counted from the gram. -/
def isKilogram (d : Dimension) : Bool := d == ofBaseUnit .kilogram

/-- The dimension of a product. -/
def add (d e : Dimension) : Except Overflow Dimension :=
  ofExponentsM fun b => addChecked (d.exponent b) (e.exponent b)

/-- The dimension of a quotient. -/
def sub (d e : Dimension) : Except Overflow Dimension :=
  ofExponentsM fun b => subChecked (d.exponent b) (e.exponent b)

/-- The dimension of an integral power. -/
def scale (d : Dimension) (n : Int32) : Except Overflow Dimension :=
  ofExponentsM fun b => mulChecked (d.exponent b) n

/-- The base units that occur, each with its exponent, in order. -/
def components (d : Dimension) : List (BaseUnit × Int32) :=
  (BaseUnit.all.map fun b => (b, d.exponent b)).filter fun c => c.2 != 0

/-- The seven exponents, in order. -/
def exponents (d : Dimension) : List Int32 := BaseUnit.all.map d.exponent

/-- The exponents, separated by commas. -/
def text (d : Dimension) : String := ",".intercalate (d.exponents.map wordText)

end Dimension

/-! ### The checked operations, component by component -/

namespace Dimension

/-- A dimension is built exactly if all seven exponents are, and it has them. -/
theorem ofExponentsM_eq_ok_iff {f : BaseUnit → Except Overflow Int32} {d : Dimension} :
    ofExponentsM f = .ok d ↔ ∀ b, f b = .ok (d.exponent b) := by
  constructor
  · intro h b
    simp only [ofExponentsM, bind_eq_ok_iff] at h
    obtain ⟨a₀, h₀, a₁, h₁, a₂, h₂, a₃, h₃, a₄, h₄, a₅, h₅, a₆, h₆, h⟩ := h
    cases h
    cases b <;> assumption
  · intro h
    simp only [ofExponentsM, h, bind, Except.bind]
    rfl

/-- A product has the exact sums of the exponents, and fails if one of them is no word. -/
theorem add_eq_ok_iff {d e r : Dimension} :
    d.add e = .ok r ↔ ∀ b, (r.exponent b).toInt = (d.exponent b).toInt + (e.exponent b).toInt := by
  simp [add, ofExponentsM_eq_ok_iff, addChecked_eq_ok_iff]

/-- A quotient has the exact differences of the exponents, and fails if one of them is no word. -/
theorem sub_eq_ok_iff {d e r : Dimension} :
    d.sub e = .ok r ↔ ∀ b, (r.exponent b).toInt = (d.exponent b).toInt - (e.exponent b).toInt := by
  simp [sub, ofExponentsM_eq_ok_iff, subChecked_eq_ok_iff]

/-- A power has the exact multiples of the exponents, and fails if one of them is no word. -/
theorem scale_eq_ok_iff {d r : Dimension} {n : Int32} :
    d.scale n = .ok r ↔ ∀ b, (r.exponent b).toInt = (d.exponent b).toInt * n.toInt := by
  simp [scale, ofExponentsM_eq_ok_iff, mulChecked_eq_ok_iff]

theorem isDimensionless_iff {d : Dimension} : d.isDimensionless = true ↔ d = dimensionless := by
  simp [isDimensionless]

/-- Only one unit is a bare kilogram. -/
theorem isKilogram_iff {d : Dimension} : d.isKilogram = true ↔ d = ofBaseUnit .kilogram := by
  simp [isKilogram]

end Dimension

end QuantityCalculus
