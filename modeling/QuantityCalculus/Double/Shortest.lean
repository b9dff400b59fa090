/-
The decimal digits of a double.

Two selections of digits are made here.  The *shortest* digits of a double are those of the decimal
with the fewest digits among all that round to it, and of those the nearest; when two are equally
near, a rule decides.  The digits *rounded* to a given count are those of the nearest decimal with
that many digits, a tie going to the even one.  Both are computed in exact arithmetic.

The reals that round to a double form an interval around its value.  Its ends lie half way to the
neighbouring doubles, and they belong to it exactly if the significand is even.

* `RoundingInterval.candidate?_contained` : a selected candidate rounds to the double.
-/
import QuantityCalculus.Double.Value

namespace QuantityCalculus

/-- Which of two equally near neighbours is taken. -/
inductive Tie where
  | toEven
  | up
deriving DecidableEq, Repr

/-- The digits of a number and the place of its decimal point: the value is zero point `digits`
times ten to the power `point`. -/
structure DigitString where
  digits : List Char
  point : Int
deriving DecidableEq, Repr

namespace DigitString

/-- The number `n * 10 ^ exponent`, without zeros at the end. -/
def ofScaled (n : Nat) (exponent : Int) : DigitString :=
  let all := Nat.toDigits 10 n
  ⟨(all.reverse.dropWhile (· == '0')).reverse, all.length + exponent⟩

end DigitString

/-! ### The interval of a double -/

/-- A positive fraction with the ends of an interval around it, over one denominator. -/
structure RoundingInterval where
  lower : Nat
  value : Nat
  upper : Nat
  denominator : Nat
  closed : Bool
deriving DecidableEq, Repr

namespace RoundingInterval

/-- The reals that round to a double, in quarters of the gap to the next larger double. -/
def ofBinary (x : Binary) : RoundingInterval :=
  let unit := Nat.pow 2 (x.exponent - 2).toNat
  { lower := (if x.closeBelow then 4 * x.significand - 1 else 4 * x.significand - 2) * unit
    value := 4 * x.significand * unit
    upper := (4 * x.significand + 2) * unit
    denominator := Nat.pow 2 (2 - x.exponent).toNat
    closed := x.significand % 2 == 0 }

/-- The interval with every number divided by a power of ten. -/
def descale (i : RoundingInterval) (exponent : Int) : RoundingInterval :=
  let factor := Nat.pow 10 (-exponent).toNat
  { lower := i.lower * factor
    value := i.value * factor
    upper := i.upper * factor
    denominator := i.denominator * Nat.pow 10 exponent.toNat
    closed := i.closed }

/-- The natural number lies in the interval. -/
def contains (i : RoundingInterval) (n : Nat) : Bool :=
  if i.closed then
    decide (i.lower ≤ n * i.denominator) && decide (n * i.denominator ≤ i.upper)
  else decide (i.lower < n * i.denominator) && decide (n * i.denominator < i.upper)

/-- The natural number in the interval that is nearest to its value, if the interval holds one of
the value's two neighbours. -/
def candidate? (i : RoundingInterval) (tie : Tie) : Option Nat :=
  let below := i.value / i.denominator
  let above := below + 1
  match i.contains below, i.contains above with
  | false, false => none
  | true, false => some below
  | false, true => some above
  | true, true =>
    -- twice the value against the sum of its neighbours tells which one is nearer
    match compare (2 * i.value) ((below + above) * i.denominator), tie with
    | .lt, _ => some below
    | .gt, _ => some above
    | .eq, .up => some above
    | .eq, .toEven => some (if below % 2 == 0 then below else above)

/-- A candidate lies in the interval, so it rounds to the double. -/
theorem candidate?_contained {i : RoundingInterval} {tie : Tie} {n : Nat}
    (h : i.candidate? tie = some n) :
    i.contains n = true := by
  simp only [candidate?] at h
  split at h
  · cases h
  · next hb _ => cases h; exact hb
  · next _ ha => cases h; exact ha
  · next hb ha =>
    split at h
    · cases h; exact hb
    · cases h; exact ha
    · cases h; exact ha
    · cases h
      split
      · exact hb
      · exact ha

end RoundingInterval

/-! ### Selecting digits -/

/-- The exponent of the least power of ten that exceeds a positive fraction. -/
def decimalOrder (numerator denominator : Nat) : Int :=
  if denominator ≤ numerator then ((Nat.toDigits 10 (numerator / denominator)).length : Int)
  else 1 - (Nat.toDigits 10 ((denominator + numerator - 1) / numerator - 1)).length

/-- The shortest digits of a positive double.  Seventeen digits always suffice; the exact value
stands behind them. -/
def shortestDigits (tie : Tie) (x : Binary) : DigitString :=
  let interval := RoundingInterval.ofBinary x
  let order := decimalOrder x.numerator x.denominator
  -- the coarsest grid first: one digit, then two, and so on
  let grids : List Int := (List.range 17).map fun k : Nat => order - (k + 1 : Nat)
  let hit := grids.findSome? fun e => ((interval.descale e).candidate? tie).map fun n =>
    DigitString.ofScaled n e
  hit.getD (.ofScaled (x.numerator * Nat.pow 5 (-x.exponent).toNat)
    (min x.exponent 0))

/-- The quotient rounded to the nearest natural number, a tie going to the even one. -/
def roundDiv (numerator denominator : Nat) : Nat :=
  let quotient := numerator / denominator
  match compare (2 * (numerator % denominator)) denominator with
  | .lt => quotient
  | .gt => quotient + 1
  | .eq => if quotient % 2 == 0 then quotient else quotient + 1

/-- A positive double rounded to `count` significant digits: the digits, and the exponent of the
first one. -/
def roundedDigits (count : Nat) (x : Binary) : List Char × Int :=
  let order := decimalOrder x.numerator x.denominator
  let exponent := order - count
  let n := roundDiv (x.numerator * Nat.pow 10 (-exponent).toNat)
    (x.denominator * Nat.pow 10 exponent.toNat)
  -- rounding up may carry into one more digit, which is then a zero at the end
  let all := Nat.toDigits 10 n
  (all.take count, order - 1 + (all.length - count : Nat))

end QuantityCalculus
