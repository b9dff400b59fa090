/-
Decimal numerals of 32-bit words.

A word is written as its decimal digits without leading zeros, behind a minus sign if it is
negative.  Reading is more liberal: a plus sign and leading zeros are accepted.  The first problem
from left to right is the one reported; a digit that takes the value out of the range of a word is a
problem at that digit, so an overflow hides whatever stands behind it.

* `readWord_wordDigits` : reading a written word gives it back,
* `isDigit_or_minus_of_mem_wordDigits` : the characters that occur in a written word.
-/
import QuantityCalculus.Overflow

namespace QuantityCalculus

/-- The digits of an integer, behind a minus sign if it is negative. -/
def intDigits : Int → List Char
  | .ofNat n => Nat.toDigits 10 n
  | .negSucc n => '-' :: Nat.toDigits 10 (n + 1)

/-- The digits of a word, behind a minus sign if it is negative. -/
def wordDigits (w : Int32) : List Char := intDigits w.toInt

/-- The text of a word. -/
def wordText (w : Int32) : String := String.ofList (wordDigits w)

/-- Why a text is no numeral of a word. -/
inductive NumeralError where
  | empty
  | invalidDigit
  | tooLarge
  | tooSmall
deriving DecidableEq, Repr

/-- The text that reports a malformed numeral. -/
def NumeralError.message : NumeralError → String
  | empty => "cannot parse integer from empty string"
  | invalidDigit => "invalid digit found in string"
  | tooLarge => "number too large to fit in target type"
  | tooSmall => "number too small to fit in target type"

/-- Reads digits behind a value already read, up to a limit. -/
def readDigits (limit : Nat) (excess : NumeralError) (value : Nat) :
    List Char → Except NumeralError Nat
  | [] => .ok value
  | c :: cs =>
    if c.isDigit then
      if 10 * value + (c.toNat - 48) ≤ limit then
        readDigits limit excess (10 * value + (c.toNat - 48)) cs
      else .error excess
    else .error .invalidDigit

/-- Reads the digits behind a sign; there must be one. -/
def readUnsigned (limit : Nat) (excess : NumeralError) (s : List Char) : Except NumeralError Nat :=
  if s.isEmpty then .error .invalidDigit else readDigits limit excess 0 s

/-- Reads a numeral of a word. -/
def readWord : List Char → Except NumeralError Int32
  | [] => .error .empty
  | '-' :: cs => (readUnsigned 2147483648 .tooSmall cs).map fun n : Nat => Int32.ofInt (-(n : Int))
  | '+' :: cs => (readUnsigned 2147483647 .tooLarge cs).map fun n : Nat => Int32.ofInt (n : Int)
  | cs => (readUnsigned 2147483647 .tooLarge cs).map fun n : Nat => Int32.ofInt (n : Int)

/-! ### Reading back what was written -/

/-- Reading more digits does not make a value smaller. -/
theorem le_ofDigitChars (cs : List Char) (v : Nat) : v ≤ Nat.ofDigitChars 10 cs v := by
  induction cs generalizing v with
  | nil => exact Nat.le_refl v
  | cons c cs ih =>
    have h := ih (10 * v + (c.toNat - 48))
    change v ≤ Nat.ofDigitChars 10 cs (10 * v + (c.toNat - 48))
    omega

/-- Digits are read as the number that they write, if it does not exceed the limit. -/
theorem readDigits_eq_ok {limit : Nat} {excess : NumeralError} {cs : List Char} {v : Nat}
    (hd : ∀ c ∈ cs, c.isDigit = true) (hl : Nat.ofDigitChars 10 cs v ≤ limit) :
    readDigits limit excess v cs = .ok (Nat.ofDigitChars 10 cs v) := by
  induction cs generalizing v with
  | nil => rfl
  | cons c cs ih =>
    change Nat.ofDigitChars 10 cs (10 * v + (c.toNat - 48)) ≤ limit at hl
    have hv := le_ofDigitChars cs (10 * v + (c.toNat - 48))
    rw [readDigits, if_pos (hd c List.mem_cons_self), if_pos (by omega),
      ih (fun d h => hd d (List.mem_cons_of_mem _ h)) hl]
    rfl

theorem isDigit_of_mem_toDigits {n : Nat} {c : Char} (h : c ∈ Nat.toDigits 10 n) :
    c.isDigit = true :=
  Nat.isDigit_of_mem_toDigits (by decide) (by decide) h

/-- The digits of a number within the limit are read as that number. -/
theorem readUnsigned_toDigits {limit : Nat} {excess : NumeralError} {n : Nat} (h : n ≤ limit) :
    readUnsigned limit excess (Nat.toDigits 10 n) = .ok n := by
  have hn : (Nat.toDigits 10 n).isEmpty = false := by
    simp [Nat.toDigits_ne_nil]
  rw [readUnsigned, hn, readDigits_eq_ok (fun c => isDigit_of_mem_toDigits)] <;>
    simp [Nat.ofDigitChars_ten_toDigits, h]

/-- A text that begins with a digit is read without a sign. -/
theorem readWord_of_digits {cs : List Char} (hne : cs ≠ []) (hd : ∀ c ∈ cs, c.isDigit = true) :
    readWord cs =
      (readUnsigned 2147483647 .tooLarge cs).map fun n : Nat => Int32.ofInt (n : Int) := by
  match cs, hne with
  | c :: cs, _ =>
    have hc := hd c List.mem_cons_self
    unfold readWord
    split
    · next h => cases h
    · next h => cases h; exact absurd hc (by decide)
    · next h => cases h; exact absurd hc (by decide)
    · rfl

/-- A written word is read back. -/
theorem readWord_wordDigits (w : Int32) : readWord (wordDigits w) = .ok w := by
  obtain ⟨hlo, hhi⟩ := fitsWord_toInt w
  rw [wordDigits]
  cases hn : w.toInt with
  | ofNat n =>
    have h : (n : Int) = w.toInt := hn.symm
    rw [intDigits, readWord_of_digits Nat.toDigits_ne_nil fun c => isDigit_of_mem_toDigits,
      readUnsigned_toDigits (by omega)]
    simp [Except.map, h]
  | negSucc n =>
    have h : -((n + 1 : Nat) : Int) = w.toInt := by rw [hn]; omega
    rw [intDigits, readWord, readUnsigned_toDigits (by omega)]
    simp only [Except.map, h, Int32.ofInt_toInt]

theorem wordDigits_injective {v w : Int32} (h : wordDigits v = wordDigits w) : v = w := by
  have hread := readWord_wordDigits v
  rw [h, readWord_wordDigits] at hread
  exact (Except.ok.inj hread).symm

/-- A written word consists of digits and at most a minus sign. -/
theorem isDigit_or_minus_of_mem_wordDigits {w : Int32} {c : Char} (h : c ∈ wordDigits w) :
    c.isDigit = true ∨ c = '-' := by
  rw [wordDigits] at h
  cases hn : w.toInt with
  | ofNat n =>
    rw [hn] at h
    exact .inl (isDigit_of_mem_toDigits h)
  | negSucc n =>
    rw [hn, intDigits] at h
    rcases List.mem_cons.1 h with h | h
    · exact .inr h
    · exact .inl (isDigit_of_mem_toDigits h)

end QuantityCalculus
