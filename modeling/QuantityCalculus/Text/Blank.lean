/-
White space.

The blank characters are those with the property `White_Space` of the Unicode standard: twenty-five
code points in ten ranges.  They separate the tokens of a formula, and they may surround a written
quantity and each of its fields.
-/

namespace QuantityCalculus

/-- The first and last code points of each range of blank characters, in order. -/
def blankRanges : List (Nat × Nat) :=
  [(0x09, 0x0D), (0x20, 0x20), (0x85, 0x85), (0xA0, 0xA0), (0x1680, 0x1680), (0x2000, 0x200A),
   (0x2028, 0x2029), (0x202F, 0x202F), (0x205F, 0x205F), (0x3000, 0x3000)]

/-- The character is white space. -/
def isBlank (c : Char) : Bool :=
  blankRanges.any fun r => r.1 ≤ c.toNat && c.toNat ≤ r.2

/-- The text without the blanks in front of it. -/
def trimLeft (s : List Char) : List Char := s.dropWhile isBlank

/-- The text without the blanks behind it. -/
def trimRight (s : List Char) : List Char := (s.reverse.dropWhile isBlank).reverse

/-- The text without the blanks around it. -/
def trim (s : List Char) : List Char := trimRight (trimLeft s)

end QuantityCalculus
