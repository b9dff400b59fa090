/-
The contents of JSON strings.

Between its quotes a JSON string is written with escapes: a quote and a backslash are escaped, and
so are the control characters, five of them by a letter and the others by four hexadecimal digits.
Reading accepts every escape; a code point beyond the basic plane may be written as a pair of
surrogates, but half a pair is no character.

Splitting a string off a text and decoding it are separate steps, because the contents of a string
that nobody asks for are never decoded.

* `decodeString_encodeString` : decoding undoes encoding,
* `splitString_encodeString` : a closing quote ends an encoded string and nothing in it does.
-/

namespace QuantityCalculus

/-! ### Hexadecimal digits -/

/-- The value of a hexadecimal digit. -/
def hexValue? (c : Char) : Option Nat :=
  if '0' ≤ c ∧ c ≤ '9' then some (c.toNat - 48)
  else if 'a' ≤ c ∧ c ≤ 'f' then some (c.toNat - 87)
  else if 'A' ≤ c ∧ c ≤ 'F' then some (c.toNat - 55)
  else none

/-- The value of four hexadecimal digits. -/
def hexValue4? (a b c d : Char) : Option Nat := do
  let a ← hexValue? a
  let b ← hexValue? b
  let c ← hexValue? c
  let d ← hexValue? d
  return ((a * 16 + b) * 16 + c) * 16 + d

/-! ### Writing -/

/-- How a character is written between quotes. -/
def escapeChar (c : Char) : List Char :=
  if c = '"' then ['\\', '"']
  else if c = '\\' then ['\\', '\\']
  else if c = '\n' then ['\\', 'n']
  else if c = '\t' then ['\\', 't']
  else if c = '\r' then ['\\', 'r']
  else if c = '\x08' then ['\\', 'b']
  else if c = '\x0c' then ['\\', 'f']
  else if c.toNat < 32 then
    ['\\', 'u', '0', '0', Nat.digitChar (c.toNat / 16), Nat.digitChar (c.toNat % 16)]
  else [c]

/-- How a text is written between quotes. -/
def encodeString (s : List Char) : List Char := s.flatMap escapeChar

/-! ### Reading -/

/-- The character that a letter stands for behind a backslash. -/
def unescape? : Char → Option Char
  | '"' => some '"'
  | '\\' => some '\\'
  | '/' => some '/'
  | 'b' => some '\x08'
  | 'f' => some '\x0c'
  | 'n' => some '\n'
  | 'r' => some '\r'
  | 't' => some '\t'
  | _ => none

/-- Splits a text behind its opening quote: the contents up to the closing quote, not decoded, and
what follows. -/
def splitString : List Char → Option (List Char × List Char)
  | [] => none
  | '"' :: rest => some ([], rest)
  | '\\' :: 'u' :: a :: b :: c :: d :: rest =>
    if (hexValue4? a b c d).isSome then
      (splitString rest).map fun r => ('\\' :: 'u' :: a :: b :: c :: d :: r.1, r.2)
    else none
  | '\\' :: c :: rest =>
    if (unescape? c).isSome then (splitString rest).map fun r => ('\\' :: c :: r.1, r.2) else none
  | c :: rest =>
    if c.toNat < 32 then none else (splitString rest).map fun r => (c :: r.1, r.2)

/-- The code point that a pair of surrogates stands for. -/
def surrogatePair? (high low : Nat) : Option Char :=
  if 0xD800 ≤ high ∧ high ≤ 0xDBFF ∧ 0xDC00 ≤ low ∧ low ≤ 0xDFFF then
    some (Char.ofNat (0x10000 + (high - 0xD800) * 0x400 + (low - 0xDC00)))
  else none

/-- The value is half of a pair of surrogates. -/
def isSurrogate (n : Nat) : Bool := decide (0xD800 ≤ n) && decide (n ≤ 0xDFFF)

/-- Decodes the contents of a string. -/
def decodeString : List Char → Option (List Char)
  | [] => some []
  | '\\' :: 'u' :: a :: b :: c :: d :: rest => do
    let n ← hexValue4? a b c d
    if isSurrogate n then
      -- only the high half, with the low half behind it, makes a character
      match rest with
      | '\\' :: 'u' :: a' :: b' :: c' :: d' :: rest' =>
        let character ← surrogatePair? n (← hexValue4? a' b' c' d')
        return character :: (← decodeString rest')
      | _ => none
    else return Char.ofNat n :: (← decodeString rest)
  | '\\' :: c :: rest => do
    let character ← unescape? c
    return character :: (← decodeString rest)
  | c :: rest => do return c :: (← decodeString rest)

/-! ### Reading back what was written -/

theorem hexValue?_digitChar : ∀ n < 16, hexValue? (Nat.digitChar n) = some n := by decide

/-- The escape of a control character is read as its code point. -/
theorem hexValue4?_escape {n : Nat} (h : n < 32) :
    hexValue4? '0' '0' (Nat.digitChar (n / 16)) (Nat.digitChar (n % 16)) = some n := by
  have h0 : hexValue? '0' = some 0 := by decide
  have hhi := hexValue?_digitChar (n / 16) (by omega)
  have hlo := hexValue?_digitChar (n % 16) (by omega)
  simp only [hexValue4?, h0, hhi, hlo, Option.bind_eq_bind, Option.bind_some, Option.pure_def,
    Option.some.injEq]
  omega

/-- A character is written as a letter behind a backslash, or as a code point of at most 31 behind
one, or as it is. -/
theorem escapeChar_cases (c : Char) :
    (∃ letter, letter ≠ 'u' ∧ unescape? letter = some c ∧ escapeChar c = ['\\', letter]) ∨
    (c.toNat < 32 ∧ escapeChar c =
      ['\\', 'u', '0', '0', Nat.digitChar (c.toNat / 16), Nat.digitChar (c.toNat % 16)]) ∨
    (c ≠ '"' ∧ c ≠ '\\' ∧ ¬ c.toNat < 32 ∧ escapeChar c = [c]) := by
  rw [escapeChar]
  split
  · next h => exact .inl ⟨'"', by decide, by rw [h]; rfl, rfl⟩
  next hquote =>
  split
  · next h => exact .inl ⟨'\\', by decide, by rw [h]; rfl, rfl⟩
  next hslash =>
  split
  · next h => exact .inl ⟨'n', by decide, h ▸ rfl, rfl⟩
  split
  · next h => exact .inl ⟨'t', by decide, h ▸ rfl, rfl⟩
  split
  · next h => exact .inl ⟨'r', by decide, h ▸ rfl, rfl⟩
  split
  · next h => exact .inl ⟨'b', by decide, h ▸ rfl, rfl⟩
  split
  · next h => exact .inl ⟨'f', by decide, h ▸ rfl, rfl⟩
  split
  · next h => exact .inr (.inl ⟨h, rfl⟩)
  · next h => exact .inr (.inr ⟨hquote, hslash, h, rfl⟩)

/-- A written character does not end the string that it stands in. -/
theorem splitString_escapeChar (c : Char) (s : List Char) :
    splitString (escapeChar c ++ s) = (splitString s).map fun r => (escapeChar c ++ r.1, r.2) := by
  obtain ⟨letter, hu, hletter, hc⟩ | ⟨hcontrol, hc⟩ | ⟨hquote, hslash, hcontrol, hc⟩ :=
    escapeChar_cases c
  · rw [hc]
    simp [splitString, hu, hletter]
  · rw [hc]
    simp [splitString, hexValue4?_escape hcontrol]
  · rw [hc]
    simp [splitString, hslash, hcontrol]

/-- A written string ends at the first quotation mark that stands behind it. -/
theorem splitString_encodeString (s rest : List Char) :
    splitString (encodeString s ++ '"' :: rest) = some (encodeString s, rest) := by
  induction s with
  | nil => rfl
  | cons c s ih =>
    have h : encodeString (c :: s) = escapeChar c ++ encodeString s := rfl
    rw [h, List.append_assoc, splitString_escapeChar, ih]
    rfl

/-- A written character is decoded to that character, whatever follows it. -/
theorem decodeString_escapeChar (c : Char) (s : List Char) :
    decodeString (escapeChar c ++ s) = (decodeString s).map (c :: ·) := by
  obtain ⟨letter, hu, hletter, hc⟩ | ⟨hcontrol, hc⟩ | ⟨-, hslash, -, hc⟩ :=
    escapeChar_cases c
  · rw [hc]
    cases h : decodeString s <;> simp [decodeString, hu, hletter, h]
  · have hs : isSurrogate c.toNat = false := by
      simp only [isSurrogate, Bool.and_eq_false_iff, decide_eq_false_iff_not]
      omega
    rw [hc]
    cases h : decodeString s <;> simp [decodeString, hexValue4?_escape hcontrol, hs, h]
  · rw [hc]
    cases h : decodeString s <;> simp [decodeString, hslash, h]

/-- Decoding inverts encoding. -/
theorem decodeString_encodeString (s : List Char) : decodeString (encodeString s) = some s := by
  induction s with
  | nil => rfl
  | cons c s ih =>
    have h : encodeString (c :: s) = escapeChar c ++ encodeString s := rfl
    rw [h, decodeString_escapeChar, ih]
    rfl

end QuantityCalculus
