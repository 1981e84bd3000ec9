namespace PathQuery.Text

/-! # Blanks, hexadecimal digits and percent encoding

The blanks that separate words and are trimmed from both ends of a name are the
characters with the Unicode property `White_Space`.  The information separators
U+001C to U+001F, the zero width space and the byte order mark do not have it.

Names and values stand in a path in percent-encoded form.  Letters, digits and
`-`, `_`, `.`, `~` stand for themselves; every other character becomes the bytes
of its UTF-8 form, each as `%` and two upper case hexadecimal digits.  So none of
the characters that structure a path can come out of an encoded piece.
-/

/-- The characters with the Unicode property `White_Space`. -/
def isBlank (c : Char) : Bool :=
  let code := c.toNat
  (0x9 ≤ code && code ≤ 0xD) || code == 0x20 || code == 0x85 || code == 0xA0 ||
    code == 0x1680 || (0x2000 ≤ code && code ≤ 0x200A) || code == 0x2028 ||
    code == 0x2029 || code == 0x202F || code == 0x205F || code == 0x3000

/-- A text without the blanks at its two ends. -/
def trim (text : List Char) : List Char :=
  ((text.dropWhile isBlank).reverse.dropWhile isBlank).reverse

theorem length_dropWhile_le (p : α → Bool) (items : List α) :
    (items.dropWhile p).length ≤ items.length :=
  (List.dropWhile_suffix p).length_le

theorem length_trim_le (text : List Char) : (trim text).length ≤ text.length := by
  have right := length_dropWhile_le isBlank (text.dropWhile isBlank).reverse
  have left := length_dropWhile_le isBlank text
  simp only [trim, List.length_reverse] at *
  omega

/-- The maximal runs of characters that are not blank, from left to right. -/
def words (text : List Char) : List (List Char) :=
  (text.splitOnP isBlank).filter fun word => !word.isEmpty

def upperHexDigit (n : Nat) : Char :=
  if n < 10 then Char.ofNat (48 + n) else Char.ofNat (55 + n)

def lowerHexDigit (n : Nat) : Char :=
  if n < 10 then Char.ofNat (48 + n) else Char.ofNat (87 + n)

def hexValue? (c : Char) : Option Nat :=
  if c.isDigit then some (c.toNat - 48)
  else if 'a' ≤ c ∧ c ≤ 'f' then some (c.toNat - 87)
  else if 'A' ≤ c ∧ c ≤ 'F' then some (c.toNat - 55)
  else none

/-- The characters that stand for themselves. -/
def isUnreserved (c : Char) : Bool :=
  c.isAlphanum || c == '-' || c == '_' || c == '.' || c == '~'

def percentByte (byte : UInt8) : List Char :=
  ['%', upperHexDigit (byte.toNat / 16), upperHexDigit (byte.toNat % 16)]

def percentChar (c : Char) : List Char :=
  if isUnreserved c then [c] else (String.utf8EncodeChar c).flatMap percentByte

/-- The percent-encoded form of an identifier or a value. -/
def percentEncode (text : String) : String :=
  String.ofList (text.toList.flatMap percentChar)

end PathQuery.Text
