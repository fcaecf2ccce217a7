/-!
# Texts of 8-bit characters

Sources, names and messages are sequences of bytes. A byte is written as the character with the same
code, so a text is a list of characters and its length counts bytes. The classes below are those of
the ASCII range; no character above it is a blank, a letter or a digit.

## Main definitions

* `Text` — a sequence of 8-bit characters.
* `Text.ofNat`, `Text.ofInt` — decimal numerals.
* `Text.trim` — a text without the blanks at its ends.
-/

namespace FrameLang

/-- A text: one character for each byte. -/
abbrev Text := List Char

/-- Blanks are the space and the five controls from tab to carriage return. -/
def isBlank (c : Char) : Bool :=
  c = ' ' || ('\t' ≤ c && c ≤ '\r')

/-- A name starts with a letter or an underscore. -/
def isNameStart (c : Char) : Bool :=
  c.isAlpha || c = '_'

/-- A name goes on with letters, digits and underscores. -/
def isNamePart (c : Char) : Bool :=
  c.isAlphanum || c = '_'

namespace Text

/-- The decimal numeral of a natural number, without leading zeros. -/
def ofNat (n : Nat) : Text :=
  Nat.toDigits 10 n

/-- The decimal numeral of an integer, with a minus sign if it is negative. -/
def ofInt (n : Int) : Text :=
  if n < 0 then '-' :: ofNat n.natAbs else ofNat n.natAbs

/-- The text without its leading and trailing blanks. -/
def trim (t : Text) : Text :=
  ((t.dropWhile isBlank).reverse.dropWhile isBlank).reverse

/-- The text between single quotes, as messages quote names. -/
def quote (t : Text) : Text :=
  '\'' :: t ++ ['\'']

end Text

end FrameLang
