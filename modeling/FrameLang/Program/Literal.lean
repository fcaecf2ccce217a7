import FrameLang.Text

/-!
# Integer literals

A literal is read character by character in 64 bits, and each beginning of it is compared with the
limit; as long as the characters are digits, no intermediate value leaves the 64 bits. The limit is
one higher for a literal behind a sign, because the negative range of a word is larger by one.
-/

namespace FrameLang

/-- The weight of a character as a digit: its distance from `0`, with the upper half of the byte
range taken as negative codes. -/
def digitWeight (c : Char) : Int64 :=
  Int64.ofInt (if c.toNat < 128 then c.toNat - 48 else c.toNat - 304)

/-- Reads on from `value`, unless some beginning of the text is above the limit. -/
def readDigits (limit : Int64) : Int64 → Text → Option Int64
  | value, [] => some value
  | value, c :: rest =>
    let next := value * 10 + digitWeight c
    if limit < next then none else readDigits limit next rest

/-- The value of an integer literal, cut down to 32 bits. -/
def readLiteral (negative : Bool) (digits : Text) : Option Int32 :=
  if negative then
    (readDigits 2147483648 0 digits).map fun value => (-value).toInt32
  else
    (readDigits 2147483647 0 digits).map fun value => value.toInt32

end FrameLang
