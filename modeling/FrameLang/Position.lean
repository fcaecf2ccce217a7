import FrameLang.Text

/-!
# Positions in a source text

A position is a line and a column, both counted from one; columns count bytes. The counters are
32-bit words, so they wrap around on texts of that size. Trees that were not read from a text may
carry line zero, which stands for "nowhere".
-/

namespace FrameLang

/-- A line and a column of a source text. -/
structure Pos where
  line : UInt32
  column : UInt32
deriving DecidableEq, Repr, Inhabited

namespace Pos

/-- The position of the first byte of a text. -/
def start : Pos := ⟨1, 1⟩

/-- The position behind a character that stands at `p`: a newline starts the next line. -/
def next (p : Pos) (c : Char) : Pos :=
  if c = '\n' then ⟨p.line + 1, 1⟩ else ⟨p.line, p.column + 1⟩

/-- The position behind a text that starts at `p`. -/
def past (p : Pos) (t : Text) : Pos :=
  t.foldl next p

/-- The text `line:column: ` in front of a message. -/
def mark (p : Pos) : Text :=
  Text.ofNat p.line.toNat ++ ':' :: Text.ofNat p.column.toNat ++ [':', ' ']

end Pos

end FrameLang
