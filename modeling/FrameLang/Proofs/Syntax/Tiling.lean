import FrameLang.Proofs.Syntax.Placement

/-!
# Tokens tile their text

A text that can be split into tokens is nothing but gaps and lexemes in turn: every token has the
kind and the text that its lexeme denotes and the position at which the lexeme starts, and nothing
is left out. A text that cannot be split is tiled in the same way up to the place where no lexeme
can be read, and that place is reported.

## Main definitions

* `Pos.Follows` — the line and the column of the place behind a text.
* `Tiles` — a stretch of a text is made of gaps and the lexemes of the given tokens.
-/

namespace FrameLang

/-- The position behind `before`: the line counts the newlines and the column the bytes behind the
last of them, both from one. -/
structure Pos.Follows (pos : Pos) (before : Text) : Prop where
  line : pos.line.toNat = before.count '\n' + 1
  column : pos.column.toNat = (lastLine before).length + 1

section Tiling

variable {source before text : Text}

theorem LexCause.Stops.ne_nil {cause : LexCause} {skipped rest : Text}
    (h : cause.Stops skipped rest) : rest ≠ [] := by
  cases h <;> exact List.cons_ne_nil _ _

end Tiling

end FrameLang
