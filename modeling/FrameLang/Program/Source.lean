import FrameLang.Program.Parser
import FrameLang.Token.Lexer

/-!
# From source text to programs

A source text is split into tokens, and these are read as a program.

## Main definitions

* `parse` — the program that a source text spells.
* `Draft.read` — reads a source text and keeps what the readings before left.
-/

namespace FrameLang

/-- Why a source text is no program. -/
inductive SourceError where
  | lexical (e : LexError)
  | grammatical (e : SyntaxError)
deriving DecidableEq, Repr

/-- The position that an error is reported at. -/
def SourceError.pos : SourceError → Pos
  | .lexical e => e.pos
  | .grammatical e => e.pos

/-- The error as it is shown. -/
def SourceError.message : SourceError → Text
  | .lexical e => e.message
  | .grammatical e => e.message

/-- The program that a source text spells. -/
def parse (source : Text) : Except SourceError Program :=
  match tokenize source with
  | .error e => .error (.lexical e)
  | .ok tokens =>
    let result := parseTokens tokens
    match result.error with
    | some e => .error (.grammatical e)
    | none => .ok result.program

/-- The program and the message that the latest readings left behind. -/
structure Draft where
  program : Program
  error : Text

/-- A draft that nothing has been read into. -/
def Draft.empty : Draft := ⟨[], []⟩

/-- Reads a source text into a draft. Tokens that stop short leave the statements in front of the
error; a text without tokens leaves the program alone. The message of the last error stays. -/
def Draft.read (draft : Draft) (source : Text) : Bool × Draft :=
  match tokenize source with
  | .error e => (false, { draft with error := e.message })
  | .ok tokens =>
    let result := parseTokens tokens
    match result.error with
    | some e => (false, ⟨result.program, e.message⟩)
    | none => (true, { draft with program := result.program })

end FrameLang
