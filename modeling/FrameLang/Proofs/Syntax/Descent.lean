import FrameLang.Proofs.Syntax.Tape

/-!
# Recursive descent

A second reader of programs, with one procedure for each kind of phrase. A procedure looks at the
next tokens of a tape, moves over those that it takes and calls the procedures of the phrases inside
its own; some of these calls are made before any token has been taken. Nothing in the definitions
says that the calls come to an end: a procedure that called itself forever would have no result,
neither a phrase nor an error, and this is what `none` stands for.

## Main definitions

* `Descent` — computations on a tape, which may fail and need not end.
* `Procedure`, `Procedure.call` — the procedures for the phrases that contain each other, and what a
  call of one does.
* `Descent.fnDef`, `Descent.statement` — the procedures for function definitions and statements.
* `Tape.readProgram`, `Tape.readPrograms` — one reading of a program, and several in a row.
-/

namespace FrameLang

/-- A computation on a tape. It fails with a syntax error, and it may also never end. -/
abbrev Descent := ExceptT SyntaxError (StateT Tape Option)

namespace Descent

/-- What a computation makes of a tape, if it ends. -/
def run {α : Type} (p : Descent α) (t : Tape) : Option (Except SyntaxError α × Tape) :=
  StateT.run (ExceptT.run p) t

/-! ## Steps -/

/-- Looks at a token without moving. -/
def peek (offset : Nat) : Descent Token :=
  return (← get).peek offset

/-- Takes the next token. -/
def advance : Descent Token := do
  let t ← get
  set t.advance
  return t.peek 0

/-- Takes the next token if it is of the given kind, and says whether it is. -/
def accept (kind : TokenKind) : Descent Bool := do
  if (← peek 0).kind = kind then
    let _ ← advance
    return true
  else
    return false

/-- Reports that a token does not fit. -/
def fail {α : Type} (tok : Token) (cause : SyntaxCause) : Descent α :=
  throw ⟨tok.pos, cause⟩

/-- Takes a token of the given kind. -/
def expect (kind : TokenKind) (cause : SyntaxCause) : Descent Unit := do
  if ← accept kind then return () else fail (← peek 0) cause

/-- Takes an integer literal, as an operand that is reported at `pos`. -/
def integer (negative : Bool) (pos : Pos) : Descent Expr := do
  let lit ← advance
  match readLiteral negative lit.text with
  | some value => return .int pos value
  | none => fail lit (.literalRange negative lit.text)

end Descent

/-! ## Procedures -/

/-- The procedures that call each other or themselves, by what they read. -/
inductive Procedure : Type → Type where
  /-- Parameters behind the earlier ones, with the parenthesis that closes them. -/
  | moreParams (earlier : List Text) : Procedure (List Text)
  | block : Procedure (List Line)
  /-- The lines of a block behind the earlier ones, with the brace that closes it. -/
  | lines (earlier : List Line) : Procedure (List Line)
  | line : Procedure Line
  | expr : Procedure Expr
  /-- Operands with operators between them that bind at least as strongly as `least`. -/
  | binary (least : Nat) : Procedure Expr
  /-- Operators that bind at least as strongly as `least`, each with its right operand. -/
  | operators (least : Nat) (lhs : Expr) : Procedure Expr
  /-- An operand with the signs in front of it. -/
  | unary : Procedure Expr
  /-- An operand without a sign. -/
  | primary : Procedure Expr
  /-- An if expression. The token in front of the test has been looked at before. -/
  | branch : Procedure Expr
  /-- The arguments of a call behind the parenthesis that opens them. -/
  | args : Procedure (List Expr)
  /-- Arguments behind the earlier ones, with the parenthesis that closes them. -/
  | moreArgs (earlier : List Expr) : Procedure (List Expr)

open Descent in
/-- Reads what the procedure is for. -/
def Procedure.call {α : Type} : Procedure α → Descent α
  | .moreParams earlier => do
    let tok ← peek 0
    if tok.kind = .identifier then
      let _ ← advance
      if ← accept .comma then Procedure.moreParams (earlier ++ [tok.text]) |>.call
      else if ← accept .rparen then return earlier ++ [tok.text]
      else fail (← peek 0) .paramEnd
    else
      fail tok .param
  | .block => do
    expect .lbrace .block
    Procedure.lines [] |>.call
  | .lines earlier => do
    if ← accept .rbrace then
      return earlier
    else
      let tok ← peek 0
      if tok.kind = .eof then
        fail tok .blockEnd
      else
        let l ← Procedure.line |>.call
        Procedure.lines (earlier ++ [l]) |>.call
  | .line => do
    let start ← peek 0
    if start.kind = .kwFn then
      fail start .nestedFunction
    else if ← accept .kwLoop then
      let body ← Procedure.block |>.call
      let _ ← accept .semicolon
      return .loop start.pos body
    else if ← accept .kwBreak then
      expect .semicolon .breakEnd
      return .brk start.pos
    else
      let e ← Procedure.expr |>.call
      -- A line that is an if expression needs no semicolon.
      if e.isBranch then
        let _ ← accept .semicolon
        return .expr start.pos e
      else
        expect .semicolon .lineEnd
        return .expr start.pos e
  | .expr => do
    let name ← peek 0
    let sign ← peek 1
    if name.kind = .identifier ∧ sign.kind = .assign then
      let _ ← advance
      let _ ← advance
      return .assign name.pos name.text (← Procedure.expr |>.call)
    else
      Procedure.binary 0 |>.call
  | .binary least => do
    let lhs ← Procedure.unary |>.call
    Procedure.operators least lhs |>.call
  | .operators least lhs => do
    let tok ← peek 0
    match tok.kind.operator? with
    | none => return lhs
    | some op =>
      if op.precedence < least then
        return lhs
      else
        let _ ← advance
        let rhs ← Procedure.binary (op.precedence + 1) |>.call
        Procedure.operators least (.binary tok.pos op lhs rhs) |>.call
  | .unary => do
    let tok ← peek 0
    if tok.kind = .minus then
      let _ ← advance
      if (← peek 0).kind = .integer then integer true tok.pos
      else return .negate tok.pos (← Procedure.unary |>.call)
    else
      Procedure.primary |>.call
  | .primary => do
    let tok ← peek 0
    match tok.kind with
    | .integer => integer false tok.pos
    | .string =>
      let _ ← advance
      return .str tok.pos tok.text
    | .kwTrue =>
      let _ ← advance
      return .bool tok.pos true
    | .kwFalse =>
      let _ ← advance
      return .bool tok.pos false
    | .kwIf => Procedure.branch |>.call
    | .identifier =>
      let _ ← advance
      if ← accept .lparen then return .call tok.pos tok.text (← Procedure.args |>.call)
      else return .name tok.pos tok.text
    | .lparen =>
      let _ ← advance
      let e ← Procedure.expr |>.call
      expect .rparen .groupEnd
      return e
    | kind => fail tok (.expression kind)
  | .branch => do
    let tok ← advance
    expect .lparen .testOpen
    let test ← Procedure.expr |>.call
    expect .rparen .testEnd
    let thenBlock ← Procedure.block |>.call
    if ← accept .kwElse then
      if (← peek 0).kind = .kwIf then
        let e ← Procedure.branch |>.call
        return .branch tok.pos test thenBlock (some [.expr e.pos e])
      else
        return .branch tok.pos test thenBlock (some (← Procedure.block |>.call))
    else
      return .branch tok.pos test thenBlock none
  | .args => do
    if ← accept .rparen then return [] else Procedure.moreArgs [] |>.call
  | .moreArgs earlier => do
    let e ← Procedure.expr |>.call
    if ← accept .comma then Procedure.moreArgs (earlier ++ [e]) |>.call
    else if ← accept .rparen then return earlier ++ [e]
    else fail (← peek 0) .argumentEnd
partial_fixpoint

/-- A block is a brace and the lines behind it. -/
theorem Procedure.call_block :
    Procedure.block.call =
      Descent.expect .lbrace .block >>= fun _ => (Procedure.lines []).call := by
  rw [Procedure.call]

namespace Descent

/-- Reads the parameters of a function behind the parenthesis that opens them. -/
def params : Descent (List Text) := do
  if ← accept .rparen then return [] else (Procedure.moreParams []).call

/-- Reads a function definition. The first token has been looked at before. -/
def fnDef : Descent FnDef := do
  let fn ← advance
  let name ← peek 0
  if name.kind = .identifier then
    let _ ← advance
    expect .lparen .paramsOpen
    let names ← params
    let body ← Procedure.block.call
    let _ ← accept .semicolon
    return ⟨fn.pos, name.text, names, body⟩
  else
    fail name .functionName

/-- Reads a statement. -/
def statement : Descent Statement := do
  if (← peek 0).kind = .kwFn then return .fn (← fnDef) else return .line (← Procedure.line.call)

/-! ## Programs -/

/-- What a reading of a program leaves: the statements that are complete, and the error that stopped
it, if any. -/
abbrev Reading := Program × Option SyntaxError

end Descent

/-- Reads statements behind the earlier ones to the end of the input or to the first error. -/
def Tape.readProgram (t : Tape) (earlier : Program) : Option (Descent.Reading × Tape) := do
  if (t.peek 0).kind = .eof then
    return ((earlier, none), t)
  else
    match ← Descent.statement.run t with
    | (.ok s, t) => t |>.readProgram (earlier ++ [s])
    | (.error e, t) => return ((earlier, some e), t)
partial_fixpoint

/-- Reads a program `n` times, each time from where the reading before stopped. -/
def Tape.readPrograms : Nat → Tape → Option (List Descent.Reading × Tape)
  | 0, t => some ([], t)
  | n + 1, t => do
    let (reading, t) ← t.readProgram []
    let (readings, t) ← Tape.readPrograms n t
    return (reading :: readings, t)

namespace Descent

/-! ## What a step makes of a tape -/

section Run

variable {α β : Type} {p : Descent α} {f : α → Descent β} {a : α} {e : SyntaxError} {t t' : Tape}

theorem run_bind_of_ok (h : p.run t = some (.ok a, t')) : (p >>= f).run t = (f a).run t' := by
  change Option.bind (p.run t) _ = _
  rw [h]
  rfl

theorem run_bind_of_error (h : p.run t = some (.error e, t')) :
    (p >>= f).run t = some (.error e, t') := by
  change Option.bind (p.run t) _ = _
  rw [h]
  rfl

theorem run_pure (a : α) (t : Tape) : (pure a : Descent α).run t = some (.ok a, t) := rfl

theorem run_peek (offset : Nat) (t : Tape) : (peek offset).run t = some (.ok (t.peek offset), t) :=
  rfl

theorem run_advance (t : Tape) : advance.run t = some (.ok (t.peek 0), t.advance) := rfl

theorem run_fail (tok : Token) (cause : SyntaxCause) (t : Tape) :
    (fail tok cause : Descent α).run t = some (.error ⟨tok.pos, cause⟩, t) := rfl

theorem run_accept_of_eq {kind : TokenKind} (h : (t.peek 0).kind = kind) :
    (accept kind).run t = some (.ok true, t.advance) := by
  rw [accept, run_bind_of_ok (run_peek 0 t), if_pos h, run_bind_of_ok (run_advance t), run_pure]

theorem run_accept_of_ne {kind : TokenKind} (h : (t.peek 0).kind ≠ kind) :
    (accept kind).run t = some (.ok false, t) := by
  rw [accept, run_bind_of_ok (run_peek 0 t), if_neg h, run_pure]

end Run

end Descent

end FrameLang
