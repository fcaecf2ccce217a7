import FrameLang.Program
import FrameLang.Token

/-!
# Printing programs

A program is printed as chunks with single spaces between them. A chunk is a keyword, a symbol, a
name, a numeral or a quoted string. Only operands have parentheses, and only where the operators
around them would take them apart.

## Main definitions

* `Chunk` — what is printed between two spaces.
* `Expr.chunks`, `Line.chunks`, `Statement.chunks`, `Program.chunks` — the chunks of each construct.
* `Program.render` — the printed program.
* `Program.isProper` — programs of the forms that can be read.
-/

namespace FrameLang

/-! ## Chunks -/

/-- What is printed between two spaces. -/
inductive Chunk where
  /-- A keyword or a symbol. -/
  | symbol (kind : TokenKind)
  | name (text : Text)
  | numeral (value : Int32)
  | quoted (text : Text)

/-- A character as it is written in a string. -/
def escape : Char → Text
  | '\n' => ['\\', 'n']
  | '\t' => ['\\', 't']
  | '\r' => ['\\', 'r']
  | '"' => ['\\', '"']
  | '\\' => ['\\', '\\']
  | c => [c]

/-- How a chunk is written. -/
def Chunk.spelling : Chunk → Text
  | .symbol kind => kind.name
  | .name text => text
  | .numeral value => Text.ofInt value.toInt
  | .quoted text => '"' :: text.flatMap escape ++ ['"']

/-- The chunks with a space between each two of them. -/
def Chunk.join : List Chunk → Text
  | [] => []
  | [p] => p.spelling
  | p :: rest => p.spelling ++ ' ' :: Chunk.join rest

/-! ## The chunks of a program -/

/-- The token that spells an operator. -/
def Operator.kind : Operator → TokenKind
  | add => .plus
  | sub => .minus
  | mul => .star
  | div => .slash
  | mod => .percent
  | eq => .eqEq
  | lt => .lt
  | le => .le
  | gt => .gt
  | ge => .ge

/-- Whether an operand needs parentheses where operators of precedence `p` and higher go on. -/
def Expr.isLooser (p : Nat) : Expr → Bool
  | .assign .. => true
  | .binary _ op _ _ => op.precedence < p
  | _ => false

/-- The chunks in parentheses, if they are needed. -/
def enclose (needed : Bool) (chunks : List Chunk) : List Chunk :=
  if needed then .symbol .lparen :: chunks ++ [.symbol .rparen] else chunks

mutual

/-- The chunks of an expression. Operators associate to the left, so a right operand of the same
precedence needs parentheses. -/
def Expr.chunks : Expr → List Chunk
  | .int _ value => [.numeral value]
  | .str _ text => [.quoted text]
  | .bool _ value => [.symbol (if value then .kwTrue else .kwFalse)]
  | .name _ text => [.name text]
  | .assign _ target value => .name target :: .symbol .assign :: value.chunks
  | .binary _ op lhs rhs =>
    enclose (lhs.isLooser op.precedence) lhs.chunks ++
      .symbol op.kind :: enclose (rhs.isLooser (op.precedence + 1)) rhs.chunks
  | .call _ callee args =>
    .name callee :: .symbol .lparen :: (Expr.argChunks args ++ [.symbol .rparen])
  | .branch _ test thenBlock elseBlock =>
    .symbol .kwIf :: .symbol .lparen :: (test.chunks ++ .symbol .rparen :: .symbol .lbrace ::
      (Line.allChunks thenBlock ++ .symbol .rbrace :: Line.elseChunks elseBlock))
  | .malformed .. => []

/-- The chunks of arguments, with commas between them. -/
def Expr.argChunks : List Expr → List Chunk
  | [] => []
  | e :: rest => e.chunks ++ if rest.isEmpty then [] else .symbol .comma :: Expr.argChunks rest

/-- The chunks of a line. Every expression line ends with a semicolon. -/
def Line.chunks : Line → List Chunk
  | .expr _ e => e.chunks ++ [.symbol .semicolon]
  | .loop _ body =>
    .symbol .kwLoop :: .symbol .lbrace :: (Line.allChunks body ++ [.symbol .rbrace])
  | .brk _ => [.symbol .kwBreak, .symbol .semicolon]
  | .other _ => []

/-- The chunks of several lines. -/
def Line.allChunks : List Line → List Chunk
  | [] => []
  | l :: rest => l.chunks ++ Line.allChunks rest

/-- The chunks of an else branch. -/
def Line.elseChunks : Option (List Line) → List Chunk
  | none => []
  | some block =>
    .symbol .kwElse :: .symbol .lbrace :: (Line.allChunks block ++ [.symbol .rbrace])

end

/-- The chunks of parameters, with commas between them. -/
def paramChunks : List Text → List Chunk
  | [] => []
  | [x] => [.name x]
  | x :: rest => .name x :: .symbol .comma :: paramChunks rest

/-- The chunks of a statement. -/
def Statement.chunks : Statement → List Chunk
  | .fn f =>
    .symbol .kwFn :: .name f.name :: .symbol .lparen :: (paramChunks f.params ++
      .symbol .rparen :: .symbol .lbrace :: (Line.allChunks f.block ++ [.symbol .rbrace]))
  | .line l => l.chunks

/-- The chunks of a program. -/
def Program.chunks (p : Program) : List Chunk :=
  p.flatMap Statement.chunks

/-- The printed program. -/
def Program.render (p : Program) : Text :=
  Chunk.join p.chunks

/-! ## Programs that can be read -/

/-- Whether tokens of a kind have one spelling, which is its name. -/
def TokenKind.isFixed (kind : TokenKind) : Bool :=
  kind ∉ [eof, invalid, identifier, integer, string, unknown]

/-- An identifier that is no keyword. -/
def isName : Text → Bool
  | [] => false
  | c :: rest => isNameStart c && rest.all isNamePart && TokenKind.ofWord (c :: rest) = .identifier

/-- Whether a chunk is spelled like the tokens it stands for. -/
def Chunk.isProper : Chunk → Bool
  | .symbol kind => kind.isFixed
  | .name text => isName text
  | .numeral _ | .quoted _ => true

mutual

/-- Every name is one, and no part is missing. -/
def Expr.isProper : Expr → Bool
  | .int .. | .str .. | .bool .. => true
  | .name _ text => isName text
  | .assign _ target value => isName target && value.isProper
  | .binary _ _ lhs rhs => lhs.isProper && rhs.isProper
  | .call _ callee args => isName callee && Expr.allProper args
  | .branch _ test thenBlock elseBlock =>
    test.isProper && Line.allProper thenBlock && Line.elseProper elseBlock
  | .malformed .. => false

/-- All of the expressions are proper. -/
def Expr.allProper : List Expr → Bool
  | [] => true
  | e :: rest => e.isProper && Expr.allProper rest

/-- The line is of a known form, and its parts are proper. -/
def Line.isProper : Line → Bool
  | .expr _ e => e.isProper
  | .loop _ body => Line.allProper body
  | .brk _ => true
  | .other _ => false

/-- All of the lines are proper. -/
def Line.allProper : List Line → Bool
  | [] => true
  | l :: rest => l.isProper && Line.allProper rest

/-- The else branch is proper, if there is one. -/
def Line.elseProper : Option (List Line) → Bool
  | none => true
  | some block => Line.allProper block

end

/-- The statement has proper names and lines. -/
def Statement.isProper : Statement → Bool
  | .fn f => isName f.name && f.params.all isName && Line.allProper f.block
  | .line l => l.isProper

/-- Every statement of the program is proper. -/
def Program.isProper (p : Program) : Bool :=
  p.all Statement.isProper

/-! ## Proper programs have proper chunks -/

theorem Operator.isFixed_kind (op : Operator) : op.kind.isFixed = true := by
  cases op <;> rfl

theorem all_isProper_enclose (needed : Bool) (chunks : List Chunk) :
    (enclose needed chunks).all Chunk.isProper = chunks.all Chunk.isProper := by
  cases needed
  · rfl
  · simp [enclose, Chunk.isProper, TokenKind.isFixed]

mutual

theorem Expr.all_isProper_chunks :
    (e : Expr) → e.isProper = true → e.chunks.all Chunk.isProper = true
  | .int .., _ | .str .., _ => rfl
  | .bool _ value, _ => by cases value <;> rfl
  | .name _ text, h => by simpa [Expr.chunks, Chunk.isProper, Expr.isProper] using h
  | .assign _ target value, h => by
    simp only [Expr.isProper, Bool.and_eq_true] at h
    have hvalue := value.all_isProper_chunks h.2
    simp [Expr.chunks, Chunk.isProper, TokenKind.isFixed, h.1, hvalue]
  | .binary _ op lhs rhs, h => by
    simp only [Expr.isProper, Bool.and_eq_true] at h
    have hl := lhs.all_isProper_chunks h.1
    have hr := rhs.all_isProper_chunks h.2
    simp [Expr.chunks, Chunk.isProper, all_isProper_enclose, op.isFixed_kind, hl, hr]
  | .call _ callee args, h => by
    simp only [Expr.isProper, Bool.and_eq_true] at h
    have hargs := Expr.all_isProper_argChunks args h.2
    simp [Expr.chunks, Chunk.isProper, TokenKind.isFixed, h.1, hargs]
  | .branch _ test thenBlock elseBlock, h => by
    simp only [Expr.isProper, Bool.and_eq_true] at h
    have ht := test.all_isProper_chunks h.1.1
    have hthen := Line.all_isProper_allChunks thenBlock h.1.2
    have helse := Line.all_isProper_elseChunks elseBlock h.2
    simp [Expr.chunks, Chunk.isProper, TokenKind.isFixed, ht, hthen, helse]

theorem Expr.all_isProper_argChunks :
    (es : List Expr) → Expr.allProper es = true → (Expr.argChunks es).all Chunk.isProper = true
  | [], _ => rfl
  | e :: rest, h => by
    simp only [Expr.allProper, Bool.and_eq_true] at h
    have he := e.all_isProper_chunks h.1
    have hrest := Expr.all_isProper_argChunks rest h.2
    cases rest <;> simp_all [Expr.argChunks, Chunk.isProper, TokenKind.isFixed]

theorem Line.all_isProper_chunks :
    (l : Line) → l.isProper = true → l.chunks.all Chunk.isProper = true
  | .expr _ e, h => by
    have he := e.all_isProper_chunks h
    simp [Line.chunks, Chunk.isProper, TokenKind.isFixed, he]
  | .loop _ body, h => by
    have hbody := Line.all_isProper_allChunks body h
    simp [Line.chunks, Chunk.isProper, TokenKind.isFixed, hbody]
  | .brk _, _ => rfl

theorem Line.all_isProper_allChunks :
    (ls : List Line) → Line.allProper ls = true → (Line.allChunks ls).all Chunk.isProper = true
  | [], _ => rfl
  | l :: rest, h => by
    simp only [Line.allProper, Bool.and_eq_true] at h
    have hl := l.all_isProper_chunks h.1
    have hrest := Line.all_isProper_allChunks rest h.2
    simp [Line.allChunks, hl, hrest]

theorem Line.all_isProper_elseChunks :
    (block : Option (List Line)) → Line.elseProper block = true →
      (Line.elseChunks block).all Chunk.isProper = true
  | none, _ => rfl
  | some block, h => by
    have hblock := Line.all_isProper_allChunks block h
    simp [Line.elseChunks, Chunk.isProper, TokenKind.isFixed, hblock]

end

theorem all_isProper_paramChunks (params : List Text) (h : params.all isName = true) :
    (paramChunks params).all Chunk.isProper = true := by
  fun_induction paramChunks params <;> simp_all [Chunk.isProper, TokenKind.isFixed]

theorem Statement.all_isProper_chunks (s : Statement) (h : s.isProper = true) :
    s.chunks.all Chunk.isProper = true := by
  cases s with
  | fn f =>
    simp only [Statement.isProper, Bool.and_eq_true] at h
    have hparams := all_isProper_paramChunks f.params h.1.2
    have hblock := Line.all_isProper_allChunks f.block h.2
    simp [Statement.chunks, Chunk.isProper, TokenKind.isFixed, h.1.1, hparams, hblock]
  | line l => exact l.all_isProper_chunks h

theorem Program.all_isProper_chunks (p : Program) (h : p.isProper = true) :
    p.chunks.all Chunk.isProper = true := by
  simp only [Program.isProper, List.all_eq_true] at h
  simp only [Program.chunks, List.all_flatMap, List.all_eq_true]
  exact fun s hs => List.all_eq_true.1 (s.all_isProper_chunks (h s hs))

end FrameLang
