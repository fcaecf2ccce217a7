import FrameLang.Program.Literal
import FrameLang.Program.SyntaxError
import FrameLang.Program.Unfinished

/-!
# From tokens to programs

Tokens are read one at a time. `Unfinished.feed` takes an unfinished program and the next token and
gives the unfinished program behind that token, or the error that the token causes; nothing that
follows the token plays a part. The end of the input is a token too: it fits only where a statement
may start at the top level.

## Main definitions

* `Unfinished.feed` — reads one token.
* `TokenStream.parse` — reads tokens to the end of the input or to the first error.
* `parseTokens` — reads a list of tokens.
-/

namespace FrameLang

/-! ## Reading one token -/

/-- The literal token `tok` as an operand that is reported at `pos`. -/
def Token.literal (tok : Token) (negative : Bool) (pos : Pos) (site : OperandSite) :
    Except SyntaxError Unfinished :=
  match readLiteral negative tok.text with
  | some value => .ok (.operandDone (.int pos value) site)
  | none => tok.reject (.literalRange negative tok.text)

/-- The binary operator that a token spells. -/
def TokenKind.operator? : TokenKind → Option Operator
  | plus => some .add
  | minus => some .sub
  | star => some .mul
  | slash => some .div
  | percent => some .mod
  | eqEq => some .eq
  | lt => some .lt
  | le => some .le
  | gt => some .gt
  | ge => some .ge
  | _ => none

/-- Reads the first token of an operand. -/
def OperandSite.start (site : OperandSite) (tok : Token) : Except SyntaxError Unfinished :=
  match tok.kind with
  | .integer => tok.literal false tok.pos site
  | .string => .ok (.operandDone (.str tok.pos tok.text) site)
  | .kwTrue => .ok (.operandDone (.bool tok.pos true) site)
  | .kwFalse => .ok (.operandDone (.bool tok.pos false) site)
  | .identifier => .ok (.namedOperand tok.pos tok.text site)
  | .minus => .ok (.sign tok.pos site)
  | .lparen => .ok (.expr (.grouped site))
  | .kwIf => .ok (.ifOpen tok.pos (.operand site))
  | kind => tok.reject (.expression kind)

/-- Reads the first token of an expression. -/
def ExprSite.start (site : ExprSite) (tok : Token) : Except SyntaxError Unfinished :=
  match tok.kind with
  | .identifier => .ok (.leadingName tok.pos tok.text site)
  | _ => (OperandSite.first site).start tok

/-- Reads the first token of a line, or the token that ends the block or the program. -/
def LineSite.start (site : LineSite) (tok : Token) : Except SyntaxError Unfinished :=
  match tok.kind, site with
  | .eof, .top done => .ok (.line (.top done))
  | .eof, .inside _ _ => tok.reject .blockEnd
  | .rbrace, .inside lines site => .ok (site.fill lines)
  | .kwFn, .top done => .ok (.fnOpen tok.pos done)
  | .kwFn, .inside _ _ => tok.reject .nestedFunction
  | .kwLoop, site => .ok (.block (.loop tok.pos site))
  | .kwBreak, site => .ok (.breakOpen tok.pos site)
  | _, site => (ExprSite.line tok.pos site).start tok

/-- Reads the first token of a block. -/
def BlockSite.start (site : BlockSite) (tok : Token) : Except SyntaxError Unfinished :=
  match tok.kind with
  | .lbrace => .ok (.line (.inside [] site))
  | _ => tok.reject .block

/-- Reads the token behind the whole expression `e`, which is no operator. -/
def ExprSite.finish (e : Expr) (tok : Token) : ExprSite → Except SyntaxError Unfinished
  | .assigned pos target site => site.finish (.assign pos target e) tok
  | .grouped site =>
    match tok.kind with
    | .rparen => .ok (.operandDone e site)
    | _ => tok.reject .groupEnd
  | .argument pos callee earlier site =>
    match tok.kind with
    | .comma => .ok (.expr (.argument pos callee (earlier ++ [e]) site))
    | .rparen => .ok (.operandDone (.call pos callee (earlier ++ [e])) site)
    | _ => tok.reject .argumentEnd
  | .test pos site =>
    match tok.kind with
    | .rparen => .ok (.block (.thenOf pos e site))
    | _ => tok.reject .testEnd
  | .line pos site =>
    match tok.kind with
    | .semicolon => .ok (.line (site.add (.expr pos e)))
    | _ => if e.isBranch then (site.add (.expr pos e)).start tok else tok.reject .lineEnd

/-- Reads a token that is no operator behind the operand `e`: the expression is complete. -/
def OperandSite.finish (e : Expr) (tok : Token) : OperandSite → Except SyntaxError Unfinished
  | .first site => site.finish e tok
  | .negated pos site => site.finish (.negate pos e) tok
  | .rightOf pos op lhs site => site.finish (.binary pos op lhs e) tok

/-- Reads the token behind the operand `e`. An operator continues the expression. -/
def OperandSite.after (site : OperandSite) (e : Expr) (tok : Token) :
    Except SyntaxError Unfinished :=
  match tok.kind.operator? with
  | some op =>
    let (lhs, site) := site.reduce op.precedence e
    .ok (.operand (.rightOf tok.pos op lhs site))
  | none => site.finish e tok

/-- Reads the token behind an operand that is a name. -/
def OperandSite.afterName (site : OperandSite) (pos : Pos) (name : Text) (tok : Token) :
    Except SyntaxError Unfinished :=
  match tok.kind with
  | .lparen => .ok (.callOpen pos name site)
  | _ => site.after (.name pos name) tok

/-- Reads a token behind the unfinished program, or reports that it does not fit. -/
def Unfinished.feed (tok : Token) : Unfinished → Except SyntaxError Unfinished
  | .line site => site.start tok
  | .lineClosed site =>
    match tok.kind with
    | .semicolon => .ok (.line site)
    | _ => site.start tok
  | .breakOpen pos site =>
    match tok.kind with
    | .semicolon => .ok (.line (site.add (.brk pos)))
    | _ => tok.reject .breakEnd
  | .expr site => site.start tok
  | .leadingName pos name site =>
    match tok.kind with
    | .assign => .ok (.expr (.assigned pos name site))
    | _ => (OperandSite.first site).afterName pos name tok
  | .operand site => site.start tok
  | .sign pos site =>
    match tok.kind with
    | .integer => tok.literal true pos site
    | _ => (OperandSite.negated pos site).start tok
  | .namedOperand pos name site => site.afterName pos name tok
  | .callOpen pos callee site =>
    match tok.kind with
    | .rparen => .ok (.operandDone (.call pos callee []) site)
    | _ => (ExprSite.argument pos callee [] site).start tok
  | .operandDone e site => site.after e tok
  | .ifOpen pos site =>
    match tok.kind with
    | .lparen => .ok (.expr (.test pos site))
    | _ => tok.reject .testOpen
  | .thenDone pos test thenBlock site =>
    match tok.kind with
    | .kwElse => .ok (.elseOpen pos test thenBlock site)
    | _ =>
      let (e, site) := site.operandOf (.branch pos test thenBlock none)
      site.after e tok
  | .elseOpen pos test thenBlock site =>
    match tok.kind with
    | .kwIf => .ok (.ifOpen tok.pos (.elseOf pos test thenBlock site))
    | _ => (BlockSite.elseOf pos test thenBlock site).start tok
  | .block site => site.start tok
  | .fnOpen pos done =>
    match tok.kind with
    | .identifier => .ok (.fnNamed pos tok.text done)
    | _ => tok.reject .functionName
  | .fnNamed pos name done =>
    match tok.kind with
    | .lparen => .ok (.paramsOpen pos name done)
    | _ => tok.reject .paramsOpen
  | .paramsOpen pos name done =>
    match tok.kind with
    | .rparen => .ok (.block (.function pos name [] done))
    | .identifier => .ok (.paramDone pos name [tok.text] done)
    | _ => tok.reject .param
  | .param pos name earlier done =>
    match tok.kind with
    | .identifier => .ok (.paramDone pos name (earlier ++ [tok.text]) done)
    | _ => tok.reject .param
  | .paramDone pos name params done =>
    match tok.kind with
    | .comma => .ok (.param pos name params done)
    | .rparen => .ok (.block (.function pos name params done))
    | _ => tok.reject .paramEnd

/-! ## Reading a list of tokens -/

/-- What became of a list of tokens: the statements that are complete, the error that stopped the
reading, if any, and the tokens that were not read. -/
structure Parse where
  program : Program
  error : Option SyntaxError
  rest : List Token

/-- Reads tokens to the end of the input, which is at `eof`, or to the first error. -/
def Unfinished.feedAll (eof : Pos) : Unfinished → List Token → Parse
  | state, [] =>
    match state.feed ⟨.eof, [], eof⟩ with
    | .ok state => ⟨state.done, none, []⟩
    | .error error => ⟨state.done, some error, []⟩
  | state, tok :: rest =>
    match state.feed tok with
    | .ok state => state.feedAll eof rest
    | .error error =>
      ⟨state.done, some error, if error.cause.readsToken then rest else tok :: rest⟩

/-- The tokens in front of the end of the input, and where that end is. A list without an end token
ends at its last token. -/
structure TokenStream where
  tokens : List Token
  eof : Pos

/-- The stream that a list of tokens stands for: it ends at the first end token. -/
def TokenStream.ofTokens (tokens : List Token) : TokenStream where
  tokens := tokens.takeWhile fun tok => tok.kind != .eof
  eof :=
    match tokens.find? fun tok => tok.kind == .eof with
    | some tok => tok.pos
    | none => (tokens.getLast?.map Token.pos).getD Pos.start

/-- Reads a program from the stream. -/
def TokenStream.parse (stream : TokenStream) : Parse :=
  (Unfinished.line (.top [])).feedAll stream.eof stream.tokens

/-- The stream that is left after a parse. -/
def TokenStream.after (stream : TokenStream) (parse : Parse) : TokenStream :=
  { stream with tokens := parse.rest }

/-- Reads a program from a list of tokens. -/
def parseTokens (tokens : List Token) : Parse :=
  (TokenStream.ofTokens tokens).parse

end FrameLang
