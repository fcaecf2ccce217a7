import FrameLang.Token

/-!
# Syntax errors

A syntax error says what was expected and names the position of the token that does not fit. Each is
reported at the first token that cannot go on with the program.
-/

namespace FrameLang

/-- What is wrong with a token. -/
inductive SyntaxCause where
  | functionName
  | paramsOpen
  | param
  | paramEnd
  | block
  | blockEnd
  | nestedFunction
  | breakEnd
  | lineEnd
  | expression (found : TokenKind)
  | groupEnd
  | testOpen
  | testEnd
  | argumentEnd
  /-- A literal does not fit a 32-bit word; its sign is given apart. -/
  | literalRange (negative : Bool) (digits : Text)
deriving DecidableEq, Repr

/-- The wording of a syntax error. -/
def SyntaxCause.message : SyntaxCause → Text
  | functionName => "expected function name after 'fn'".toList
  | paramsOpen => "expected '(' after function name".toList
  | param => "expected parameter name".toList
  | paramEnd => "expected ',' or ')' after parameter".toList
  | block => "expected '\x7b'".toList
  | blockEnd => "expected '\x7d' before end of input".toList
  | nestedFunction => "function definitions are only allowed at the top level".toList
  | breakEnd => "expected ';' after break".toList
  | lineEnd => "expected ';' after expression".toList
  | expression .eof => "expected expression before end of input".toList
  | expression found => "expected expression, found ".toList ++ Text.quote found.name
  | groupEnd => "expected ')' after expression".toList
  | testOpen => "expected '(' after 'if'".toList
  | testEnd => "expected ')' after if condition".toList
  | argumentEnd => "expected ',' or ')' in call arguments".toList
  | literalRange negative digits =>
    "integer literal out of range: ".toList ++ (if negative then '-' :: digits else digits)

/-- Whether the token has been read before the error is found. That is so for literals only. -/
def SyntaxCause.readsToken : SyntaxCause → Bool
  | literalRange .. => true
  | _ => false

/-- A syntax error and the position of the token that causes it. -/
structure SyntaxError where
  pos : Pos
  cause : SyntaxCause
deriving DecidableEq, Repr

/-- The error as it is shown, with its position in front. -/
def SyntaxError.message (e : SyntaxError) : Text :=
  e.pos.mark ++ e.cause.message

/-- The error that the token `tok` causes. -/
def Token.reject {α : Type} (tok : Token) (cause : SyntaxCause) : Except SyntaxError α :=
  .error ⟨tok.pos, cause⟩

end FrameLang
