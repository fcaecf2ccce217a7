import FrameLang.Position

/-!
# Tokens

A token has a kind, a text and the position of its first byte. The text of a string token is its
contents with the escapes resolved; the text of every other token is its spelling.
-/

namespace FrameLang

/-- The kinds of tokens. `unknown` stands for a kind that belongs to no construct. -/
inductive TokenKind where
  | eof
  | invalid
  | identifier
  | integer
  | string
  | kwFn
  | kwIf
  | kwElse
  | kwLoop
  | kwBreak
  | kwTrue
  | kwFalse
  | lparen
  | rparen
  | lbrace
  | rbrace
  | comma
  | semicolon
  | assign
  | plus
  | minus
  | star
  | slash
  | percent
  | eqEq
  | lt
  | le
  | gt
  | ge
  | unknown
deriving DecidableEq, Repr, Inhabited

namespace TokenKind

/-- The known kinds, in their fixed order. -/
def all : List TokenKind :=
  [eof, invalid, identifier, integer, string, kwFn, kwIf, kwElse, kwLoop, kwBreak, kwTrue, kwFalse,
    lparen, rparen, lbrace, rbrace, comma, semicolon, assign, plus, minus, star, slash, percent,
    eqEq, lt, le, gt, ge]

/-- The name of a kind in messages. Keywords and symbols are named by their spelling. -/
def name : TokenKind → Text
  | eof => "end".toList
  | invalid => "invalid".toList
  | identifier => "identifier".toList
  | integer => "integer".toList
  | string => "string".toList
  | kwFn => "fn".toList
  | kwIf => "if".toList
  | kwElse => "else".toList
  | kwLoop => "loop".toList
  | kwBreak => "break".toList
  | kwTrue => "true".toList
  | kwFalse => "false".toList
  | lparen => ['(']
  | rparen => [')']
  | lbrace => ['\x7b']
  | rbrace => ['\x7d']
  | comma => [',']
  | semicolon => [';']
  | assign => ['=']
  | plus => ['+']
  | minus => ['-']
  | star => ['*']
  | slash => ['/']
  | percent => ['%']
  | eqEq => ['=', '=']
  | lt => ['<']
  | le => ['<', '=']
  | gt => ['>']
  | ge => ['>', '=']
  | unknown => "unknown".toList

/-- The kinds whose spelling is reserved and cannot be a name. -/
def keywords : List TokenKind :=
  [kwFn, kwIf, kwElse, kwLoop, kwBreak, kwTrue, kwFalse]

/-- A word is a keyword if it spells one, and an identifier otherwise. -/
def ofWord (word : Text) : TokenKind :=
  (keywords.find? fun k => k.name = word).getD identifier

/-- The known kind with the given name. -/
def ofName? (word : Text) : Option TokenKind :=
  all.find? fun k => k.name = word

/-- The kind at a place of the fixed order; past its end there is only `unknown`. -/
def ofIndex (i : Nat) : TokenKind :=
  all[i]?.getD unknown

end TokenKind

/-- A token of a source text. -/
structure Token where
  kind : TokenKind
  text : Text
  pos : Pos
deriving DecidableEq, Repr, Inhabited

end FrameLang
