import FrameLang.Token

/-!
# From source text to tokens

A source text is a sequence of gaps and lexemes. A gap is made of blanks, line comments and block
comments; a lexeme is the longest run that forms a word, a numeral, a quoted string or a symbol.
`Cursor.scan` reads gaps and lexemes in turn until the text ends or a lexeme cannot be read.

## Main definitions

* `Cursor` — a place in a source text: the position reached and the text that is left.
* `Gap.skip`, `Cursor.lexeme` — read one gap, one lexeme.
* `Cursor.scan` — reads tokens to the end of the text or to the first error.
-/

namespace FrameLang

/-- Why a text cannot be split into tokens. -/
inductive LexCause where
  /-- No lexeme starts with this character. -/
  | unexpected (c : Char)
  /-- A numeral runs into a letter or an underscore. -/
  | numeralTail
  /-- A backslash in a string is followed by a character that has no meaning there. -/
  | badEscape
  /-- A string is not closed. -/
  | openString
  /-- A block comment is not closed. -/
  | openComment
deriving DecidableEq, Repr

/-- The wording of a lexical error. -/
def LexCause.message : LexCause → Text
  | unexpected c => "unexpected character '".toList ++ [c, '\'']
  | numeralTail => "invalid character in integer literal".toList
  | badEscape => "invalid string escape".toList
  | openString => "unterminated string literal".toList
  | openComment => "unterminated block comment".toList

/-- A lexical error and where it is reported: at the offending character, or where the offending
string or comment opens. -/
structure LexError where
  pos : Pos
  cause : LexCause
deriving DecidableEq, Repr

/-- The error as it is shown, with its position in front. -/
def LexError.message (e : LexError) : Text :=
  e.pos.mark ++ e.cause.message

/-- A place in a source text: the position reached and the text that is left. -/
structure Cursor where
  pos : Pos
  rest : Text
deriving DecidableEq, Repr

/-- The cursor in front of a whole text. -/
def Cursor.start (source : Text) : Cursor := ⟨Pos.start, source⟩

/-- Reading stopped: the error, and the place where reading would go on. -/
structure LexStop where
  error : LexError
  cursor : Cursor
deriving DecidableEq, Repr

/-- The part of a gap that is being read. -/
inductive Gap where
  /-- Between comments. -/
  | between
  /-- In a comment that ends with its line. -/
  | lineComment
  /-- In a comment that was opened at the given position. -/
  | blockComment (opened : Pos)

/-- Reads to the end of the gap. Only a block comment that is left open fails. -/
def Gap.skip : Gap → Pos → Text → Except LexStop Cursor
  | .between, pos, '/' :: '/' :: rest => Gap.skip .lineComment (pos.past ['/', '/']) rest
  | .between, pos, '/' :: '*' :: rest => Gap.skip (.blockComment pos) (pos.past ['/', '*']) rest
  | .between, pos, c :: rest =>
    if isBlank c then Gap.skip .between (pos.next c) rest else .ok ⟨pos, c :: rest⟩
  | .between, pos, [] => .ok ⟨pos, []⟩
  | .lineComment, pos, c :: rest =>
    Gap.skip (if c = '\n' then .between else .lineComment) (pos.next c) rest
  | .lineComment, pos, [] => .ok ⟨pos, []⟩
  | .blockComment _, pos, '*' :: '/' :: rest => Gap.skip .between (pos.past ['*', '/']) rest
  | .blockComment opened, pos, c :: rest => Gap.skip (.blockComment opened) (pos.next c) rest
  | .blockComment opened, pos, [] => .error ⟨⟨opened, .openComment⟩, ⟨pos, []⟩⟩

/-- What a backslash and the given character stand for in a string. -/
def unescape : Char → Option Char
  | 'n' => some '\n'
  | 't' => some '\t'
  | 'r' => some '\r'
  | '"' => some '"'
  | '\\' => some '\\'
  | _ => none

/-- Reads the contents of a string and its closing quote. The string was opened at `opened`. -/
def quoted (opened : Pos) : Pos → Text → Except LexStop (Text × Cursor)
  | pos, [] => .error ⟨⟨opened, .openString⟩, ⟨pos, []⟩⟩
  | pos, '"' :: rest => .ok ([], ⟨pos.next '"', rest⟩)
  | pos, ['\\'] => .error ⟨⟨opened, .badEscape⟩, ⟨pos.next '\\', []⟩⟩
  | pos, '\\' :: e :: rest =>
    match unescape e with
    | none => .error ⟨⟨opened, .badEscape⟩, ⟨pos.past ['\\', e], rest⟩⟩
    | some c =>
      (quoted opened (pos.past ['\\', e]) rest).map fun (text, cursor) => (c :: text, cursor)
  | pos, c :: rest =>
    (quoted opened (pos.next c) rest).map fun (text, cursor) => (c :: text, cursor)

/-- The symbols of one character. -/
def symbolKind : Char → Option TokenKind
  | '(' => some .lparen
  | ')' => some .rparen
  | '\x7b' => some .lbrace
  | '\x7d' => some .rbrace
  | ',' => some .comma
  | ';' => some .semicolon
  | '=' => some .assign
  | '+' => some .plus
  | '-' => some .minus
  | '*' => some .star
  | '/' => some .slash
  | '%' => some .percent
  | '<' => some .lt
  | '>' => some .gt
  | _ => none

/-- The symbols that a following equals sign belongs to. -/
def symbolKindEq : Char → Option TokenKind
  | '=' => some .eqEq
  | '<' => some .le
  | '>' => some .ge
  | _ => none

/-- The longest symbol at the start of `c :: rest`, its spelling, and the text behind it. -/
def symbol (c : Char) (rest : Text) : Option (TokenKind × Text × Text) :=
  match symbolKindEq c, rest with
  | some kind, '=' :: rest => some (kind, [c, '='], rest)
  | _, rest => (symbolKind c).map fun kind => (kind, [c], rest)

/-- Reads the lexeme that starts with `c` at `pos`. -/
def Cursor.lexeme (pos : Pos) (c : Char) (rest : Text) : Except LexStop (Token × Cursor) :=
  if isNameStart c then
    let word := c :: rest.takeWhile isNamePart
    .ok (⟨TokenKind.ofWord word, word, pos⟩, ⟨pos.past word, rest.dropWhile isNamePart⟩)
  else if c.isDigit then
    let digits := c :: rest.takeWhile Char.isDigit
    let behind : Cursor := ⟨pos.past digits, rest.dropWhile Char.isDigit⟩
    if behind.rest.head?.any isNameStart then
      .error ⟨⟨behind.pos, .numeralTail⟩, behind⟩
    else
      .ok (⟨.integer, digits, pos⟩, behind)
  else if c = '"' then
    (quoted pos (pos.next c) rest).map fun (text, cursor) => (⟨.string, text, pos⟩, cursor)
  else
    match symbol c rest with
    | some (kind, spelling, rest) => .ok (⟨kind, spelling, pos⟩, ⟨pos.past spelling, rest⟩)
    | none => .error ⟨⟨pos, .unexpected c⟩, ⟨pos, c :: rest⟩⟩

/-! ## Every lexeme shortens the text -/

theorem Gap.length_rest_skip_le {gap : Gap} {pos : Pos} {text : Text} {cursor : Cursor}
    (h : Gap.skip gap pos text = .ok cursor) : cursor.rest.length ≤ text.length := by
  fun_induction Gap.skip gap pos text <;> grind

theorem length_rest_quoted_le {opened pos : Pos} {text contents : Text} {cursor : Cursor}
    (h : quoted opened pos text = .ok (contents, cursor)) :
    cursor.rest.length ≤ text.length := by
  fun_induction quoted opened pos text generalizing contents cursor with
  | case1 | case3 | case4 => simp at h
  | case2 => grind
  | case5 pos e rest c _ ih =>
    cases hq : quoted opened (pos.past ['\\', e]) rest with
    | error stop => simp [hq, Except.map] at h
    | ok r =>
      have := ih hq
      simp only [hq, Except.map] at h
      grind
  | case6 pos c rest _ _ _ ih =>
    cases hq : quoted opened (pos.next c) rest with
    | error stop => simp [hq, Except.map] at h
    | ok r =>
      have := ih hq
      simp only [hq, Except.map] at h
      grind

theorem length_symbol_le {c : Char} {rest spelling behind : Text} {kind : TokenKind}
    (h : symbol c rest = some (kind, spelling, behind)) : behind.length ≤ rest.length := by
  unfold symbol at h
  split at h
  · grind
  · cases hk : symbolKind c <;> simp_all

theorem Cursor.length_rest_lexeme_le {pos : Pos} {c : Char} {rest : Text} {token : Token}
    {cursor : Cursor} (h : Cursor.lexeme pos c rest = .ok (token, cursor)) :
    cursor.rest.length ≤ rest.length := by
  have hn := (List.dropWhile_suffix (l := rest) isNamePart).length_le
  have hd := (List.dropWhile_suffix (l := rest) Char.isDigit).length_le
  unfold Cursor.lexeme at h
  split at h
  · simp only [Except.ok.injEq, Prod.mk.injEq] at h
    obtain ⟨_, rfl⟩ := h
    exact hn
  split at h
  · dsimp only at h
    split at h
    · simp at h
    · simp only [Except.ok.injEq, Prod.mk.injEq] at h
      obtain ⟨_, rfl⟩ := h
      exact hd
  split at h
  · cases hq : quoted pos (pos.next c) rest with
    | error stop => simp [hq, Except.map] at h
    | ok r =>
      have := length_rest_quoted_le hq
      simp only [hq, Except.map, Except.ok.injEq, Prod.mk.injEq] at h
      obtain ⟨_, rfl⟩ := h
      exact this
  · split at h
    · rename_i hs
      have := length_symbol_le hs
      simp only [Except.ok.injEq, Prod.mk.injEq] at h
      obtain ⟨_, rfl⟩ := h
      exact this
    · simp at h

/-! ## Scanning -/

/-- What one pass over a text found: the tokens, the error that stopped it, if any, and the place
where another pass would go on. A pass without an error ends with a token of kind `eof`. -/
structure Scan where
  tokens : List Token
  error : Option LexError
  cursor : Cursor
deriving DecidableEq, Repr

/-- The pass with one more token in front. -/
def Scan.cons (token : Token) (scan : Scan) : Scan :=
  { scan with tokens := token :: scan.tokens }

/-- Reads gaps and lexemes in turn to the end of the text or to the first error. -/
def Cursor.scan (cursor : Cursor) : Scan :=
  match hg : Gap.skip .between cursor.pos cursor.rest with
  | .error stop => ⟨[], some stop.error, stop.cursor⟩
  | .ok ⟨pos, []⟩ => ⟨[⟨.eof, [], pos⟩], none, ⟨pos, []⟩⟩
  | .ok ⟨pos, c :: rest⟩ =>
    match hl : Cursor.lexeme pos c rest with
    | .error stop => ⟨[], some stop.error, stop.cursor⟩
    | .ok (token, behind) =>
      have : behind.rest.length < cursor.rest.length := by
        have := Gap.length_rest_skip_le hg
        have := Cursor.length_rest_lexeme_le hl
        simp only [List.length_cons] at *
        omega
      behind.scan.cons token
termination_by cursor.rest.length

/-- The tokens of a source text, the last one of kind `eof`. -/
def tokenize (source : Text) : Except LexError (List Token) :=
  let scan := (Cursor.start source).scan
  match scan.error with
  | some error => .error error
  | none => .ok scan.tokens

end FrameLang
