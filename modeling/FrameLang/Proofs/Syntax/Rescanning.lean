import FrameLang.Proofs.Syntax.Lexemes

/-!
# Scanning printed programs

Scanning a printed program gives the tokens of its chunks. A chunk is followed by a space or by the
end of the text, so it is scanned without regard to what comes next; only the sign of a numeral is a
token that something else follows at once.

## Main definitions

* `Chunk.lexemes` — the tokens of a chunk, without their positions.
* `ScansTo` — what scanning the beginning of a text gives.
-/

namespace FrameLang

/-- A token without its position. -/
def Token.lexeme (tok : Token) : TokenKind × Text :=
  (tok.kind, tok.text)

/-- The tokens of a chunk. The sign of a numeral is a token of its own. -/
def Chunk.lexemes : Chunk → List (TokenKind × Text)
  | .symbol kind => [(kind, kind.name)]
  | .name text => [(.identifier, text)]
  | .numeral value =>
    if value.toInt < 0 then [(.minus, ['-']), (.integer, Text.ofNat value.toInt.natAbs)]
    else [(.integer, Text.ofNat value.toInt.natAbs)]
  | .quoted text => [(.string, text)]

/-- The kind of the last token of a chunk. -/
def Chunk.lastKind : Chunk → TokenKind
  | .symbol kind => kind
  | .name _ => .identifier
  | .numeral _ => .integer
  | .quoted _ => .string

/-- Scanning a text gives tokens with the given contents and goes on with the rest. -/
def ScansTo (text rest : Text) (lexemes : List (TokenKind × Text)) : Prop :=
  ∀ pos, ∃ ts pos', ts.map Token.lexeme = lexemes ∧
    (Cursor.mk pos text).scan.tokens = ts ++ (Cursor.mk pos' rest).scan.tokens ∧
    (Cursor.mk pos text).scan.error = (Cursor.mk pos' rest).scan.error

section Scanning

variable {text rest : Text} {kind : TokenKind}

theorem ScansTo.trans {mid : Text} {ls ms : List (TokenKind × Text)} (h : ScansTo text mid ls)
    (h' : ScansTo mid rest ms) : ScansTo text rest (ls ++ ms) := by
  intro pos
  obtain ⟨ts, pos₁, hts, htok, herr⟩ := h pos
  obtain ⟨us, pos₂, hus, htok', herr'⟩ := h' pos₁
  exact ⟨ts ++ us, pos₂, by simp [hts, hus], by simp [htok, htok'], herr.trans herr'⟩

/-- A space is skipped. -/
theorem scansTo_space (rest : Text) : ScansTo (' ' :: rest) rest [] := by
  intro pos
  have hscan : (Cursor.mk pos (' ' :: rest)).scan = (Cursor.mk (pos.next ' ') rest).scan :=
    Cursor.scan_blanks [' '] rfl pos rest
  exact ⟨[], pos.next ' ', rfl, by simp [hscan], by rw [hscan]⟩

/-- A lexeme is the next token. -/
theorem Lexeme.scansTo {contents spelling : Text} (h : Lexeme kind contents spelling rest) :
    ScansTo (spelling ++ rest) rest [(kind, contents)] := by
  intro pos
  exact ⟨[⟨kind, contents, pos⟩], pos.past spelling, rfl, by rw [h.scan]; rfl, by rw [h.scan]; rfl⟩

theorem spells_numeral (n : Nat) : Spells .integer (Text.ofNat n) (Text.ofNat n) :=
  .numeral Nat.toDigits_ne_nil fun _ => Text.isDigit_of_mem_ofNat

theorem written_escape (contents : Text) : Written contents (contents.flatMap escape) := by
  induction contents with
  | nil => exact .nil
  | cons c contents ih => exact .escaped ih

/-- A chunk is scanned as its tokens, if its last one ends there. -/
theorem Chunk.scansTo {chunk : Chunk} (hp : chunk.isProper = true)
    (h : chunk.lastKind.EndsAt rest) :
    ScansTo (chunk.spelling ++ rest) rest chunk.lexemes := by
  cases chunk with
  | symbol kind => exact Lexeme.scansTo ⟨.fixed hp, h⟩
  | name text => exact Lexeme.scansTo ⟨.name hp, h⟩
  | numeral value =>
    have hdigits := Lexeme.scansTo ⟨spells_numeral value.toInt.natAbs, h⟩
    simp only [Chunk.spelling, Chunk.lexemes, Text.ofInt]
    split
    -- The sign is the only token that a digit follows at once.
    · have hsign : ScansTo (['-'] ++ (Text.ofNat value.toInt.natAbs ++ rest)) _ [(.minus, ['-'])] :=
        Lexeme.scansTo ⟨.fixed rfl, by simp [TokenKind.keywords], by simp, by simp⟩
      exact hsign.trans hdigits
    · exact hdigits
  | quoted text =>
    have hquoted := Lexeme.scansTo ⟨.quoted (written_escape text), h⟩
    exact hquoted

/-- Chunks with spaces between them are scanned one by one. -/
theorem Chunk.scansTo_join {chunks : List Chunk} (hp : chunks.all Chunk.isProper = true) :
    ScansTo (Chunk.join chunks) [] (chunks.flatMap Chunk.lexemes) := by
  fun_induction Chunk.join chunks with
  | case1 => exact fun pos => ⟨[], pos, rfl, rfl, rfl⟩
  | case2 chunk =>
    have hchunk : ScansTo (chunk.spelling ++ []) [] chunk.lexemes :=
      Chunk.scansTo (by simpa using hp) (TokenKind.endsAt_of_blank _ (by simp))
    simpa using hchunk
  | case3 chunk chunks hne ih =>
    simp only [List.all_cons, Bool.and_eq_true] at hp
    have hchunk : ScansTo (chunk.spelling ++ ' ' :: Chunk.join chunks) (' ' :: Chunk.join chunks)
        chunk.lexemes :=
      Chunk.scansTo hp.1 (TokenKind.endsAt_of_blank _ (by simp [isBlank]))
    exact hchunk.trans ((scansTo_space _).trans (ih hp.2))

end Scanning

/-- A text that is scanned to its end has the tokens that were found, and an end token. -/
theorem ScansTo.tokenize {text : Text} {lexemes : List (TokenKind × Text)}
    (h : ScansTo text [] lexemes) :
    ∃ ts pos, tokenize text = .ok (ts ++ [⟨.eof, [], pos⟩]) ∧
      ts.map Token.lexeme = lexemes ∧ ∀ tok ∈ ts, tok.kind ≠ .eof := by
  obtain ⟨ts, pos, hts, htok, herr⟩ := h Pos.start
  have hend : (Cursor.mk pos []).scan = ⟨[⟨.eof, [], pos⟩], none, ⟨pos, []⟩⟩ :=
    Cursor.scan_of_gap rfl
  have hok : FrameLang.tokenize text = .ok (ts ++ [⟨.eof, [], pos⟩]) := by
    simp only [hend] at htok herr
    simp only [FrameLang.tokenize, Cursor.start, herr, htok]
  refine ⟨ts, pos, hok, hts, ?_⟩
  obtain ⟨us, pos', hus, hk⟩ := tokenize_eq_ok hok
  obtain rfl : ts = us := (List.append_inj' hus rfl).1
  exact hk

/-- A printed program is scanned as its chunks. -/
theorem Program.tokenize_render {p : Program} (h : p.isProper = true) :
    ∃ ts pos, tokenize p.render = .ok (ts ++ [⟨.eof, [], pos⟩]) ∧
      ts.map Token.lexeme = p.chunks.flatMap Chunk.lexemes ∧ ∀ tok ∈ ts, tok.kind ≠ .eof :=
  (Chunk.scansTo_join (p.all_isProper_chunks h)).tokenize

end FrameLang
