import FrameLang.Proofs.Diagnostics.Location
import FrameLang.Proofs.Lowering.Success
import FrameLang.Proofs.Syntax.Completion

/-!
# What diagnostics point at

The position that a lexer, a parser or a lowering puts in front of its message is taken out again,
and the line and the column that it names show a byte of the source text: the one that a lexical
error is about, or the first of a token. Only the end of the input has no byte to show, and its
column cannot be told in a text that consists of one line and is so long that the counter is back at
zero there.

## Main definitions

* `Shows`, `ShowsToken` — what is found at a position.
* `UncountedEnd` — the texts with an end that has no column.
* `Diagnosed` — what holds of the errors of a source text.
-/

namespace FrameLang

/-- The line of the source text that the position names has the byte `c` in the column that it
names. -/
structure Shows (source : Text) (pos : Pos) (c : Char) : Prop where
  line : 1 ≤ pos.line.toNat
  column : 1 ≤ pos.column.toNat
  byte : (sourceLine pos.line.toNat source)[pos.column.toNat - 1]? = some c

/-- The first byte of a token of the source text is found at its position, which is `pos`. -/
def ShowsToken (source : Text) (pos : Pos) : Prop :=
  ∃ (tok : Token) (c : Char), tok.StandsIn source ∧ tok.pos = pos ∧ tok.firstByte? = some c ∧
    Shows source pos c

/-- A text of one line, so long that its end is in the column zero of a 32-bit counter. -/
def UncountedEnd (source : Text) : Prop :=
  source.length + 1 = 2 ^ 32 ∧ '\n' ∉ source

/-! ## Positions of errors -/

section Positions

variable {source : Text} {pos : Pos}

theorem ByteAt.shows {before after : Text} {c : Char} (h : ByteAt source pos before c after)
    (hs : source.length < 2 ^ 32) : Shows source pos c :=
  ⟨(h.pos_ne_zero hs).1, (h.pos_ne_zero hs).2, h.getElem?_sourceLine hs⟩

theorem Token.StandsIn.exists_shows {tok : Token} (h : tok.StandsIn source)
    (hs : source.length < 2 ^ 32) : ∃ c, tok.firstByte? = some c ∧ Shows source tok.pos c := by
  obtain ⟨before, c, after, hbyte, hfirst⟩ := h.lexed.placed
  exact ⟨c, hfirst, hbyte.shows hs⟩

theorem Shows.line_ne_zero {c : Char} (h : Shows source pos c) : pos.line ≠ 0 := by
  have := h.line
  rintro hzero
  simp [hzero] at this

theorem Shows.column_ne_zero {c : Char} (h : Shows source pos c) : pos.column ≠ 0 := by
  have := h.column
  rintro hzero
  simp [hzero] at this

theorem Shows.locate_eq {c : Char} {text : Text} (h : Shows source pos c) (ht : text.Tight) :
    locate (pos.mark ++ text) = .ok ⟨some pos, text⟩ := by
  rw [locate_mark_append pos ht, if_neg (not_or.2 ⟨h.line_ne_zero, h.column_ne_zero⟩)]

/-- The line counter is not back at zero at the end of a text that has more than newlines in it. -/
theorem Pos.line_past_ne_zero (hs : source.length < 2 ^ 32) {c : Char} (hc : c ∈ source)
    (hne : c ≠ '\n') : (Pos.start.past source).line ≠ 0 := by
  have hlt : source.count '\n' < source.length := by
    refine lt_of_le_of_ne List.count_le_length fun heq => ?_
    exact hne (List.count_eq_length.1 heq c hc).symm
  rw [Pos.past_start]
  intro hzero
  have hmod := congrArg UInt32.toNat hzero
  simp only [UInt32.toNat_ofNat', UInt32.toNat_zero] at hmod
  omega

/-- The column counter is back at zero only at the end of a text of one line. -/
theorem Pos.column_past_eq_zero (hs : source.length < 2 ^ 32) :
    (Pos.start.past source).column = 0 ↔ UncountedEnd source := by
  have hle := length_lastLine_le source
  rw [Pos.past_start]
  constructor
  · intro hzero
    have hmod := congrArg UInt32.toNat hzero
    simp only [UInt32.toNat_ofNat', UInt32.toNat_zero] at hmod
    have hcount : source.count '\n' = 0 := by omega
    exact ⟨by omega, List.count_eq_zero.1 hcount⟩
  · rintro ⟨hlength, hline⟩
    rw [lastLine_of_notMem hline, hlength]
    rfl

/-- An error at the end of a text with tokens in it is about that position, if it has a column. -/
theorem locate_past {tok : Token} (h : tok.StandsIn source) (hs : source.length < 2 ^ 32)
    {text : Text} (ht : text.Tight) (hpos : pos = Pos.start.past source) :
    (¬ UncountedEnd source → locate (pos.mark ++ text) = .ok ⟨some pos, text⟩) ∧
      (UncountedEnd source → locate (pos.mark ++ text) = .ok ⟨none, pos.mark ++ text⟩) := by
  obtain ⟨before, c, after, hbyte, -⟩ := h.lexed.placed
  have hmem : c ∈ source := by
    rw [hbyte.source_eq]
    simp
  have hline : pos.line ≠ 0 := hpos ▸ Pos.line_past_ne_zero hs hmem hbyte.ne_newline
  have hcolumn : pos.column = 0 ↔ UncountedEnd source := hpos ▸ Pos.column_past_eq_zero hs
  rw [locate_mark_append pos ht]
  constructor
  · intro hcounted
    rw [if_neg (not_or.2 ⟨hline, mt hcolumn.1 hcounted⟩)]
  · intro huncounted
    rw [if_pos (.inr (hcolumn.2 huncounted))]

end Positions

/-! ## Syntax errors -/

section Syntax

variable {source : Text} {e : SyntaxError}

/-- A syntax error is caused by a token of the source text, or by its end if there are tokens in
front of it. -/
theorem exists_cause_of_parse (h : parse source = .error (.grammatical e)) :
    (∃ tok : Token, tok.StandsIn source ∧ e.CausedBy tok) ∨
      e.CausedBy ⟨.eof, [], Pos.start.past source⟩ ∧ ∃ tok : Token, tok.StandsIn source := by
  unfold parse at h
  cases hlex : tokenize source with
  | error e => simp [hlex] at h
  | ok tokens =>
    obtain ⟨ts, rfl, hts⟩ := standsIn_of_tokenize hlex
    simp only [hlex] at h
    split at h
    case h_2 => cases h
    case h_1 error herror =>
      cases h
      rw [parseTokens, TokenStream.ofTokens_eof (fun tok htok => (hts tok htok).kind_ne) rfl]
        at herror
      obtain ⟨before, rest, s, rfl, hbefore, hfeed⟩ := Unfinished.exists_of_feedAll_error herror
      have hcaused := Unfinished.causedBy_of_feed hfeed
      cases rest with
      | cons tok rest => exact .inl ⟨tok, hts tok (by simp), hcaused⟩
      | nil =>
        refine .inr ⟨hcaused, ?_⟩
        cases before with
        | cons tok before => exact ⟨tok, hts tok (by simp)⟩
        | nil =>
          -- The end of the input fits where nothing has been read.
          cases hbefore
          cases hfeed

/-- The text of a syntax error has no blanks at its ends: a literal that is out of range is a token,
and its digits are digits. -/
theorem tight_message_of_parse (h : parse source = .error (.grammatical e)) :
    e.cause.message.Tight := by
  refine SyntaxCause.tight_message fun negative digits hcause => ?_
  rcases exists_cause_of_parse h with ⟨tok, htok, -, hliteral⟩ | ⟨⟨-, hliteral⟩, -⟩
  · obtain ⟨hkind, rfl⟩ := hliteral negative digits hcause
    obtain ⟨hne, hdigits⟩ := htok.lexed.numeral hkind
    exact Text.endsTight_of_digits hne hdigits
  · cases (hliteral negative digits hcause).1

end Syntax

/-! ## Errors of a source text -/

/-- What holds of the errors of a source text. -/
structure Diagnosed (source : Text) : Prop where
  /-- A lexical error shows the byte that is to blame. -/
  lexical {e : LexError} (h : parse source = .error (.lexical e)) :
    e.message ≠ [] ∧ locate e.message = .ok ⟨some e.pos, e.cause.message⟩ ∧
    ∃ before c after, ByteAt source e.pos before c after ∧ e.cause.Blames before c after ∧
      Shows source e.pos c
  /-- A syntax error shows the first byte of a token or is at the end of the input. -/
  grammatical {e : SyntaxError} (h : parse source = .error (.grammatical e)) :
    e.message ≠ [] ∧
    (ShowsToken source e.pos ∧ locate e.message = .ok ⟨some e.pos, e.cause.message⟩ ∨
      e.pos = Pos.start.past source ∧
        (¬ UncountedEnd source → locate e.message = .ok ⟨some e.pos, e.cause.message⟩) ∧
        (UncountedEnd source → locate e.message = .ok ⟨none, e.message⟩))
  /-- An error about a construct shows the first byte of a token. -/
  located {p : Program} {checkArity : Bool} {pos : Pos} {cause : LowerCause}
    (hp : parse source = .ok p) (h : p.build checkArity = .error (.located pos cause)) :
    (LowerError.located pos cause).message ≠ [] ∧ ShowsToken source pos ∧
    locate (LowerError.located pos cause).message = .ok ⟨some pos, cause.message⟩
  /-- The exhaustion of registers is about no position. -/
  exhausted {p : Program} {checkArity : Bool} {owner : Owner}
    (hp : parse source = .ok p) (h : p.build checkArity = .error (.exhausted owner)) :
    (LowerError.exhausted owner).message ≠ [] ∧
    locate (LowerError.exhausted owner).message = .ok ⟨none, (LowerError.exhausted owner).message⟩

theorem tokenize_of_parse {source : Text} {e : LexError}
    (h : parse source = .error (.lexical e)) : tokenize source = .error e := by
  unfold parse at h
  cases hlex : tokenize source with
  | error e' => simpa [hlex] using h
  | ok tokens =>
    simp only [hlex] at h
    split at h <;> cases h

/-- The errors of a source text whose bytes can be counted in 32 bits point at the right place. -/
theorem diagnosed_of_length_lt {source : Text} (hs : source.length < 2 ^ 32) :
    Diagnosed source where
  lexical {e} h := by
    have htight := e.cause.tight_message
    obtain ⟨before, c, after, hbyte, hblames⟩ := lexed_of_tokenize_error (tokenize_of_parse h)
    have hshows := hbyte.shows hs
    exact ⟨(e.pos.tight_mark_append htight).ne_nil, hshows.locate_eq htight, before, c, after,
      hbyte, hblames, hshows⟩
  grammatical {e} h := by
    have htight := tight_message_of_parse h
    refine ⟨(e.pos.tight_mark_append htight).ne_nil, ?_⟩
    rcases exists_cause_of_parse h with ⟨tok, htok, hpos, -⟩ | ⟨⟨hpos, -⟩, tok, htok⟩
    · obtain ⟨c, hfirst, hshows⟩ := htok.exists_shows hs
      rw [← hpos] at hshows
      exact .inl ⟨⟨tok, c, htok, hpos.symm, hfirst, hshows⟩, hshows.locate_eq htight⟩
    · exact .inr ⟨hpos, locate_past htok hs htight hpos⟩
  located {p checkArity pos cause} hp h := by
    obtain ⟨⟨tok, htok, rfl⟩, -⟩ := (parse_readFrom hp).placedAt_of_build h
    obtain ⟨c, hfirst, hshows⟩ := htok.exists_shows hs
    rw [LowerError.message_of_line_ne_zero hshows.line_ne_zero]
    exact ⟨(tok.pos.tight_mark_append cause.tight_message).ne_nil,
      ⟨tok, c, htok, rfl, hfirst, hshows⟩, hshows.locate_eq cause.tight_message⟩
  exhausted {p checkArity owner} _ _ := by
    have htight := LowerError.tight_exhausted owner
    exact ⟨htight.ne_nil, locate_of_not_digit htight rfl⟩

/-- A comment that is not closed, behind a string that has a newline in it. -/
theorem diagnosed_of_length_lt_open_comment :
    "x = \"a\n\" /* b;".toList.length < 2 ^ 32 ∧
    tokenize "x = \"a\n\" /* b;".toList = .error ⟨⟨2, 3⟩, .openComment⟩ ∧
    Diagnosed "x = \"a\n\" /* b;".toList :=
  ⟨by decide +kernel, by decide +kernel, diagnosed_of_length_lt (by decide +kernel)⟩

/-! ## Ends without a column -/

/-- A line that is not ended is reported at the end of the text, behind all spaces. -/
theorem parse_name_spaces (n : Nat) :
    parse ('x' :: List.replicate n ' ') =
      .error (.grammatical ⟨Pos.start.past ('x' :: List.replicate n ' '), .lineEnd⟩) := by
  have hlexeme : Cursor.lexeme Pos.start 'x' (List.replicate n ' ') =
      .ok (⟨.identifier, ['x'], Pos.start⟩, ⟨Pos.start.past ['x'], List.replicate n ' '⟩) := by
    have hstart : isNameStart 'x' = true := by decide
    have hpart : isNamePart ' ' = false := by decide
    simp only [Cursor.lexeme, hstart, if_true, List.takeWhile_replicate, List.dropWhile_replicate,
      hpart, Bool.false_eq_true, if_false]
    rfl
  have hname : (Cursor.mk Pos.start ('x' :: List.replicate n ' ')).scan =
      (Cursor.mk (Pos.start.past ['x']) (List.replicate n ' ')).scan.cons
        ⟨.identifier, ['x'], Pos.start⟩ :=
    Cursor.scan_of_lexeme rfl hlexeme
  have hspaces := Cursor.scan_blanks (List.replicate n ' ') (by simp [isBlank])
    (Pos.start.past ['x']) []
  have hend : ∀ pos, (Cursor.mk pos []).scan = ⟨[⟨.eof, [], pos⟩], none, ⟨pos, []⟩⟩ :=
    fun pos => Cursor.scan_of_gap rfl
  rw [List.append_nil, hend] at hspaces
  simp only [parse, tokenize, Cursor.start, hname, hspaces]
  rfl

theorem Pos.past_name_spaces (n : Nat) :
    Pos.start.past ('x' :: List.replicate n ' ') = ⟨1, UInt32.ofNat (n + 2)⟩ := by
  have hline : '\n' ∉ 'x' :: List.replicate n ' ' := by simp
  rw [Pos.past_start, List.count_eq_zero.2 hline, lastLine_of_notMem hline, List.length_cons,
    List.length_replicate]
  rfl

/-- A text that is short enough to count its bytes, but not the column of its end: the position of
an error at the end is not taken out of the message. -/
theorem locate_uncounted_end :
    ('x' :: List.replicate (2 ^ 32 - 2) ' ').length < 2 ^ 32 ∧ ∃ e,
      parse ('x' :: List.replicate (2 ^ 32 - 2) ' ') = .error (.grammatical e) ∧
      e.message = "1:0: expected ';' after expression".toList ∧
      locate e.message ≠ .ok ⟨some e.pos, e.cause.message⟩ := by
  have hpos : Pos.start.past ('x' :: List.replicate (2 ^ 32 - 2) ' ') = ⟨1, 0⟩ :=
    Pos.past_name_spaces _
  refine ⟨by rw [List.length_cons, List.length_replicate]; decide, _, parse_name_spaces _, ?_, ?_⟩
  · rw [hpos]
    decide +kernel
  · rw [hpos]
    decide +kernel

end FrameLang
