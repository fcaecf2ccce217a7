import FrameLang.Diagnostic
import FrameLang.Proofs.Syntax.Lexemes
import Mathlib.Algebra.GroupWithZero.Nat
import Mathlib.Data.List.Induction

/-!
# Where tokens and lexical errors stand

A position is reached by reading a beginning of the source text. Every token has the position of its
first byte, the end token that of the end of the text, and a lexical error that of the byte which is
to blame. As long as the counters do not wrap around, the byte at a position is found again by
taking the line of the source text and counting the column off.

## Main definitions

* `ByteAt` — a byte stands at a position of a text, between the bytes before and behind it.
* `Token.Lexed` — a token stands where its position says and has the text that its kind asks for.
* `LexCause.Blames` — what stands where a lexical error is reported.
* `Token.StandsIn` — one of the tokens of a text, the end token apart.
-/

namespace FrameLang

/-- The byte `c` stands in `source` behind `before` and in front of `after`, at the position
`pos`. -/
structure ByteAt (source : Text) (pos : Pos) (before : Text) (c : Char) (after : Text) : Prop where
  source_eq : source = before ++ c :: after
  pos_eq : pos = Pos.start.past before
  ne_newline : c ≠ '\n'

/-! ## Lines and columns -/

/-- What stands behind the last newline of a text. -/
def lastLine : Text → Text
  | [] => []
  | c :: rest => if '\n' ∈ c :: rest then lastLine rest else c :: rest

theorem lastLine_of_notMem {t : Text} (h : '\n' ∉ t) : lastLine t = t := by
  cases t with
  | nil => rfl
  | cons c rest => rw [lastLine, if_neg h]

theorem lastLine_concat (t : Text) (c : Char) :
    lastLine (t ++ [c]) = if c = '\n' then [] else lastLine t ++ [c] := by
  induction t with
  | nil => grind [lastLine]
  | cons d rest ih =>
    rw [List.cons_append, lastLine, lastLine, ih]
    grind [lastLine_of_notMem]

theorem lastLine_replicate_newline (n : Nat) : lastLine (List.replicate n '\n') = [] := by
  induction n with
  | zero => rfl
  | succ n ih => rw [List.replicate_succ, lastLine, if_pos List.mem_cons_self, ih]

theorem length_lastLine_le (t : Text) : (lastLine t).length + t.count '\n' ≤ t.length := by
  fun_induction lastLine t with
  | case1 => simp
  | case2 c rest h ih => grind
  | case3 c rest h => grind

/-- The line counts the newlines and the column the bytes behind the last of them, both from one and
in 32 bits. -/
theorem Pos.past_start (t : Text) :
    Pos.start.past t =
      ⟨UInt32.ofNat (t.count '\n' + 1), UInt32.ofNat ((lastLine t).length + 1)⟩ := by
  induction t using List.reverseRecOn with
  | nil => rfl
  | append_singleton t c ih =>
    rw [lastLine_concat, List.count_append, Pos.past_append, Pos.past_cons, Pos.past_nil, ih,
      Pos.next]
    by_cases hc : c = '\n'
    · subst hc
      simp
    · simp [hc]

/-- The line and the column behind a text, as long as they do not wrap around. -/
theorem Pos.past_start_toNat {t : Text} (h : t.length + 1 < 2 ^ 32) :
    (Pos.start.past t).line.toNat = t.count '\n' + 1 ∧
      (Pos.start.past t).column.toNat = (lastLine t).length + 1 := by
  have hle := length_lastLine_le t
  rw [Pos.past_start]
  exact ⟨UInt32.toNat_ofNat_of_lt' (by simp only [UInt32.size]; omega),
    UInt32.toNat_ofNat_of_lt' (by simp only [UInt32.size]; omega)⟩

/-- The line that the end of `before` is in. -/
theorem sourceLine_append (before after : Text) :
    sourceLine (before.count '\n' + 1) (before ++ after) =
      lastLine before ++ after.takeWhile (· ≠ '\n') := by
  induction before with
  | nil => rfl
  | cons c rest ih =>
    by_cases hc : c = '\n'
    · subst hc
      rw [List.count_cons_self, List.cons_append, sourceLine, lastLine, if_pos List.mem_cons_self]
      simpa using ih
    · rw [List.count_cons_of_ne hc, lastLine]
      by_cases hrest : '\n' ∈ rest
      · obtain ⟨n, hn⟩ := Nat.exists_eq_succ_of_ne_zero
          (Nat.ne_of_gt (List.count_pos_iff.2 hrest))
        rw [if_pos (List.mem_cons_of_mem c hrest), ← ih, hn]
        simp [sourceLine, hc]
      · have hzero : rest.count '\n' = 0 := List.count_eq_zero.2 hrest
        rw [if_neg (by simp [Ne.symm hc, hrest])]
        rw [hzero, lastLine_of_notMem hrest] at ih
        rw [hzero]
        simp only [sourceLine] at ih ⊢
        rw [List.cons_append, List.takeWhile_cons_of_pos (by simpa using hc), ih]
        rfl

/-- A byte is found at its line and column. -/
theorem ByteAt.getElem?_sourceLine {source before after : Text} {pos : Pos} {c : Char}
    (h : ByteAt source pos before c after) (hs : source.length < 2 ^ 32) :
    (sourceLine pos.line.toNat source)[pos.column.toNat - 1]? = some c := by
  obtain ⟨rfl, rfl, hc⟩ := h
  rw [List.length_append, List.length_cons] at hs
  obtain ⟨hline, hcolumn⟩ := Pos.past_start_toNat (t := before) (by omega)
  rw [hline, hcolumn, sourceLine_append]
  simp [hc]

/-- The counters do not wrap around at a byte of a text that is not too long. -/
theorem ByteAt.pos_ne_zero {source before after : Text} {pos : Pos} {c : Char}
    (h : ByteAt source pos before c after) (hs : source.length < 2 ^ 32) :
    1 ≤ pos.line.toNat ∧ 1 ≤ pos.column.toNat := by
  obtain ⟨rfl, rfl, -⟩ := h
  rw [List.length_append, List.length_cons] at hs
  obtain ⟨hline, hcolumn⟩ := Pos.past_start_toNat (t := before) (by omega)
  omega

/-! ## Tokens -/

/-- The first byte that a token has in the source text. -/
def Token.firstByte? (tok : Token) : Option Char :=
  if tok.kind = .string then some '"' else tok.text.head?

/-- A token of a source text: it stands where its position says, its first byte is found there, and
its text is a numeral or a name if its kind says so. -/
structure Token.Lexed (source : Text) (tok : Token) : Prop where
  placed : ∃ before c after, ByteAt source tok.pos before c after ∧ tok.firstByte? = some c
  numeral : tok.kind = .integer → tok.text ≠ [] ∧ tok.text.all Char.isDigit = true
  name : tok.kind = .identifier → isName tok.text = true

theorem Spells.head?_eq {kind : TokenKind} {text spelling : Text} (h : Spells kind text spelling)
    (pos : Pos) : spelling.head? = (Token.mk kind text pos).firstByte? := by
  cases h with
  | name | numeral | quoted => rfl
  | fixed hk =>
    rw [Token.firstByte?, if_neg]
    rintro rfl
    exact absurd hk (by decide)

/-- Numerals and names are spelled by their text. -/
theorem Spells.text_class {kind : TokenKind} {text spelling : Text}
    (h : Spells kind text spelling) :
    (kind = .integer → text ≠ [] ∧ text.all Char.isDigit = true) ∧
      (kind = .identifier → isName text = true) := by
  cases h with
  | name hname => exact ⟨nofun, fun _ => hname⟩
  | numeral hne hdigits => exact ⟨fun _ => ⟨hne, List.all_eq_true.2 hdigits⟩, nofun⟩
  | quoted => exact ⟨nofun, nofun⟩
  | fixed hk =>
    constructor <;> (rintro rfl; exact absurd hk (by decide))

/-- The token of a lexeme has the position and the first byte of the lexeme. -/
theorem Lexeme.lexed {source spelling rest : Text} {tok : Token}
    (h : Lexeme tok.kind tok.text spelling rest) (before : Text)
    (hs : source = before ++ (spelling ++ rest)) (hp : tok.pos = Pos.start.past before) :
    tok.Lexed source := by
  obtain ⟨c, tail, rfl, hblank, -⟩ := h.spells.exists_cons
  have hnewline : c ≠ '\n' := by
    rintro rfl
    exact absurd hblank (by decide)
  obtain ⟨hnumeral, hname⟩ := h.spells.text_class
  have hstart := (h.spells.head?_eq tok.pos).symm
  exact ⟨⟨before, c, tail ++ rest, ⟨hs, hp, hnewline⟩, hstart⟩, hnumeral, hname⟩

/-! ## Errors -/

/-- What stands where a lexical error is reported: `c` behind `before` and in front of `after`. -/
def LexCause.Blames (before : Text) (c : Char) (after : Text) : LexCause → Prop
  /- No gap and no lexeme starts with the byte. -/
  | .unexpected found => c = found ∧ isBlank c = false ∧ isNameStart c = false ∧
      c.isDigit = false ∧ c ≠ '"' ∧ symbolKind c = none
  | .numeralTail => isNameStart c = true ∧ before.getLast?.any Char.isDigit = true
  /- No string can be read from the quote on. -/
  | .badEscape | .openString => c = '"' ∧ ∀ r,
      quoted (Pos.start.past before) ((Pos.start.past before).next c) after ≠ .ok r
  | .openComment => c = '/' ∧ ∃ body, after = '*' :: body ∧ ¬ ['*', '/'] <:+: body

/-- A lexical error of a source text: the byte that is to blame stands where it is reported. -/
def LexError.Lexed (source : Text) (e : LexError) : Prop :=
  ∃ before c after, ByteAt source e.pos before c after ∧ e.cause.Blames before c after

/-- Where no lexeme can be read, there is a byte to blame. -/
theorem LexCause.Stops.blames {cause : LexCause} {skipped rest : Text}
    (h : cause.Stops skipped rest) (before : Text) :
    ∃ c after, rest = c :: after ∧ c ≠ '\n' ∧ cause.Blames (before ++ skipped) c after := by
  cases h with
  | unexpected hblank hstart hdigit hquote hsymbol =>
    refine ⟨_, _, rfl, ?_, rfl, hblank, hstart, hdigit, hquote, hsymbol⟩
    rintro rfl
    exact absurd hblank (by decide)
  | numeralTail hne hdigits hc =>
    refine ⟨_, _, rfl, ?_, hc, ?_⟩
    · rintro rfl
      exact absurd hc (by decide)
    · rw [List.getLast?_append, List.getLast?_eq_some_getLast hne, Option.some_or]
      exact hdigits _ (List.getLast_mem hne)
  | @badEscape contents body rest hwritten hbad =>
    refine ⟨_, _, rfl, by decide, rfl, fun r => ?_⟩
    rw [hwritten.quoted_append]
    cases rest with
    | nil => simp [quoted, Except.map]
    | cons e rest => simp [quoted, hbad e rfl, Except.map]
  | @openString contents body hwritten =>
    refine ⟨_, _, rfl, by decide, rfl, fun r => ?_⟩
    rw [← List.append_nil body, hwritten.quoted_append]
    simp [quoted, Except.map]
  | openComment hbody => exact ⟨_, _, rfl, by decide, rfl, _, rfl, hbody⟩

/-! ## Tokens of a source text -/

/-- The cursor stands in the source text, at the position that its place has. -/
def Cursor.StandsIn (source : Text) (cursor : Cursor) : Prop :=
  ∃ before, source = before ++ cursor.rest ∧ cursor.pos = Pos.start.past before

section Scans

variable {source : Text} {cursor : Cursor}

/-- Scanning finds tokens of the source text, the end token at its end, and reports what is to
blame if it fails. -/
theorem Cursor.StandsIn.scan (h : cursor.StandsIn source) :
    (∀ tok ∈ cursor.scan.tokens, tok.Lexed source ∨ tok = ⟨.eof, [], Pos.start.past source⟩) ∧
      ∀ e ∈ cursor.scan.error, e.Lexed source := by
  -- Every round reads a lexeme, so less text is left for the next one.
  induction hn : cursor.rest.length using Nat.strongRecOn generalizing cursor with
  | ind n ih =>
  obtain ⟨pos, text⟩ := cursor
  obtain ⟨before, hs, hp⟩ := h
  dsimp only at hs hp hn
  subst hp
  rcases Cursor.scan_cases (Pos.start.past before) text with ⟨-, hscan⟩ |
    ⟨gap, kind, contents, spelling, rest, rfl, -, hlexeme, hscan⟩ |
    ⟨gap, cause, skipped, rest, cursor, rfl, -, hstops, hscan⟩
  · rw [hscan, hs, Pos.past_append]
    exact ⟨fun tok htok => .inr (List.mem_singleton.1 htok), nofun⟩
  · have htok : Token.Lexed source ⟨kind, contents, (Pos.start.past before).past gap⟩ :=
      hlexeme.lexed (before ++ gap) (by rw [hs, List.append_assoc])
        (Pos.past_append ..).symm
    obtain ⟨c, tail, rfl, -⟩ := hlexeme.spells.exists_cons
    have hbehind : (Cursor.mk (((Pos.start.past before).past gap).past (c :: tail)) rest).StandsIn
        source :=
      ⟨before ++ (gap ++ c :: tail), by simp [hs], by simp⟩
    obtain ⟨htokens, herror⟩ := ih rest.length (by simp at hn; omega) hbehind rfl
    rw [hscan]
    refine ⟨fun t ht => ?_, herror⟩
    rcases List.mem_cons.1 ht with rfl | ht
    · exact .inl htok
    · exact htokens t ht
  · rw [hscan]
    refine ⟨nofun, fun e he => ?_⟩
    cases he
    obtain ⟨c, after, rfl, hc, hblames⟩ := hstops.blames (before ++ gap)
    exact ⟨before ++ gap ++ skipped, c, after, ⟨by simp [hs], by simp, hc⟩, hblames⟩

theorem Cursor.standsIn_start (source : Text) : (Cursor.start source).StandsIn source :=
  ⟨[], rfl, rfl⟩

theorem lexed_or_eof_of_tokenize {tokens : List Token} (h : tokenize source = .ok tokens) :
    ∀ tok ∈ tokens, tok.Lexed source ∨ tok = ⟨.eof, [], Pos.start.past source⟩ := by
  unfold tokenize at h
  cases he : (Cursor.start source).scan.error with
  | some error => simp [he] at h
  | none =>
    simp only [he, Except.ok.injEq] at h
    subst h
    exact (Cursor.standsIn_start source).scan.1

/-- One of the tokens of a source text, the end token apart, and what is known of it. -/
structure Token.StandsIn (source : Text) (tok : Token) : Prop where
  occurs : ∃ tokens, tokenize source = .ok tokens ∧ tok ∈ tokens
  kind_ne : tok.kind ≠ .eof
  lexed : tok.Lexed source

/-- The tokens of a source text stand in it, and the end token at its end. -/
theorem standsIn_of_tokenize {tokens : List Token} (h : tokenize source = .ok tokens) :
    ∃ ts, tokens = ts ++ [⟨.eof, [], Pos.start.past source⟩] ∧
      ∀ tok ∈ ts, tok.StandsIn source := by
  obtain ⟨ts, pos, rfl, hkinds⟩ := tokenize_eq_ok h
  have hall := lexed_or_eof_of_tokenize h
  have hend : (⟨.eof, [], pos⟩ : Token) = ⟨.eof, [], Pos.start.past source⟩ := by
    rcases hall ⟨.eof, [], pos⟩ (by simp) with hlexed | heof
    · obtain ⟨_, _, _, -, hbyte⟩ := hlexed.placed
      cases hbyte
    · exact heof
  refine ⟨ts, by rw [hend], fun tok htok => ?_⟩
  have hmem : tok ∈ ts ++ [⟨.eof, [], pos⟩] := List.mem_append_left _ htok
  refine ⟨⟨_, h, hmem⟩, hkinds tok htok, ?_⟩
  rcases hall tok hmem with hlexed | heof
  · exact hlexed
  · exact absurd (congrArg Token.kind heof) (hkinds tok htok)

/-- A lexical error is reported where the byte stands that is to blame. -/
theorem lexed_of_tokenize_error {e : LexError} (h : tokenize source = .error e) :
    e.Lexed source := by
  unfold tokenize at h
  cases he : (Cursor.start source).scan.error with
  | none => simp [he] at h
  | some error =>
    simp only [he, Except.error.injEq] at h
    subst h
    exact (Cursor.standsIn_start source).scan.2 error he

end Scans

end FrameLang
