import FrameLang.Proofs.Lowering.Positions
import FrameLang.Proofs.Syntax.Completion
import FrameLang.Proofs.Syntax.Displacement
import FrameLang.Proofs.Syntax.RoundTrip
import Mathlib.Data.List.Chain

/-!
# Spacing does not matter

Tokens may be written down with anything between them that separates: a blank, and behind it blanks
and comments. Whatever the separators are, the text is split into the same tokens again. So texts
that differ in separators only are read as the same program, up to positions, and built alike.

A printed program needs no blanks at all between chunks that do not run into each other.

## Main definitions

* `IsSeparator` — a blank, and behind it blanks and comments.
* `Laid` — a text that spells tokens with a separator behind each of them.
* `Chunk.Adjoins`, `Spaced` — chunks that need no blanks between them, and a text that has as many
  of them as it likes.
-/

namespace FrameLang

/-- A blank, and behind it blanks and comments. -/
def IsSeparator (text : Text) : Prop :=
  ∃ c gap, text = c :: gap ∧ isBlank c = true ∧ IsGap gap

/-- The text spells tokens with the given kinds and texts, and a separator follows each of them. -/
inductive Laid : List (TokenKind × Text) → Text → Prop where
  | nil : Laid [] []
  | cons {kind : TokenKind} {contents spelling separator text : Text}
      {lexemes : List (TokenKind × Text)} : Spells kind contents spelling →
      IsSeparator separator → Laid lexemes text →
      Laid ((kind, contents) :: lexemes) (spelling ++ (separator ++ text))

section Scanning

variable {kind : TokenKind} {text text' separator : Text} {lexemes : List (TokenKind × Text)}

theorem IsSeparator.scansTo (h : IsSeparator separator) (text : Text) :
    ScansTo (separator ++ text) text [] := by
  obtain ⟨c, gap, rfl, hc, hgap⟩ := h
  intro pos
  have hscan := (IsGap.blank hc hgap).scan pos text
  exact ⟨[], _, rfl, by rw [hscan]; rfl, by rw [hscan]⟩

/-- A text that is laid out is scanned as the tokens that it spells. -/
theorem Laid.scansTo (h : Laid lexemes text) : ScansTo text [] lexemes := by
  induction h with
  | nil => exact fun pos => ⟨[], pos, rfl, rfl, rfl⟩
  | @cons kind contents spelling separator text lexemes hspells hsep _ ih =>
    obtain ⟨c, gap, rfl, hc, hgap⟩ := id hsep
    have hlexeme : Lexeme kind contents spelling (c :: gap ++ text) :=
      ⟨hspells, kind.endsAt_of_blank (by simp [hc])⟩
    exact hlexeme.scansTo.trans ((hsep.scansTo text).trans ih)

end Scanning

/-! ## Reading -/

section Reading

variable {text text' : Text} {ts us : List Token} {pos pos' : Pos}

theorem Token.map_unplaced_of_lexemes (h : ts.map Token.lexeme = us.map Token.lexeme) :
    ts.map Token.unplaced = us.map Token.unplaced := by
  have hmap (l : List Token) :
      l.map Token.unplaced =
        (l.map Token.lexeme).map fun lexeme => ⟨lexeme.1, lexeme.2, .nowhere⟩ := by
    rw [List.map_map]
    rfl
  rw [hmap ts, hmap us, h]

/-- Tokens that differ in positions only are parsed alike. -/
theorem parseTokens_congr (h : ts.map Token.lexeme = us.map Token.lexeme)
    (hts : ∀ tok ∈ ts, tok.kind ≠ .eof) (hus : ∀ tok ∈ us, tok.kind ≠ .eof) (pos pos' : Pos) :
    (parseTokens (ts ++ [⟨.eof, [], pos⟩])).unplaced =
      (parseTokens (us ++ [⟨.eof, [], pos'⟩])).unplaced := by
  rw [parseTokens, parseTokens, TokenStream.ofTokens_eof hts rfl, TokenStream.ofTokens_eof hus rfl,
    TokenStream.parse, TokenStream.parse, ← Unfinished.feedAll_unplaced,
    ← Unfinished.feedAll_unplaced, Token.map_unplaced_of_lexemes h]

/-- Texts with the same kinds and texts of tokens are parsed alike. -/
theorem parse_congr (h : ts.map Token.lexeme = us.map Token.lexeme)
    (hts : ∀ tok ∈ ts, tok.kind ≠ .eof) (hus : ∀ tok ∈ us, tok.kind ≠ .eof)
    (htext : tokenize text = .ok (ts ++ [⟨.eof, [], pos⟩]))
    (htext' : tokenize text' = .ok (us ++ [⟨.eof, [], pos'⟩])) {p : Program}
    (hp : parse text = .ok p) : ∃ q, parse text' = .ok q ∧ q.unplaced = p.unplaced := by
  have hsame := parseTokens_congr h hts hus pos pos'
  simp only [Parse.unplaced, Parse.mk.injEq] at hsame
  obtain ⟨hprogram, herror, -⟩ := hsame
  unfold parse at hp ⊢
  rw [htext] at hp
  rw [htext']
  dsimp only at hp ⊢
  cases hnone : (parseTokens (ts ++ [⟨.eof, [], pos⟩])).error with
  | some e =>
    rw [hnone] at hp
    cases hp
  | none =>
    rw [hnone] at hp herror
    cases hp
    rw [Option.map_eq_none_iff.1 herror.symm]
    exact ⟨_, rfl, hprogram.symm⟩

end Reading

/-- A text that spells tokens is split into these tokens, whatever separates them. Texts that differ
in the separators only are read as programs that differ in positions only and are built alike. -/
theorem tokenize_laid {lexemes : List (TokenKind × Text)} {text : Text} (h : Laid lexemes text) :
    (∃ ts pos, tokenize text = .ok (ts ++ [⟨.eof, [], pos⟩]) ∧ ts.map Token.lexeme = lexemes) ∧
      ∀ text', Laid lexemes text' → ∀ p, parse text = .ok p →
        ∃ q, parse text' = .ok q ∧ q.unplaced = p.unplaced ∧
          ∀ checkArity listing, p.build checkArity = .ok listing →
            q.build checkArity = .ok listing := by
  obtain ⟨ts, pos, htext, hts, hk⟩ := h.scansTo.tokenize
  refine ⟨⟨ts, pos, htext, hts⟩, fun text' h' p hp => ?_⟩
  obtain ⟨us, pos', htext', hus, hk'⟩ := h'.scansTo.tokenize
  obtain ⟨q, hq, hsame⟩ := parse_congr (hts.trans hus.symm) hk hk' htext htext' hp
  exact ⟨q, hq, hsame, fun checkArity listing hbuild => Program.build_congr hsame hbuild⟩

/-- Two layouts of one line, of which one has comments. -/
theorem tokenize_laid_comments :
    Laid [(.identifier, ['x']), (.semicolon, [';'])] "x ; ".toList ∧
      Laid [(.identifier, ['x']), (.semicolon, [';'])] "x\t/*;*/;\n//\n".toList ∧
      ∃ p q, parse "x ; ".toList = .ok p ∧ parse "x\t/*;*/;\n//\n".toList = .ok q ∧
        q.unplaced = p.unplaced ∧ ∀ checkArity listing, p.build checkArity = .ok listing →
          q.build checkArity = .ok listing := by
  have hx : Spells .identifier ['x'] ['x'] := .name (by decide)
  have hend : Spells .semicolon [';'] [';'] := .fixed rfl
  have hplain : Laid [(.identifier, ['x']), (.semicolon, [';'])] "x ; ".toList :=
    .cons hx ⟨' ', [], rfl, rfl, .nil⟩ (.cons hend ⟨' ', [], rfl, rfl, .nil⟩ .nil)
  have hcomments : Laid [(.identifier, ['x']), (.semicolon, [';'])] "x\t/*;*/;\n//\n".toList :=
    .cons hx ⟨'\t', "/*;*/".toList, rfl, rfl, @IsGap.blockComment [';'] [] (by decide) .nil⟩
      (.cons hend ⟨'\n', "//\n".toList, rfl, rfl, @IsGap.lineComment [] [] (by decide) .nil⟩ .nil)
  have hok : (parse "x ; ".toList).isOk = true := by decide +kernel
  cases hp : parse "x ; ".toList with
  | error e =>
    rw [hp] at hok
    cases hok
  | ok p =>
    obtain ⟨q, hq⟩ := (tokenize_laid hplain).2 _ hcomments p hp
    exact ⟨hplain, hcomments, p, q, rfl, hq⟩

/-! ## Blanks between chunks -/

/-- The first chunk ends where the second one starts, also if nothing is between them. -/
def Chunk.Adjoins (first second : Chunk) : Prop :=
  ∀ rest, first.lastKind.EndsAt (second.spelling ++ rest)

/-- The text spells chunks with any number of blanks, or none, around them. -/
inductive Spaced : List Chunk → Text → Prop where
  | nil {blanks : Text} : blanks.all isBlank = true → Spaced [] blanks
  | cons {blanks text : Text} {chunk : Chunk} {chunks : List Chunk} : blanks.all isBlank = true →
      Spaced chunks text → Spaced (chunk :: chunks) (blanks ++ (chunk.spelling ++ text))

section Chunks

variable {text : Text} {chunk : Chunk} {chunks : List Chunk}

/-- A text may have no blanks at all. -/
theorem spaced_flatMap (chunks : List Chunk) : Spaced chunks (chunks.flatMap Chunk.spelling) := by
  induction chunks with
  | nil => exact .nil rfl
  | cons chunk rest ih => exact @Spaced.cons [] _ chunk rest rfl ih

theorem scansTo_blanks {blanks : Text} (h : blanks.all isBlank = true) (rest : Text) :
    ScansTo (blanks ++ rest) rest [] := by
  intro pos
  have hscan := Cursor.scan_blanks blanks h pos rest
  exact ⟨[], _, rfl, by rw [hscan]; rfl, by rw [hscan]⟩

/-- A chunk ends where blanks or a chunk follow that it adjoins. -/
theorem Spaced.endsAt (h : Spaced chunks text) (hadj : ∀ next ∈ chunks.head?, chunk.Adjoins next) :
    chunk.lastKind.EndsAt text := by
  cases h with
  | nil hb =>
    refine TokenKind.endsAt_of_blank _ fun c hc => ?_
    exact List.all_eq_true.1 hb c (List.mem_of_mem_head? hc)
  | @cons blanks text next chunks hb _ =>
    cases blanks with
    | nil => exact hadj next rfl text
    | cons c blanks =>
      rw [List.all_cons, Bool.and_eq_true] at hb
      exact TokenKind.endsAt_of_blank _ (by simp [hb.1])

/-- Chunks that adjoin each other are scanned one by one. -/
theorem Spaced.scansTo (h : Spaced chunks text) (hp : chunks.all Chunk.isProper = true)
    (hadj : chunks.IsChain Chunk.Adjoins) : ScansTo text [] (chunks.flatMap Chunk.lexemes) := by
  induction h with
  | nil hb => simpa using scansTo_blanks hb []
  | @cons blanks text chunk chunks hb hspaced ih =>
    rw [List.all_cons, Bool.and_eq_true] at hp
    obtain ⟨hnext, hrest⟩ := List.isChain_cons.1 hadj
    have hchunk := Chunk.scansTo hp.1 (hspaced.endsAt hnext)
    exact (scansTo_blanks hb _).trans (hchunk.trans (ih hp.2 hrest))

/-- A program is read back from its chunks, whatever blanks are around them. -/
theorem Program.parse_spaced {p : Program} (hp : p.isProper = true)
    (hadj : p.chunks.IsChain Chunk.Adjoins) (h : Spaced p.chunks text) :
    ∃ q, parse text = .ok q ∧ q.unplaced = p.unplaced := by
  obtain ⟨ts, pos, htext, hts, hk⟩ := (h.scansTo (p.all_isProper_chunks hp) hadj).tokenize
  have hreads : Reads pos (fun q => Program.unplaced q = p.unplaced)
      (fun tok => (Unfinished.line (.top [])).feed tok) ts :=
    p.readsChunks pos _ hp [] (fun _ hq => hq) ts hts
  obtain ⟨herror, hprogram⟩ := Unfinished.reads_feedAll.1 hreads
  refine ⟨_, ?_, hprogram⟩
  simp only [parse, htext, parseTokens, TokenStream.ofTokens_eof hk, TokenStream.parse, herror]

end Chunks

end FrameLang
