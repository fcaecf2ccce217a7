import FrameLang.Proofs.Syntax.Literals
import FrameLang.Proofs.Syntax.Printing
import FrameLang.Proofs.Syntax.Scanning

/-!
# Gaps and lexemes

What a source text is made of, said apart from how it is scanned: the gaps between lexemes, and the
lexemes with the tokens that they denote. A lexeme is always the longest one, so whether a text is a
lexeme depends on what follows it.

Scanning skips exactly the gaps and reads exactly the lexemes, and where it stops there is neither.

## Main definitions

* `IsGap`, `GapEnds` — what may stand between lexemes, and where no more of it follows.
* `Written` — the ways to write the contents of a string.
* `Spells`, `Lexeme` — how tokens are spelled, and where such a spelling is a lexeme.
* `LexCause.Stops` — where no lexeme can be read, for each reason.
-/

namespace FrameLang

/-! ## The parts of a text -/

/-- What may stand between lexemes: blanks, comments with the newline that ends them, and comments
that are closed at the first `*/`. -/
inductive IsGap : Text → Prop where
  | nil : IsGap []
  | blank {c : Char} {gap : Text} : isBlank c = true → IsGap gap → IsGap (c :: gap)
  | lineComment {body gap : Text} : '\n' ∉ body → IsGap gap →
      IsGap ('/' :: '/' :: (body ++ '\n' :: gap))
  | blockComment {body gap : Text} : ¬ ['*', '/'] <:+: body → IsGap gap →
      IsGap ('/' :: '*' :: (body ++ '*' :: '/' :: gap))

/-- What may stand behind the last lexeme: a gap, or a gap and a comment that ends with the text. -/
inductive IsLastGap : Text → Prop where
  | gap {gap : Text} : IsGap gap → IsLastGap gap
  | lineComment {gap body : Text} : IsGap gap → '\n' ∉ body →
      IsLastGap (gap ++ '/' :: '/' :: body)

/-- Neither a blank nor a comment follows. -/
structure GapEnds (text : Text) : Prop where
  blank : ∀ c ∈ text.head?, isBlank c = false
  lineComment : ¬ ['/', '/'] <+: text
  blockComment : ¬ ['/', '*'] <+: text

/-- The contents of a string and the ways to write them between quotes. A quote and a backslash are
always escaped; what else has an escape is written raw or escaped. -/
inductive Written : Text → Text → Prop where
  | nil : Written [] []
  | raw {c : Char} {contents body : Text} : c ≠ '"' → c ≠ '\\' → Written contents body →
      Written (c :: contents) (c :: body)
  | escaped {c : Char} {contents body : Text} : Written contents body →
      Written (c :: contents) (escape c ++ body)

/-- The spellings of a token with the given kind and text. -/
inductive Spells : TokenKind → Text → Text → Prop where
  | name {word : Text} : isName word = true → Spells .identifier word word
  | numeral {digits : Text} : digits ≠ [] → (∀ c ∈ digits, c.isDigit = true) →
      Spells .integer digits digits
  | quoted {contents body : Text} : Written contents body →
      Spells .string contents ('"' :: (body ++ ['"']))
  | fixed {kind : TokenKind} : kind.isFixed = true → Spells kind kind.name kind.name

/-- What may follow a spelling, so that no longer lexeme and no comment starts where it does. -/
structure TokenKind.EndsAt (kind : TokenKind) (rest : Text) : Prop where
  /-- A word or a numeral is not followed by what a name goes on with. -/
  word : kind ∈ .identifier :: .integer :: TokenKind.keywords →
    ∀ c ∈ rest.head?, isNamePart c = false
  symbol : kind ∈ [.assign, .lt, .gt] → rest.head? ≠ some '='
  slash : kind = .slash → rest.head? ≠ some '/' ∧ rest.head? ≠ some '*'

/-- A lexeme in front of `rest`: a spelling of a token that ends there. -/
structure Lexeme (kind : TokenKind) (text spelling rest : Text) : Prop where
  spells : Spells kind text spelling
  endsAt : kind.EndsAt rest

/-- Why no lexeme can be read: what stands before the place that is reported, and what follows
it. -/
inductive LexCause.Stops : LexCause → Text → Text → Prop where
  /-- No gap and no lexeme starts with the byte. -/
  | unexpected {c : Char} {rest : Text} : isBlank c = false → isNameStart c = false →
      c.isDigit = false → c ≠ '"' → symbolKind c = none → Stops (.unexpected c) [] (c :: rest)
  | numeralTail {digits rest : Text} {c : Char} : digits ≠ [] → (∀ d ∈ digits, d.isDigit = true) →
      isNameStart c = true → Stops .numeralTail digits (c :: rest)
  /-- The first backslash that stands for nothing, also one at the end of the text. -/
  | badEscape {contents body rest : Text} : Written contents body →
      (∀ c ∈ rest.head?, unescape c = none) → Stops .badEscape [] ('"' :: (body ++ '\\' :: rest))
  | openString {contents body : Text} : Written contents body → Stops .openString [] ('"' :: body)
  | openComment {body : Text} : ¬ ['*', '/'] <:+: body → Stops .openComment [] ('/' :: '*' :: body)

/-! ## Gaps -/

section Gaps

variable {gap body text rest : Text} {pos opened : Pos} {c : Char}

theorem Gap.skip_blank (hc : isBlank c = true) :
    Gap.skip .between pos (c :: rest) = Gap.skip .between (pos.next c) rest := by
  rw [Gap.skip]
  · rw [if_pos hc]
  all_goals
    rintro _ rfl
    exact absurd hc (by decide)

theorem Gap.skip_lineComment (h : '\n' ∉ body) :
    Gap.skip .lineComment pos (body ++ '\n' :: rest) =
      Gap.skip .between (pos.past (body ++ ['\n'])) rest := by
  induction body generalizing pos with
  | nil => simp [Gap.skip]
  | cons c body ih =>
    rw [List.mem_cons, not_or] at h
    rw [List.cons_append, Gap.skip, if_neg (Ne.symm h.1), ih h.2]
    rfl

theorem Gap.skip_lastComment (h : '\n' ∉ body) :
    Gap.skip .lineComment pos body = .ok ⟨pos.past body, []⟩ := by
  induction body generalizing pos with
  | nil => rfl
  | cons c body ih =>
    rw [List.mem_cons, not_or] at h
    rw [Gap.skip, if_neg (Ne.symm h.1), ih h.2]
    rfl

theorem Gap.skip_blockComment (h : ¬ ['*', '/'] <:+: body) :
    Gap.skip (.blockComment opened) pos (body ++ '*' :: '/' :: rest) =
      Gap.skip .between (pos.past (body ++ ['*', '/'])) rest := by
  induction body generalizing pos with
  | nil => simp [Gap.skip]
  | cons c body ih =>
    rw [List.infix_cons_iff, not_or] at h
    rw [List.cons_append, Gap.skip, ih h.2]
    · rfl
    -- The comment is not closed at `c`.
    rintro tail rfl htail
    cases body with
    | nil => cases htail
    | cons d body =>
      cases htail
      exact h.1 (by simp)

theorem Gap.skip_openComment (h : ¬ ['*', '/'] <:+: body) :
    Gap.skip (.blockComment opened) pos body =
      .error ⟨⟨opened, .openComment⟩, ⟨pos.past body, []⟩⟩ := by
  induction body generalizing pos with
  | nil => rfl
  | cons c body ih =>
    rw [List.infix_cons_iff, not_or] at h
    rw [Gap.skip, ih h.2]
    · rfl
    rintro tail rfl rfl
    exact h.1 (by simp)

theorem IsGap.skip (h : IsGap gap) :
    Gap.skip .between pos (gap ++ rest) = Gap.skip .between (pos.past gap) rest := by
  induction h generalizing pos with
  | nil => rfl
  | blank hc _ ih => rw [List.cons_append, Gap.skip_blank hc, ih, Pos.past_cons]
  | lineComment hbody _ ih =>
    rw [List.cons_append, List.cons_append, List.append_assoc, List.cons_append, Gap.skip,
      Gap.skip_lineComment hbody, ih]
    simp
  | blockComment hbody _ ih =>
    rw [List.cons_append, List.cons_append, List.append_assoc, List.cons_append, List.cons_append,
      Gap.skip, Gap.skip_blockComment hbody, ih]
    simp

theorem GapEnds.skip (h : GapEnds text) : Gap.skip .between pos text = .ok ⟨pos, text⟩ := by
  cases text with
  | nil => rfl
  | cons c rest =>
    rw [Gap.skip]
    · simp [h.blank c rfl]
    · rintro tail rfl rfl
      exact h.lineComment (by simp)
    · rintro tail rfl rfl
      exact h.blockComment (by simp)

/-- A gap is skipped. -/
theorem IsGap.scan (h : IsGap gap) (pos : Pos) (rest : Text) :
    (Cursor.mk pos (gap ++ rest)).scan = (Cursor.mk (pos.past gap) rest).scan := by
  rw [Cursor.scan_eq, h.skip, ← Cursor.scan_eq ⟨pos.past gap, rest⟩]

theorem isGap_of_blanks (h : text.all isBlank = true) : IsGap text := by
  induction text with
  | nil => exact .nil
  | cons c text ih =>
    rw [List.all_cons, Bool.and_eq_true] at h
    exact .blank h.1 (ih h.2)

/-- Blanks are skipped. -/
theorem Cursor.scan_blanks (blanks : Text) (h : blanks.all isBlank = true) (pos : Pos)
    (rest : Text) :
    (Cursor.mk pos (blanks ++ rest)).scan = (Cursor.mk (pos.past blanks) rest).scan :=
  (isGap_of_blanks h).scan pos rest

/-- A text in which `*/` occurs is cut at its first occurrence. -/
theorem exists_closed (h : ['*', '/'] <:+: text) :
    ∃ body rest, text = body ++ '*' :: '/' :: rest ∧ ¬ ['*', '/'] <:+: body := by
  induction text with
  | nil => simp at h
  | cons c text ih =>
    by_cases hfirst : ['*', '/'] <+: c :: text
    · obtain ⟨rest, hrest⟩ := hfirst
      exact ⟨[], rest, hrest.symm, by simp⟩
    · obtain ⟨body, rest, rfl, hbody⟩ := ih ((List.infix_cons_iff.1 h).resolve_left hfirst)
      refine ⟨c :: body, rest, rfl, fun hin => ?_⟩
      rcases List.infix_cons_iff.1 hin with hpre | hin
      · exact hfirst (hpre.trans (List.prefix_append (c :: body) _))
      · exact hbody hin

/-- What may follow a gap: what is no gap, a comment that ends with the text, or a comment that is
never closed. -/
inductive BehindGap : Text → Prop where
  | ends {text : Text} : GapEnds text → BehindGap text
  | lastComment {body : Text} : '\n' ∉ body → BehindGap ('/' :: '/' :: body)
  | openComment {body : Text} : ¬ ['*', '/'] <:+: body → BehindGap ('/' :: '*' :: body)

/-- Every text starts with a gap, which ends where it can end. -/
theorem exists_gap (text : Text) : ∃ gap rest, text = gap ++ rest ∧ IsGap gap ∧ BehindGap rest := by
  -- Each round takes a blank or a whole comment off the text.
  induction hn : text.length using Nat.strongRecOn generalizing text with
  | ind n ih =>
  by_cases hends : GapEnds text
  · exact ⟨[], text, rfl, .nil, .ends hends⟩
  by_cases hline : ['/', '/'] <+: text
  · obtain ⟨rest, rfl⟩ := hline
    by_cases hnewline : '\n' ∈ rest
    · obtain ⟨body, rest, rfl, hbody⟩ := List.eq_append_cons_of_mem hnewline
      obtain ⟨gap, rest, rfl, hgap, hrest⟩ := ih rest.length (by simp at hn; omega) rest rfl
      exact ⟨'/' :: '/' :: (body ++ '\n' :: gap), rest, by simp, .lineComment hbody hgap, hrest⟩
    · exact ⟨[], _, rfl, .nil, .lastComment hnewline⟩
  by_cases hblock : ['/', '*'] <+: text
  · obtain ⟨rest, rfl⟩ := hblock
    by_cases hclosed : ['*', '/'] <:+: rest
    · obtain ⟨body, rest, rfl, hbody⟩ := exists_closed hclosed
      obtain ⟨gap, rest, rfl, hgap, hrest⟩ := ih rest.length (by simp at hn; omega) rest rfl
      exact ⟨'/' :: '*' :: (body ++ '*' :: '/' :: gap), rest, by simp, .blockComment hbody hgap,
        hrest⟩
    · exact ⟨[], _, rfl, .nil, .openComment hclosed⟩
  · obtain ⟨c, rest, rfl, hc⟩ : ∃ c rest, text = c :: rest ∧ isBlank c = true := by
      cases text with
      | nil => exact absurd ⟨nofun, hline, hblock⟩ hends
      | cons c rest =>
        refine ⟨c, rest, rfl, Classical.not_not.1 fun hc => hends ⟨?_, hline, hblock⟩⟩
        intro d hd
        cases hd
        simpa using hc
    obtain ⟨gap, rest, rfl, hgap, hrest⟩ := ih rest.length (by simp at hn; omega) rest rfl
    exact ⟨c :: gap, rest, rfl, .blank hc hgap, hrest⟩

/-- Reading a gap ends behind it, at the end of the text, or in a comment that is never closed. -/
theorem Gap.skip_cases (pos : Pos) (text : Text) :
    (∃ gap rest, text = gap ++ rest ∧ IsGap gap ∧ GapEnds rest ∧
        Gap.skip .between pos text = .ok ⟨pos.past gap, rest⟩) ∨
      (IsLastGap text ∧ Gap.skip .between pos text = .ok ⟨pos.past text, []⟩) ∨
      ∃ gap rest cursor, text = gap ++ rest ∧ IsGap gap ∧ LexCause.openComment.Stops [] rest ∧
        Gap.skip .between pos text = .error ⟨⟨pos.past gap, .openComment⟩, cursor⟩ := by
  obtain ⟨gap, rest, rfl, hgap, hrest⟩ := exists_gap text
  rw [hgap.skip]
  cases hrest with
  | ends hends => exact .inl ⟨gap, rest, rfl, hgap, hends, hends.skip⟩
  | lastComment hbody =>
    refine .inr (.inl ⟨.lineComment hgap hbody, ?_⟩)
    rw [Gap.skip, Gap.skip_lastComment hbody, Pos.past_append]
    rfl
  | openComment hbody =>
    exact .inr (.inr ⟨gap, _, _, rfl, hgap, .openComment hbody, by
      rw [Gap.skip, Gap.skip_openComment hbody]⟩)

end Gaps

/-! ## Strings -/

section Strings

variable {contents body rest : Text} {opened pos : Pos} {c e : Char}

theorem escape_of_unescape (h : unescape e = some c) : escape c = ['\\', e] := by
  unfold unescape at h
  split at h <;> cases h <;> rfl

theorem quoted_raw (hq : c ≠ '"') (hb : c ≠ '\\') :
    quoted opened pos (c :: rest) =
      (quoted opened (pos.next c) rest).map fun (text, cursor) => (c :: text, cursor) := by
  rw [quoted]
  · exact hq
  · exact fun h _ => hb h
  · exact fun _ _ h _ => hb h

/-- A character of a string is read back. -/
theorem quoted_escape (c : Char) :
    quoted opened pos (escape c ++ rest) =
      (quoted opened (pos.past (escape c)) rest).map fun (text, cursor) => (c :: text, cursor) := by
  unfold escape
  split
  case h_6 hq hb => exact quoted_raw hq hb
  all_goals rfl

/-- The contents of a string are read back, whatever they are and however they are written. -/
theorem Written.quoted_append (h : Written contents body) (opened pos : Pos) (rest : Text) :
    quoted opened pos (body ++ rest) = (quoted opened (pos.past body) rest).map
      fun (text, cursor) => (contents ++ text, cursor) := by
  induction h generalizing pos with
  | nil => cases h : quoted opened pos rest <;> simp [h, Except.map]
  | raw hq hb _ ih =>
    rw [List.cons_append, quoted_raw hq hb, ih, Pos.past_cons]
    cases quoted opened _ rest <;> rfl
  | escaped _ ih =>
    rw [List.append_assoc, quoted_escape, ih, Pos.past_append]
    cases quoted opened _ rest <;> rfl

/-- What may follow the contents of a string: the quote that closes it, the end of the text, or a
backslash that stands for nothing. -/
inductive BehindContents : Text → Prop where
  | closed {rest : Text} : BehindContents ('"' :: rest)
  | openString : BehindContents []
  | badEscape {rest : Text} : (∀ c ∈ rest.head?, unescape c = none) → BehindContents ('\\' :: rest)

theorem exists_written (text : Text) :
    ∃ contents body rest, text = body ++ rest ∧ Written contents body ∧ BehindContents rest := by
  -- Each round takes one character of the contents off the text, which may be two in the text.
  induction hn : text.length using Nat.strongRecOn generalizing text with
  | ind n ih =>
  cases text with
  | nil => exact ⟨[], [], [], rfl, .nil, .openString⟩
  | cons c rest =>
  by_cases hq : c = '"'
  · exact ⟨[], [], _, rfl, .nil, hq ▸ .closed⟩
  by_cases hb : c = '\\'
  · subst hb
    cases rest with
    | nil => exact ⟨[], [], _, rfl, .nil, .badEscape nofun⟩
    | cons e rest =>
    cases he : unescape e with
    | none => exact ⟨[], [], _, rfl, .nil, .badEscape (by simpa using he)⟩
    | some c =>
      obtain ⟨contents, body, rest, rfl, hbody, hrest⟩ :=
        ih rest.length (by simp at hn; omega) rest rfl
      have hwritten : Written (c :: contents) (escape c ++ body) := .escaped hbody
      rw [escape_of_unescape he] at hwritten
      exact ⟨c :: contents, _, rest, rfl, hwritten, hrest⟩
  · obtain ⟨contents, body, rest, rfl, hbody, hrest⟩ :=
      ih rest.length (by simp at hn; omega) rest rfl
    exact ⟨c :: contents, c :: body, rest, rfl, .raw hq hb hbody, hrest⟩

end Strings

/-! ## Characters -/

section Characters

variable {c : Char}

/-- Characters above the space are no blanks. -/
theorem isBlank_of_lt (h : 32 < c.toNat) : isBlank c = false := by
  rw [Bool.eq_false_iff]
  intro hb
  simp only [isBlank, Bool.or_eq_true, Bool.and_eq_true, decide_eq_true_eq] at hb
  rcases hb with rfl | ⟨-, hb⟩
  · exact absurd h (by decide)
  · have hle : c.toNat ≤ '\r'.toNat := Char.le_def.1 hb
    have hr : '\r'.toNat = 13 := rfl
    omega

/-- Letters and the underscore are above the digits. -/
theorem lt_toNat_of_isNameStart (h : isNameStart c = true) : 57 < c.toNat := by
  simp only [isNameStart, Bool.or_eq_true, decide_eq_true_eq] at h
  rcases h with h | rfl
  · rcases Bool.or_eq_true_iff.1 h with hupper | hlower
    · have hle : 'A'.val ≤ c.val := (of_decide_eq_true hupper).1
      exact Nat.lt_of_lt_of_le (by decide) (UInt32.le_iff_toNat_le.1 hle)
    · have hle : 'a'.val ≤ c.val := of_decide_eq_true (Bool.and_eq_true_iff.1 hlower).1
      exact Nat.lt_of_lt_of_le (by decide) (UInt32.le_iff_toNat_le.1 hle)
  · decide

theorem isNameStart_of_isDigit (h : c.isDigit = true) : isNameStart c = false := by
  obtain ⟨-, h₉⟩ : 48 ≤ c.toNat ∧ c.toNat ≤ 57 := Char.isDigit_iff_toNat.1 h
  rw [Bool.eq_false_iff]
  intro hname
  exact absurd (lt_toNat_of_isNameStart hname) (by omega)

theorem isNamePart_eq (c : Char) : isNamePart c = (isNameStart c || c.isDigit) := by
  simp only [isNamePart, isNameStart, Char.isAlphanum]
  cases c.isAlpha <;> cases c.isDigit <;> simp

theorem lt_toNat_of_isNamePart (h : isNamePart c = true) : 32 < c.toNat := by
  rw [isNamePart_eq, Bool.or_eq_true] at h
  rcases h with hstart | hdigit
  · exact Nat.lt_trans (by decide) (lt_toNat_of_isNameStart hstart)
  · exact Nat.lt_of_lt_of_le (by decide) (Char.isDigit_iff_toNat.1 hdigit).1

/-- A run of characters of one class ends where the class does. -/
theorem takeWhile_run {p : Char → Bool} {run rest : Text} (hrun : ∀ c ∈ run, p c = true)
    (hrest : ∀ c ∈ rest.head?, p c = false) :
    (run ++ rest).takeWhile p = run ∧ (run ++ rest).dropWhile p = rest := by
  rw [List.takeWhile_append_of_pos hrun, List.dropWhile_append_of_pos hrun]
  cases rest with
  | nil => simp
  | cons c rest => simp [hrest c rfl]

theorem head?_dropWhile_run (p : Char → Bool) (text : Text) :
    ∀ c ∈ (text.dropWhile p).head?, p c = false := by
  intro c hc
  have hnot := List.head?_dropWhile_not p text
  rw [hc] at hnot
  exact hnot

end Characters

/-! ## Lexemes -/

section Lexemes

variable {kind : TokenKind} {text spelling rest behind : Text} {c : Char} {pos : Pos}

/-- A keyword is spelled like a name. -/
theorem TokenKind.name_of_mem_keywords (h : kind ∈ TokenKind.keywords) :
    ∃ c word, kind.name = c :: word ∧ isNameStart c = true ∧ word.all isNamePart = true ∧
      TokenKind.ofWord (c :: word) = kind := by
  simp only [TokenKind.keywords, List.mem_cons, List.not_mem_nil, or_false] at h
  rcases h with rfl | rfl | rfl | rfl | rfl | rfl | rfl <;>
    exact ⟨_, _, rfl, by decide, by decide, by decide⟩

theorem TokenKind.ofWord_cases (word : Text) :
    TokenKind.ofWord word = .identifier ∨
      TokenKind.ofWord word ∈ TokenKind.keywords ∧ (TokenKind.ofWord word).name = word := by
  unfold TokenKind.ofWord
  cases h : TokenKind.keywords.find? fun k => k.name = word with
  | none => exact .inl rfl
  | some kind =>
    have hname := List.find?_some h
    exact .inr ⟨List.mem_of_find?_eq_some h, by simpa using hname⟩

/-- Only words and numerals are not followed by what a name goes on with. -/
theorem TokenKind.endsAt_of_word (hk : kind ∈ .identifier :: .integer :: TokenKind.keywords)
    (h : ∀ c ∈ rest.head?, isNamePart c = false) : kind.EndsAt rest := by
  refine ⟨fun _ => h, fun hs => ?_, fun hs => ?_⟩
  · simp only [List.mem_cons, List.not_mem_nil, or_false] at hs
    rcases hs with rfl | rfl | rfl <;> exact absurd hk (by decide)
  · exact absurd (hs ▸ hk) (by decide)

/-- Every spelling ends at a blank, and at the end of the text. -/
theorem TokenKind.endsAt_of_blank (kind : TokenKind) (h : ∀ c ∈ rest.head?, isBlank c = true) :
    kind.EndsAt rest := by
  have hne {c : Char} (hc : isBlank c = false) : rest.head? ≠ some c := fun hrest =>
    absurd (h c hrest) (by simp [hc])
  refine ⟨fun _ c hc => ?_, fun _ => hne (by decide), fun _ => ⟨hne (by decide), hne (by decide)⟩⟩
  rw [Bool.eq_false_iff]
  intro hpart
  exact absurd (isBlank_of_lt (lt_toNat_of_isNamePart hpart)) (by simp [h c hc])

theorem TokenKind.isFixed_of_mem_keywords (h : kind ∈ TokenKind.keywords) :
    kind.isFixed = true := by
  simp only [TokenKind.keywords, List.mem_cons, List.not_mem_nil, or_false] at h
  rcases h with rfl | rfl | rfl | rfl | rfl | rfl | rfl <;> rfl

/-- The longest symbol is read, if no comment opens there. -/
theorem symbol_eq_some (hg : GapEnds (c :: rest))
    (h : symbol c rest = some (kind, spelling, behind)) :
    spelling = kind.name ∧ c :: rest = kind.name ++ behind ∧ kind.isFixed = true ∧
      kind.EndsAt behind := by
  unfold symbol at h
  split at h
  case h_1 k tail hk =>
    cases h
    unfold symbolKindEq at hk
    split at hk <;> cases hk <;>
      exact ⟨rfl, rfl, rfl, by simp [TokenKind.keywords], by simp, by simp⟩
  case h_2 hshort =>
    obtain ⟨k, hk, heq⟩ := Option.map_eq_some_iff.1 h
    cases heq
    unfold symbolKind at hk
    split at hk
    case h_15 => cases hk
    case h_11 =>
      cases hk
      refine ⟨rfl, rfl, rfl, by simp [TokenKind.keywords], by simp, fun _ => ⟨?_, ?_⟩⟩ <;>
        intro hhead <;> obtain ⟨tail, rfl⟩ := List.head?_eq_some_iff.1 hhead
      · exact hg.lineComment (by simp)
      · exact hg.blockComment (by simp)
    case h_7 | h_13 | h_14 =>
      cases hk
      refine ⟨rfl, rfl, rfl, by simp [TokenKind.keywords], fun _ hrest => ?_, by simp⟩
      obtain ⟨tail, rfl⟩ := List.head?_eq_some_iff.1 hrest
      exact hshort _ tail rfl rfl
    all_goals
      cases hk
      exact ⟨rfl, rfl, rfl, by simp [TokenKind.keywords], by simp, by simp⟩

theorem symbol_of_head?_ne (h : rest.head? ≠ some '=') :
    symbol c rest = (symbolKind c).map fun kind => (kind, [c], rest) := by
  unfold symbol
  split
  · exact absurd rfl h
  · rfl

/-- A symbol is read as it is spelled. -/
theorem symbol_of_endsAt (hk : kind.isFixed = true) (hword : kind ∉ TokenKind.keywords)
    (h : kind.EndsAt behind) (heq : c :: rest = kind.name ++ behind) :
    symbol c rest = some (kind, kind.name, behind) ∧ (symbolKind c).isSome = true := by
  cases kind
  case kwFn | kwIf | kwElse | kwLoop | kwBreak | kwTrue | kwFalse =>
    exact absurd (by decide) hword
  case eof | invalid | identifier | integer | string | unknown => exact absurd hk (by decide)
  case assign | lt | gt =>
    cases heq
    exact ⟨symbol_of_head?_ne (h.symbol (by simp)), rfl⟩
  all_goals
    cases heq
    exact ⟨rfl, rfl⟩

theorem class_of_symbolKind (h : (symbolKind c).isSome = true) :
    isBlank c = false ∧ isNameStart c = false ∧ c.isDigit = false ∧ c ≠ '"' := by
  unfold symbolKind at h
  split at h
  case h_15 => simp at h
  all_goals decide

/-- A word is read to its end. -/
theorem Cursor.lexeme_word {word : Text} (pos : Pos) (hc : isNameStart c = true)
    (hword : ∀ d ∈ word, isNamePart d = true) (hrest : ∀ d ∈ behind.head?, isNamePart d = false) :
    Cursor.lexeme pos c (word ++ behind) =
      .ok (⟨TokenKind.ofWord (c :: word), c :: word, pos⟩, ⟨pos.past (c :: word), behind⟩) := by
  obtain ⟨htake, hdrop⟩ := takeWhile_run hword hrest
  simp only [Cursor.lexeme, hc, if_true, htake, hdrop]

/-- A lexeme is read, and its token starts where the lexeme does. -/
theorem Lexeme.read (h : Lexeme kind text spelling behind) (heq : c :: rest = spelling ++ behind) :
    Cursor.lexeme pos c rest = .ok (⟨kind, text, pos⟩, ⟨pos.past spelling, behind⟩) := by
  obtain ⟨hspells, hends⟩ := h
  cases hspells with
  | name hname =>
    cases text with
    | nil => exact absurd hname (by decide)
    | cons c word =>
      cases heq
      simp only [isName, Bool.and_eq_true, List.all_eq_true, decide_eq_true_eq] at hname
      obtain ⟨⟨hc, hword⟩, hof⟩ := hname
      have hread := Cursor.lexeme_word pos hc hword (hends.word (by simp))
      rwa [hof] at hread
  | numeral hne hdigits =>
    cases text with
    | nil => exact absurd rfl hne
    | cons c digits =>
      cases heq
      have hc := hdigits c (.head _)
      have hpart := hends.word (by simp)
      simp only [isNamePart_eq, Bool.or_eq_false_iff] at hpart
      obtain ⟨htake, hdrop⟩ := takeWhile_run (p := Char.isDigit)
        (fun d hd => hdigits d (.tail _ hd)) fun d hd => (hpart d hd).2
      have hany : behind.head?.any isNameStart = false := by
        cases hhead : behind.head? with
        | none => rfl
        | some d => exact (hpart d hhead).1
      simp [Cursor.lexeme, isNameStart_of_isDigit hc, hc, htake, hdrop, hany]
  | quoted hwritten =>
    cases heq
    have hq := hwritten.quoted_append pos (pos.next '"') ('"' :: behind)
    simp [Cursor.lexeme, isNameStart, hq, quoted, Except.map]
  | fixed hk =>
    by_cases hword : kind ∈ TokenKind.keywords
    · obtain ⟨d, word, hname, hd, hparts, hof⟩ := TokenKind.name_of_mem_keywords hword
      rw [hname] at heq ⊢
      cases heq
      have hread := Cursor.lexeme_word pos hd (List.all_eq_true.1 hparts)
        (hends.word (by simp [hword]))
      rwa [hof] at hread
    · obtain ⟨hsymbol, hc⟩ := symbol_of_endsAt hk hword hends heq
      obtain ⟨-, hstart, hdigit, hquote⟩ := class_of_symbolKind hc
      simp [Cursor.lexeme, hstart, hdigit, hquote, hsymbol]

/-- No spelling starts with a blank, and only that of a division with a slash. -/
theorem Spells.exists_cons (h : Spells kind text spelling) :
    ∃ c tail, spelling = c :: tail ∧ isBlank c = false ∧ (c = '/' → kind = .slash ∧ tail = []) := by
  -- Names and numerals start above the slash.
  have hlarge {c : Char} (hc : 47 < c.toNat) {P : Prop} : isBlank c = false ∧ (c = '/' → P) :=
    ⟨isBlank_of_lt (by omega), fun h => absurd hc (by rw [h]; decide)⟩
  cases h with
  | name hname =>
    cases text with
    | nil => exact absurd hname (by decide)
    | cons c word =>
      simp only [isName, Bool.and_eq_true] at hname
      have hlt := lt_toNat_of_isNameStart hname.1.1
      exact ⟨c, word, rfl, hlarge (by omega)⟩
  | numeral hne hdigits =>
    obtain ⟨c, digits, rfl⟩ := List.exists_cons_of_ne_nil hne
    obtain ⟨h₀, -⟩ : 48 ≤ c.toNat ∧ c.toNat ≤ 57 := Char.isDigit_iff_toNat.1 (hdigits c (.head _))
    exact ⟨c, digits, rfl, hlarge (by omega)⟩
  | quoted => exact ⟨'"', _, rfl, by decide, fun h => absurd h (by decide)⟩
  | fixed hk =>
    cases kind
    case eof | invalid | identifier | integer | string | unknown => exact absurd hk (by decide)
    all_goals exact ⟨_, _, rfl, by decide, by decide⟩

/-- No blank and no comment starts where a lexeme does. -/
theorem Lexeme.gapEnds (h : Lexeme kind text spelling behind) : GapEnds (spelling ++ behind) := by
  obtain ⟨c, tail, rfl, hblank, hslash⟩ := h.spells.exists_cons
  refine ⟨fun d hd => ?_, fun hopen => ?_, fun hopen => ?_⟩
  · cases hd
    exact hblank
  all_goals
    obtain ⟨rfl, hnext⟩ := List.cons_prefix_cons.1 hopen
    obtain ⟨rfl, rfl⟩ := hslash rfl
    obtain ⟨rest, rfl⟩ := hnext
    have hends := h.endsAt.slash rfl
    simp at hends

/-- Reading goes on behind a lexeme. -/
theorem Lexeme.scan (h : Lexeme kind text spelling behind) (pos : Pos) :
    (Cursor.mk pos (spelling ++ behind)).scan =
      (Cursor.mk (pos.past spelling) behind).scan.cons ⟨kind, text, pos⟩ := by
  obtain ⟨c, tail, rfl, -⟩ := h.spells.exists_cons
  exact Cursor.scan_of_lexeme h.gapEnds.skip (h.read rfl)

theorem symbol_eq_none : symbol c rest = none ↔ symbolKind c = none := by
  unfold symbol
  split
  · rename_i hk
    unfold symbolKindEq at hk
    split at hk <;> cases hk <;> simp [symbolKind]
  · simp

/-- Reading fails where no lexeme can be read. -/
theorem LexCause.Stops.read {cause : LexCause} {skipped : Text} (h : cause.Stops skipped behind)
    (hcause : cause ≠ .openComment) (heq : c :: rest = skipped ++ behind) :
    ∃ cursor, Cursor.lexeme pos c rest = .error ⟨⟨pos.past skipped, cause⟩, cursor⟩ := by
  cases h with
  | unexpected _ hstart hdigit hquote hsymbol =>
    cases heq
    exact ⟨_, by simp [Cursor.lexeme, hstart, hdigit, hquote, symbol_eq_none.2 hsymbol]; rfl⟩
  | @numeralTail digits behind d hne hdigits hd =>
    obtain ⟨e, digits, rfl⟩ := List.exists_cons_of_ne_nil hne
    cases heq
    have hc := hdigits c (.head _)
    have hend : ∀ e ∈ (d :: behind).head?, e.isDigit = false := by
      rintro e he
      cases he
      rw [Bool.eq_false_iff]
      exact fun hdigit => absurd hd (by simp [isNameStart_of_isDigit hdigit])
    obtain ⟨htake, hdrop⟩ := takeWhile_run (fun e he => hdigits e (.tail _ he)) hend
    exact ⟨_, by simp [Cursor.lexeme, isNameStart_of_isDigit hc, hc, htake, hdrop, hd]; rfl⟩
  | @badEscape contents body rest hwritten hbad =>
    cases heq
    have hq := hwritten.quoted_append pos (pos.next '"') ('\\' :: rest)
    cases rest with
    | nil => exact ⟨_, by simp [Cursor.lexeme, isNameStart, hq, quoted, Except.map]; rfl⟩
    | cons e rest =>
      have he := hbad e rfl
      exact ⟨_, by simp [Cursor.lexeme, isNameStart, hq, quoted, Except.map, he]; rfl⟩
  | openString hwritten =>
    cases heq
    have hq := hwritten.quoted_append pos (pos.next '"') []
    rw [List.append_nil] at hq
    exact ⟨_, by simp [Cursor.lexeme, isNameStart, hq, quoted, Except.map]; rfl⟩
  | openComment => exact absurd rfl hcause

/-- What a text starts with that is neither empty nor a gap: a lexeme, or the reason why there is
none. -/
theorem exists_lexeme (hg : GapEnds (c :: rest)) :
    (∃ kind text spelling behind, c :: rest = spelling ++ behind ∧
        Lexeme kind text spelling behind) ∨
      ∃ cause skipped behind, c :: rest = skipped ++ behind ∧
        LexCause.Stops cause skipped behind ∧ cause ≠ .openComment := by
  by_cases hstart : isNameStart c = true
  · refine .inl ⟨TokenKind.ofWord (c :: rest.takeWhile isNamePart), c :: rest.takeWhile isNamePart,
      c :: rest.takeWhile isNamePart, rest.dropWhile isNamePart, by simp, ?_⟩
    have hends := head?_dropWhile_run isNamePart rest
    rcases TokenKind.ofWord_cases (c :: rest.takeWhile isNamePart) with hof | ⟨hmem, hname⟩
    · rw [hof]
      exact ⟨.name (by simp [isName, hstart, hof]), TokenKind.endsAt_of_word (by simp) hends⟩
    · have hspells := Spells.fixed (TokenKind.isFixed_of_mem_keywords hmem)
      rw [hname] at hspells
      exact ⟨hspells, TokenKind.endsAt_of_word (by simp [hmem]) hends⟩
  by_cases hdigit : c.isDigit = true
  · have hdigits : ∀ d ∈ c :: rest.takeWhile Char.isDigit, d.isDigit = true := by
      simpa [hdigit] using fun d => List.all_eq_true.1 List.all_takeWhile d
    have hends := head?_dropWhile_run Char.isDigit rest
    have heq : c :: rest = c :: rest.takeWhile Char.isDigit ++ rest.dropWhile Char.isDigit := by
      simp
    by_cases htail : (rest.dropWhile Char.isDigit).head?.any isNameStart = true
    · obtain ⟨d, hhead, hd⟩ := Option.any_eq_true _ _ |>.1 htail
      obtain ⟨behind, hbehind⟩ := List.head?_eq_some_iff.1 hhead
      rw [hbehind] at heq
      exact .inr ⟨_, _, _, heq, .numeralTail (List.cons_ne_nil _ _) hdigits hd, nofun⟩
    · refine .inl ⟨_, _, _, _, heq, .numeral (List.cons_ne_nil _ _) hdigits,
        TokenKind.endsAt_of_word (by simp) fun d hd => ?_⟩
      rw [isNamePart_eq, hends d hd, Bool.or_false, Bool.eq_false_iff]
      exact fun hstart => htail (Option.any_eq_true _ _ |>.2 ⟨d, hd, hstart⟩)
  by_cases hquote : c = '"'
  · subst hquote
    obtain ⟨contents, body, behind, rfl, hwritten, hbehind⟩ := exists_written rest
    cases hbehind with
    | @closed behind =>
      exact .inl ⟨_, _, _, behind, by simp, .quoted hwritten, by simp [TokenKind.keywords],
        by simp, by simp⟩
    | openString =>
      exact .inr ⟨_, _, _, by rw [List.append_nil]; rfl, .openString hwritten, nofun⟩
    | badEscape hbad => exact .inr ⟨_, _, _, rfl, .badEscape hwritten hbad, nofun⟩
  · cases hsymbol : symbol c rest with
    | some found =>
      obtain ⟨kind, spelling, behind⟩ := found
      obtain ⟨rfl, heq, hk, hends⟩ := symbol_eq_some hg hsymbol
      exact .inl ⟨kind, kind.name, kind.name, behind, heq, .fixed hk, hends⟩
    | none =>
      exact .inr ⟨_, _, _, rfl, .unexpected (hg.blank c rfl) (by simpa using hstart)
        (by simpa using hdigit) hquote (symbol_eq_none.1 hsymbol), nofun⟩

/-- Reading a lexeme ends behind it, or fails because there is none. -/
theorem Cursor.lexeme_cases (hg : GapEnds (c :: rest)) (pos : Pos) :
    (∃ kind text spelling behind, c :: rest = spelling ++ behind ∧
        Lexeme kind text spelling behind ∧
        Cursor.lexeme pos c rest = .ok (⟨kind, text, pos⟩, ⟨pos.past spelling, behind⟩)) ∨
      ∃ cause skipped behind cursor, c :: rest = skipped ++ behind ∧
        LexCause.Stops cause skipped behind ∧
        Cursor.lexeme pos c rest = .error ⟨⟨pos.past skipped, cause⟩, cursor⟩ := by
  rcases exists_lexeme hg with ⟨kind, text, spelling, behind, heq, hlexeme⟩ |
    ⟨cause, skipped, behind, heq, hstops, hcause⟩
  · exact .inl ⟨kind, text, spelling, behind, heq, hlexeme, hlexeme.read heq⟩
  · obtain ⟨cursor, herror⟩ := hstops.read hcause heq
    exact .inr ⟨cause, skipped, behind, cursor, heq, hstops, herror⟩

end Lexemes

/-! ## Rounds -/

/-- One round of scanning: the text ends, a gap and a lexeme are read, or there is none. -/
theorem Cursor.scan_cases (pos : Pos) (text : Text) :
    (IsLastGap text ∧ (Cursor.mk pos text).scan =
        ⟨[⟨.eof, [], pos.past text⟩], none, ⟨pos.past text, []⟩⟩) ∨
      (∃ gap kind contents spelling rest, text = gap ++ (spelling ++ rest) ∧ IsGap gap ∧
        Lexeme kind contents spelling rest ∧ (Cursor.mk pos text).scan =
          (Cursor.mk ((pos.past gap).past spelling) rest).scan.cons
            ⟨kind, contents, pos.past gap⟩) ∨
      ∃ gap cause skipped rest cursor, text = gap ++ (skipped ++ rest) ∧ IsGap gap ∧
        LexCause.Stops cause skipped rest ∧ (Cursor.mk pos text).scan =
          ⟨[], some ⟨(pos.past gap).past skipped, cause⟩, cursor⟩ := by
  rcases Gap.skip_cases pos text with ⟨gap, rest, rfl, hgap, hends, hskip⟩ | ⟨hlast, hskip⟩ |
    ⟨gap, rest, cursor, rfl, hgap, hstops, hskip⟩
  · cases rest with
    | nil =>
      rw [List.append_nil] at hskip ⊢
      exact .inl ⟨.gap hgap, Cursor.scan_of_gap hskip⟩
    | cons c rest =>
      rcases Cursor.lexeme_cases hends (pos.past gap) with
        ⟨kind, contents, spelling, behind, heq, hlexeme, hread⟩ |
        ⟨cause, skipped, behind, cursor, heq, hstops, hread⟩
      · exact .inr (.inl ⟨gap, kind, contents, spelling, behind, by rw [heq], hgap, hlexeme,
          Cursor.scan_of_lexeme hskip hread⟩)
      · refine .inr (.inr ⟨gap, cause, skipped, behind, cursor, by rw [heq], hgap, hstops, ?_⟩)
        rw [Cursor.scan_eq, hskip]
        simp only [hread]
  · exact .inl ⟨hlast, Cursor.scan_of_gap hskip⟩
  · refine .inr (.inr ⟨gap, _, [], rest, cursor, rfl, hgap, hstops, ?_⟩)
    rw [Cursor.scan_eq, hskip]
    rfl

end FrameLang
