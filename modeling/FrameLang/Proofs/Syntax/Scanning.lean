import FrameLang.Token.Lexer

/-!
# Scanning a text

What one round of scanning does, and what the tokens of a text look like: one of kind `eof` at the
end, and none before it.
-/

namespace FrameLang

/-! ## Positions -/

namespace Pos

variable (p : Pos) (s t : Text) (c : Char)

@[simp] theorem past_nil : p.past [] = p := rfl

@[simp] theorem past_cons : p.past (c :: t) = (p.next c).past t := rfl

@[simp] theorem past_append : p.past (s ++ t) = (p.past s).past t :=
  List.foldl_append

end Pos

/-! ## Rounds -/

namespace Cursor

variable {cursor behind : Cursor} {pos : Pos} {c : Char} {rest : Text} {token : Token}

/-- One round of scanning. -/
theorem scan_eq (cursor : Cursor) :
    cursor.scan =
      match Gap.skip .between cursor.pos cursor.rest with
      | .error stop => ⟨[], some stop.error, stop.cursor⟩
      | .ok ⟨pos, []⟩ => ⟨[⟨.eof, [], pos⟩], none, ⟨pos, []⟩⟩
      | .ok ⟨pos, c :: rest⟩ =>
        match lexeme pos c rest with
        | .error stop => ⟨[], some stop.error, stop.cursor⟩
        | .ok (token, behind) => behind.scan.cons token := by
  rw [scan]
  grind

/-- Scanning ends where only a gap is left. -/
theorem scan_of_gap (h : Gap.skip .between cursor.pos cursor.rest = .ok ⟨pos, []⟩) :
    cursor.scan = ⟨[⟨.eof, [], pos⟩], none, ⟨pos, []⟩⟩ := by
  rw [scan_eq, h]

/-- Scanning goes on behind a gap and a lexeme. -/
theorem scan_of_lexeme (hg : Gap.skip .between cursor.pos cursor.rest = .ok ⟨pos, c :: rest⟩)
    (hl : lexeme pos c rest = .ok (token, behind)) :
    cursor.scan = behind.scan.cons token := by
  rw [scan_eq, hg]
  simp only [hl]

end Cursor

/-! ## Kinds of tokens -/

theorem TokenKind.ofWord_ne_eof (word : Text) : TokenKind.ofWord word ≠ .eof := by
  unfold TokenKind.ofWord
  cases h : TokenKind.keywords.find? fun k => k.name = word with
  | none => simp
  | some kind =>
    have hmem := List.mem_of_find?_eq_some h
    rintro rfl
    exact absurd hmem (by decide)

theorem symbol_ne_eof {c : Char} {rest spelling behind : Text} {kind : TokenKind}
    (h : symbol c rest = some (kind, spelling, behind)) : kind ≠ .eof := by
  unfold symbol at h
  split at h
  · rename_i hk
    unfold symbolKindEq at hk
    grind
  · unfold symbolKind at h
    grind

theorem Cursor.lexeme_ne_eof {pos : Pos} {c : Char} {rest : Text} {token : Token}
    {behind : Cursor} (h : Cursor.lexeme pos c rest = .ok (token, behind)) :
    token.kind ≠ .eof := by
  unfold Cursor.lexeme at h
  split at h
  · grind [TokenKind.ofWord_ne_eof]
  split at h
  · grind
  split at h
  · cases hq : quoted pos (pos.next c) rest <;> grind [Except.map]
  · grind [symbol_ne_eof]

/-- The tokens of a text end with one of kind `eof`, and no other one is of that kind. -/
theorem Cursor.scan_tokens (cursor : Cursor) (h : cursor.scan.error = none) :
    ∃ ts pos, cursor.scan.tokens = ts ++ [⟨.eof, [], pos⟩] ∧ ∀ tok ∈ ts, tok.kind ≠ .eof := by
  fun_induction Cursor.scan cursor with
  | case1 | case3 => cases h
  | case2 _ pos _ => exact ⟨[], pos, rfl, nofun⟩
  | case4 _ _ _ _ _ token behind hl _ ih =>
    obtain ⟨ts, pos, hts, hk⟩ := ih h
    refine ⟨token :: ts, pos, congrArg (token :: ·) hts, fun tok htok => ?_⟩
    rcases List.mem_cons.1 htok with rfl | htok
    · exact Cursor.lexeme_ne_eof hl
    · exact hk tok htok

theorem tokenize_eq_ok {source : Text} {tokens : List Token} (h : tokenize source = .ok tokens) :
    ∃ ts pos, tokens = ts ++ [⟨.eof, [], pos⟩] ∧ ∀ tok ∈ ts, tok.kind ≠ .eof := by
  unfold tokenize at h
  cases he : (Cursor.start source).scan.error with
  | some error => simp [he] at h
  | none =>
    simp only [he, Except.ok.injEq] at h
    exact h ▸ Cursor.scan_tokens _ he

end FrameLang
