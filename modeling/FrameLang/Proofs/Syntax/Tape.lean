import FrameLang.Proofs.Syntax.Reading

/-!
# Tapes

A tape is a list of tokens whose last one is an end token, and a position in it. The position may be
anywhere, end tokens may stand anywhere, and behind the last token there are only copies of it. A
reader moves the position one token at a time and never over an end token, so all that it can ever
see are the tokens in front of the next end token and that token itself: this is the stream of the
tape.

## Main definitions

* `Tape`, `Tape.peek`, `Tape.advance` — tapes, what is seen of one, and the move over one token.
* `Tape.stream` — the tokens in front of the next end token, and where that one stands.
* `Tape.Leads` — the position has moved forward, and over no end token.
* `Tape.Passes` — the position has moved over given tokens of the stream.
-/

namespace FrameLang

/-- A list of tokens that ends with an end token, and a position in it. -/
structure Tape where
  front : List Token
  last : Token
  index : Nat
  last_kind : last.kind = .eof

namespace Tape

/-- The token at a place. -/
def token (t : Tape) (i : Nat) : Token := t.front[i]?.getD t.last

/-- The token that stands `offset` places ahead. -/
def peek (t : Tape) (offset : Nat) : Token := t.token (t.index + offset)

/-- Moves over one token, unless it is an end token. -/
def advance (t : Tape) : Tape :=
  if (t.peek 0).kind = .eof then t else { t with index := t.index + 1 }

/-- The tape of a list of tokens. An end token is put behind a list that does not end with one. -/
def ofTokens (tokens : List Token) (index : Nat) : Tape :=
  match tokens.getLast? with
  | none => ⟨[], ⟨.eof, [], .start⟩, index, rfl⟩
  | some last =>
    if hk : last.kind = .eof then ⟨tokens.dropLast, last, index, hk⟩
    else ⟨tokens, ⟨.eof, [], last.pos⟩, index, rfl⟩

/-- The tokens in front of the next end token. -/
def ahead (t : Tape) : List Token := (t.front.drop t.index).takeWhile (·.kind != .eof)

/-- The next end token. -/
def stop (t : Tape) : Token := ((t.front.drop t.index).find? (·.kind == .eof)).getD t.last

/-- What a reader can see of the tape. -/
def stream (t : Tape) : TokenStream := ⟨t.ahead, t.stop.pos⟩

/-- From `t` to `t'` the position has moved forward, and over no end token. -/
structure Leads (t t' : Tape) : Prop where
  tokens : t' = { t with index := t'.index }
  forward : t.index ≤ t'.index
  kind_ne : ∀ i, t.index ≤ i → i < t'.index → (t.token i).kind ≠ .eof

/-- From `t` to `t'` the position has moved over the tokens `us` of the stream. -/
structure Passes (t : Tape) (us : List Token) (t' : Tape) : Prop where
  tokens : t' = { t with index := t.index + us.length }
  ahead : t.ahead = us ++ t'.ahead
  stop : t'.stop = t.stop

variable {t t' t'' : Tape} {us vs rest : List Token} {tok : Token}

/-! ## What is seen -/

theorem kind_stop (t : Tape) : t.stop.kind = .eof := by
  unfold stop
  cases h : (t.front.drop t.index).find? (·.kind == .eof) with
  | none => exact t.last_kind
  | some tok => simpa using List.find?_some h

theorem kind_of_mem_ahead (h : tok ∈ t.ahead) : tok.kind ≠ .eof := by
  simpa using List.all_eq_true.1 List.all_takeWhile tok h

/-- The next token is the first one of the stream, or the end token behind it. -/
theorem peek_zero (t : Tape) : t.peek 0 = t.ahead.headD t.stop := by
  unfold peek token ahead stop
  rw [Nat.add_zero, ← List.head?_drop]
  cases t.front.drop t.index with
  | nil => rfl
  | cons tok rest => by_cases hk : tok.kind = .eof <;> simp [hk]

theorem peek_of_nil (h : t.ahead = []) : t.peek 0 = t.stop := by
  rw [peek_zero, h, List.headD_nil]

theorem peek_of_cons (h : t.ahead = tok :: rest) : t.peek 0 = tok := by
  rw [peek_zero, h, List.headD_cons]

theorem ahead_eq_nil_iff : t.ahead = [] ↔ (t.peek 0).kind = .eof := by
  constructor
  · intro h
    rw [peek_of_nil h, kind_stop]
  · intro h
    cases ha : t.ahead with
    | nil => rfl
    | cons tok rest =>
      rw [peek_of_cons ha] at h
      exact absurd h (kind_of_mem_ahead (ha ▸ List.mem_cons_self))

/-- The tape goes on with the next token of its stream. -/
theorem kind_upcoming (t : Tape) (eof : Pos) : (upcoming eof t.ahead).kind = (t.peek 0).kind := by
  cases h : t.ahead with
  | nil => rw [ahead_eq_nil_iff.1 h, upcoming, List.headD_nil]
  | cons => rw [peek_of_cons h, upcoming, List.headD_cons]

theorem pos_upcoming (t : Tape) : (upcoming t.stop.pos t.ahead).pos = (t.peek 0).pos := by
  cases h : t.ahead with
  | nil => rw [peek_of_nil h, upcoming, List.headD_nil]
  | cons => rw [peek_of_cons h, upcoming, List.headD_cons]

/-- What stands at a place of the stream stands there on the tape. -/
theorem token_add {j : Nat} (h : t.ahead[j]? = some tok) : t.token (t.index + j) = tok := by
  obtain ⟨behind, hb⟩ : t.ahead <+: t.front.drop t.index := List.takeWhile_prefix _
  have hdrop : (t.front.drop t.index)[j]? = some tok := by
    rw [← hb, List.getElem?_append_left (List.getElem?_eq_some_iff.1 h).1]
    exact h
  rw [token, ← List.getElem?_drop, hdrop, Option.getD_some]

/-- The stream of a list of tokens is that of its tape. -/
theorem stream_ofTokens (tokens : List Token) :
    (ofTokens tokens 0).stream = TokenStream.ofTokens tokens := by
  unfold ofTokens
  cases h : tokens.getLast? with
  | none =>
    obtain rfl := List.getLast?_eq_none_iff.1 h
    rfl
  | some last =>
    obtain ⟨front, rfl⟩ := List.getLast?_eq_some_iff.1 h
    by_cases hk : last.kind = .eof
    · have htake : (front ++ [last]).takeWhile (·.kind != .eof) =
          front.takeWhile (·.kind != .eof) := by
        rw [List.takeWhile_append]
        split
        · next hall => simp [hk, (List.takeWhile_prefix _).eq_of_length hall]
        · rfl
      cases hf : front.find? (·.kind == .eof) <;>
        simp [stream, ahead, stop, TokenStream.ofTokens, hk, htake, hf, List.find?_append]
    · cases hf : (front ++ [last]).find? (·.kind == .eof) <;>
        simp [stream, ahead, stop, TokenStream.ofTokens, hk, hf]

/-! ## Moving -/

/-- Nothing is behind an end token. -/
theorem advance_of_nil (h : t.ahead = []) : t.advance = t :=
  if_pos (ahead_eq_nil_iff.1 h)

theorem advance_of_kind_ne (h : (t.peek 0).kind ≠ .eof) :
    t.advance = { t with index := t.index + 1 } :=
  if_neg h

theorem exists_cons_of_kind_ne (h : (t.peek 0).kind ≠ .eof) :
    ∃ rest, t.ahead = t.peek 0 :: rest := by
  cases ha : t.ahead with
  | nil => exact absurd (ahead_eq_nil_iff.1 ha) h
  | cons tok rest => exact ⟨rest, by rw [peek_of_cons ha]⟩

/-- The token behind the next one is the next one after a move. -/
theorem peek_one (h : (t.peek 0).kind ≠ .eof) : t.peek 1 = t.advance.peek 0 := by
  rw [advance_of_kind_ne h]
  rfl

namespace Passes

theorem refl (t : Tape) : t.Passes [] t := ⟨rfl, rfl, rfl⟩

theorem trans (h : t.Passes us t') (h' : t'.Passes vs t'') : t.Passes (us ++ vs) t'' where
  tokens := by rw [h'.tokens, h.tokens, List.length_append, Nat.add_assoc]
  ahead := by rw [h.ahead, h'.ahead, List.append_assoc]
  stop := h'.stop.trans h.stop

/-- A move takes the first token of the stream. -/
theorem advance (h : (t.peek 0).kind ≠ .eof) : t.Passes [t.peek 0] t.advance := by
  obtain ⟨rest, ha⟩ := exists_cons_of_kind_ne h
  obtain ⟨behind, hdrop⟩ : ∃ behind, t.front.drop t.index = t.peek 0 :: behind := by
    cases hd : t.front.drop t.index with
    | nil => simp [Tape.ahead, hd] at ha
    | cons tok behind =>
      by_cases hk : tok.kind = .eof <;> simp_all [Tape.ahead]
  have htail : t.front.drop (t.index + 1) = behind := by
    rw [← List.drop_drop, hdrop, List.drop_one, List.tail_cons]
  rw [advance_of_kind_ne h]
  refine ⟨rfl, ?_, ?_⟩
  · simp [Tape.ahead, hdrop, htail, h]
  · simp [Tape.stop, hdrop, htail, h]

/-- The tokens that the position has moved over are no end tokens. -/
theorem leads (h : t.Passes us t') : t.Leads t' where
  tokens := by rw [h.tokens]
  forward := by simp [h.tokens]
  kind_ne i hi hlt := by
    obtain ⟨j, rfl⟩ := Nat.exists_eq_add_of_le hi
    have hj : j < us.length := by simpa [h.tokens] using hlt
    have htok : t.ahead[j]? = some us[j] := by
      rw [h.ahead, List.getElem?_append_left hj, List.getElem?_eq_getElem hj]
    rw [token_add htok]
    exact kind_of_mem_ahead (List.mem_of_getElem? htok)

end Passes

/-- A move makes the stream shorter. -/
theorem length_advance (h : (t.peek 0).kind ≠ .eof) :
    t.advance.ahead.length + 1 = t.ahead.length := by
  rw [(Passes.advance h).ahead, List.length_append, List.length_singleton, Nat.add_comm]

end Tape

end FrameLang
