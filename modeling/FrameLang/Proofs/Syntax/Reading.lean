import FrameLang.Program.Parser

/-!
# Reading tokens to the end

A *reader* says what becomes of the next token; an unfinished program is one, and so is every site
together with what has just been completed there. `Reads` says that a list of tokens is read to the
end of the input without an error, the first token by a given reader.

What follows a complete operand is decided by the expression around it: `OperandSite.base` is the
site of that expression, and `OperandSite.close` the expression if no operator follows.

## Main definitions

* `Reader`, `Reads` — readers, and the inputs that they read to the end.
* `OperandSite.base`, `OperandSite.close` — the expression around an operand.
-/

namespace FrameLang

/-- What becomes of the next token. -/
abbrev Reader := Token → Except SyntaxError Unfinished

/-- The next token: the first one, or the end of the input. -/
def upcoming (eof : Pos) (ts : List Token) : Token :=
  ts.headD ⟨.eof, [], eof⟩

/-- The tokens are read to the end of the input, the first of them by `read`, and what is read is a
program that satisfies `Q`. -/
def Reads (eof : Pos) (Q : Program → Prop) (read : Reader) : List Token → Prop
  | [] => ∃ s, read ⟨.eof, [], eof⟩ = .ok s ∧ Q s.done
  | tok :: rest => ∃ s, read tok = .ok s ∧ Reads eof Q (fun tok => s.feed tok) rest

section Reads

variable {eof : Pos} {Q : Program → Prop} {read read' : Reader} {ts : List Token}

/-- A token is read, and the rest from the unfinished program behind it. -/
theorem Reads.cons {tok : Token} (s : Unfinished) (hs : read tok = .ok s)
    (h : Reads eof Q (fun tok => s.feed tok) ts) : Reads eof Q read (tok :: ts) :=
  ⟨s, hs, h⟩

/-- Readers that treat the next token alike read the same inputs. -/
theorem Reads.congr (h : Reads eof Q read ts)
    (hr : read (upcoming eof ts) = read' (upcoming eof ts)) : Reads eof Q read' ts := by
  cases ts with
  | nil =>
    obtain ⟨s, hs, hq⟩ := h
    exact ⟨s, hr.symm.trans hs, hq⟩
  | cons tok rest =>
    obtain ⟨s, hs, hrest⟩ := h
    exact ⟨s, hr.symm.trans hs, hrest⟩

/-- The next token of an input that is read is not rejected. -/
theorem Reads.exists_ok (h : Reads eof Q read ts) : ∃ s, read (upcoming eof ts) = .ok s := by
  cases ts with
  | nil =>
    obtain ⟨s, hs, -⟩ := h
    exact ⟨s, hs⟩
  | cons tok rest =>
    obtain ⟨s, hs, -⟩ := h
    exact ⟨s, hs⟩

/-- An input starts with a token if its end does not fit. -/
theorem Reads.exists_cons (h : Reads eof Q read ts)
    (he : ∀ s, read ⟨.eof, [], eof⟩ ≠ .ok s) :
    ∃ tok rest s, ts = tok :: rest ∧ read tok = .ok s ∧
      Reads eof Q (fun tok => s.feed tok) rest := by
  cases ts with
  | nil =>
    obtain ⟨s, hs, -⟩ := h
    exact absurd hs (he s)
  | cons tok rest =>
    obtain ⟨s, hs, hrest⟩ := h
    exact ⟨tok, rest, s, rfl, hs, hrest⟩

/-- Reading all tokens gives no error exactly if they are read to the end, and then none of them is
left. -/
theorem Unfinished.reads_feedAll {s : Unfinished} :
    Reads eof Q (fun tok => s.feed tok) ts ↔
      (s.feedAll eof ts).error = none ∧ Q (s.feedAll eof ts).program := by
  induction ts generalizing s with
  | nil =>
    cases h : s.feed ⟨.eof, [], eof⟩ <;> simp [Reads, Unfinished.feedAll, h]
  | cons tok rest ih =>
    cases h : s.feed tok <;> simp [Reads, Unfinished.feedAll, h, ih]

theorem Unfinished.rest_feedAll {s : Unfinished} (h : (s.feedAll eof ts).error = none) :
    (s.feedAll eof ts).rest = [] := by
  induction ts generalizing s with
  | nil => cases hs : s.feed ⟨.eof, [], eof⟩ <;> simp [Unfinished.feedAll, hs]
  | cons tok rest ih =>
    cases hs : s.feed tok with
    | error e => simp [Unfinished.feedAll, hs] at h
    | ok s' =>
      simp only [Unfinished.feedAll, hs] at h ⊢
      exact ih h

end Reads

/-! ## Behind an operand -/

namespace OperandSite

/-- The site of the expression that an operand belongs to. -/
def base : OperandSite → ExprSite
  | .first site => site
  | .negated _ site => site.base
  | .rightOf _ _ _ site => site.base

/-- The expression that ends with the operand `e`. -/
def close (e : Expr) : OperandSite → Expr
  | .first _ => e
  | .negated pos site => site.close (.negate pos e)
  | .rightOf pos op lhs site => site.close (.binary pos op lhs e)

theorem finish_eq (e : Expr) (tok : Token) :
    (site : OperandSite) → site.finish e tok = site.base.finish (site.close e) tok
  | .first _ => rfl
  | .negated _ site => finish_eq _ tok site
  | .rightOf _ _ _ site => finish_eq _ tok site

theorem base_reduce (p : Nat) (e : Expr) :
    (site : OperandSite) → (site.reduce p e).2.base = site.base
  | .first _ => rfl
  | .negated _ site => base_reduce p _ site
  | .rightOf pos op lhs site => by
    rw [reduce]
    split
    · exact base_reduce p _ site
    · rfl

/-- Only an operand that is the whole expression can make it an if expression. -/
theorem isBranch_close {e : Expr} :
    (site : OperandSite) → (site.close e).isBranch = true →
      e.isBranch = true ∧ site = .first site.base
  | .first _, h => ⟨h, rfl⟩
  | .negated _ site, h => nomatch (isBranch_close site h).1
  | .rightOf _ _ _ site, h => nomatch (isBranch_close site h).1

theorem after_of_operator {site : OperandSite} {e : Expr} {tok : Token} {op : Operator}
    (h : tok.kind.operator? = some op) :
    site.after e tok = .ok (.operand (.rightOf tok.pos op (site.reduce op.precedence e).1
      (site.reduce op.precedence e).2)) := by
  simp only [after, h]

theorem after_of_not_operator {site : OperandSite} {e : Expr} {tok : Token}
    (h : tok.kind.operator? = none) :
    site.after e tok = site.base.finish (site.close e) tok := by
  simp only [after, h, finish_eq]

end OperandSite

/-! ## Tokens that do not fit -/

section Rejected

variable {tok : Token} {e : Expr} {s : Unfinished}

/-- No line starts with these tokens. -/
theorem LineSite.start_ne_ok {site : LineSite}
    (h : tok.kind ∈ [TokenKind.kwElse, .semicolon, .assign]) : site.start tok ≠ .ok s := by
  simp only [List.mem_cons, List.not_mem_nil, or_false] at h
  rcases h with h | h | h <;>
    simp [LineSite.start, ExprSite.start, OperandSite.start, h, Token.reject]

/-- No whole expression is followed by these tokens. -/
theorem ExprSite.finish_ne_ok (h : tok.kind ∈ [TokenKind.kwElse, .assign]) :
    (site : ExprSite) → (e : Expr) → site.finish e tok ≠ .ok s
  | .assigned pos target site, e => by
    rw [ExprSite.finish]
    exact site.finish_ne_ok h _
  | .grouped _, _ | .argument .., _ | .test .., _ => by
    simp only [List.mem_cons, List.not_mem_nil, or_false] at h
    rcases h with h | h <;> simp [ExprSite.finish, h, Token.reject]
  | .line _ site, e => by
    have hs : tok.kind ∈ [TokenKind.kwElse, .semicolon, .assign] := by
      simp only [List.mem_cons, List.not_mem_nil, or_false] at h ⊢
      exact h.imp_right .inr
    simp only [List.mem_cons, List.not_mem_nil, or_false] at h
    rcases h with h | h <;> cases hb : e.isBranch <;>
      simp [ExprSite.finish, h, hb, Token.reject, LineSite.start_ne_ok hs]

/-- An expression that is no if expression is not followed by a parenthesis. -/
theorem ExprSite.finish_lparen_ne_ok (h : tok.kind = .lparen) :
    (site : ExprSite) → (e : Expr) → e.isBranch = false → site.finish e tok ≠ .ok s
  | .assigned pos target site, e, _ => by
    rw [ExprSite.finish]
    exact site.finish_lparen_ne_ok h _ rfl
  | .grouped _, _, _ | .argument .., _, _ | .test .., _, _ => by
    simp [ExprSite.finish, h, Token.reject]
  | .line _ site, e, he => by simp [ExprSite.finish, h, he, Token.reject]

end Rejected

end FrameLang
