import FrameLang.Proofs.Syntax.Reading
import FrameLang.Proofs.Syntax.Scanning

/-!
# Unfinished programs can be completed

Whatever has been read without an error is the beginning of a program: the tokens of `closing` bring
every open construct to its end. So the token that an error is reported at is the first one that no
program can go on with.

## Main definitions

* `Unfinished.closing` — the kinds of tokens that complete an unfinished program.
-/

namespace FrameLang

/-! ## The tokens that are missing -/

mutual

/-- What completes a program behind an operand at the site. -/
def OperandSite.closing : OperandSite → List TokenKind
  | .first site => site.closing
  | .negated _ site => site.closing
  | .rightOf _ _ _ site => site.closing

/-- What completes a program behind an expression at the site. -/
def ExprSite.closing : ExprSite → List TokenKind
  | .assigned _ _ site => site.closing
  | .grouped site => .rparen :: site.closing
  | .argument _ _ _ site => .rparen :: site.closing
  | .test _ site => .rparen :: .lbrace :: .rbrace :: site.closing
  | .line _ site => .semicolon :: site.closing

/-- What completes a program behind an if expression at the site. -/
def IfSite.closing : IfSite → List TokenKind
  | .operand site => site.closing
  | .elseOf _ _ _ site => site.closing

/-- What completes a program where a line may start. -/
def LineSite.closing : LineSite → List TokenKind
  | .top _ => []
  | .inside _ site => .rbrace :: site.closing

/-- What completes a program behind a block at the site. -/
def BlockSite.closing : BlockSite → List TokenKind
  | .function .. => []
  | .loop _ site => site.closing
  | .thenOf _ _ site => site.closing
  | .elseOf _ _ _ site => site.closing

end

/-- The kinds of tokens that complete an unfinished program. An expression that is due becomes
`true`, and a block that is due stays empty. -/
def Unfinished.closing : Unfinished → List TokenKind
  | .line site | .lineClosed site => site.closing
  | .breakOpen _ site => .semicolon :: site.closing
  | .expr site => .kwTrue :: site.closing
  | .leadingName _ _ site => site.closing
  | .operand site | .sign _ site => .kwTrue :: site.closing
  | .namedOperand _ _ site | .operandDone _ site => site.closing
  | .callOpen _ _ site => .rparen :: site.closing
  | .ifOpen _ site => .lparen :: .kwTrue :: .rparen :: .lbrace :: .rbrace :: site.closing
  | .thenDone _ _ _ site => site.closing
  | .elseOpen _ _ _ site => .lbrace :: .rbrace :: site.closing
  | .block site => .lbrace :: .rbrace :: site.closing
  | .fnOpen _ _ => [.identifier, .lparen, .rparen, .lbrace, .rbrace]
  | .fnNamed _ _ _ => [.lparen, .rparen, .lbrace, .rbrace]
  | .paramsOpen _ _ _ => [.rparen, .lbrace, .rbrace]
  | .param _ _ _ _ => [.identifier, .rparen, .lbrace, .rbrace]
  | .paramDone _ _ _ _ => [.rparen, .lbrace, .rbrace]

/-- A token of a kind, with the name of the kind for its text. -/
def TokenKind.token (kind : TokenKind) : Token :=
  ⟨kind, kind.name, .start⟩

/-! ## Filling a site keeps what is missing -/

@[simp] theorem LineSite.closing_add (l : Line) (site : LineSite) :
    (site.add l).closing = site.closing := by
  cases site <;> rfl

@[simp] theorem IfSite.closing_operandOf (e : Expr) :
    (site : IfSite) → (site.operandOf e).2.closing = site.closing
  | .operand _ => rfl
  | .elseOf _ _ _ site => closing_operandOf _ site

@[simp] theorem BlockSite.closing_fill (lines : List Line) (site : BlockSite) :
    (site.fill lines).closing = site.closing := by
  cases site with
  | function => rfl
  | loop _ site => exact site.closing_add _
  | thenOf => rfl
  | elseOf _ _ _ site => exact site.closing_operandOf _

theorem OperandSite.closing_eq : (site : OperandSite) → site.closing = site.base.closing
  | .first _ => rfl
  | .negated _ site => closing_eq site
  | .rightOf _ _ _ site => closing_eq site

/-! ## Feeding what is missing -/

/-- The first token that is missing behind an expression closes what is around it. -/
theorem ExprSite.finish_closing : (site : ExprSite) → (e : Expr) →
    ∃ kind rest s, site.closing = kind :: rest ∧ kind ∈ [TokenKind.rparen, .semicolon] ∧
      site.finish e kind.token = .ok s ∧ s.closing = rest
  | .assigned pos target site, e => site.finish_closing (.assign pos target e)
  | .grouped site, e => ⟨.rparen, site.closing, _, rfl, by decide, rfl, rfl⟩
  | .argument _ _ _ site, e => ⟨.rparen, site.closing, _, rfl, by decide, rfl, rfl⟩
  | .test _ site, e => ⟨.rparen, _, _, rfl, by decide, rfl, rfl⟩
  | .line _ site, e => ⟨.semicolon, site.closing, _, rfl, by decide, rfl, site.closing_add _⟩

theorem OperandSite.after_closing (site : OperandSite) (e : Expr) :
    ∃ kind rest s, site.closing = kind :: rest ∧ kind ∈ [TokenKind.rparen, .semicolon] ∧
      site.after e kind.token = .ok s ∧ s.closing = rest := by
  obtain ⟨kind, rest, s, hc, hk, hs, hr⟩ := site.base.finish_closing (site.close e)
  have hop : kind.token.kind.operator? = none := by
    simp only [List.mem_cons, List.not_mem_nil, or_false] at hk
    rcases hk with rfl | rfl <;> rfl
  exact ⟨kind, rest, s, site.closing_eq.trans hc, hk,
    (OperandSite.after_of_not_operator hop).trans hs, hr⟩

/-- An unfinished program takes the first token that is missing; if none is, it takes the end of
the input. -/
theorem Unfinished.feed_closing (s : Unfinished) :
    (s.closing = [] ∧ ∃ done, s = .line (.top done) ∨ s = .lineClosed (.top done)) ∨
      ∃ kind rest s', s.closing = kind :: rest ∧ s.feed kind.token = .ok s' ∧
        s'.closing = rest := by
  cases s with
  | line site =>
    cases site with
    | top done => exact .inl ⟨rfl, done, .inl rfl⟩
    | inside lines site => exact .inr ⟨.rbrace, site.closing, _, rfl, rfl, site.closing_fill _⟩
  | lineClosed site =>
    cases site with
    | top done => exact .inl ⟨rfl, done, .inr rfl⟩
    | inside lines site => exact .inr ⟨.rbrace, site.closing, _, rfl, rfl, site.closing_fill _⟩
  | breakOpen _ site => exact .inr ⟨.semicolon, site.closing, _, rfl, rfl, site.closing_add _⟩
  | leadingName pos name site =>
    obtain ⟨kind, rest, s, hc, hk, hs, hr⟩ :=
      (OperandSite.first site).after_closing (.name pos name)
    simp only [List.mem_cons, List.not_mem_nil, or_false] at hk
    rcases hk with rfl | rfl <;> exact .inr ⟨_, rest, s, hc, hs, hr⟩
  | namedOperand pos name site =>
    obtain ⟨kind, rest, s, hc, hk, hs, hr⟩ := site.after_closing (.name pos name)
    simp only [List.mem_cons, List.not_mem_nil, or_false] at hk
    rcases hk with rfl | rfl <;> exact .inr ⟨_, rest, s, hc, hs, hr⟩
  | operandDone e site =>
    obtain ⟨kind, rest, s, hc, -, hs, hr⟩ := site.after_closing e
    exact .inr ⟨kind, rest, s, hc, hs, hr⟩
  | thenDone pos test thenBlock site =>
    obtain ⟨kind, rest, s, hc, hk, hs, hr⟩ :=
      (site.operandOf (.branch pos test thenBlock none)).2.after_closing
        (site.operandOf (.branch pos test thenBlock none)).1
    rw [IfSite.closing_operandOf] at hc
    simp only [List.mem_cons, List.not_mem_nil, or_false] at hk
    rcases hk with rfl | rfl <;> exact .inr ⟨_, rest, s, hc, hs, hr⟩
  | elseOpen pos test thenBlock site =>
    exact .inr ⟨.lbrace, .rbrace :: site.closing, _, rfl, rfl, rfl⟩
  | expr | operand | sign | callOpen | ifOpen | block | fnOpen | fnNamed | paramsOpen | param
  | paramDone => exact .inr ⟨_, _, _, rfl, rfl, rfl⟩

/-- What is missing, and one more line behind it. -/
def Unfinished.completion (s : Unfinished) : List Token :=
  (s.closing ++ [TokenKind.kwTrue, .semicolon]).map TokenKind.token

theorem Unfinished.completion_ne_nil (s : Unfinished) : s.completion ≠ [] := by
  simp [Unfinished.completion]

/-- An unfinished program is completed by the tokens that are missing and one more line. -/
theorem Unfinished.reads_completion (eof : Pos) (s : Unfinished) :
    Reads eof (fun _ => True) (fun tok => s.feed tok) s.completion := by
  -- Each token that is missing leaves one less of them.
  unfold Unfinished.completion
  generalize hc : s.closing = kinds
  induction kinds generalizing s with
  | nil =>
    rcases s.feed_closing with ⟨-, done, rfl | rfl⟩ | ⟨kind, rest, s', h, -⟩
    · exact ⟨.operandDone (.bool .start true) (.first (.line .start (.top done))), rfl,
        .line (.top _), rfl, .line (.top _), rfl, trivial⟩
    · exact ⟨.operandDone (.bool .start true) (.first (.line .start (.top done))), rfl,
        .line (.top _), rfl, .line (.top _), rfl, trivial⟩
    · cases hc.symm.trans h
  | cons kind kinds ih =>
    rcases s.feed_closing with ⟨h, -⟩ | ⟨kind', rest, s', h, hs, hr⟩
    · cases hc.symm.trans h
    · obtain ⟨rfl, rfl⟩ := List.cons.inj (hc.symm.trans h)
      exact ⟨s', hs, ih s' hr⟩

/-! ## No end token is missing -/

mutual

theorem OperandSite.eof_notMem_closing : (site : OperandSite) → .eof ∉ site.closing
  | .first site => site.eof_notMem_closing
  | .negated _ site => site.eof_notMem_closing
  | .rightOf _ _ _ site => site.eof_notMem_closing

theorem ExprSite.eof_notMem_closing : (site : ExprSite) → .eof ∉ site.closing
  | .assigned _ _ site => site.eof_notMem_closing
  | .grouped site => by simp [ExprSite.closing, site.eof_notMem_closing]
  | .argument _ _ _ site => by simp [ExprSite.closing, site.eof_notMem_closing]
  | .test _ site => by simp [ExprSite.closing, site.eof_notMem_closing]
  | .line _ site => by simp [ExprSite.closing, site.eof_notMem_closing]

theorem IfSite.eof_notMem_closing : (site : IfSite) → .eof ∉ site.closing
  | .operand site => site.eof_notMem_closing
  | .elseOf _ _ _ site => site.eof_notMem_closing

theorem LineSite.eof_notMem_closing : (site : LineSite) → .eof ∉ site.closing
  | .top _ => by simp [LineSite.closing]
  | .inside _ site => by simp [LineSite.closing, site.eof_notMem_closing]

theorem BlockSite.eof_notMem_closing : (site : BlockSite) → .eof ∉ site.closing
  | .function .. => by simp [BlockSite.closing]
  | .loop _ site => site.eof_notMem_closing
  | .thenOf _ _ site => site.eof_notMem_closing
  | .elseOf _ _ _ site => site.eof_notMem_closing

end

theorem Unfinished.kind_of_mem_completion {s : Unfinished} {tok : Token}
    (h : tok ∈ s.completion) : tok.kind ≠ .eof := by
  obtain ⟨kind, hk, rfl⟩ := List.mem_map.1 h
  rintro rfl
  cases s <;> simp [Unfinished.closing, OperandSite.eof_notMem_closing,
    ExprSite.eof_notMem_closing, IfSite.eof_notMem_closing, LineSite.eof_notMem_closing,
    BlockSite.eof_notMem_closing] at hk

/-! ## Errors are reported at the token that is read -/

/-- The error is reported at the token, which is the literal in question if one is out of range. -/
def SyntaxError.CausedBy (tok : Token) (error : SyntaxError) : Prop :=
  error.pos = tok.pos ∧ ∀ negative digits, error.cause = .literalRange negative digits →
    tok.kind = .integer ∧ tok.text = digits

section Located

variable {tok : Token} {error : SyntaxError}

theorem Token.literal_error {negative : Bool} {pos : Pos} {site : OperandSite}
    (hk : tok.kind = .integer) (h : tok.literal negative pos site = .error error) :
    error.CausedBy tok := by
  grind [Token.literal, Token.reject, SyntaxError.CausedBy]

theorem OperandSite.start_error {site : OperandSite} (h : site.start tok = .error error) :
    error.CausedBy tok := by
  grind [OperandSite.start, Token.reject, Token.literal_error, SyntaxError.CausedBy]

theorem ExprSite.start_error {site : ExprSite} (h : site.start tok = .error error) :
    error.CausedBy tok := by
  grind [ExprSite.start, OperandSite.start_error]

theorem LineSite.start_error {site : LineSite} (h : site.start tok = .error error) :
    error.CausedBy tok := by
  unfold LineSite.start at h
  split at h <;> grind [Token.reject, ExprSite.start_error, SyntaxError.CausedBy]

theorem BlockSite.start_error {site : BlockSite} (h : site.start tok = .error error) :
    error.CausedBy tok := by
  grind [BlockSite.start, Token.reject, SyntaxError.CausedBy]

theorem ExprSite.finish_error : (site : ExprSite) → (e : Expr) →
    site.finish e tok = .error error → error.CausedBy tok
  | .assigned pos target site, e, h => site.finish_error (.assign pos target e) h
  | .grouped _, _, h | .argument .., _, h | .test .., _, h => by
    grind [ExprSite.finish, Token.reject, SyntaxError.CausedBy]
  | .line .., _, h => by
    grind [ExprSite.finish, Token.reject, LineSite.start_error, SyntaxError.CausedBy]

theorem OperandSite.after_error {site : OperandSite} {e : Expr}
    (h : site.after e tok = .error error) : error.CausedBy tok := by
  grind [OperandSite.after, OperandSite.finish_eq, ExprSite.finish_error]

theorem OperandSite.afterName_error {site : OperandSite} {pos : Pos} {name : Text}
    (h : site.afterName pos name tok = .error error) : error.CausedBy tok := by
  grind [OperandSite.afterName, OperandSite.after_error]

theorem Unfinished.causedBy_of_feed {s : Unfinished} (h : s.feed tok = .error error) :
    error.CausedBy tok := by
  cases s <;> simp only [Unfinished.feed] at h <;>
    grind [Token.reject, Token.literal_error, OperandSite.start_error, ExprSite.start_error,
      LineSite.start_error, BlockSite.start_error, OperandSite.after_error,
      OperandSite.afterName_error, SyntaxError.CausedBy]

/-- The error that a token causes is reported at that token. -/
theorem Unfinished.feed_error {s : Unfinished} (h : s.feed tok = .error error) :
    error.pos = tok.pos :=
  (Unfinished.causedBy_of_feed h).1

end Located

/-! ## The first token that does not fit -/

section Prefixes

variable {eof : Pos} {Q : Program → Prop} {s s' : Unfinished} {before ts : List Token}

/-- Behind some tokens, reading goes on from the state that they lead to. -/
theorem Unfinished.reads_append (h : before.foldlM (fun s tok => s.feed tok) s = .ok s') :
    Reads eof Q (fun tok => s.feed tok) (before ++ ts) ↔
      Reads eof Q (fun tok => s'.feed tok) ts := by
  induction before generalizing s with
  | nil =>
    obtain rfl : s = s' := Except.ok.inj h
    rfl
  | cons tok before ih =>
    rw [List.foldlM_cons] at h
    cases hs : s.feed tok with
    | error error => simp [hs, bind, Except.bind] at h
    | ok u =>
      rw [hs] at h
      simp only [List.cons_append, Reads, hs, Except.ok.injEq, exists_eq_left']
      exact ih h

/-- An error is caused by the token behind those that have been read. -/
theorem Unfinished.exists_of_feedAll_error {error : SyntaxError}
    (h : (s.feedAll eof ts).error = some error) :
    ∃ before rest s', ts = before ++ rest ∧
      before.foldlM (fun s tok => s.feed tok) s = .ok s' ∧
      s'.feed (upcoming eof rest) = .error error := by
  induction ts generalizing s with
  | nil =>
    refine ⟨[], [], s, rfl, rfl, ?_⟩
    cases hs : s.feed ⟨.eof, [], eof⟩ with
    | ok u => simp [Unfinished.feedAll, hs] at h
    | error e => simpa [Unfinished.feedAll, hs, upcoming] using h
  | cons tok rest ih =>
    cases hs : s.feed tok with
    | ok u =>
      simp only [Unfinished.feedAll, hs] at h
      obtain ⟨before, rest', s', rfl, hb, he⟩ := ih h
      exact ⟨tok :: before, rest', s', rfl, by rw [List.foldlM_cons, hs]; exact hb, he⟩
    | error e =>
      refine ⟨[], tok :: rest, s, rfl, rfl, ?_⟩
      simpa [Unfinished.feedAll, hs, upcoming] using h

end Prefixes

namespace TokenStream

variable {before more : List Token} {tok : Token}

/-- The tokens of a list stand in front of its first end token. -/
theorem tokens_append (h : ∀ t ∈ before, t.kind ≠ .eof) :
    (ofTokens (before ++ more)).tokens = before ++ (ofTokens more).tokens :=
  List.takeWhile_append_of_pos fun t ht => by simpa using h t ht

theorem tokens_cons (h : tok.kind ≠ .eof) :
    (ofTokens (tok :: more)).tokens = tok :: (ofTokens more).tokens := by
  simp [ofTokens, h]

theorem tokens_of_forall (h : ∀ t ∈ before, t.kind ≠ .eof) : (ofTokens before).tokens = before := by
  have happend : (ofTokens (before ++ [])).tokens = before ++ [] := tokens_append h
  rwa [List.append_nil] at happend

/-- A list ends at its first end token. -/
theorem ofTokens_eof (h : ∀ t ∈ before, t.kind ≠ .eof) (ht : tok.kind = .eof) :
    ofTokens (before ++ tok :: more) = ⟨before, tok.pos⟩ := by
  have hnone : before.find? (fun t => t.kind == .eof) = none := by simpa using h
  simp only [ofTokens, List.find?_append, hnone, List.find?_cons, ht, beq_self_eq_true,
    Option.none_or, TokenStream.mk.injEq, and_true]
  rw [List.takeWhile_append_of_pos fun t ht => by simpa using h t ht]
  simp [ht]

end TokenStream

/-- A list of tokens is a program exactly if it is read to its end. -/
theorem parseTokens_error_eq_none {tokens : List Token} :
    (parseTokens tokens).error = none ↔
      Reads (TokenStream.ofTokens tokens).eof (fun _ => True)
        (fun tok => (Unfinished.line (.top [])).feed tok) (TokenStream.ofTokens tokens).tokens := by
  simp [Unfinished.reads_feedAll, parseTokens, TokenStream.parse]

/-- The error is shown with the position of a token of the list. The tokens in front of that one can
be completed by further ones, but no list of tokens that begins with them and it is a program. -/
def SyntaxError.AtFirstMisfit (error : SyntaxError) (tokens : List Token) : Prop :=
  ∃ before tok after, tokens = before ++ tok :: after ∧ error.pos = tok.pos ∧
    error.message = Text.ofNat tok.pos.line.toNat ++ ':' :: Text.ofNat tok.pos.column.toNat ++
      [':', ' '] ++ error.cause.message ∧
    (∃ more, more ≠ [] ∧ (∀ t ∈ more, t.kind ≠ .eof) ∧
      (parseTokens (before ++ more)).error = none) ∧
    ∀ more, (parseTokens (before ++ tok :: more)).error ≠ none

/-- Syntax errors are reported at the first token that cannot go on with a program. -/
theorem parseTokens_error_atFirstMisfit {source : Text} {tokens : List Token}
    {error : SyntaxError} (hlex : tokenize source = .ok tokens)
    (h : (parseTokens tokens).error = some error) : error.AtFirstMisfit tokens := by
  obtain ⟨ts, pos, rfl, hts⟩ := tokenize_eq_ok hlex
  rw [parseTokens, TokenStream.ofTokens_eof hts rfl] at h
  obtain ⟨before, rest, s, rfl, hb, he⟩ := Unfinished.exists_of_feedAll_error h
  have hbefore : ∀ t ∈ before, t.kind ≠ .eof := fun t ht => hts t (by simp [ht])
  have hpos := Unfinished.feed_error he
  have hmore : (parseTokens (before ++ s.completion)).error = none := by
    rw [parseTokens_error_eq_none, TokenStream.tokens_append hbefore,
      TokenStream.tokens_of_forall fun t => Unfinished.kind_of_mem_completion,
      Unfinished.reads_append hb]
    exact s.reads_completion _
  refine ⟨before, upcoming pos rest, (rest ++ [(⟨.eof, [], pos⟩ : Token)]).tail, ?_, hpos, ?_,
    ⟨_, s.completion_ne_nil, fun t => Unfinished.kind_of_mem_completion, hmore⟩, fun more => ?_⟩
  · cases rest <;> simp [upcoming]
  · rw [SyntaxError.message, hpos, Pos.mark]
  · -- The token that does not fit is the end of the input or stands in front of it.
    rw [ne_eq, parseTokens_error_eq_none]
    cases rest with
    | nil =>
      rw [TokenStream.ofTokens_eof hbefore rfl]
      intro hr
      rw [← List.append_nil before, Unfinished.reads_append hb] at hr
      obtain ⟨s', hs⟩ := hr.exists_ok
      cases hs.symm.trans he
    | cons tok rest =>
      have htok : tok.kind ≠ .eof := hts tok (by simp)
      rw [upcoming, List.headD_cons, TokenStream.tokens_append hbefore,
        TokenStream.tokens_cons htok, Unfinished.reads_append hb]
      intro hr
      obtain ⟨s', hs⟩ := hr.exists_ok
      cases hs.symm.trans he

theorem parseTokens_unended_line_atFirstMisfit : ∃ tokens error,
    tokenize "if (a) \x7b b \x7d;".toList = .ok tokens ∧
    (parseTokens tokens).error = some error ∧
    error.message = "1:12: expected ';' after expression".toList ∧
    error.AtFirstMisfit tokens := by
  have hparse : ((tokenize "if (a) \x7b b \x7d;".toList).toOption.map
      fun tokens => (parseTokens tokens).error) = some (some ⟨⟨1, 12⟩, .lineEnd⟩) := by
    decide +kernel
  cases hlex : tokenize "if (a) \x7b b \x7d;".toList with
  | error e =>
    rw [hlex] at hparse
    cases hparse
  | ok tokens =>
    rw [hlex] at hparse
    have h := Option.some.inj hparse
    exact ⟨tokens, _, rfl, h, by decide +kernel, parseTokens_error_atFirstMisfit hlex h⟩

end FrameLang
