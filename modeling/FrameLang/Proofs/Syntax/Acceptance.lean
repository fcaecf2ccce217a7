import FrameLang.Proofs.Syntax.Completion
import FrameLang.Proofs.Syntax.Grammar

/-!
# Programs of the grammar are read

Every program that the grammar derives is read without an error. The proof goes through the rules of
the grammar. A phrase is read where it is due, whatever is around it, if what follows it is read by
what stands behind it then; `Phrase.Accepted` says so for each phrase, and there is one lemma for
each rule.

## Main definitions

* `Accepts` — the tokens are read to the end of the input.
* `Phrase.Accepted` — the tokens of a phrase are read wherever the phrase is due.
-/

namespace FrameLang

/-- The tokens are read to the end of the input. -/
abbrev Accepts (eof : Pos) (read : Reader) (ts : List Token) : Prop :=
  Reads eof (fun _ => True) read ts

/-- The tokens `us` are read where the phrase is due, if the tokens `vs` behind them are read by
what stands there then. Which tree has been read does not matter for that. -/
def Phrase.Accepted (eof : Pos) (us : List Token) : Phrase → Prop
  | .program => ∀ done, Accepts eof (LineSite.top done).start us
  | .statement ended => ∀ done vs, (ended = false → NoOperator vs) →
    (∀ done', Accepts eof (LineSite.top done').start vs) →
      Accepts eof (LineSite.top done).start (us ++ vs)
  | .params => ∀ pos name done close_ vs, close_.kind = .rparen →
    (∀ params, Accepts eof (BlockSite.function pos name params done).start vs) →
      Accepts eof (fun tok => (Unfinished.paramsOpen pos name done).feed tok) (us ++ close_ :: vs)
  | .names => ∀ pos name earlier done close_ vs, close_.kind = .rparen →
    (∀ params, Accepts eof (BlockSite.function pos name params done).start vs) →
      Accepts eof (fun tok => (Unfinished.param pos name earlier done).feed tok)
        (us ++ close_ :: vs)
  | .optionalSemicolon => ∀ (site : LineSite) vs, Accepts eof site.start vs →
    Accepts eof (fun tok => (Unfinished.lineClosed site).feed tok) (us ++ vs)
  | .block => ∀ (site : BlockSite) vs,
    (∀ lines, Accepts eof (fun tok => (site.fill lines).feed tok) vs) →
      Accepts eof site.start (us ++ vs)
  | .lines => ∀ (site : BlockSite) lines close_ vs, close_.kind = .rbrace →
    (∀ lines', Accepts eof (fun tok => (site.fill lines').feed tok) vs) →
      Accepts eof (LineSite.inside lines site).start (us ++ close_ :: vs)
  | .line ended => ∀ (site : LineSite) vs, (ended = false → NoOperator vs) →
    (∀ l, Accepts eof (site.add l).start vs) → Accepts eof site.start (us ++ vs)
  | .expr => ∀ (site : ExprSite) vs, NoOperator vs →
    (∀ e, Accepts eof (fun tok => site.finish e tok) vs) → Accepts eof site.start (us ++ vs)
  | .binary => ∀ (site : OperandSite) vs, NoOperator vs →
    (∀ e, Accepts eof (fun tok => site.base.finish e tok) vs) → Accepts eof site.start (us ++ vs)
  | .unary | .primary => ∀ (site : OperandSite) vs, (∀ e, Accepts eof (site.after e) vs) →
    Accepts eof site.start (us ++ vs)
  | .args => ∀ pos callee earlier (site : OperandSite) close_ vs, close_.kind = .rparen →
    (∀ e, Accepts eof (site.after e) vs) →
      Accepts eof (ExprSite.argument pos callee earlier site).start (us ++ close_ :: vs)
  | .branch => ∀ (site : IfSite) vs,
    (∀ e, e.isBranch = true → Accepts eof ((site.operandOf e).2.after (site.operandOf e).1) vs) →
      ∃ tok rest, us = tok :: rest ∧ tok.kind = .kwIf ∧
        Accepts eof (fun t => (Unfinished.ifOpen tok.pos site).feed t) (rest ++ vs)
  | .otherwise => ∀ pos test thenBlock (site : IfSite) vs,
    (∀ e, e.isBranch = true → Accepts eof ((site.operandOf e).2.after (site.operandOf e).1) vs) →
      Accepts eof (fun tok => (Unfinished.elseOpen pos test thenBlock site).feed tok) (us ++ vs)
  | .enclosed => ∀ (site : ExprSite) vs, NoOperator vs →
    (∀ e, e.isBranch = true → Accepts eof (fun tok => site.finish e tok) vs) →
      Accepts eof site.start (us ++ vs)

/-! ## Parts that may be left out

Where a part may be left out, the reader behind that place treats the next token like the reader in
front of it, because the token that would start the part does not fit otherwise.
-/

section LeftOut

variable {eof : Pos} {Q : Program → Prop} {us : List Token}

/-- A name need not be called. -/
theorem Reads.namedOperand_of_after {pos : Pos} {name : Text} {site : OperandSite}
    (h : Reads eof Q (site.after (.name pos name)) us) :
    Reads eof Q (fun tok => (Unfinished.namedOperand pos name site).feed tok) us := by
  have hne := h.after_name_kind_ne
  exact h.congr (by grind [Unfinished.feed, OperandSite.afterName])

/-- An expression may start with an operand. -/
theorem Reads.start_of_first {site : ExprSite}
    (h : Reads eof Q (OperandSite.first site).start us) : Reads eof Q site.start us := by
  cases us with
  | nil => exact h.congr rfl
  | cons tok rest =>
    by_cases hk : tok.kind = .identifier
    · obtain ⟨s, hs, hrest⟩ := h
      obtain rfl : Unfinished.namedOperand tok.pos tok.text (.first site) = s := by
        simpa [OperandSite.start, hk] using hs
      refine .cons (.leadingName tok.pos tok.text site) (by simp only [ExprSite.start, hk]) ?_
      -- A name that is an operand is not followed by an equals sign.
      have hne : (upcoming eof rest).kind ≠ .assign := by
        intro ha
        have hcall : (upcoming eof rest).kind ≠ .lparen := by simp [ha]
        have hafter : Reads eof Q ((OperandSite.first site).after (.name tok.pos tok.text)) rest :=
          hrest.congr (by grind [Unfinished.feed, OperandSite.afterName])
        exact hafter.after_kind_notMem (by simp [ha])
      exact hrest.congr (by grind [Unfinished.feed])
    · exact h.congr (by grind [upcoming, ExprSite.start])

/-- Arguments do not start with the parenthesis that closes them. -/
theorem Reads.callOpen_of_argument {pos : Pos} {callee : Text} {site : OperandSite}
    (h : Reads eof Q (ExprSite.argument pos callee [] site).start us) :
    Reads eof Q (fun tok => (Unfinished.callOpen pos callee site).feed tok) us := by
  obtain ⟨s, hs⟩ := h.exists_ok
  exact h.congr (by grind [Unfinished.feed, ExprSite.start, OperandSite.start, Token.reject])

/-- An if expression need not have an else branch. -/
theorem Reads.thenDone_of_after {pos : Pos} {test : Expr} {thenBlock : List Line} {site : IfSite}
    (h : Reads eof Q ((site.operandOf (.branch pos test thenBlock none)).2.after
      (site.operandOf (.branch pos test thenBlock none)).1) us) :
    Reads eof Q (fun tok => (Unfinished.thenDone pos test thenBlock site).feed tok) us := by
  have hne := h.after_kind_notMem
  exact h.congr (by grind [Unfinished.feed])

/-- An else branch may be a block. -/
theorem Reads.elseOpen_of_block {pos : Pos} {test : Expr} {thenBlock : List Line} {site : IfSite}
    (h : Reads eof Q (BlockSite.elseOf pos test thenBlock site).start us) :
    Reads eof Q (fun tok => (Unfinished.elseOpen pos test thenBlock site).feed tok) us := by
  obtain ⟨s, hs⟩ := h.exists_ok
  exact h.congr (by grind [Unfinished.feed, BlockSite.start, Token.reject])

/-- A line that ends with a block needs no semicolon. -/
theorem Reads.lineClosed_of_line {site : LineSite} (h : Reads eof Q site.start us) :
    Reads eof Q (fun tok => (Unfinished.lineClosed site).feed tok) us := by
  obtain ⟨s, hs⟩ := h.exists_ok
  have hne : (upcoming eof us).kind ≠ .semicolon := fun hk =>
    LineSite.start_ne_ok (by simp [hk]) hs
  exact h.congr (by grind [Unfinished.feed])

/-- A line may start with an expression. -/
theorem Reads.start_of_expr {site : LineSite}
    (h : Reads eof Q (ExprSite.line (upcoming eof us).pos site).start us) :
    Reads eof Q site.start us := by
  obtain ⟨s, hs⟩ := h.exists_ok
  refine h.congr ?_
  cases site <;> grind [LineSite.start, ExprSite.start, OperandSite.start, Token.reject]

/-- Parameters start with a name. -/
theorem Reads.paramsOpen_of_param {pos : Pos} {name : Text} {done : List Statement}
    (h : Reads eof Q (fun tok => (Unfinished.param pos name [] done).feed tok) us) :
    Reads eof Q (fun tok => (Unfinished.paramsOpen pos name done).feed tok) us := by
  obtain ⟨s, hs⟩ := h.exists_ok
  exact h.congr (by grind [Unfinished.feed, Token.reject])

end LeftOut

/-! ## One lemma for each rule -/

section Rules

variable {eof : Pos} {us vs ws : List Token} {ended : Bool}

/-! ### Expressions -/

section Literals

variable {negative : Bool} {tok : Token}

/-- A literal is an operand. -/
theorem Token.IsLiteral.literal_eq_ok (h : tok.IsLiteral negative) (pos : Pos)
    (site : OperandSite) :
    ∃ value, tok.literal negative pos site = .ok (.operandDone (.int pos value) site) := by
  rw [Token.literal, readLiteral_of_digits h.digits, if_pos h.range]
  exact ⟨_, rfl⟩

/-- What may stand without a sign may also stand behind one. -/
theorem Token.IsLiteral.behindSign (h : tok.IsLiteral false) : tok.IsLiteral true :=
  ⟨h.kind, h.digits, Nat.le_trans h.range (by decide)⟩

end Literals

theorem accepted_integer {tok : Token} (h : tok.IsLiteral false) :
    Phrase.primary.Accepted eof [tok] := by
  intro site vs hv
  obtain ⟨value, hs⟩ := h.literal_eq_ok tok.pos site
  exact .cons (.operandDone (.int tok.pos value) site)
    (by simpa only [OperandSite.start, h.kind] using hs) (hv _)

theorem accepted_constant {tok : Token} (h : tok.kind ∈ [TokenKind.string, .kwTrue, .kwFalse]) :
    Phrase.primary.Accepted eof [tok] := by
  intro site vs hv
  simp only [List.mem_cons, List.not_mem_nil, or_false] at h
  rcases h with h | h | h
  · exact .cons (.operandDone (.str tok.pos tok.text) site)
      (by simp only [OperandSite.start, h]) (hv _)
  · exact .cons (.operandDone (.bool tok.pos true) site)
      (by simp only [OperandSite.start, h]) (hv _)
  · exact .cons (.operandDone (.bool tok.pos false) site)
      (by simp only [OperandSite.start, h]) (hv _)

theorem accepted_name {tok : Token} (h : tok.kind = .identifier) :
    Phrase.primary.Accepted eof [tok] := by
  intro site vs hv
  exact .cons (.namedOperand tok.pos tok.text site) (by simp only [OperandSite.start, h])
    (hv (.name tok.pos tok.text)).namedOperand_of_after

theorem accepted_callEmpty {tok open_ close_ : Token} (h : tok.kind = .identifier)
    (hopen : open_.kind = .lparen) (hclose : close_.kind = .rparen) :
    Phrase.primary.Accepted eof [tok, open_, close_] := by
  intro site vs hv
  refine .cons (.namedOperand tok.pos tok.text site) (by simp only [OperandSite.start, h]) ?_
  refine .cons (.callOpen tok.pos tok.text site)
    (by simp only [Unfinished.feed, OperandSite.afterName, hopen]) ?_
  exact .cons (.operandDone (.call tok.pos tok.text []) site)
    (by simp only [Unfinished.feed, hclose]) (hv _)

theorem accepted_call {tok open_ close_ : Token} (h : tok.kind = .identifier)
    (hopen : open_.kind = .lparen) (hargs : Phrase.args.Accepted eof us)
    (hclose : close_.kind = .rparen) :
    Phrase.primary.Accepted eof (tok :: open_ :: (us ++ [close_])) := by
  intro site vs hv
  simp only [List.cons_append, List.append_assoc, List.nil_append]
  refine .cons (.namedOperand tok.pos tok.text site) (by simp only [OperandSite.start, h]) ?_
  refine .cons (.callOpen tok.pos tok.text site)
    (by simp only [Unfinished.feed, OperandSite.afterName, hopen]) ?_
  exact (hargs tok.pos tok.text [] site close_ vs hclose hv).callOpen_of_argument

theorem accepted_grouped {open_ close_ : Token} (hopen : open_.kind = .lparen)
    (he : Phrase.expr.Accepted eof us) (hclose : close_.kind = .rparen) :
    Phrase.primary.Accepted eof (open_ :: (us ++ [close_])) := by
  intro site vs hv
  simp only [List.cons_append, List.append_assoc, List.nil_append]
  refine .cons (.expr (.grouped site)) (by simp only [OperandSite.start, hopen]) ?_
  refine he (.grouped site) _ (noOperator_cons (by simp [hclose, TokenKind.operator?])) fun e => ?_
  exact .cons (.operandDone e site) (by simp only [ExprSite.finish, hclose]) (hv e)

theorem accepted_branch (he : Phrase.branch.Accepted eof us) : Phrase.primary.Accepted eof us := by
  intro site vs hv
  obtain ⟨tok, rest, rfl, hk, hrest⟩ := he (.operand site) vs fun e _ => hv e
  exact .cons (.ifOpen tok.pos (.operand site)) (by simp only [OperandSite.start, hk]) hrest

theorem accepted_negativeInteger {sign tok : Token} (hsign : sign.kind = .minus)
    (h : tok.IsLiteral true) : Phrase.unary.Accepted eof [sign, tok] := by
  intro site vs hv
  obtain ⟨value, hs⟩ := h.literal_eq_ok sign.pos site
  refine .cons (.sign sign.pos site) (by simp only [OperandSite.start, hsign]) ?_
  exact .cons (.operandDone (.int sign.pos value) site)
    (by simpa only [Unfinished.feed, h.kind] using hs) (hv _)

theorem accepted_negated {sign : Token} (hsign : sign.kind = .minus) (h : Derives .unary us)
    (he : Phrase.unary.Accepted eof us) : Phrase.unary.Accepted eof (sign :: us) := by
  rcases h.unary_cases with ⟨tok, rfl, htok⟩ | ⟨tok, rest, rfl, htok⟩
  · exact accepted_negativeInteger hsign htok.behindSign
  · intro site vs hv
    refine .cons (.sign sign.pos site) (by simp only [OperandSite.start, hsign]) ?_
    refine (he (.negated sign.pos site) vs fun e => hv (.negate sign.pos e)).congr ?_
    simp only [upcoming, List.cons_append, List.headD_cons]
    grind [Unfinished.feed]

theorem accepted_operand (he : Phrase.unary.Accepted eof us) : Phrase.binary.Accepted eof us :=
  fun site vs hop hv => he site vs fun e => (hv (site.close e)).after hop

theorem accepted_operator {tok : Token} {op : Operator} (hl : Phrase.unary.Accepted eof us)
    (h : tok.kind.operator? = some op) (hr : Phrase.binary.Accepted eof vs) :
    Phrase.binary.Accepted eof (us ++ tok :: vs) := by
  intro site ws hop hw
  rw [List.append_assoc]
  refine hl site _ fun e => .cons _ (OperandSite.after_of_operator h) ?_
  -- The expression goes on at the same site, whatever operators are closed.
  refine hr (.rightOf _ _ _ _) ws hop fun e' => ?_
  rw [OperandSite.base, OperandSite.base_reduce]
  exact hw e'

theorem accepted_assign {name eq : Token} (hname : name.kind = .identifier)
    (heq : eq.kind = .assign) (he : Phrase.expr.Accepted eof us) :
    Phrase.expr.Accepted eof (name :: eq :: us) := by
  intro site vs hop hv
  refine .cons (.leadingName name.pos name.text site) (by simp only [ExprSite.start, hname]) ?_
  refine .cons (.expr (.assigned name.pos name.text site)) (by simp only [Unfinished.feed, heq]) ?_
  exact he (.assigned name.pos name.text site) vs hop fun e => hv (.assign name.pos name.text e)

theorem accepted_binary (he : Phrase.binary.Accepted eof us) : Phrase.expr.Accepted eof us :=
  fun site vs hop hv => (he (.first site) vs hop hv).start_of_first

theorem accepted_lastArg (he : Phrase.expr.Accepted eof us) : Phrase.args.Accepted eof us := by
  intro pos callee earlier site close_ vs hclose hv
  refine he (.argument pos callee earlier site) _
    (noOperator_cons (by simp [hclose, TokenKind.operator?])) fun e => ?_
  exact .cons (.operandDone (.call pos callee (earlier ++ [e])) site)
    (by simp only [ExprSite.finish, hclose]) (hv _)

theorem accepted_moreArgs {comma : Token} (he : Phrase.expr.Accepted eof us)
    (hcomma : comma.kind = .comma) (hargs : Phrase.args.Accepted eof vs) :
    Phrase.args.Accepted eof (us ++ comma :: vs) := by
  intro pos callee earlier site close_ ws hclose hw
  rw [List.append_assoc]
  refine he (.argument pos callee earlier site) _
    (noOperator_cons (by simp [hcomma, TokenKind.operator?])) fun e => ?_
  exact .cons (.expr (.argument pos callee (earlier ++ [e]) site))
    (by simp only [ExprSite.finish, hcomma])
    (hargs pos callee (earlier ++ [e]) site close_ ws hclose hw)

/-! ### If expressions -/

/-- The head of an if expression is read, and then its first block. -/
theorem accepts_ifOpen {open_ close_ : Token} {pos : Pos} {site : IfSite}
    (hopen : open_.kind = .lparen) (ht : Phrase.expr.Accepted eof us)
    (hclose : close_.kind = .rparen) (hb : Phrase.block.Accepted eof vs)
    (hw : ∀ test lines,
      Accepts eof (fun tok => (Unfinished.thenDone pos test lines site).feed tok) ws) :
    Accepts eof (fun tok => (Unfinished.ifOpen pos site).feed tok)
      (open_ :: (us ++ close_ :: (vs ++ ws))) := by
  refine .cons (.expr (.test pos site)) (by simp only [Unfinished.feed, hopen]) ?_
  refine ht (.test pos site) _ (noOperator_cons (by simp [hclose, TokenKind.operator?]))
    fun test => ?_
  refine .cons (.block (.thenOf pos test site)) (by simp only [ExprSite.finish, hclose]) ?_
  exact hb (.thenOf pos test site) ws fun lines => hw test lines

theorem accepted_ifThen {tok open_ close_ : Token} (h : tok.kind = .kwIf)
    (hopen : open_.kind = .lparen) (ht : Phrase.expr.Accepted eof us)
    (hclose : close_.kind = .rparen) (hb : Phrase.block.Accepted eof vs) :
    Phrase.branch.Accepted eof (tok :: open_ :: (us ++ close_ :: vs)) := by
  intro site ws hw
  refine ⟨tok, _, rfl, h, ?_⟩
  simp only [List.cons_append, List.append_assoc]
  refine accepts_ifOpen hopen ht hclose hb fun test lines => ?_
  exact (hw (.branch tok.pos test lines none) rfl).thenDone_of_after

theorem accepted_ifThenElse {tok open_ close_ els : Token} (h : tok.kind = .kwIf)
    (hopen : open_.kind = .lparen) (ht : Phrase.expr.Accepted eof us)
    (hclose : close_.kind = .rparen) (hb : Phrase.block.Accepted eof vs)
    (helse : els.kind = .kwElse) (ho : Phrase.otherwise.Accepted eof ws) :
    Phrase.branch.Accepted eof (tok :: open_ :: (us ++ close_ :: (vs ++ els :: ws))) := by
  intro site xs hx
  refine ⟨tok, _, rfl, h, ?_⟩
  simp only [List.cons_append, List.append_assoc]
  refine accepts_ifOpen hopen ht hclose hb fun test lines => ?_
  exact .cons (.elseOpen tok.pos test lines site) (by simp only [Unfinished.feed, helse])
    (ho tok.pos test lines site xs hx)

theorem accepted_elseBlock (hb : Phrase.block.Accepted eof us) :
    Phrase.otherwise.Accepted eof us := by
  intro pos test thenBlock site vs hv
  exact (hb (.elseOf pos test thenBlock site) vs fun lines =>
    hv (.branch pos test thenBlock (some lines)) rfl).elseOpen_of_block

theorem accepted_elseIf (he : Phrase.branch.Accepted eof us) :
    Phrase.otherwise.Accepted eof us := by
  intro pos test thenBlock site vs hv
  obtain ⟨tok, rest, rfl, hk, hrest⟩ := he (.elseOf pos test thenBlock site) vs fun e _ =>
    hv (.branch pos test thenBlock (some [.expr e.pos e])) rfl
  exact .cons (.ifOpen tok.pos (.elseOf pos test thenBlock site))
    (by simp only [Unfinished.feed, hk]) hrest

theorem accepted_enclosedBranch (he : Phrase.branch.Accepted eof us) :
    Phrase.enclosed.Accepted eof us := by
  intro site vs hop hv
  obtain ⟨tok, rest, rfl, hk, hrest⟩ := he (.operand (.first site)) vs fun e hb =>
    Reads.after hop (hv e hb)
  exact .cons (.ifOpen tok.pos (.operand (.first site)))
    (by simp only [ExprSite.start, OperandSite.start, hk]) hrest

theorem accepted_enclosedGroup {open_ close_ : Token} (hopen : open_.kind = .lparen)
    (he : Phrase.enclosed.Accepted eof us) (hclose : close_.kind = .rparen) :
    Phrase.enclosed.Accepted eof (open_ :: (us ++ [close_])) := by
  intro site vs hop hv
  simp only [List.cons_append, List.append_assoc, List.nil_append]
  refine .cons (.expr (.grouped (.first site)))
    (by simp only [ExprSite.start, OperandSite.start, hopen]) ?_
  refine he (.grouped (.first site)) _ (noOperator_cons (by simp [hclose, TokenKind.operator?]))
    fun e hb => ?_
  have hafter : Accepts eof ((OperandSite.first site).after e) vs := Reads.after hop (hv e hb)
  exact .cons (.operandDone e (.first site)) (by simp only [ExprSite.finish, hclose]) hafter

/-! ### Lines -/

theorem accepted_block {open_ close_ : Token} (hopen : open_.kind = .lbrace)
    (hl : Phrase.lines.Accepted eof us) (hclose : close_.kind = .rbrace) :
    Phrase.block.Accepted eof (open_ :: (us ++ [close_])) := by
  intro site vs hv
  simp only [List.cons_append, List.append_assoc, List.nil_append]
  exact .cons (.line (.inside [] site)) (by simp only [BlockSite.start, hopen])
    (hl site [] close_ vs hclose hv)

theorem accepted_noLines : Phrase.lines.Accepted eof [] := by
  intro site lines close_ vs hclose hv
  exact .cons (site.fill lines) (by simp only [LineSite.start, hclose]) (hv lines)

theorem accepted_lines (hl : (Phrase.line ended).Accepted eof us)
    (hr : Phrase.lines.Accepted eof vs) (hop : ended = false → NoOperator vs) :
    Phrase.lines.Accepted eof (us ++ vs) := by
  intro site lines close_ ws hclose hw
  rw [List.append_assoc]
  have hend : NoOperator (close_ :: ws) :=
    noOperator_cons (by simp [hclose, TokenKind.operator?])
  exact hl (.inside lines site) _ (fun he => (hop he).append hend) fun l =>
    hr site (lines ++ [l]) close_ ws hclose hw

theorem accepted_noSemicolon : Phrase.optionalSemicolon.Accepted eof [] :=
  fun _ _ hv => hv.lineClosed_of_line

theorem accepted_semicolon {semi : Token} (h : semi.kind = .semicolon) :
    Phrase.optionalSemicolon.Accepted eof [semi] :=
  fun site _ hv => .cons (.line site) (by simp only [Unfinished.feed, h]) hv

theorem accepted_loop {tok : Token} (h : tok.kind = .kwLoop) (hb : Phrase.block.Accepted eof us)
    (hs : Phrase.optionalSemicolon.Accepted eof vs) :
    (Phrase.line true).Accepted eof (tok :: (us ++ vs)) := by
  intro site ws _ hw
  simp only [List.cons_append, List.append_assoc]
  refine .cons (.block (.loop tok.pos site)) (by simp only [LineSite.start, h]) ?_
  exact hb (.loop tok.pos site) _ fun lines => hs _ ws (hw (.loop tok.pos lines))

theorem accepted_brk {tok semi : Token} (h : tok.kind = .kwBreak)
    (hsemi : semi.kind = .semicolon) : (Phrase.line true).Accepted eof [tok, semi] := by
  intro site vs _ hv
  refine .cons (.breakOpen tok.pos site) (by simp only [LineSite.start, h]) ?_
  exact .cons (.line (site.add (.brk tok.pos))) (by simp only [Unfinished.feed, hsemi]) (hv _)

theorem accepted_endedLine {semi : Token} (he : Phrase.expr.Accepted eof us)
    (hsemi : semi.kind = .semicolon) : (Phrase.line true).Accepted eof (us ++ [semi]) := by
  intro site vs _ hv
  rw [List.append_assoc]
  refine Reads.start_of_expr (he (.line _ site) _
    (noOperator_cons (by simp [hsemi, TokenKind.operator?])) fun e => ?_)
  exact .cons (.line (site.add (.expr (upcoming eof (us ++ semi :: vs)).pos e)))
    (by simp only [ExprSite.finish, hsemi]; rfl) (hv _)

theorem accepted_unendedLine (he : Phrase.enclosed.Accepted eof us) :
    (Phrase.line false).Accepted eof us := by
  intro site vs hop hv
  refine Reads.start_of_expr (he (.line _ site) vs (hop rfl) fun e hb => ?_)
  -- What follows is not the semicolon, because no line starts with one.
  have hline := hv (.expr (upcoming eof (us ++ vs)).pos e)
  obtain ⟨s, hs⟩ := hline.exists_ok
  have hne : (upcoming eof vs).kind ≠ .semicolon := fun hk =>
    LineSite.start_ne_ok (by simp [hk]) hs
  exact hline.congr (by grind [ExprSite.finish])

/-! ### Statements -/

theorem accepted_noParams : Phrase.params.Accepted eof [] := by
  intro pos name done close_ vs hclose hv
  exact .cons (.block (.function pos name [] done)) (by simp only [Unfinished.feed, hclose]) (hv [])

theorem accepted_params (h : Phrase.names.Accepted eof us) : Phrase.params.Accepted eof us := by
  intro pos name done close_ vs hclose hv
  exact (h pos name [] done close_ vs hclose hv).paramsOpen_of_param

theorem accepted_lastName {tok : Token} (h : tok.kind = .identifier) :
    Phrase.names.Accepted eof [tok] := by
  intro pos name earlier done close_ vs hclose hv
  refine .cons (.paramDone pos name (earlier ++ [tok.text]) done)
    (by simp only [Unfinished.feed, h]) ?_
  exact .cons (.block (.function pos name (earlier ++ [tok.text]) done))
    (by simp only [Unfinished.feed, hclose]) (hv _)

theorem accepted_moreNames {tok comma : Token} (h : tok.kind = .identifier)
    (hcomma : comma.kind = .comma) (hr : Phrase.names.Accepted eof us) :
    Phrase.names.Accepted eof (tok :: comma :: us) := by
  intro pos name earlier done close_ vs hclose hv
  refine .cons (.paramDone pos name (earlier ++ [tok.text]) done)
    (by simp only [Unfinished.feed, h]) ?_
  exact .cons (.param pos name (earlier ++ [tok.text]) done)
    (by simp only [Unfinished.feed, hcomma]) (hr _ _ _ _ close_ vs hclose hv)

theorem accepted_function {fn name open_ close_ : Token} (hfn : fn.kind = .kwFn)
    (hname : name.kind = .identifier) (hopen : open_.kind = .lparen)
    (hp : Phrase.params.Accepted eof us) (hclose : close_.kind = .rparen)
    (hb : Phrase.block.Accepted eof vs) (hs : Phrase.optionalSemicolon.Accepted eof ws) :
    (Phrase.statement true).Accepted eof
      (fn :: name :: open_ :: (us ++ close_ :: (vs ++ ws))) := by
  intro done xs _ hx
  simp only [List.cons_append, List.append_assoc]
  refine .cons (.fnOpen fn.pos done) (by simp only [LineSite.start, hfn]) ?_
  refine .cons (.fnNamed fn.pos name.text done) (by simp only [Unfinished.feed, hname]) ?_
  refine .cons (.paramsOpen fn.pos name.text done) (by simp only [Unfinished.feed, hopen]) ?_
  refine hp fn.pos name.text done close_ _ hclose fun params => ?_
  exact hb (.function fn.pos name.text params done) _ fun lines => hs _ xs (hx _)

end Rules

/-- The tokens of a phrase are read wherever the phrase is due. -/
theorem Derives.accepted {ph : Phrase} {us : List Token} (eof : Pos) (h : Derives ph us) :
    ph.Accepted eof us := by
  induction h with
  | noStatements => exact fun done => ⟨.line (.top done), rfl, trivial⟩
  | statements _ _ follow ihs ihr => exact fun done => ihs done _ follow ihr
  | function hfn hname hopen _ hclose _ _ ihp ihb ihs =>
    exact accepted_function hfn hname hopen ihp hclose ihb ihs
  | line _ ih => exact fun done vs hop hv => ih (.top done) vs hop fun l => hv _
  | noParams => exact accepted_noParams
  | params _ ih => exact accepted_params ih
  | lastName h => exact accepted_lastName h
  | moreNames h hcomma _ ih => exact accepted_moreNames h hcomma ih
  | noSemicolon => exact accepted_noSemicolon
  | semicolon h => exact accepted_semicolon h
  | block hopen _ hclose ih => exact accepted_block hopen ih hclose
  | noLines => exact accepted_noLines
  | lines _ _ follow ihl ihr => exact accepted_lines ihl ihr follow
  | loop h _ _ ihb ihs => exact accepted_loop h ihb ihs
  | brk h hsemi => exact accepted_brk h hsemi
  | endedLine _ hsemi ih => exact accepted_endedLine ih hsemi
  | unendedLine _ ih => exact accepted_unendedLine ih
  | assign hname heq _ ih => exact accepted_assign hname heq ih
  | binary _ ih => exact accepted_binary ih
  | operand _ ih => exact accepted_operand ih
  | operator _ hop _ ihl ihr => exact accepted_operator ihl hop ihr
  | negativeInteger hsign h => exact accepted_negativeInteger hsign h
  | negated hsign h ih => exact accepted_negated hsign h ih
  | primary _ ih => exact ih
  | integer h => exact accepted_integer h
  | constant h => exact accepted_constant h
  | name h => exact accepted_name h
  | callEmpty h hopen hclose => exact accepted_callEmpty h hopen hclose
  | call h hopen _ hclose ih => exact accepted_call h hopen ih hclose
  | grouped hopen _ hclose ih => exact accepted_grouped hopen ih hclose
  | branch _ ih => exact accepted_branch ih
  | lastArg _ ih => exact accepted_lastArg ih
  | moreArgs _ hcomma _ ihe ihr => exact accepted_moreArgs ihe hcomma ihr
  | ifThen h hopen _ hclose _ iht ihb => exact accepted_ifThen h hopen iht hclose ihb
  | ifThenElse h hopen _ hclose _ helse _ iht ihb iho =>
    exact accepted_ifThenElse h hopen iht hclose ihb helse iho
  | elseBlock _ ih => exact accepted_elseBlock ih
  | elseIf _ ih => exact accepted_elseIf ih
  | enclosedBranch _ ih => exact accepted_enclosedBranch ih
  | enclosedGroup hopen _ hclose ih => exact accepted_enclosedGroup hopen ih hclose

end FrameLang
