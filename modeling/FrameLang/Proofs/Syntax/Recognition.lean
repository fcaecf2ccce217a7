import FrameLang.Proofs.Syntax.Acceptance

/-!
# What is read is derived by the grammar

An input that is read where a phrase is due starts with tokens that the phrase derives, and the rest
is read by what stands behind the phrase then. Every phrase takes a token before it gets to another
one of its kind, so this is shown for all phrases at once by induction on the length of the input.
Together with the rules of the grammar it says that the tokens that are read as a program are those
that the grammar derives.

## Main definitions

* `Recognizes` — inputs up to some length start with the phrases that are due.
-/

namespace FrameLang

/-- The input has less than `n` tokens, and its integers are digits. -/
structure Within (n : Nat) (ts : List Token) : Prop where
  length : ts.length < n
  digits : ∀ tok ∈ ts, tok.kind = .integer → ∀ c ∈ tok.text, c.isDigit = true

namespace Within

variable {n : Nat} {tok : Token} {us vs : List Token}

theorem tail (h : Within (n + 1) (tok :: vs)) : Within n vs :=
  ⟨Nat.lt_of_succ_lt_succ h.length, fun t ht => h.digits t (.tail _ ht)⟩

theorem skip (h : Within n (tok :: vs)) : Within n vs :=
  ⟨Nat.lt_of_succ_lt h.length, fun t ht => h.digits t (.tail _ ht)⟩

theorem right (h : Within n (us ++ vs)) : Within n vs :=
  ⟨Nat.lt_of_le_of_lt (by simp) h.length, fun t ht => h.digits t (List.mem_append_right _ ht)⟩

/-- What stands behind at least one token is shorter. -/
theorem behind (h : Within (n + 1) (us ++ vs)) (hu : us ≠ []) : Within n vs := by
  cases us with
  | nil => exact absurd rfl hu
  | cons tok rest => exact (tail h).right

end Within

/-- The phrases that may have no tokens. -/
def Phrase.mayBeEmpty : Phrase → Bool
  | .program | .params | .optionalSemicolon | .lines => true
  | _ => false

theorem Derives.ne_nil {ph : Phrase} {us : List Token} (h : Derives ph us)
    (hp : ph.mayBeEmpty = false) : us ≠ [] := by
  induction h <;> simp_all [Phrase.mayBeEmpty]

/-- Inputs of less than `n` tokens that are read where a phrase is due start with that phrase. -/
structure Recognizes (eof : Pos) (Q : Program → Prop) (n : Nat) : Prop where
  unary {site : OperandSite} {ts : List Token} : Within n ts → Reads eof Q site.start ts →
    ∃ us vs e, ts = us ++ vs ∧ Derives .unary us ∧ (e.isBranch = true → Derives .enclosed us) ∧
      Reads eof Q (site.after e) vs
  binary {site : OperandSite} {ts : List Token} : Within n ts → Reads eof Q site.start ts →
    ∃ us vs e, ts = us ++ vs ∧ Derives .binary us ∧ NoOperator vs ∧
      (e.isBranch = true → site = .first site.base ∧ Derives .enclosed us) ∧
      Reads eof Q (fun tok => site.base.finish e tok) vs
  expr {site : ExprSite} {ts : List Token} : Within n ts → Reads eof Q site.start ts →
    ∃ us vs e, ts = us ++ vs ∧ Derives .expr us ∧ NoOperator vs ∧
      (e.isBranch = true → Derives .enclosed us) ∧ Reads eof Q (fun tok => site.finish e tok) vs
  args {pos : Pos} {callee : Text} {earlier : List Expr} {site : OperandSite} {ts : List Token} :
    Within n ts → Reads eof Q (ExprSite.argument pos callee earlier site).start ts →
    ∃ us close_ vs args, ts = us ++ close_ :: vs ∧ Derives .args us ∧ close_.kind = .rparen ∧
      Reads eof Q (site.after (.call pos callee args)) vs
  branch {pos : Pos} {site : IfSite} {ts : List Token} : Within n ts →
    Reads eof Q (fun tok => (Unfinished.ifOpen pos site).feed tok) ts →
    ∃ us vs e, ts = us ++ vs ∧ (∀ tok, tok.kind = .kwIf → Derives .branch (tok :: us)) ∧
      Reads eof Q ((site.operandOf e).2.after (site.operandOf e).1) vs
  block {site : BlockSite} {ts : List Token} : Within n ts → Reads eof Q site.start ts →
    ∃ us vs lines, ts = us ++ vs ∧ Derives .block us ∧
      Reads eof Q (fun tok => (site.fill lines).feed tok) vs
  lines {lines : List Line} {site : BlockSite} {ts : List Token} : Within n ts →
    Reads eof Q (LineSite.inside lines site).start ts →
    ∃ us close_ vs lines', ts = us ++ close_ :: vs ∧ Derives .lines us ∧ close_.kind = .rbrace ∧
      Reads eof Q (fun tok => (site.fill lines').feed tok) vs

section Steps

variable {eof : Pos} {Q : Program → Prop} {n : Nat}

/-! ## Operands -/

/-- A literal that is read is one of the grammar. -/
theorem Token.isLiteral_of_literal {tok : Token} {negative : Bool} {pos : Pos}
    {site : OperandSite} {s : Unfinished} (hk : tok.kind = .integer)
    (hd : ∀ c ∈ tok.text, c.isDigit = true) (h : tok.literal negative pos site = .ok s) :
    tok.IsLiteral negative ∧ ∃ value, s = .operandDone (.int pos value) site := by
  rw [Token.literal, readLiteral_of_digits hd] at h
  by_cases hr : Text.decimal tok.text ≤ literalLimit negative
  · rw [if_pos hr] at h
    exact ⟨⟨hk, hd, hr⟩, _, (Except.ok.inj h).symm⟩
  · rw [if_neg hr] at h
    cases h

/-- Behind a name stands the parenthesis of a call, or what stands behind an operand. -/
theorem Reads.afterName_cases {site : OperandSite} {pos : Pos} {name : Text} {ts : List Token}
    (h : Reads eof Q (fun tok => site.afterName pos name tok) ts) :
    (∃ open_ rest, ts = open_ :: rest ∧ open_.kind = .lparen ∧
      Reads eof Q (fun tok => (Unfinished.callOpen pos name site).feed tok) rest) ∨
      Reads eof Q (site.after (.name pos name)) ts := by
  cases ts with
  | nil => exact .inr (h.congr rfl)
  | cons tok rest =>
    by_cases hk : tok.kind = .lparen
    · obtain ⟨s, hs, hrest⟩ := h
      obtain rfl : Unfinished.callOpen pos name site = s := by
        simpa [OperandSite.afterName, hk] using hs
      exact .inl ⟨tok, rest, rfl, hk, hrest⟩
    · exact .inr (h.congr (by grind [upcoming, OperandSite.afterName]))

theorem Recognizes.call (ih : Recognizes eof Q n) {site : OperandSite} {pos : Pos} {callee : Text}
    {ts : List Token} (hw : Within n ts)
    (h : Reads eof Q (fun tok => (Unfinished.callOpen pos callee site).feed tok) ts) :
    ∃ us vs args, ts = us ++ vs ∧ (∀ tok open_, tok.kind = .identifier → open_.kind = .lparen →
      Derives .primary (tok :: open_ :: us)) ∧
        Reads eof Q (site.after (.call pos callee args)) vs := by
  by_cases hk : (upcoming eof ts).kind = .rparen
  · obtain ⟨tok, rest, s, rfl, hs, hrest⟩ := h.exists_cons
      (by simp [Unfinished.feed, ExprSite.start, OperandSite.start, Token.reject])
    obtain rfl : Unfinished.operandDone (.call pos callee []) site = s := by
      simpa [Unfinished.feed, show tok.kind = .rparen from hk] using hs
    exact ⟨[tok], rest, [], rfl, fun _ _ ht ho => .callEmpty ht ho hk, hrest⟩
  · have hargs : Reads eof Q (ExprSite.argument pos callee [] site).start ts :=
      h.congr (by grind [Unfinished.feed])
    obtain ⟨us, close_, vs, args, rfl, hus, hclose, hvs⟩ := ih.args hw hargs
    exact ⟨us ++ [close_], vs, args, by simp, fun _ _ ht ho => .call ht ho hus hclose, hvs⟩

theorem Recognizes.sign (ih : Recognizes eof Q n) {site : OperandSite} {pos : Pos}
    {ts : List Token} (hw : Within n ts)
    (h : Reads eof Q (fun tok => (Unfinished.sign pos site).feed tok) ts) :
    ∃ us vs e, ts = us ++ vs ∧ (∀ tok, tok.kind = .minus → Derives .unary (tok :: us)) ∧
      e.isBranch = false ∧ Reads eof Q (site.after e) vs := by
  by_cases hk : (upcoming eof ts).kind = .integer
  · obtain ⟨tok, rest, s, rfl, hs, hrest⟩ := h.exists_cons
      (by simp [Unfinished.feed, OperandSite.start, Token.reject])
    have hk' : tok.kind = .integer := hk
    simp only [Unfinished.feed, hk'] at hs
    obtain ⟨hlit, value, rfl⟩ :=
      Token.isLiteral_of_literal hk' (hw.digits tok (.head _) hk') hs
    exact ⟨[tok], rest, _, rfl, fun _ ht => .negativeInteger ht hlit, rfl, hrest⟩
  · have hneg : Reads eof Q (OperandSite.negated pos site).start ts :=
      h.congr (by grind [Unfinished.feed])
    obtain ⟨us, vs, e, rfl, hus, -, hvs⟩ := ih.unary hw hneg
    exact ⟨us, vs, .negate pos e, rfl, fun _ ht => .negated ht hus, rfl, hvs⟩

theorem Recognizes.group (ih : Recognizes eof Q n) {site : OperandSite} {ts : List Token}
    (hw : Within n ts) (h : Reads eof Q (ExprSite.grouped site).start ts) :
    ∃ us close_ vs e, ts = us ++ close_ :: vs ∧ Derives .expr us ∧ close_.kind = .rparen ∧
      (e.isBranch = true → Derives .enclosed us) ∧ Reads eof Q (site.after e) vs := by
  obtain ⟨us, vs, e, rfl, hus, -, hb, hvs⟩ := ih.expr hw h
  obtain ⟨tok, rest, s, rfl, hs, hrest⟩ := hvs.exists_cons (by simp [ExprSite.finish, Token.reject])
  simp only [ExprSite.finish] at hs
  split at hs
  · rename_i hk
    obtain rfl := Except.ok.inj hs
    exact ⟨us, tok, rest, e, rfl, hus, hk, hb, hrest⟩
  · cases hs

/-- An operand of one token, be it a string or a truth value. -/
theorem Reads.constant {tok : Token} {rest : List Token} {e : Expr} {site : OperandSite}
    (hk : tok.kind ∈ [TokenKind.string, .kwTrue, .kwFalse]) (he : e.isBranch = false)
    (hrest : Reads eof Q (site.after e) rest) :
    ∃ us vs e, tok :: rest = us ++ vs ∧ Derives .unary us ∧
      (e.isBranch = true → Derives .enclosed us) ∧ Reads eof Q (site.after e) vs :=
  ⟨[tok], rest, e, rfl, .primary (.constant hk), by simp [he], hrest⟩

theorem Recognizes.unary_succ (ih : Recognizes eof Q n) {site : OperandSite} {ts : List Token}
    (hw : Within (n + 1) ts) (h : Reads eof Q site.start ts) :
    ∃ us vs e, ts = us ++ vs ∧ Derives .unary us ∧ (e.isBranch = true → Derives .enclosed us) ∧
      Reads eof Q (site.after e) vs := by
  obtain ⟨tok, rest, s, rfl, hs, hrest⟩ := h.exists_cons
    (by simp [OperandSite.start, Token.reject])
  have hw' := hw.tail
  unfold OperandSite.start at hs
  split at hs
  · rename_i hk
    obtain ⟨hlit, value, rfl⟩ := Token.isLiteral_of_literal hk (hw.digits tok (.head _) hk) hs
    exact ⟨[tok], rest, .int tok.pos value, rfl, .primary (.integer hlit),
      by simp [Expr.isBranch], hrest⟩
  · rename_i hk
    obtain rfl := Except.ok.inj hs
    exact Reads.constant (e := .str tok.pos tok.text) (by simp [hk]) rfl hrest
  · rename_i hk
    obtain rfl := Except.ok.inj hs
    exact Reads.constant (e := .bool tok.pos true) (by simp [hk]) rfl hrest
  · rename_i hk
    obtain rfl := Except.ok.inj hs
    exact Reads.constant (e := .bool tok.pos false) (by simp [hk]) rfl hrest
  · rename_i hk
    obtain rfl := Except.ok.inj hs
    rcases hrest.afterName_cases with ⟨open_, rest, rfl, hopen, hcall⟩ | hafter
    · obtain ⟨us, vs, args, rfl, hus, hvs⟩ := ih.call hw'.skip hcall
      exact ⟨tok :: open_ :: us, vs, .call tok.pos tok.text args, rfl,
        .primary (hus tok open_ hk hopen), by simp [Expr.isBranch], hvs⟩
    · exact ⟨[tok], rest, .name tok.pos tok.text, rfl, .primary (.name hk),
        by simp [Expr.isBranch], hafter⟩
  · rename_i hk
    obtain rfl := Except.ok.inj hs
    obtain ⟨us, vs, e, rfl, hus, he, hvs⟩ := ih.sign hw' hrest
    exact ⟨tok :: us, vs, e, rfl, hus tok hk, by simp [he], hvs⟩
  · rename_i hk
    obtain rfl := Except.ok.inj hs
    obtain ⟨us, close_, vs, e, rfl, hus, hclose, hb, hvs⟩ := ih.group hw' hrest
    exact ⟨tok :: (us ++ [close_]), vs, e, by simp, .primary (.grouped hk hus hclose),
      fun he => .enclosedGroup hk (hb he) hclose, hvs⟩
  · rename_i hk
    obtain rfl := Except.ok.inj hs
    obtain ⟨us, vs, e, rfl, hus, hvs⟩ := ih.branch hw' hrest
    exact ⟨tok :: us, vs, e, rfl, .primary (.branch (hus tok hk)),
      fun _ => .enclosedBranch (hus tok hk), hvs⟩
  · cases hs

/-! ## Expressions -/

theorem Recognizes.binary_succ (ih : Recognizes eof Q n) {site : OperandSite} {ts : List Token}
    (hw : Within (n + 1) ts) (h : Reads eof Q site.start ts) :
    ∃ us vs e, ts = us ++ vs ∧ Derives .binary us ∧ NoOperator vs ∧
      (e.isBranch = true → site = .first site.base ∧ Derives .enclosed us) ∧
      Reads eof Q (fun tok => site.base.finish e tok) vs := by
  obtain ⟨us, vs, e, rfl, hus, hb, hvs⟩ := ih.unary_succ hw h
  cases hop : (upcoming eof vs).kind.operator? with
  | none =>
    have hno : NoOperator vs := by
      intro tok htok
      cases vs with
      | nil => cases htok
      | cons _ _ =>
        obtain rfl := Option.some.inj htok
        exact hop
    refine ⟨us, vs, site.close e, rfl, .operand hus, hno, fun hc => ?_,
      hvs.congr (OperandSite.after_of_not_operator hop)⟩
    obtain ⟨he, hsite⟩ := OperandSite.isBranch_close site hc
    exact ⟨hsite, hb he⟩
  | some op =>
    cases vs with
    | nil => cases hop
    | cons tok vs =>
      obtain ⟨s, hs, hrest⟩ := hvs
      obtain rfl := Except.ok.inj ((OperandSite.after_of_operator hop).symm.trans hs)
      obtain ⟨us', ws, e', rfl, hus', hno, hb', hws⟩ :=
        ih.binary hw.right.tail hrest
      rw [OperandSite.base, OperandSite.base_reduce] at hws
      exact ⟨us ++ tok :: us', ws, e', by simp, .operator hus hop hus', hno,
        fun he => by simpa using (hb' he).1, hws⟩

/-- An expression starts with the target of an assignment or with an operand. -/
theorem Reads.start_cases {site : ExprSite} {ts : List Token} (h : Reads eof Q site.start ts) :
    (∃ name eq rest, ts = name :: eq :: rest ∧ name.kind = .identifier ∧ eq.kind = .assign ∧
      Reads eof Q (ExprSite.assigned name.pos name.text site).start rest) ∨
      Reads eof Q (OperandSite.first site).start ts := by
  cases ts with
  | nil => exact .inr (h.congr rfl)
  | cons tok rest =>
    by_cases hk : tok.kind = .identifier
    · obtain ⟨s, hs, hrest⟩ := h
      obtain rfl : Unfinished.leadingName tok.pos tok.text site = s := by
        simpa [ExprSite.start, hk] using hs
      by_cases ha : (upcoming eof rest).kind = .assign
      · cases rest with
        | nil => cases ha
        | cons eq rest =>
          obtain ⟨s, hs, hrest⟩ := hrest
          obtain rfl : Unfinished.expr (.assigned tok.pos tok.text site) = s := by
            simpa [Unfinished.feed, show eq.kind = .assign from ha] using hs
          exact .inl ⟨tok, eq, rest, rfl, hk, ha, hrest⟩
      · refine .inr (.cons (.namedOperand tok.pos tok.text (.first site))
          (by simp only [OperandSite.start, hk]) ?_)
        exact hrest.congr (by grind [Unfinished.feed])
    · exact .inr (h.congr (by grind [upcoming, ExprSite.start]))

theorem Recognizes.expr_succ (ih : Recognizes eof Q n) {site : ExprSite} {ts : List Token}
    (hw : Within (n + 1) ts) (h : Reads eof Q site.start ts) :
    ∃ us vs e, ts = us ++ vs ∧ Derives .expr us ∧ NoOperator vs ∧
      (e.isBranch = true → Derives .enclosed us) ∧
      Reads eof Q (fun tok => site.finish e tok) vs := by
  rcases h.start_cases with ⟨name, eq, rest, rfl, hname, heq, hrest⟩ | hfirst
  · obtain ⟨us, vs, e, rfl, hus, hno, -, hvs⟩ := ih.expr hw.tail.skip hrest
    exact ⟨name :: eq :: us, vs, .assign name.pos name.text e, rfl, .assign hname heq hus, hno,
      nofun, hvs⟩
  · obtain ⟨us, vs, e, rfl, hus, hno, hb, hvs⟩ := ih.binary_succ hw hfirst
    exact ⟨us, vs, e, rfl, .binary hus, hno, fun he => (hb he).2, hvs⟩

theorem Recognizes.args_succ (ih : Recognizes eof Q n) {pos : Pos} {callee : Text}
    {earlier : List Expr} {site : OperandSite} {ts : List Token} (hw : Within (n + 1) ts)
    (h : Reads eof Q (ExprSite.argument pos callee earlier site).start ts) :
    ∃ us close_ vs args, ts = us ++ close_ :: vs ∧ Derives .args us ∧ close_.kind = .rparen ∧
      Reads eof Q (site.after (.call pos callee args)) vs := by
  obtain ⟨us, vs, e, rfl, hus, -, -, hvs⟩ := ih.expr_succ hw h
  obtain ⟨tok, rest, s, rfl, hs, hrest⟩ := hvs.exists_cons (by simp [ExprSite.finish, Token.reject])
  simp only [ExprSite.finish] at hs
  split at hs
  · rename_i hk
    obtain rfl := Except.ok.inj hs
    obtain ⟨us', close_, vs', args, rfl, hus', hclose, hvs'⟩ := ih.args hw.right.tail hrest
    exact ⟨us ++ tok :: us', close_, vs', args, by simp, .moreArgs hus hk hus', hclose, hvs'⟩
  · rename_i hk
    obtain rfl := Except.ok.inj hs
    exact ⟨us, tok, rest, earlier ++ [e], rfl, .lastArg hus, hk, hrest⟩
  · cases hs

/-! ## If expressions -/

/-- Behind the first block of an if expression stands `else`, or what stands behind an operand. -/
theorem Reads.thenDone_cases {pos : Pos} {test : Expr} {lines : List Line} {site : IfSite}
    {ts : List Token}
    (h : Reads eof Q (fun tok => (Unfinished.thenDone pos test lines site).feed tok) ts) :
    (∃ els rest, ts = els :: rest ∧ els.kind = .kwElse ∧
      Reads eof Q (fun tok => (Unfinished.elseOpen pos test lines site).feed tok) rest) ∨
      Reads eof Q ((site.operandOf (.branch pos test lines none)).2.after
        (site.operandOf (.branch pos test lines none)).1) ts := by
  cases ts with
  | nil => exact .inr (h.congr rfl)
  | cons tok rest =>
    by_cases hk : tok.kind = .kwElse
    · obtain ⟨s, hs, hrest⟩ := h
      obtain rfl : Unfinished.elseOpen pos test lines site = s := by
        simpa [Unfinished.feed, hk] using hs
      exact .inl ⟨tok, rest, rfl, hk, hrest⟩
    · exact .inr (h.congr (by grind [upcoming, Unfinished.feed]))

theorem Recognizes.otherwise (ih : Recognizes eof Q n) {pos : Pos} {test : Expr}
    {lines : List Line} {site : IfSite} {ts : List Token} (hw : Within n ts)
    (h : Reads eof Q (fun tok => (Unfinished.elseOpen pos test lines site).feed tok) ts) :
    ∃ us vs e, ts = us ++ vs ∧ Derives .otherwise us ∧
      Reads eof Q ((site.operandOf e).2.after (site.operandOf e).1) vs := by
  by_cases hk : (upcoming eof ts).kind = .kwIf
  · obtain ⟨tok, rest, s, rfl, hs, hrest⟩ := h.exists_cons
      (by simp [Unfinished.feed, BlockSite.start, Token.reject])
    have hk' : tok.kind = .kwIf := hk
    obtain rfl : Unfinished.ifOpen tok.pos (.elseOf pos test lines site) = s := by
      simpa [Unfinished.feed, hk'] using hs
    obtain ⟨us, vs, e, rfl, hus, hvs⟩ := ih.branch hw.skip hrest
    exact ⟨tok :: us, vs, _, rfl, .elseIf (hus tok hk'), hvs⟩
  · have hblock : Reads eof Q (BlockSite.elseOf pos test lines site).start ts :=
      h.congr (by grind [Unfinished.feed])
    obtain ⟨us, vs, lines', rfl, hus, hvs⟩ := ih.block hw hblock
    exact ⟨us, vs, _, rfl, .elseBlock hus, hvs⟩

theorem Recognizes.branch_succ (ih : Recognizes eof Q n) {pos : Pos} {site : IfSite}
    {ts : List Token} (hw : Within (n + 1) ts)
    (h : Reads eof Q (fun tok => (Unfinished.ifOpen pos site).feed tok) ts) :
    ∃ us vs e, ts = us ++ vs ∧ (∀ tok, tok.kind = .kwIf → Derives .branch (tok :: us)) ∧
      Reads eof Q ((site.operandOf e).2.after (site.operandOf e).1) vs := by
  obtain ⟨open_, rest, s, rfl, hs, hrest⟩ := h.exists_cons (by simp [Unfinished.feed, Token.reject])
  simp only [Unfinished.feed] at hs
  split at hs
  · rename_i hopen
    obtain rfl := Except.ok.inj hs
    obtain ⟨us, vs, test, rfl, hus, -, -, hvs⟩ := ih.expr hw.tail hrest
    obtain ⟨close_, rest, s, rfl, hs', hrest'⟩ := hvs.exists_cons
      (by simp [ExprSite.finish, Token.reject])
    simp only [ExprSite.finish] at hs'
    split at hs'
    · rename_i hclose
      obtain rfl := Except.ok.inj hs'
      have hw' : Within n rest := hw.tail.right.skip
      obtain ⟨vs, ws, lines, rfl, hvs', hws⟩ := ih.block hw' hrest'
      rcases hws.thenDone_cases with ⟨els, rest, rfl, helse, hels⟩ | hafter
      · obtain ⟨ws, xs, e, rfl, hws', hxs⟩ := ih.otherwise hw'.right.skip hels
        exact ⟨open_ :: (us ++ close_ :: (vs ++ els :: ws)), xs, e, by simp,
          fun _ ht => .ifThenElse ht hopen hus hclose hvs' helse hws', hxs⟩
      · exact ⟨open_ :: (us ++ close_ :: vs), ws, _, by simp,
          fun _ ht => .ifThen ht hopen hus hclose hvs', hafter⟩
    · cases hs'
  · cases hs

/-! ## Lines -/

theorem Reads.lineClosed_cases {site : LineSite} {ts : List Token}
    (h : Reads eof Q (fun tok => (Unfinished.lineClosed site).feed tok) ts) :
    ∃ us vs, ts = us ++ vs ∧ Derives .optionalSemicolon us ∧ Reads eof Q site.start vs := by
  cases ts with
  | nil => exact ⟨[], [], rfl, .noSemicolon, h.congr rfl⟩
  | cons tok rest =>
    by_cases hk : tok.kind = .semicolon
    · obtain ⟨s, hs, hrest⟩ := h
      obtain rfl : Unfinished.line site = s := by simpa [Unfinished.feed, hk] using hs
      exact ⟨[tok], rest, rfl, .semicolon hk, hrest⟩
    · exact ⟨[], tok :: rest, rfl, .noSemicolon, h.congr (by grind [upcoming, Unfinished.feed])⟩

theorem Recognizes.block_succ (ih : Recognizes eof Q n) {site : BlockSite} {ts : List Token}
    (hw : Within (n + 1) ts) (h : Reads eof Q site.start ts) :
    ∃ us vs lines, ts = us ++ vs ∧ Derives .block us ∧
      Reads eof Q (fun tok => (site.fill lines).feed tok) vs := by
  obtain ⟨open_, rest, s, rfl, hs, hrest⟩ := h.exists_cons (by simp [BlockSite.start, Token.reject])
  simp only [BlockSite.start] at hs
  split at hs
  · rename_i hopen
    obtain rfl := Except.ok.inj hs
    obtain ⟨us, close_, vs, lines, rfl, hus, hclose, hvs⟩ := ih.lines hw.tail hrest
    exact ⟨open_ :: (us ++ [close_]), vs, lines, by simp, .block hopen hus hclose, hvs⟩
  · cases hs

/-- An expression line ends with a semicolon, or it is an if expression. -/
theorem Recognizes.exprLine (ih : Recognizes eof Q n) {pos : Pos} {site : LineSite}
    {ts : List Token} (hw : Within (n + 1) ts)
    (h : Reads eof Q (ExprSite.line pos site).start ts) :
    ∃ us vs ended l, ts = us ++ vs ∧ Derives (.line ended) us ∧ (ended = false → NoOperator vs) ∧
      Reads eof Q (site.add l).start vs := by
  obtain ⟨us, vs, e, rfl, hus, hno, hb, hvs⟩ := ih.expr_succ hw h
  by_cases hk : (upcoming eof vs).kind = .semicolon
  · cases vs with
    | nil => cases hk
    | cons semi rest =>
      obtain ⟨s, hs, hrest⟩ := hvs
      obtain rfl : Unfinished.line (site.add (.expr pos e)) = s := by
        simpa [ExprSite.finish, show semi.kind = .semicolon from hk] using hs
      exact ⟨us ++ [semi], rest, true, _, by simp, .endedLine hus hk, by simp, hrest⟩
  · obtain ⟨s, hs⟩ := hvs.exists_ok
    have he : e.isBranch = true := by grind [ExprSite.finish, Token.reject]
    have hrest : Reads eof Q (site.add (.expr pos e)).start vs :=
      hvs.congr (by grind [ExprSite.finish])
    exact ⟨us, vs, false, _, rfl, .unendedLine (hb he), fun _ => hno, hrest⟩

/-- Every other token starts an expression line. -/
theorem LineSite.start_eq {site : LineSite} {tok : Token}
    (h : tok.kind ∉ [TokenKind.eof, .kwFn, .rbrace, .kwLoop, .kwBreak]) :
    site.start tok = (ExprSite.line tok.pos site).start tok := by
  unfold LineSite.start
  split <;> simp_all

theorem Recognizes.line_succ (ih : Recognizes eof Q n) {site : LineSite} {tok : Token}
    {rest : List Token} (hw : Within (n + 1) (tok :: rest))
    (hk : tok.kind ∉ [TokenKind.eof, .kwFn, .rbrace]) (h : Reads eof Q site.start (tok :: rest)) :
    ∃ us vs ended l, tok :: rest = us ++ vs ∧ Derives (.line ended) us ∧
      (ended = false → NoOperator vs) ∧ Reads eof Q (site.add l).start vs := by
  simp only [List.mem_cons, List.not_mem_nil, or_false, not_or] at hk
  by_cases hloop : tok.kind = .kwLoop
  · obtain ⟨s, hs, hrest⟩ := h
    obtain rfl : Unfinished.block (.loop tok.pos site) = s := by
      simpa [LineSite.start, hloop] using hs
    obtain ⟨us, vs, lines, rfl, hus, hvs⟩ := ih.block hw.tail hrest
    obtain ⟨vs, ws, rfl, hsemi, hws⟩ := Reads.lineClosed_cases hvs
    exact ⟨tok :: (us ++ vs), ws, true, _, by simp, .loop hloop hus hsemi, by simp, hws⟩
  by_cases hbreak : tok.kind = .kwBreak
  · obtain ⟨s, hs, hrest⟩ := h
    obtain rfl : Unfinished.breakOpen tok.pos site = s := by
      simpa [LineSite.start, hbreak] using hs
    obtain ⟨semi, rest, s, rfl, hs', hrest'⟩ := hrest.exists_cons
      (by simp [Unfinished.feed, Token.reject])
    simp only [Unfinished.feed] at hs'
    split at hs'
    · rename_i hsemi
      obtain rfl := Except.ok.inj hs'
      exact ⟨[tok, semi], rest, true, _, rfl, .brk hbreak hsemi, by simp, hrest'⟩
    · cases hs'
  · have hexpr : Reads eof Q (ExprSite.line tok.pos site).start (tok :: rest) :=
      h.congr (LineSite.start_eq (by simp [upcoming, hk, hloop, hbreak]))
    exact ih.exprLine hw hexpr

theorem Recognizes.lines_succ (ih : Recognizes eof Q n) {lines : List Line} {site : BlockSite}
    {ts : List Token} (hw : Within (n + 1) ts)
    (h : Reads eof Q (LineSite.inside lines site).start ts) :
    ∃ us close_ vs lines', ts = us ++ close_ :: vs ∧ Derives .lines us ∧ close_.kind = .rbrace ∧
      Reads eof Q (fun tok => (site.fill lines').feed tok) vs := by
  obtain ⟨tok, rest, s, rfl, hs, hrest⟩ := h.exists_cons (by simp [LineSite.start, Token.reject])
  by_cases hk : tok.kind = .rbrace
  · obtain rfl : site.fill lines = s := by simpa [LineSite.start, hk] using hs
    exact ⟨[], tok, rest, lines, rfl, .noLines, hk, hrest⟩
  · have hstart : tok.kind ∉ [TokenKind.eof, .kwFn, .rbrace] := by
      simp only [List.mem_cons, List.not_mem_nil, or_false, not_or]
      exact ⟨fun he => by simp [LineSite.start, he, Token.reject] at hs,
        fun hf => by simp [LineSite.start, hf, Token.reject] at hs, hk⟩
    obtain ⟨us, vs, ended, l, hts, hus, hno, hvs⟩ := ih.line_succ hw hstart h
    rw [hts] at hw ⊢
    obtain ⟨vs, close_, ws, lines', rfl, hvs', hclose, hws⟩ :=
      ih.lines (hw.behind (hus.ne_nil rfl)) hvs
    refine ⟨us ++ vs, close_, ws, lines', by simp, .lines hus hvs' fun he => ?_, hclose, hws⟩
    intro t ht
    exact hno he t (by cases vs <;> simp_all)

end Steps

/-- Inputs of every length start with the phrases that are due. -/
theorem recognizes (eof : Pos) (Q : Program → Prop) (n : Nat) : Recognizes eof Q n := by
  induction n with
  | zero => constructor <;> exact fun hw => absurd hw.length (Nat.not_lt_zero _)
  | succ n ih =>
    exact ⟨ih.unary_succ, ih.binary_succ, ih.expr_succ, ih.args_succ, ih.branch_succ,
      ih.block_succ, ih.lines_succ⟩

/-! ## Statements -/

section Statements

variable {eof : Pos} {Q : Program → Prop} {n : Nat}

/-- The parameters of a function are names with commas between them. -/
theorem names_of_reads {pos : Pos} {name : Text} {done : List Statement} :
    (ts : List Token) → (earlier : List Text) →
      Reads eof Q (fun tok => (Unfinished.param pos name earlier done).feed tok) ts →
      ∃ us close_ vs params, ts = us ++ close_ :: vs ∧ Derives .names us ∧
        close_.kind = .rparen ∧ Reads eof Q (BlockSite.function pos name params done).start vs
  | [], _, h => by
    obtain ⟨s, hs, -⟩ := h
    simp [Unfinished.feed, Token.reject] at hs
  | [tok], earlier, h => by
    obtain ⟨s, hs, s', hs', -⟩ := h
    simp only [Unfinished.feed] at hs
    split at hs
    · obtain rfl := Except.ok.inj hs
      simp [Unfinished.feed, Token.reject] at hs'
    · cases hs
  | tok :: sep :: rest, earlier, h => by
    obtain ⟨s, hs, s', hs', hrest⟩ := h
    simp only [Unfinished.feed] at hs
    split at hs
    · rename_i hname
      obtain rfl := Except.ok.inj hs
      simp only [Unfinished.feed] at hs'
      split at hs'
      · rename_i hcomma
        obtain rfl := Except.ok.inj hs'
        obtain ⟨us, close_, vs, params, rfl, hus, hclose, hvs⟩ := names_of_reads rest _ hrest
        exact ⟨tok :: sep :: us, close_, vs, params, rfl, .moreNames hname hcomma hus, hclose, hvs⟩
      · rename_i hclose
        obtain rfl := Except.ok.inj hs'
        exact ⟨[tok], sep, rest, _, rfl, .lastName hname, hclose, hrest⟩
      · cases hs'
    · cases hs

theorem params_of_reads {pos : Pos} {name : Text} {done : List Statement} {ts : List Token}
    (h : Reads eof Q (fun tok => (Unfinished.paramsOpen pos name done).feed tok) ts) :
    ∃ us close_ vs params, ts = us ++ close_ :: vs ∧ Derives .params us ∧
      close_.kind = .rparen ∧ Reads eof Q (BlockSite.function pos name params done).start vs := by
  by_cases hk : (upcoming eof ts).kind = .rparen
  · obtain ⟨tok, rest, s, rfl, hs, hrest⟩ := h.exists_cons (by simp [Unfinished.feed, Token.reject])
    obtain rfl : Unfinished.block (.function pos name [] done) = s := by
      simpa [Unfinished.feed, show tok.kind = .rparen from hk] using hs
    exact ⟨[], tok, rest, [], rfl, .noParams, hk, hrest⟩
  · obtain ⟨s, hs⟩ := h.exists_ok
    have hnames : Reads eof Q (fun tok => (Unfinished.param pos name [] done).feed tok) ts :=
      h.congr (by grind [Unfinished.feed, Token.reject])
    obtain ⟨us, close_, vs, params, rfl, hus, hclose, hvs⟩ := names_of_reads ts [] hnames
    exact ⟨us, close_, vs, params, rfl, .params hus, hclose, hvs⟩

theorem function_of_reads {pos : Pos} {done : List Statement} {ts : List Token}
    (hw : Within n ts) (h : Reads eof Q (fun tok => (Unfinished.fnOpen pos done).feed tok) ts) :
    ∃ us vs done', ts = us ++ vs ∧
      (∀ fn, fn.kind = .kwFn → Derives (.statement true) (fn :: us)) ∧
      Reads eof Q (LineSite.top done').start vs := by
  obtain ⟨name, rest, s, rfl, hs, hrest⟩ := h.exists_cons (by simp [Unfinished.feed, Token.reject])
  simp only [Unfinished.feed] at hs
  split at hs
  · rename_i hname
    obtain rfl := Except.ok.inj hs
    obtain ⟨open_, rest, s, rfl, hs', hrest'⟩ := hrest.exists_cons
      (by simp [Unfinished.feed, Token.reject])
    simp only [Unfinished.feed] at hs'
    split at hs'
    · rename_i hopen
      obtain rfl := Except.ok.inj hs'
      obtain ⟨us, close_, vs, params, rfl, hus, hclose, hvs⟩ := params_of_reads hrest'
      have hw' : Within n vs := hw.skip.skip.right.skip
      obtain ⟨vs, ws, lines, rfl, hvs', hws⟩ := (recognizes eof Q n).block hw' hvs
      obtain ⟨ws, xs, rfl, hsemi, hxs⟩ := Reads.lineClosed_cases hws
      exact ⟨name :: open_ :: (us ++ close_ :: (vs ++ ws)), xs, _, by simp,
        fun _ hfn => .function hfn hname hopen hus hclose hvs' hsemi, hxs⟩
    · cases hs'
  · cases hs

/-- What is read as a program is derived by the grammar. -/
theorem program_of_reads {ts : List Token} (hw : Within n ts)
    (heof : ∀ tok ∈ ts, tok.kind ≠ .eof) {done : List Statement}
    (h : Reads eof Q (LineSite.top done).start ts) : Derives .program ts := by
  induction n generalizing ts done with
  | zero => exact absurd hw.length (Nat.not_lt_zero _)
  | succ n ih =>
    cases ts with
    | nil => exact .noStatements
    | cons tok rest =>
      by_cases hfn : tok.kind = .kwFn
      · obtain ⟨s, hs, hrest⟩ := h
        obtain rfl : Unfinished.fnOpen tok.pos done = s := by simpa [LineSite.start, hfn] using hs
        obtain ⟨us, vs, done', rfl, hus, hvs⟩ := function_of_reads hw.tail hrest
        exact .statements (hus tok hfn)
          (ih hw.tail.right (fun t ht => heof t (by simp [ht])) hvs) (by simp)
      · have hstart : tok.kind ∉ [TokenKind.eof, .kwFn, .rbrace] := by
          simp only [List.mem_cons, List.not_mem_nil, or_false, not_or]
          refine ⟨heof tok (.head _), hfn, fun hr => ?_⟩
          obtain ⟨s, hs, -⟩ := h
          simp [LineSite.start, ExprSite.start, OperandSite.start, hr, Token.reject] at hs
        obtain ⟨us, vs, ended, l, hts, hus, hno, hvs⟩ := (recognizes eof Q n).line_succ hw hstart h
        rw [hts] at hw heof ⊢
        exact .statements (.line hus)
          (ih (hw.behind (hus.ne_nil rfl)) (fun t ht => heof t (by simp [ht])) hvs) hno

end Statements

/-- The reader accepts exactly its grammar: the tokens in front of the first end token are read
without an error exactly if they are a program of the grammar, and then all of them are read. -/
theorem parseTokens_accepts_iff_derives (tokens : List Token)
    (hd : ∀ tok ∈ tokens.takeWhile fun tok => tok.kind != .eof,
      tok.kind = .integer → ∀ c ∈ tok.text, c.isDigit = true) :
    ((parseTokens tokens).error = none ↔
      Derives .program (tokens.takeWhile fun tok => tok.kind != .eof)) ∧
    ((parseTokens tokens).error = none → (parseTokens tokens).rest = []) := by
  refine ⟨?_, Unfinished.rest_feedAll⟩
  rw [parseTokens_error_eq_none]
  constructor
  · intro h
    refine program_of_reads ⟨Nat.lt_succ_self _, hd⟩ (fun tok htok => ?_) h
    simpa using List.all_eq_true.1 List.all_takeWhile tok htok
  · intro h
    exact h.accepted _ []

/-- The smallest word is a literal behind a sign, and what stands behind an end token is not
read. -/
theorem parseTokens_accepts_smallest_word :
    let tokens : List Token := [TokenKind.minus.token, ⟨.integer, "2147483648".toList, .start⟩,
      TokenKind.semicolon.token, TokenKind.eof.token, TokenKind.rparen.token]
    (∀ tok ∈ tokens.takeWhile fun tok => tok.kind != .eof,
      tok.kind = .integer → ∀ c ∈ tok.text, c.isDigit = true) ∧
    (parseTokens tokens).error = none ∧ Derives .program (tokens.take 3) ∧
    (parseTokens tokens).rest = [] := by
  intro tokens
  have hall : (tokens.takeWhile fun tok => tok.kind != .eof).all
      (fun tok => tok.kind != .integer || tok.text.all Char.isDigit) = true := by decide +kernel
  have hd : ∀ tok ∈ tokens.takeWhile fun tok => tok.kind != .eof,
      tok.kind = .integer → ∀ c ∈ tok.text, c.isDigit = true := by
    intro tok htok hk
    have htext := List.all_eq_true.1 hall tok htok
    simpa [hk] using htext
  have h : (parseTokens tokens).error = none := by decide +kernel
  have hiff := parseTokens_accepts_iff_derives tokens hd
  exact ⟨hd, h, hiff.1.1 h, hiff.2 h⟩

end FrameLang
