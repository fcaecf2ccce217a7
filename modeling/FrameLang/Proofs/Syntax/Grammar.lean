import FrameLang.Proofs.Syntax.Literals
import FrameLang.Proofs.Syntax.Reading

/-!
# The grammar

The grammar of programs, as a relation between phrases and the tokens that spell them. An operator
behind a complete operand always goes on with the expression. The only place where the rules would
leave a choice is behind an if expression that makes up a line without a semicolon, so what follows
such a line must not start with an operator.

## Main definitions

* `Phrase`, `Derives` — the phrases of the grammar and the tokens they derive.
-/

namespace FrameLang

/-- The phrases of the grammar. -/
inductive Phrase where
  | program
  /-- A statement. One that is not `ended` is an if expression without a semicolon. -/
  | statement (ended : Bool)
  /-- The parameters of a function, of which there may be none. -/
  | params
  /-- At least one parameter. -/
  | names
  /-- A semicolon that may be left out. -/
  | optionalSemicolon
  | block
  | lines
  /-- A line. One that is not `ended` is an if expression without a semicolon. -/
  | line (ended : Bool)
  | expr
  /-- Operands with operators between them. -/
  | binary
  | unary
  | primary
  /-- At least one argument. -/
  | args
  /-- An if expression. -/
  | branch
  /-- What stands behind `else`. -/
  | otherwise
  /-- An if expression, possibly in parentheses. -/
  | enclosed

/-- The tokens do not start with an operator. -/
def NoOperator (ts : List Token) : Prop :=
  ∀ tok ∈ ts.head?, tok.kind.operator? = none

/-- An integer that a literal may have, behind a sign or not. -/
structure Token.IsLiteral (negative : Bool) (tok : Token) : Prop where
  kind : tok.kind = .integer
  digits : ∀ c ∈ tok.text, c.isDigit = true
  range : Text.decimal tok.text ≤ literalLimit negative

/-- The tokens that a phrase derives. -/
inductive Derives : Phrase → List Token → Prop where
  | noStatements : Derives .program []
  | statements {ended : Bool} {us vs : List Token} (first : Derives (.statement ended) us)
    (rest : Derives .program vs) (follow : ended = false → NoOperator vs) :
    Derives .program (us ++ vs)
  | function {fn name open_ close_ : Token} {us vs ws : List Token} (hfn : fn.kind = .kwFn)
    (hname : name.kind = .identifier) (hopen : open_.kind = .lparen) (params : Derives .params us)
    (hclose : close_.kind = .rparen) (body : Derives .block vs)
    (semi : Derives .optionalSemicolon ws) :
    Derives (.statement true) (fn :: name :: open_ :: (us ++ close_ :: (vs ++ ws)))
  | line {ended : Bool} {us : List Token} (l : Derives (.line ended) us) :
    Derives (.statement ended) us
  | noParams : Derives .params []
  | params {us : List Token} (names : Derives .names us) : Derives .params us
  | lastName {name : Token} (h : name.kind = .identifier) : Derives .names [name]
  | moreNames {name comma : Token} {us : List Token} (h : name.kind = .identifier)
    (hcomma : comma.kind = .comma) (rest : Derives .names us) : Derives .names (name :: comma :: us)
  | noSemicolon : Derives .optionalSemicolon []
  | semicolon {semi : Token} (h : semi.kind = .semicolon) : Derives .optionalSemicolon [semi]
  | block {open_ close_ : Token} {us : List Token} (hopen : open_.kind = .lbrace)
    (lines : Derives .lines us) (hclose : close_.kind = .rbrace) :
    Derives .block (open_ :: (us ++ [close_]))
  | noLines : Derives .lines []
  | lines {ended : Bool} {us vs : List Token} (first : Derives (.line ended) us)
    (rest : Derives .lines vs) (follow : ended = false → NoOperator vs) : Derives .lines (us ++ vs)
  | loop {tok : Token} {us vs : List Token} (h : tok.kind = .kwLoop) (body : Derives .block us)
    (semi : Derives .optionalSemicolon vs) : Derives (.line true) (tok :: (us ++ vs))
  | brk {tok semi : Token} (h : tok.kind = .kwBreak) (hsemi : semi.kind = .semicolon) :
    Derives (.line true) [tok, semi]
  | endedLine {semi : Token} {us : List Token} (e : Derives .expr us)
    (hsemi : semi.kind = .semicolon) : Derives (.line true) (us ++ [semi])
  | unendedLine {us : List Token} (e : Derives .enclosed us) : Derives (.line false) us
  | assign {name eq : Token} {us : List Token} (hname : name.kind = .identifier)
    (heq : eq.kind = .assign) (value : Derives .expr us) : Derives .expr (name :: eq :: us)
  | binary {us : List Token} (e : Derives .binary us) : Derives .expr us
  | operand {us : List Token} (e : Derives .unary us) : Derives .binary us
  | operator {tok : Token} {us vs : List Token} {op : Operator} (lhs : Derives .unary us)
    (hop : tok.kind.operator? = some op) (rhs : Derives .binary vs) :
    Derives .binary (us ++ tok :: vs)
  | negativeInteger {sign tok : Token} (hsign : sign.kind = .minus) (h : tok.IsLiteral true) :
    Derives .unary [sign, tok]
  | negated {sign : Token} {us : List Token} (hsign : sign.kind = .minus)
    (e : Derives .unary us) : Derives .unary (sign :: us)
  | primary {us : List Token} (e : Derives .primary us) : Derives .unary us
  | integer {tok : Token} (h : tok.IsLiteral false) : Derives .primary [tok]
  | constant {tok : Token} (h : tok.kind ∈ [TokenKind.string, .kwTrue, .kwFalse]) :
    Derives .primary [tok]
  | name {tok : Token} (h : tok.kind = .identifier) : Derives .primary [tok]
  | callEmpty {tok open_ close_ : Token} (h : tok.kind = .identifier) (hopen : open_.kind = .lparen)
    (hclose : close_.kind = .rparen) : Derives .primary [tok, open_, close_]
  | call {tok open_ close_ : Token} {us : List Token} (h : tok.kind = .identifier)
    (hopen : open_.kind = .lparen) (args : Derives .args us) (hclose : close_.kind = .rparen) :
    Derives .primary (tok :: open_ :: (us ++ [close_]))
  | grouped {open_ close_ : Token} {us : List Token} (hopen : open_.kind = .lparen)
    (e : Derives .expr us) (hclose : close_.kind = .rparen) :
    Derives .primary (open_ :: (us ++ [close_]))
  | branch {us : List Token} (e : Derives .branch us) : Derives .primary us
  | lastArg {us : List Token} (e : Derives .expr us) : Derives .args us
  | moreArgs {comma : Token} {us vs : List Token} (e : Derives .expr us)
    (hcomma : comma.kind = .comma) (rest : Derives .args vs) : Derives .args (us ++ comma :: vs)
  | ifThen {tok open_ close_ : Token} {us vs : List Token} (h : tok.kind = .kwIf)
    (hopen : open_.kind = .lparen) (test : Derives .expr us) (hclose : close_.kind = .rparen)
    (block : Derives .block vs) : Derives .branch (tok :: open_ :: (us ++ close_ :: vs))
  | ifThenElse {tok open_ close_ els : Token} {us vs ws : List Token} (h : tok.kind = .kwIf)
    (hopen : open_.kind = .lparen) (test : Derives .expr us) (hclose : close_.kind = .rparen)
    (block : Derives .block vs) (helse : els.kind = .kwElse) (other : Derives .otherwise ws) :
    Derives .branch (tok :: open_ :: (us ++ close_ :: (vs ++ els :: ws)))
  | elseBlock {us : List Token} (block : Derives .block us) : Derives .otherwise us
  | elseIf {us : List Token} (e : Derives .branch us) : Derives .otherwise us
  | enclosedBranch {us : List Token} (e : Derives .branch us) : Derives .enclosed us
  | enclosedGroup {open_ close_ : Token} {us : List Token} (hopen : open_.kind = .lparen)
    (e : Derives .enclosed us) (hclose : close_.kind = .rparen) :
    Derives .enclosed (open_ :: (us ++ [close_]))

section Follow

variable {eof : Pos} {us vs : List Token} {tok : Token}

theorem NoOperator.upcoming (h : NoOperator vs) : (upcoming eof vs).kind.operator? = none := by
  cases vs with
  | nil => rfl
  | cons tok rest => exact h tok rfl

theorem noOperator_cons (h : tok.kind.operator? = none) : NoOperator (tok :: vs) := by
  intro t ht
  obtain rfl : tok = t := by simpa using ht
  exact h

theorem NoOperator.append (h : NoOperator us) (hv : NoOperator vs) : NoOperator (us ++ vs) := by
  cases us with
  | nil => exact hv
  | cons tok rest => exact noOperator_cons (h tok rfl)

/-- Without an operator, what stands behind an operand is the expression around it. -/
theorem Reads.after {Q : Program → Prop} {site : OperandSite} {e : Expr} (hv : NoOperator vs)
    (h : Reads eof Q (fun tok => site.base.finish (site.close e) tok) vs) :
    Reads eof Q (site.after e) vs :=
  h.congr (OperandSite.after_of_not_operator hv.upcoming).symm

/-- What follows an operand without an operator is read behind the expression around it. -/
theorem Reads.exists_finish {Q : Program → Prop} {site : OperandSite} {e : Expr}
    (h : Reads eof Q (site.after e) vs) (hop : (upcoming eof vs).kind.operator? = none) :
    ∃ s, site.base.finish (site.close e) (upcoming eof vs) = .ok s := by
  rw [← OperandSite.after_of_not_operator hop]
  exact h.exists_ok

/-- No operand is followed by `else` or an equals sign. -/
theorem Reads.after_kind_notMem {Q : Program → Prop} {site : OperandSite} {e : Expr}
    (h : Reads eof Q (site.after e) vs) :
    (upcoming eof vs).kind ∉ [TokenKind.kwElse, .assign] := by
  intro hk
  have hop : (FrameLang.upcoming eof vs).kind.operator? = none := by
    simp only [List.mem_cons, List.not_mem_nil, or_false] at hk
    rcases hk with hk | hk <;> simp [hk, TokenKind.operator?]
  obtain ⟨s, hs⟩ := h.exists_finish hop
  exact ExprSite.finish_ne_ok hk _ _ hs

/-- No name that is an operand is followed by a parenthesis. -/
theorem Reads.after_name_kind_ne {Q : Program → Prop} {site : OperandSite} {pos : Pos} {x : Text}
    (h : Reads eof Q (site.after (.name pos x)) vs) : (upcoming eof vs).kind ≠ .lparen := by
  intro hk
  obtain ⟨s, hs⟩ := h.exists_finish (by simp [hk, TokenKind.operator?])
  have hb : (site.close (.name pos x)).isBranch = false :=
    Bool.eq_false_iff.2 fun hb => nomatch (OperandSite.isBranch_close site hb).1
  exact ExprSite.finish_lparen_ne_ok hk _ _ hb hs

end Follow

/-- An operand that starts with an integer is that integer. -/
theorem Derives.unary_cases {us : List Token} (h : Derives .unary us) :
    (∃ tok, us = [tok] ∧ tok.IsLiteral false) ∨
      ∃ tok rest, us = tok :: rest ∧ tok.kind ≠ .integer := by
  cases h with
  | negativeInteger hsign _ => exact .inr ⟨_, _, rfl, by simp [hsign]⟩
  | negated hsign _ => exact .inr ⟨_, _, rfl, by simp [hsign]⟩
  | primary e =>
    cases e with
    | integer h => exact .inl ⟨_, rfl, h⟩
    | constant h =>
      refine .inr ⟨_, _, rfl, fun hk => ?_⟩
      simp [hk] at h
    | name h => exact .inr ⟨_, _, rfl, by simp [h]⟩
    | callEmpty h _ _ => exact .inr ⟨_, _, rfl, by simp [h]⟩
    | call h _ _ _ => exact .inr ⟨_, _, rfl, by simp [h]⟩
    | grouped h _ _ => exact .inr ⟨_, _, rfl, by simp [h]⟩
    | branch e =>
      cases e with
      | ifThen h _ _ _ _ => exact .inr ⟨_, _, rfl, by simp [h]⟩
      | ifThenElse h _ _ _ _ _ _ => exact .inr ⟨_, _, rfl, by simp [h]⟩

end FrameLang
