import FrameLang.Proofs.Syntax.Completion
import FrameLang.Proofs.Syntax.Unplaced

/-!
# Reading does not depend on positions

Where the tokens of a program stand is kept for messages only: no decision of the reading depends on
it. Tokens that differ in positions only are read as programs that differ in positions only, or fail
at the same token for the same reason.

## Main definitions

* `Token.unplaced`, `Unfinished.unplaced`, `Parse.unplaced` — tokens, unfinished programs and the
  results of reading without their positions.
-/

namespace FrameLang

/-- A token without its position. -/
def Token.unplaced (tok : Token) : Token :=
  { tok with pos := .nowhere }

/-- A syntax error without its position. -/
def SyntaxError.unplaced (e : SyntaxError) : SyntaxError :=
  { e with pos := .nowhere }

mutual

/-- What is open around an operand, without its positions. -/
def OperandSite.unplaced : OperandSite → OperandSite
  | .first site => .first site.unplaced
  | .negated _ site => .negated .nowhere site.unplaced
  | .rightOf _ op lhs site => .rightOf .nowhere op lhs.unplaced site.unplaced

/-- What is open around an expression, without its positions. -/
def ExprSite.unplaced : ExprSite → ExprSite
  | .assigned _ target site => .assigned .nowhere target site.unplaced
  | .grouped site => .grouped site.unplaced
  | .argument _ callee earlier site =>
    .argument .nowhere callee (Expr.unplacedAll earlier) site.unplaced
  | .test _ site => .test .nowhere site.unplaced
  | .line _ site => .line .nowhere site.unplaced

/-- What is open around an if expression, without its positions. -/
def IfSite.unplaced : IfSite → IfSite
  | .operand site => .operand site.unplaced
  | .elseOf _ test thenBlock site =>
    .elseOf .nowhere test.unplaced (Line.unplacedAll thenBlock) site.unplaced

/-- What is open around a line, without its positions. -/
def LineSite.unplaced : LineSite → LineSite
  | .top done => .top (Program.unplaced done)
  | .inside lines site => .inside (Line.unplacedAll lines) site.unplaced

/-- What is open around a block, without its positions. -/
def BlockSite.unplaced : BlockSite → BlockSite
  | .function _ name params done => .function .nowhere name params (Program.unplaced done)
  | .loop _ site => .loop .nowhere site.unplaced
  | .thenOf _ test site => .thenOf .nowhere test.unplaced site.unplaced
  | .elseOf _ test thenBlock site =>
    .elseOf .nowhere test.unplaced (Line.unplacedAll thenBlock) site.unplaced

end

/-- An unfinished program without its positions. -/
def Unfinished.unplaced : Unfinished → Unfinished
  | .line site => .line site.unplaced
  | .lineClosed site => .lineClosed site.unplaced
  | .breakOpen _ site => .breakOpen .nowhere site.unplaced
  | .expr site => .expr site.unplaced
  | .leadingName _ name site => .leadingName .nowhere name site.unplaced
  | .operand site => .operand site.unplaced
  | .sign _ site => .sign .nowhere site.unplaced
  | .namedOperand _ name site => .namedOperand .nowhere name site.unplaced
  | .callOpen _ callee site => .callOpen .nowhere callee site.unplaced
  | .operandDone e site => .operandDone e.unplaced site.unplaced
  | .ifOpen _ site => .ifOpen .nowhere site.unplaced
  | .thenDone _ test thenBlock site =>
    .thenDone .nowhere test.unplaced (Line.unplacedAll thenBlock) site.unplaced
  | .elseOpen _ test thenBlock site =>
    .elseOpen .nowhere test.unplaced (Line.unplacedAll thenBlock) site.unplaced
  | .block site => .block site.unplaced
  | .fnOpen _ done => .fnOpen .nowhere (Program.unplaced done)
  | .fnNamed _ name done => .fnNamed .nowhere name (Program.unplaced done)
  | .paramsOpen _ name done => .paramsOpen .nowhere name (Program.unplaced done)
  | .param _ name earlier done => .param .nowhere name earlier (Program.unplaced done)
  | .paramDone _ name params done => .paramDone .nowhere name params (Program.unplaced done)

/-- What a token makes of an unfinished program, without positions. -/
def Unfinished.unplacedResult : Except SyntaxError Unfinished → Except SyntaxError Unfinished
  | .ok state => .ok state.unplaced
  | .error e => .error e.unplaced

/-- What became of a list of tokens, without positions. -/
def Parse.unplaced (result : Parse) : Parse :=
  ⟨Program.unplaced result.program, result.error.map SyntaxError.unplaced,
    result.rest.map Token.unplaced⟩

/-! ## Filling a site -/

section Sites

variable (e : Expr) (l : Line) (tok : Token)

@[simp] theorem Expr.pos_unplaced : e.unplaced.pos = .nowhere := by
  cases e <;> simp [Expr.unplaced, Expr.pos]

@[simp] theorem Expr.isBranch_unplaced : e.unplaced.isBranch = e.isBranch := by
  cases e <;> simp [Expr.unplaced, Expr.isBranch]

@[simp] theorem Program.unplaced_append (p q : Program) :
    Program.unplaced (p ++ q) = p.unplaced ++ q.unplaced :=
  List.map_append

@[simp] theorem LineSite.unplaced_add (site : LineSite) :
    (site.add l).unplaced = site.unplaced.add l.unplaced := by
  cases site <;>
    simp [LineSite.add, LineSite.unplaced, Program.unplaced, Statement.unplaced, Line.unplacedAll]

theorem IfSite.operandOf_unplaced : (site : IfSite) → (e : Expr) →
    (site.unplaced.operandOf e.unplaced).1 = (site.operandOf e).1.unplaced ∧
      (site.unplaced.operandOf e.unplaced).2 = (site.operandOf e).2.unplaced
  | .operand _, _ => ⟨rfl, rfl⟩
  | .elseOf pos test thenBlock site, e => by
    have ih := IfSite.operandOf_unplaced site (.branch pos test thenBlock (some [.expr e.pos e]))
    simpa [IfSite.unplaced, IfSite.operandOf, Expr.unplaced, Line.unplacedElse, Line.unplacedAll,
      Line.unplaced] using ih

theorem BlockSite.fill_unplaced (site : BlockSite) (lines : List Line) :
    site.unplaced.fill (Line.unplacedAll lines) = (site.fill lines).unplaced := by
  cases site with
  | function =>
    simp [BlockSite.unplaced, BlockSite.fill, Unfinished.unplaced, LineSite.unplaced,
      Program.unplaced, Statement.unplaced, FnDef.unplaced]
  | loop => simp [BlockSite.unplaced, BlockSite.fill, Unfinished.unplaced, Line.unplaced]
  | thenOf => rfl
  | elseOf pos test thenBlock site =>
    obtain ⟨he, hsite⟩ := site.operandOf_unplaced (.branch pos test thenBlock (some lines))
    exact congr (congrArg Unfinished.operandDone he) hsite

theorem OperandSite.reduce_unplaced (p : Nat) : (site : OperandSite) → (e : Expr) →
    site.unplaced.reduce p e.unplaced =
      ((site.reduce p e).1.unplaced, (site.reduce p e).2.unplaced)
  | .first _, _ => by simp [OperandSite.unplaced, OperandSite.reduce]
  | .negated pos site, e => by
    have ih := OperandSite.reduce_unplaced p site (.negate pos e)
    simpa [OperandSite.unplaced, OperandSite.reduce, Expr.negate, Expr.unplaced] using ih
  | .rightOf pos op lhs site, e => by
    have ih := OperandSite.reduce_unplaced p site (.binary pos op lhs e)
    simp only [OperandSite.unplaced, OperandSite.reduce]
    split
    · simpa [Expr.unplaced] using ih
    · rfl

end Sites

/-! ## Reading one token -/

section Tokens

variable (tok : Token)

theorem OperandSite.start_unplaced (site : OperandSite) :
    site.unplaced.start tok.unplaced = Unfinished.unplacedResult (site.start tok) := by
  obtain ⟨kind, text, pos⟩ := tok
  cases kind
  case integer =>
    simp only [OperandSite.start, Token.literal, Token.unplaced]
    cases readLiteral false text <;> rfl
  all_goals rfl

theorem ExprSite.start_unplaced (site : ExprSite) :
    site.unplaced.start tok.unplaced = Unfinished.unplacedResult (site.start tok) := by
  have hfirst := (OperandSite.first site).start_unplaced tok
  obtain ⟨kind, text, pos⟩ := tok
  cases kind
  case identifier => rfl
  all_goals exact hfirst

theorem LineSite.start_unplaced (site : LineSite) :
    site.unplaced.start tok.unplaced = Unfinished.unplacedResult (site.start tok) := by
  have hline := (ExprSite.line tok.pos site).start_unplaced tok
  obtain ⟨kind, text, pos⟩ := tok
  cases site with
  | top done =>
    cases kind
    case eof | kwFn | kwLoop | kwBreak => rfl
    all_goals exact hline
  | inside lines site =>
    cases kind
    case eof | kwFn | kwLoop | kwBreak => rfl
    case rbrace => exact congrArg Except.ok (site.fill_unplaced lines)
    all_goals exact hline

theorem BlockSite.start_unplaced (site : BlockSite) :
    site.unplaced.start tok.unplaced = Unfinished.unplacedResult (site.start tok) := by
  obtain ⟨kind, text, pos⟩ := tok
  cases kind <;> rfl

theorem ExprSite.finish_unplaced : (site : ExprSite) → (e : Expr) →
    site.unplaced.finish e.unplaced tok.unplaced = Unfinished.unplacedResult (site.finish e tok)
  | .assigned pos target site, e => ExprSite.finish_unplaced site (.assign pos target e)
  | .grouped site, e => by
    obtain ⟨kind, text, pos⟩ := tok
    cases kind <;> rfl
  | .argument pos callee earlier site, e => by
    have hargs : Expr.unplacedAll earlier ++ [e.unplaced] = Expr.unplacedAll (earlier ++ [e]) := by
      simp [Expr.unplacedAll]
    simp only [ExprSite.unplaced, ExprSite.finish, hargs]
    obtain ⟨kind, text, pos⟩ := tok
    cases kind <;> rfl
  | .test pos site, e => by
    obtain ⟨kind, text, pos⟩ := tok
    cases kind <;> rfl
  | .line pos site, e => by
    have hadd := (site.add (.expr pos e)).start_unplaced tok
    rw [LineSite.unplaced_add, Line.unplaced] at hadd
    simp only [ExprSite.unplaced, ExprSite.finish, Expr.isBranch_unplaced, hadd]
    obtain ⟨kind, text, pos⟩ := tok
    cases kind
    case semicolon =>
      simp [Token.unplaced, Unfinished.unplacedResult, Unfinished.unplaced, Line.unplaced]
    all_goals
      cases e.isBranch <;> rfl

theorem OperandSite.finish_unplaced : (site : OperandSite) → (e : Expr) →
    site.unplaced.finish e.unplaced tok.unplaced = Unfinished.unplacedResult (site.finish e tok)
  | .first site, e => site.finish_unplaced tok e
  | .negated pos site, e => OperandSite.finish_unplaced site (.negate pos e)
  | .rightOf pos op lhs site, e => OperandSite.finish_unplaced site (.binary pos op lhs e)

theorem OperandSite.after_unplaced (site : OperandSite) (e : Expr) :
    site.unplaced.after e.unplaced tok.unplaced = Unfinished.unplacedResult (site.after e tok) := by
  unfold OperandSite.after
  rw [show tok.unplaced.kind = tok.kind from rfl]
  cases tok.kind.operator? with
  | some op =>
    dsimp only
    rw [site.reduce_unplaced]
    rfl
  | none => exact site.finish_unplaced tok e

theorem OperandSite.afterName_unplaced (site : OperandSite) (pos : Pos) (name : Text) :
    site.unplaced.afterName .nowhere name tok.unplaced =
      Unfinished.unplacedResult (site.afterName pos name tok) := by
  have hafter := site.after_unplaced tok (.name pos name)
  obtain ⟨kind, text, at_⟩ := tok
  cases kind
  case lparen => rfl
  all_goals exact hafter

/-- Reading a token does not depend on positions. -/
theorem Unfinished.feed_unplaced (state : Unfinished) :
    state.unplaced.feed tok.unplaced = Unfinished.unplacedResult (state.feed tok) := by
  cases state with
  | line site => exact site.start_unplaced tok
  | lineClosed site =>
    have hstart := site.start_unplaced tok
    obtain ⟨kind, text, place⟩ := tok
    cases kind
    case semicolon => rfl
    all_goals exact hstart
  | breakOpen pos site =>
    have hadd := LineSite.unplaced_add (.brk pos) site
    obtain ⟨kind, text, place⟩ := tok
    cases kind
    case semicolon => exact congrArg (fun site => Except.ok (Unfinished.line site)) hadd.symm
    all_goals rfl
  | expr site => exact site.start_unplaced tok
  | leadingName pos name site =>
    have hname := (OperandSite.first site).afterName_unplaced tok pos name
    obtain ⟨kind, text, place⟩ := tok
    cases kind
    case assign => rfl
    all_goals exact hname
  | operand site => exact site.start_unplaced tok
  | sign pos site =>
    have hstart := (OperandSite.negated pos site).start_unplaced tok
    obtain ⟨kind, text, place⟩ := tok
    cases kind
    case integer =>
      simp only [Unfinished.unplaced, Unfinished.feed, Token.literal, Token.unplaced]
      cases readLiteral true text <;> rfl
    all_goals exact hstart
  | namedOperand pos name site => exact site.afterName_unplaced tok pos name
  | callOpen pos callee site =>
    have hstart := (ExprSite.argument pos callee [] site).start_unplaced tok
    obtain ⟨kind, text, place⟩ := tok
    cases kind
    case rparen => rfl
    all_goals exact hstart
  | operandDone e site => exact site.after_unplaced tok e
  | thenDone pos test thenBlock site =>
    obtain ⟨he, hsite⟩ := site.operandOf_unplaced (.branch pos test thenBlock none)
    have hafter := OperandSite.after_unplaced tok
      (site.operandOf (.branch pos test thenBlock none)).2
      (site.operandOf (.branch pos test thenBlock none)).1
    rw [← he, ← hsite] at hafter
    obtain ⟨kind, text, place⟩ := tok
    cases kind
    case kwElse => rfl
    all_goals exact hafter
  | elseOpen pos test thenBlock site =>
    have hstart := (BlockSite.elseOf pos test thenBlock site).start_unplaced tok
    obtain ⟨kind, text, place⟩ := tok
    cases kind
    case kwIf => rfl
    all_goals exact hstart
  | block site => exact site.start_unplaced tok
  | ifOpen | fnOpen | fnNamed | paramsOpen | param | paramDone =>
    obtain ⟨kind, text, place⟩ := tok
    cases kind <;> rfl

end Tokens

/-! ## Reading a list of tokens -/

mutual

@[simp] theorem OperandSite.done_unplaced :
    (site : OperandSite) → site.unplaced.done = Program.unplaced site.done
  | .first site => ExprSite.done_unplaced site
  | .negated _ site | .rightOf _ _ _ site => OperandSite.done_unplaced site

@[simp] theorem ExprSite.done_unplaced :
    (site : ExprSite) → site.unplaced.done = Program.unplaced site.done
  | .assigned _ _ site => ExprSite.done_unplaced site
  | .grouped site | .argument _ _ _ site => OperandSite.done_unplaced site
  | .test _ site => IfSite.done_unplaced site
  | .line _ site => LineSite.done_unplaced site

@[simp] theorem IfSite.done_unplaced :
    (site : IfSite) → site.unplaced.done = Program.unplaced site.done
  | .operand site => OperandSite.done_unplaced site
  | .elseOf _ _ _ site => IfSite.done_unplaced site

@[simp] theorem LineSite.done_unplaced :
    (site : LineSite) → site.unplaced.done = Program.unplaced site.done
  | .top _ => rfl
  | .inside _ site => BlockSite.done_unplaced site

@[simp] theorem BlockSite.done_unplaced :
    (site : BlockSite) → site.unplaced.done = Program.unplaced site.done
  | .function .. => rfl
  | .loop _ site => LineSite.done_unplaced site
  | .thenOf _ _ site | .elseOf _ _ _ site => IfSite.done_unplaced site

end

theorem OperandSite.doneBehind_unplaced (site : OperandSite) (e : Expr) :
    site.unplaced.doneBehind e.unplaced = Program.unplaced (site.doneBehind e) := by
  match site with
  | .first (.line pos site) =>
    have hadd := (site.add (.expr pos e)).done_unplaced
    rw [LineSite.unplaced_add, Line.unplaced] at hadd
    simp only [OperandSite.unplaced, ExprSite.unplaced, OperandSite.doneBehind,
      Expr.isBranch_unplaced, hadd, LineSite.done_unplaced]
    split <;> rfl
  | .first (.assigned _ _ site) => exact site.done_unplaced
  | .first (.grouped site) | .first (.argument _ _ _ site) => exact site.done_unplaced
  | .first (.test _ site) => exact site.done_unplaced
  | .negated _ site | .rightOf _ _ _ site => exact site.done_unplaced

theorem Unfinished.done_unplaced (state : Unfinished) :
    state.unplaced.done = Program.unplaced state.done := by
  cases state with
  | operandDone e site => exact site.doneBehind_unplaced e
  | thenDone pos test thenBlock site =>
    obtain ⟨he, hsite⟩ := site.operandOf_unplaced (.branch pos test thenBlock none)
    have hdone := OperandSite.doneBehind_unplaced
      (site.operandOf (.branch pos test thenBlock none)).2
      (site.operandOf (.branch pos test thenBlock none)).1
    rw [← he, ← hsite] at hdone
    exact hdone
  | _ => simp [Unfinished.unplaced, Unfinished.done]

/-- Reading tokens does not depend on positions. -/
theorem Unfinished.feedAll_unplaced (state : Unfinished) (eof : Pos) (tokens : List Token) :
    state.unplaced.feedAll .nowhere (tokens.map Token.unplaced) =
      (state.feedAll eof tokens).unplaced := by
  induction tokens generalizing state with
  | nil =>
    have hfeed := state.feed_unplaced ⟨.eof, [], eof⟩
    simp only [List.map_nil, Unfinished.feedAll]
    rw [show (Token.mk .eof [] eof).unplaced = ⟨.eof, [], .nowhere⟩ from rfl] at hfeed
    rw [hfeed]
    cases state.feed ⟨.eof, [], eof⟩ with
    | ok state => simp [Unfinished.unplacedResult, Unfinished.done_unplaced, Parse.unplaced]
    | error e => simp [Unfinished.unplacedResult, Unfinished.done_unplaced, Parse.unplaced]
  | cons tok tokens ih =>
    simp only [List.map_cons, Unfinished.feedAll]
    rw [state.feed_unplaced tok]
    cases state.feed tok with
    | ok state => exact ih state
    | error e =>
      simp only [Unfinished.unplacedResult, Unfinished.done_unplaced, Parse.unplaced]
      rw [show e.unplaced.cause = e.cause from rfl]
      split <;> rfl

end FrameLang
