import FrameLang.Program

/-!
# Unfinished programs

A program that has been read up to some point is described by a *site*: what is due at that point,
together with everything around it that is still open. Sites nest from the inside out, and each kind
of site says which construct fits into it, so an unfinished program is always one that makes sense.

## Main definitions

* `OperandSite`, `ExprSite`, `IfSite`, `LineSite`, `BlockSite` — where an operand, a whole
  expression, an if expression, a line or a block is due.
* `Unfinished` — a site together with the beginning of the construct that is due there.
* `Unfinished.done` — the statements that are complete.
-/

namespace FrameLang

mutual

/-- Where an operand is due. -/
inductive OperandSite where
  /-- The first operand of an expression. -/
  | first (site : ExprSite)
  /-- The operand of a sign. -/
  | negated (pos : Pos) (site : OperandSite)
  /-- The right operand of an operator. -/
  | rightOf (pos : Pos) (op : Operator) (lhs : Expr) (site : OperandSite)

/-- Where a whole expression is due. -/
inductive ExprSite where
  /-- The value of an assignment. -/
  | assigned (pos : Pos) (target : Text) (site : ExprSite)
  /-- The inside of parentheses. -/
  | grouped (site : OperandSite)
  /-- An argument of a call, behind the earlier ones. -/
  | argument (pos : Pos) (callee : Text) (earlier : List Expr) (site : OperandSite)
  /-- The test of an if expression. -/
  | test (pos : Pos) (site : IfSite)
  /-- An expression line. -/
  | line (pos : Pos) (site : LineSite)

/-- Where an if expression stands. -/
inductive IfSite where
  /-- An operand. -/
  | operand (site : OperandSite)
  /-- The whole else branch of another if expression. -/
  | elseOf (pos : Pos) (test : Expr) (thenBlock : List Line) (site : IfSite)

/-- Where a line is due. -/
inductive LineSite where
  /-- At the top level, behind the statements that are done. -/
  | top (done : List Statement)
  /-- In a block, behind the lines that are done. -/
  | inside (lines : List Line) (site : BlockSite)

/-- Where a block is due. -/
inductive BlockSite where
  /-- The body of a function. -/
  | function (pos : Pos) (name : Text) (params : List Text) (done : List Statement)
  /-- The body of a loop. -/
  | loop (pos : Pos) (site : LineSite)
  /-- The first branch of an if expression. -/
  | thenOf (pos : Pos) (test : Expr) (site : IfSite)
  /-- The second branch of an if expression. -/
  | elseOf (pos : Pos) (test : Expr) (thenBlock : List Line) (site : IfSite)

end

/-- A program that has been read up to some point. -/
inductive Unfinished where
  /-- A line may start. -/
  | line (site : LineSite)
  /-- A line may start, or a semicolon may close the one before. -/
  | lineClosed (site : LineSite)
  /-- Behind `break`. -/
  | breakOpen (pos : Pos) (site : LineSite)
  /-- An expression is due. -/
  | expr (site : ExprSite)
  /-- Behind a name that starts an expression. -/
  | leadingName (pos : Pos) (name : Text) (site : ExprSite)
  /-- An operand is due. -/
  | operand (site : OperandSite)
  /-- Behind the sign of an operand. -/
  | sign (pos : Pos) (site : OperandSite)
  /-- Behind a name that is an operand. -/
  | namedOperand (pos : Pos) (name : Text) (site : OperandSite)
  /-- Behind the parenthesis that opens the arguments of a call. -/
  | callOpen (pos : Pos) (callee : Text) (site : OperandSite)
  /-- Behind an operand. -/
  | operandDone (e : Expr) (site : OperandSite)
  /-- Behind `if`. -/
  | ifOpen (pos : Pos) (site : IfSite)
  /-- Behind the first branch of an if expression. -/
  | thenDone (pos : Pos) (test : Expr) (thenBlock : List Line) (site : IfSite)
  /-- Behind `else`. -/
  | elseOpen (pos : Pos) (test : Expr) (thenBlock : List Line) (site : IfSite)
  /-- A block is due. -/
  | block (site : BlockSite)
  /-- Behind `fn`. -/
  | fnOpen (pos : Pos) (done : List Statement)
  /-- Behind the name of a function. -/
  | fnNamed (pos : Pos) (name : Text) (done : List Statement)
  /-- Behind the parenthesis that opens the parameters. -/
  | paramsOpen (pos : Pos) (name : Text) (done : List Statement)
  /-- A parameter is due. -/
  | param (pos : Pos) (name : Text) (earlier : List Text) (done : List Statement)
  /-- Behind a parameter. -/
  | paramDone (pos : Pos) (name : Text) (params : List Text) (done : List Statement)

/-! ## Filling a site -/

/-- The site behind a line that fills `site`. -/
def LineSite.add (l : Line) : LineSite → LineSite
  | .top done => .top (done ++ [.line l])
  | .inside lines site => .inside (lines ++ [l]) site

/-- The operand that the if expression `e` completes, and its site. The expression itself may be the
else branch of others. -/
def IfSite.operandOf (e : Expr) : IfSite → Expr × OperandSite
  | .operand site => (e, site)
  | .elseOf pos test thenBlock site =>
    site.operandOf (.branch pos test thenBlock (some [.expr e.pos e]))

/-- The construct that the block `lines` completes. -/
def BlockSite.fill (lines : List Line) : BlockSite → Unfinished
  | .function pos name params done => .lineClosed (.top (done ++ [.fn ⟨pos, name, params, lines⟩]))
  | .loop pos site => .lineClosed (site.add (.loop pos lines))
  | .thenOf pos test site => .thenDone pos test lines site
  | .elseOf pos test thenBlock site =>
    let (e, site) := site.operandOf (.branch pos test thenBlock (some lines))
    .operandDone e site

/-- Closes the signs and operators to the left of `e` that bind at least as strongly as `p`. -/
def OperandSite.reduce (p : Nat) (e : Expr) : OperandSite → Expr × OperandSite
  | .first site => (e, .first site)
  | .negated pos site => site.reduce p (.negate pos e)
  | .rightOf pos op lhs site =>
    if p ≤ op.precedence then site.reduce p (.binary pos op lhs e)
    else (e, .rightOf pos op lhs site)

/-! ## Complete statements -/

mutual

/-- The statements that are complete around an operand. -/
def OperandSite.done : OperandSite → List Statement
  | .first site => site.done
  | .negated _ site => site.done
  | .rightOf _ _ _ site => site.done

/-- The statements that are complete around an expression. -/
def ExprSite.done : ExprSite → List Statement
  | .assigned _ _ site => site.done
  | .grouped site => site.done
  | .argument _ _ _ site => site.done
  | .test _ site => site.done
  | .line _ site => site.done

/-- The statements that are complete around an if expression. -/
def IfSite.done : IfSite → List Statement
  | .operand site => site.done
  | .elseOf _ _ _ site => site.done

/-- The statements that are complete around a line. -/
def LineSite.done : LineSite → List Statement
  | .top done => done
  | .inside _ site => site.done

/-- The statements that are complete around a block. -/
def BlockSite.done : BlockSite → List Statement
  | .function _ _ _ done => done
  | .loop _ site => site.done
  | .thenOf _ _ site => site.done
  | .elseOf _ _ _ site => site.done

end

/-- The statements that are complete behind the operand `e`. An if line needs no semicolon, so it
is one of them if `e` is all of it. -/
def OperandSite.doneBehind (e : Expr) : OperandSite → List Statement
  | .first (.line pos site) => if e.isBranch then (site.add (.expr pos e)).done else site.done
  | site => site.done

/-- The statements that are complete if the tokens read so far are all that belongs to them. -/
def Unfinished.done : Unfinished → List Statement
  | .line site | .lineClosed site | .breakOpen _ site => site.done
  | .expr site | .leadingName _ _ site => site.done
  | .operand site | .sign _ site | .namedOperand _ _ site | .callOpen _ _ site => site.done
  | .operandDone e site => site.doneBehind e
  | .thenDone pos test thenBlock site =>
    let (e, site) := site.operandOf (.branch pos test thenBlock none)
    site.doneBehind e
  | .ifOpen _ site | .elseOpen _ _ _ site => site.done
  | .block site => site.done
  | .fnOpen _ done | .fnNamed _ _ done | .paramsOpen _ _ done | .param _ _ _ done
  | .paramDone _ _ _ done => done

end FrameLang
