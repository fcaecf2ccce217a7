import FrameLang.Operator
import FrameLang.Position

/-!
# Programs

A program is a list of statements, and a statement is a function definition or a line. Lines stand
in blocks: the bodies of functions and loops, and the two branches of an if expression. Expressions
and lines contain each other, because an if expression holds blocks.

Trees may also be assembled by hand, and such a tree need not have the parts that its form asks for.
A node of that kind is kept as `Expr.malformed` with whatever parts it has. The functions
`Expr.ofAssign`, `Expr.ofBinary` and `Expr.ofBranch` build the proper node from a list of parts if
the parts fit, and a malformed one otherwise.
-/

namespace FrameLang

/-- The form that a malformed expression was meant to have. -/
inductive Form where
  /-- An assignment, which has one value. -/
  | assign (target : Text)
  /-- A binary expression, which has a known operator and two operands. -/
  | binary (op : Option Operator)
  /-- An if expression, which has one test. -/
  | branch
  /-- None of the forms of the language. -/
  | other
deriving DecidableEq, Repr

mutual

/-- Expressions, each with the position it is reported at. -/
inductive Expr where
  | int (pos : Pos) (value : Int32)
  | str (pos : Pos) (text : Text)
  | bool (pos : Pos) (value : Bool)
  | name (pos : Pos) (text : Text)
  | assign (pos : Pos) (target : Text) (value : Expr)
  | binary (pos : Pos) (op : Operator) (lhs rhs : Expr)
  | call (pos : Pos) (callee : Text) (args : List Expr)
  | branch (pos : Pos) (test : Expr) (thenBlock : List Line) (elseBlock : Option (List Line))
  | malformed (pos : Pos) (form : Form) (parts : List Expr) (thenBlock : List Line)
      (elseBlock : Option (List Line))

/-- Lines of a block. -/
inductive Line where
  | expr (pos : Pos) (e : Expr)
  | loop (pos : Pos) (body : List Line)
  | brk (pos : Pos)
  /-- A line of none of the known forms. -/
  | other (pos : Pos)

end

/-- A function definition. -/
structure FnDef where
  pos : Pos
  name : Text
  params : List Text
  block : List Line

/-- A statement at the top level. -/
inductive Statement where
  | fn (f : FnDef)
  | line (l : Line)

/-- A program. -/
abbrev Program := List Statement

namespace Expr

/-- The position of an expression. -/
def pos : Expr → Pos
  | .int p _ | .str p _ | .bool p _ | .name p _ | .assign p _ _ | .binary p _ _ _ | .call p _ _
  | .branch p _ _ _ | .malformed p _ _ _ _ => p

/-- Whether an expression is an if expression. A line made of one needs no semicolon. -/
def isBranch : Expr → Bool
  | .branch .. => true
  | _ => false

/-- The negation of `e`, which is a difference from zero. -/
def negate (pos : Pos) (e : Expr) : Expr :=
  .binary pos .sub (.int pos 0) e

/-- An assignment with the given values, of which there should be one. -/
def ofAssign (pos : Pos) (target : Text) : List Expr → Expr
  | [value] => .assign pos target value
  | values => .malformed pos (.assign target) values [] none

/-- A binary expression with the given operands, of which there should be two. -/
def ofBinary (pos : Pos) : Option Operator → List Expr → Expr
  | some op, [lhs, rhs] => .binary pos op lhs rhs
  | op, operands => .malformed pos (.binary op) operands [] none

/-- An if expression with the given tests, of which there should be one. -/
def ofBranch (pos : Pos) (thenBlock : List Line) (elseBlock : Option (List Line)) :
    List Expr → Expr
  | [test] => .branch pos test thenBlock elseBlock
  | tests => .malformed pos .branch tests thenBlock elseBlock

/-- An expression of no known form. -/
def ofOther (pos : Pos) : Expr :=
  .malformed pos .other [] [] none

end Expr

end FrameLang
