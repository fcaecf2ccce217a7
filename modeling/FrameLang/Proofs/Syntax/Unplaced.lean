import FrameLang.Program

/-!
# Programs without their positions

Two trees that differ in positions only are the same program written in two places. `unplaced`
takes the positions away, so that such trees become equal.

## Main definitions

* `Expr.unplaced`, `Line.unplaced`, `FnDef.unplaced`, `Statement.unplaced`, `Program.unplaced` — a
  tree with every position replaced by the same one.
-/

namespace FrameLang

/-- The position of what stands in no text. -/
def Pos.nowhere : Pos := ⟨0, 0⟩

mutual

/-- An expression without its positions. -/
def Expr.unplaced : Expr → Expr
  | .int _ value => .int .nowhere value
  | .str _ text => .str .nowhere text
  | .bool _ value => .bool .nowhere value
  | .name _ text => .name .nowhere text
  | .assign _ target value => .assign .nowhere target value.unplaced
  | .binary _ op lhs rhs => .binary .nowhere op lhs.unplaced rhs.unplaced
  | .call _ callee args => .call .nowhere callee (Expr.unplacedAll args)
  | .branch _ test thenBlock elseBlock =>
    .branch .nowhere test.unplaced (Line.unplacedAll thenBlock) (Line.unplacedElse elseBlock)
  | .malformed _ form parts thenBlock elseBlock =>
    .malformed .nowhere form (Expr.unplacedAll parts) (Line.unplacedAll thenBlock)
      (Line.unplacedElse elseBlock)

/-- Several expressions without their positions. -/
def Expr.unplacedAll : List Expr → List Expr
  | [] => []
  | e :: rest => e.unplaced :: Expr.unplacedAll rest

/-- A line without its positions. -/
def Line.unplaced : Line → Line
  | .expr _ e => .expr .nowhere e.unplaced
  | .loop _ body => .loop .nowhere (Line.unplacedAll body)
  | .brk _ => .brk .nowhere
  | .other _ => .other .nowhere

/-- A block without its positions. -/
def Line.unplacedAll : List Line → List Line
  | [] => []
  | l :: rest => l.unplaced :: Line.unplacedAll rest

/-- An else branch without its positions. -/
def Line.unplacedElse : Option (List Line) → Option (List Line)
  | none => none
  | some block => some (Line.unplacedAll block)

end

/-- A definition without its positions. -/
def FnDef.unplaced (f : FnDef) : FnDef :=
  ⟨.nowhere, f.name, f.params, Line.unplacedAll f.block⟩

/-- A statement without its positions. -/
def Statement.unplaced : Statement → Statement
  | .fn f => .fn f.unplaced
  | .line l => .line l.unplaced

/-- A program without its positions. -/
def Program.unplaced (p : Program) : Program :=
  p.map Statement.unplaced

@[simp] theorem Expr.unplacedAll_append (es fs : List Expr) :
    Expr.unplacedAll (es ++ fs) = Expr.unplacedAll es ++ Expr.unplacedAll fs := by
  induction es with
  | nil => rfl
  | cons e es ih => simp [Expr.unplacedAll, ih]

@[simp] theorem Line.unplacedAll_append (ls ms : List Line) :
    Line.unplacedAll (ls ++ ms) = Line.unplacedAll ls ++ Line.unplacedAll ms := by
  induction ls with
  | nil => rfl
  | cons l ls ih => simp [Line.unplacedAll, ih]

end FrameLang
