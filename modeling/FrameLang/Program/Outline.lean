import FrameLang.Program

/-!
# Outlines

The outline of a program has one entry for each node, indented by two spaces for every level below
the program. `Then` and `Else` head the branches of an if expression and take a level of their own.

## Main definitions

* `Entry` — how deep a node is and what is shown for it.
* `Expr.entries`, `Line.entries`, `Statement.entries` — the entries of a part of a program.
* `Program.outline` — the outline of a program.
-/

namespace FrameLang

/-- An entry of an outline: the level of a node, and what is shown behind its indentation. -/
structure Entry where
  depth : Nat
  text : Text
deriving DecidableEq, Repr

/-- The entry as it is shown. -/
def Entry.render (e : Entry) : Text :=
  List.replicate (2 * e.depth) ' ' ++ e.text

/-- An entry that has a line of its own. -/
def heading (depth : Nat) (text : Text) : Entry :=
  ⟨depth, text ++ ['\n']⟩

mutual

/-- The entries of an expression. One of no known form has an indentation and nothing else. -/
def Expr.entries (depth : Nat) : Expr → List Entry
  | .int _ value => [heading depth ("Int ".toList ++ Text.ofInt value.toInt)]
  | .str _ text => [heading depth ("Str \"".toList ++ text ++ ['"'])]
  | .bool _ value =>
    [heading depth ("Boolean ".toList ++ if value then "true".toList else "false".toList)]
  | .name _ text => [heading depth ("Name ".toList ++ text)]
  | .assign _ target value =>
    heading depth ("Assignment ".toList ++ target) :: value.entries (depth + 1)
  | .binary _ op lhs rhs =>
    heading depth ("BinOp ".toList ++ op.symbol) ::
      (lhs.entries (depth + 1) ++ rhs.entries (depth + 1))
  | .call _ callee args =>
    heading depth ("FnCall ".toList ++ callee) :: Expr.listEntries (depth + 1) args
  | .branch _ test thenBlock elseBlock =>
    heading depth "If".toList :: (test.entries (depth + 1) ++
      heading (depth + 1) "Then".toList :: (Line.blockEntries (depth + 2) thenBlock ++
      Line.elseEntries (depth + 1) elseBlock))
  | .malformed _ (.assign target) parts _ _ =>
    heading depth ("Assignment ".toList ++ target) :: Expr.listEntries (depth + 1) parts
  | .malformed _ (.binary op) parts _ _ =>
    heading depth ("BinOp ".toList ++ Operator.label op) :: Expr.listEntries (depth + 1) parts
  | .malformed _ .branch parts thenBlock elseBlock =>
    heading depth "If".toList :: (Expr.listEntries (depth + 1) parts ++
      heading (depth + 1) "Then".toList :: (Line.blockEntries (depth + 2) thenBlock ++
      Line.elseEntries (depth + 1) elseBlock))
  | .malformed _ .other _ _ _ => [⟨depth, []⟩]

/-- The entries of several expressions, one after another. -/
def Expr.listEntries (depth : Nat) : List Expr → List Entry
  | [] => []
  | e :: rest => e.entries depth ++ Expr.listEntries depth rest

/-- The entries of a line. One of no known form has none. -/
def Line.entries (depth : Nat) : Line → List Entry
  | .expr _ e => e.entries depth
  | .loop _ body => heading depth "Loop".toList :: Line.blockEntries (depth + 1) body
  | .brk _ => [heading depth "Break".toList]
  | .other _ => []

/-- The entries of a block. -/
def Line.blockEntries (depth : Nat) : List Line → List Entry
  | [] => []
  | l :: rest => l.entries depth ++ Line.blockEntries depth rest

/-- The entries of the else branch, if there is one. -/
def Line.elseEntries (depth : Nat) : Option (List Line) → List Entry
  | none => []
  | some block => heading depth "Else".toList :: Line.blockEntries (depth + 1) block

end

/-- The parameters of a function as they are listed in its heading. -/
def FnDef.paramList (f : FnDef) : Text :=
  List.intercalate [',', ' '] f.params

/-- The entries of a statement. -/
def Statement.entries : Statement → List Entry
  | .fn f =>
    heading 1 ("FnDef ".toList ++ f.name ++ '(' :: f.paramList ++ [')']) ::
      Line.blockEntries 2 f.block
  | .line l => l.entries 1

/-- The entries of a program. -/
def Program.entries (p : Program) : List Entry :=
  heading 0 "Program".toList :: p.flatMap Statement.entries

/-- The outline of a program. -/
def Program.outline (p : Program) : Text :=
  p.entries.flatMap Entry.render

end FrameLang
