import FrameLang.Text

/-!
# Binary operators

The ten binary operators, how they are written and how strongly they bind. All of them associate to
the left.
-/

namespace FrameLang

/-- A binary operator. -/
inductive Operator where
  | add
  | sub
  | mul
  | div
  | mod
  | eq
  | lt
  | le
  | gt
  | ge
deriving DecidableEq, Repr, Inhabited

namespace Operator

/-- Every operator. -/
def all : List Operator := [add, sub, mul, div, mod, eq, lt, le, gt, ge]

/-- How an operator is written. -/
def symbol : Operator → Text
  | add => ['+']
  | sub => ['-']
  | mul => ['*']
  | div => ['/']
  | mod => ['%']
  | eq => ['=', '=']
  | lt => ['<']
  | le => ['<', '=']
  | gt => ['>']
  | ge => ['>', '=']

/-- How strongly an operator binds: comparisons bind weakest, and the remainder binds like a sum. -/
def precedence : Operator → Nat
  | eq | lt | le | gt | ge => 0
  | add | sub | mod => 1
  | mul | div => 2

/-- The operator written in the given way. -/
def ofSymbol? (symbol : Text) : Option Operator :=
  all.find? fun op => op.symbol = symbol

/-- How an operator that may be unknown is shown. -/
def label : Option Operator → Text
  | some op => op.symbol
  | none => ['?']

/-- The rank of an operator that may be unknown; an unknown one ranks with the weakest. -/
def rank (op : Option Operator) : Nat :=
  (op.map precedence).getD 0

end Operator

end FrameLang
