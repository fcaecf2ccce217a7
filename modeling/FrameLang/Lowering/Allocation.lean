import FrameLang.Instr
import FrameLang.Position

/-!
# Allocation of registers and labels

Every scope, which is the top level or the body of one function, hands out its registers in order
and never twice. A name keeps the register that it got at its first use. Labels are numbered through
the whole program.

## Main definitions

* `Owner` — what a scope belongs to.
* `Allocation` — what has been handed out.
* `Lower` — computations that hand out registers and labels, and may fail.
-/

namespace FrameLang

/-- What a scope belongs to. -/
inductive Owner where
  | topLevel
  | function (name : Text)
deriving DecidableEq, Repr

namespace Owner

/-- How messages speak of a scope. -/
def text : Owner → Text
  | topLevel => "top level".toList
  | function name => "function ".toList ++ Text.quote name

/-- The register with the given number of a scope: global at the top level, and relative to the
activation record in a function. -/
def register : Owner → Nat → Register
  | topLevel, n => .global (UInt32.ofNat n)
  | function _, n => .arp (UInt32.ofNat n)

end Owner

/-- Why a construct has no code. -/
inductive LowerCause where
  | stringLiteral
  | malformedAssignment
  | malformedBinary
  | malformedBranch
  | unknownExpression
  | unknownLine
  | unknownOperator
  | breakOutsideLoop
  /-- The body of the function does not end with an expression line. -/
  | noValue (name : Text)
  | undefinedFunction (name : Text)
  | arity (name : Text) (params args : Nat)
deriving DecidableEq, Repr

/-- The wording of a cause. -/
def LowerCause.message : LowerCause → Text
  | stringLiteral => "string literals have no register representation".toList
  | malformedAssignment => "malformed assignment".toList
  | malformedBinary => "malformed binary expression".toList
  | malformedBranch => "malformed if expression".toList
  | unknownExpression => "unsupported expression".toList
  | unknownLine => "unsupported block line".toList
  | unknownOperator => "operator '?' has no lowering".toList
  | breakOutsideLoop => "'break' outside of a loop".toList
  | noValue name =>
    "function ".toList ++ Text.quote name ++ " body does not end with a value".toList
  | undefinedFunction name => "call to undefined function ".toList ++ Text.quote name
  | arity name params args =>
    "function ".toList ++ Text.quote name ++ " expects ".toList ++ Text.ofNat params ++
      " argument(s), got ".toList ++ Text.ofNat args

/-- Why a program has no code. -/
inductive LowerError where
  /-- A construct at the given position has none. -/
  | located (pos : Pos) (cause : LowerCause)
  /-- A scope needs more registers than a register file has. -/
  | exhausted (owner : Owner)
deriving DecidableEq, Repr

/-- The error as it is shown. Its position stands in front unless the line is zero. -/
def LowerError.message : LowerError → Text
  | located pos cause => (if pos.line = 0 then [] else pos.mark) ++ cause.message
  | exhausted owner =>
    "register file exhausted: ".toList ++ owner.text ++ " needs more than ".toList ++
      Text.ofNat registerFileSize ++ " registers".toList

/-- What has been handed out: numbered labels, and in the current scope registers, of which some
belong to names. -/
structure Allocation where
  labels : Nat := 0
  registers : Nat := 0
  names : List (Text × Nat) := []
deriving DecidableEq, Repr

/-- Computations that hand out registers and labels. -/
abbrev Lower := StateT Allocation (Except LowerError)

namespace Lower

/-- Fails at the given position. -/
def fail {α : Type} (pos : Pos) (cause : LowerCause) : Lower α :=
  fun _ => .error (.located pos cause)

/-- A new numbered label. The numbers are 32-bit words. -/
def label : Lower Label :=
  fun a => .ok (.numbered (UInt32.ofNat a.labels), { a with labels := a.labels + 1 })

/-- A new register of the scope. -/
def register (owner : Owner) : Lower Register := fun a =>
  if a.registers < registerFileSize then
    .ok (owner.register a.registers, { a with registers := a.registers + 1 })
  else
    .error (.exhausted owner)

/-- The register of a name, which is a new one at the first use of the name. -/
def named (owner : Owner) (name : Text) : Lower Register := fun a =>
  match a.names.lookup name with
  | some n => .ok (owner.register n, a)
  | none => do
    let (r, b) ← register owner a
    .ok (r, { b with names := (name, a.registers) :: b.names })

/-- Runs `body` in a scope of its own. Labels go on, registers and names are those of the scope. -/
def inNewScope {α : Type} (body : Lower α) : Lower α := fun outer => do
  let (result, inner) ← body { labels := outer.labels }
  .ok (result, { outer with labels := inner.labels })

end Lower

end FrameLang
