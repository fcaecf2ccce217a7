import FrameLang.Listing
import FrameLang.Lowering
import FrameLang.Lowering.CallSite

/-!
# Building programs

A program is built in three parts: its code is made, its calls are checked on demand, and the
entries of functions that are defined again lose their names, so that only the last definition is
reached.

## Main definitions

* `relabelShadowed` — only the last definition of a function keeps its name.
* `Program.build` — the listing of a program.
* `Builder.build` — a build that keeps what the builds before left.
-/

namespace FrameLang

/-- Gives numbered labels, from `next` on, to the entries of functions that are defined again. -/
def relabelShadowed (next : Nat) : List Instr → List Instr
  | [] => []
  | .label (.named name) :: rest =>
    if .label (.named name) ∈ rest then
      .label (.numbered (UInt32.ofNat next)) :: relabelShadowed (next + 1) rest
    else
      .label (.named name) :: relabelShadowed next rest
  | i :: rest => i :: relabelShadowed next rest

/-- The listing of a program, or why it has none. Calls are checked only on demand. -/
def Program.build (checkArity : Bool) (p : Program) : Except LowerError Listing := do
  let ((code, result), allocation) ← (Program.lower none p).run {}
  match if checkArity then p.callError? else none with
  | some error => .error error
  | none => .ok (.ofInstrs (relabelShadowed allocation.labels code) result)

/-- A listing and a message, as the latest builds left them. -/
structure Workpiece where
  listing : Listing
  error : Text

/-- A builder, which serves for one program. -/
structure Builder where
  checkArity : Bool
  used : Bool := false

/-- The message of a builder that has been used before. -/
def Builder.usedMessage : Text :=
  "IrBuilder already used; construct a new builder per program".toList

/-- Builds a program into a workpiece. A failed build leaves the listing alone, and a successful one
the message. -/
def Builder.build (b : Builder) (p : Program) (w : Workpiece) : Bool × Builder × Workpiece :=
  if b.used then
    (false, b, { w with error := Builder.usedMessage })
  else
    match p.build b.checkArity with
    | .error e => (false, { b with used := true }, { w with error := e.message })
    | .ok listing => (true, { b with used := true }, { w with listing })

end FrameLang
