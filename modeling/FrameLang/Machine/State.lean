import FrameLang.Machine.Fault
import FrameLang.Machine.Frame
import FrameLang.Machine.Image

/-!
# States and steps

The state of a running image is the place of the next instruction, the bottom frame, the active
calls and the operand stack. A step executes one instruction. A step that faults changes nothing.

## Main definitions

* `State` — a state, and `State.read` and `State.write` its registers.
* `Step` — what executing an instruction gives.
* `Image.execute` — executes an instruction.
-/

namespace FrameLang

/-- The number of calls that may be active at the same time. -/
def maxCallDepth : Nat := 4096

/-- The number of entries that the operand stack may have. -/
def maxOperands : Nat := 65536

/-- An active call: the place of the call instruction, and the frame that it opened. -/
structure Activation where
  caller : Nat
  frame : Frame
deriving DecidableEq

/-- The state of a running image. The innermost call comes first. -/
structure State where
  ip : Nat
  globals : Frame
  calls : List Activation
  operands : Array Int32
deriving DecidableEq

namespace State

/-- The state at the start of a run. -/
def initial : State := ⟨0, .zero, [], #[]⟩

/-- The top frame, which is the bottom frame as long as no call is active. -/
def top (s : State) : Frame :=
  match s.calls with
  | [] => s.globals
  | call :: _ => call.frame

/-- The value of a register. -/
def read (s : State) : Register → Int32
  | .global addr => s.globals.read addr
  | .arp addr => s.top.read addr

/-- The state with a new value in a register. -/
def write (s : State) (r : Register) (value : Int32) : State :=
  match r, s with
  | .global addr, ⟨ip, globals, calls, operands⟩ => ⟨ip, globals.write addr value, calls, operands⟩
  | .arp addr, ⟨ip, globals, [], operands⟩ => ⟨ip, globals.write addr value, [], operands⟩
  | .arp addr, ⟨ip, globals, ⟨caller, frame⟩ :: calls, operands⟩ =>
    ⟨ip, globals, ⟨caller, frame.write addr value⟩ :: calls, operands⟩

/-- The state behind the current instruction. -/
def next (s : State) : State :=
  { s with ip := s.ip + 1 }

end State

/-- What becomes of a state: another state, or a fault together with the state that it leaves. -/
abbrev Step := Except (Fault × State) State

namespace State

/-- The fault `f` in the state `s`. -/
def fault (s : State) (f : Fault) : Step :=
  .error (f, s)

/-- Puts a value on the operand stack. -/
def push (s : State) (value : Int32) : Step :=
  if s.operands.size < maxOperands then
    .ok { s with operands := s.operands.push value }
  else
    s.fault .operandLimit

/-- Takes a value from the operand stack into a register. -/
def pop (s : State) (dst : Register) : Step :=
  match s.operands.back? with
  | some value => .ok ({ s with operands := s.operands.pop }.write dst value)
  | none => s.fault .emptyOperands

/-- Brings the value of a computation to a register. -/
def store (s : State) (out : Register) : Except Fault Int32 → Step
  | .ok value => .ok (s.write out value)
  | .error f => s.fault f

/-- Opens a frame for a call to the place `entry`. -/
def enter (s : State) (entry : Nat) : Step :=
  if s.calls.length < maxCallDepth then
    .ok { s with ip := entry, calls := ⟨s.ip, .zero⟩ :: s.calls }
  else
    s.fault .callDepth

/-- Drops the top frame and goes back to its call. -/
def leave (s : State) : Step :=
  match s.calls with
  | call :: calls => .ok { s with ip := call.caller, calls := calls }
  | [] => s.fault .noActiveCall

/-- Goes to the place of a label, if it has one. -/
def goTo (s : State) (place : Option Nat) (f : Fault) : Step :=
  match place with
  | some ip => .ok { s with ip := ip }
  | none => s.fault f

end State

/-- Executes an instruction, up to the move behind the place that is then current. -/
def Image.perform (image : Image) (s : State) : Instr → Step
  | .label _ | .unassigned => .ok s
  | .call target =>
    match image.resolve target with
    | some entry => s.enter entry
    | none => s.fault (.undefinedCall target)
  | .ret => s.leave
  | .push src => s.push (s.read src)
  | .pushI value => s.push value
  | .pop dst => s.pop dst
  | .binary op lhs rhs out => s.store out (op.eval (s.read lhs) (s.read rhs))
  | .binaryI op lhs imm out => s.store out (op.operator.eval (s.read lhs) imm)
  | .loadI value out => .ok (s.write out value)
  | .move src dst => .ok (s.write dst (s.read src))
  | .jump target => s.goTo (image.resolve target) (.undefinedJump target)
  | .branch test ifOne ifOther =>
    let target := if s.read test = 1 then ifOne else ifOther
    s.goTo (image.resolve target) (.undefinedBranch target)

/-- Executes an instruction. Control moves behind the instruction that is then current: the one
executed, the label that was jumped to, or the call that was returned to. -/
def Image.execute (image : Image) (s : State) (i : Instr) : Step :=
  (image.perform s i).map State.next

end FrameLang
