import FrameLang.Machine.State

/-!
# Runs

A run executes one instruction after another until the next one is behind the code or a fault
occurs. It need not end, so running takes a bound on the number of steps and has no answer if the
bound is too small; a larger bound never changes an answer.

A machine keeps the state that its last run left, whatever is loaded later.

## Main definitions

* `Outcome` — how a run ends.
* `Image.run` — a run from the initial state.
* `Machine` — an image that is loaded, and what the last run left.
-/

namespace FrameLang

/-- How a run ends. -/
inductive Outcome where
  /-- Behind the code, after a number of steps and with a value if there is a result register. -/
  | halted (ip : Nat) (value : Option Int32) (steps : Nat)
  /-- At an instruction that faults. -/
  | trapped (ip : Nat) (instr : Instr) (fault : Fault)
  /-- Nothing could be run. -/
  | refused (message : Text)
deriving DecidableEq, Repr

namespace Outcome

/-- The name of the way in which a run ends. -/
def status : Outcome → Text
  | halted .. => "halted".toList
  | trapped .. => "trapped".toList
  | refused _ => "bad module".toList

/-- The kind of the fault that ends a run. -/
def fault? : Outcome → Option FaultKind
  | trapped _ _ fault => some fault.kind
  | _ => none

/-- What went wrong, in words. A fault is shown with the instruction that caused it. -/
def error : Outcome → Text
  | halted .. => []
  | trapped ip instr fault =>
    fault.message ++ " (ip ".toList ++ Text.ofNat ip ++ " op ".toList ++ instr.text ++ [')']
  | refused message => message

/-- Where a run ends. -/
def ip : Outcome → Nat
  | halted ip _ _ | trapped ip _ _ => ip
  | refused _ => 0

/-- The value of a run. -/
def value? : Outcome → Option Int32
  | halted _ value _ => value
  | _ => none

/-- The number of steps, counted in 64 bits and only for a run that halts. -/
def steps : Outcome → UInt64
  | halted _ _ steps => UInt64.ofNat steps
  | _ => 0

end Outcome

/-- Runs on from a state after a number of steps, for at most `fuel` steps. Gives the outcome and
the last state, or nothing if the bound is too small. -/
def Image.runFrom (image : Image) : (fuel steps : Nat) → State → Option (Outcome × State)
  | 0, _, _ => none
  | fuel + 1, steps, s =>
    match image.code[s.ip]? with
    | none => some (.halted s.ip (image.result.map s.read) steps, s)
    | some instr =>
      match image.execute s instr with
      | .ok next => image.runFrom fuel (steps + 1) next
      | .error (fault, last) => some (.trapped last.ip instr fault, last)

/-- Runs an image from the initial state. -/
def Image.run (image : Image) (fuel : Nat) : Option (Outcome × State) :=
  image.runFrom fuel 0 .initial

/-- A machine: the image that is loaded, if the last listing could be loaded, and the state that the
last run left, if there was one. -/
structure Machine where
  image : Option Image := none
  state : Option State := none

namespace Machine

/-- Loads a listing. One that cannot be loaded leaves the machine without an image. -/
def load (m : Machine) (listing : Listing) : Option LoadError × Machine :=
  match listing.load with
  | .ok image => (none, { m with image := some image })
  | .error e => (some e, { m with image := none })

/-- Runs the image that is loaded. -/
def run (m : Machine) (fuel : Nat) : Option (Outcome × Machine) :=
  match m.image with
  | none => some (.refused "no program loaded".toList, m)
  | some image =>
    (image.run fuel).map fun (outcome, s) => (outcome, { m with state := some s })

/-- The value of a register after the last run; zero if there was none. -/
def read (m : Machine) (r : Register) : Int32 :=
  match m.state with
  | some s => s.read r
  | none => 0

/-- The number of calls that the last run left active. -/
def callDepth (m : Machine) : Nat :=
  (m.state.map fun s => s.calls.length).getD 0

/-- The operand stack that the last run left, the bottom first. -/
def operands (m : Machine) : Array Int32 :=
  (m.state.map State.operands).getD #[]

end Machine

/-- Loads and runs a listing. -/
def Listing.execute (listing : Listing) (fuel : Nat) : Option Outcome :=
  match listing.load with
  | .error e => some (.refused e.message)
  | .ok image => (image.run fuel).map Prod.fst

end FrameLang
