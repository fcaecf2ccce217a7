import FrameLang.Instr

/-!
# Operations

An operation is an instruction in a fixed format: an opcode and all the fields that any opcode uses.
Fields that the opcode does not use are kept, and two operations are equal only if these agree too.
An instruction has one *canonical* operation, in which the unused fields have their default.

## Main definitions

* `Opcode`, `Operation` — the fixed format.
* `Operation.decode`, `Instr.encode` — between operations and instructions.
-/

namespace FrameLang

/-- The kinds of operations. `unassigned` stands for every code without a meaning. -/
inductive Opcode where
  | label
  | call
  | ret
  | push
  | pop
  | pushI
  | binary (op : Operator)
  | binaryI (op : ImmOperator)
  | loadI
  | move
  | jump
  | branch
  | unassigned
deriving DecidableEq, Repr

namespace Opcode

/-- The opcodes with a meaning, in their fixed order. -/
def all : List Opcode :=
  [label, call, ret, push, pop, pushI,
    binary .add, binary .sub, binary .mul, binary .div, binary .mod,
    binaryI .add, binaryI .sub, binaryI .mul, binaryI .div,
    binary .eq, binary .lt, binary .le, binary .gt, binary .ge,
    loadI, move, jump, branch]

/-- The mnemonic of an opcode. -/
def name : Opcode → Text
  | label => "label".toList
  | call => "call".toList
  | ret => "return".toList
  | push => "push".toList
  | pop => "pop".toList
  | pushI => "pushI".toList
  | binary op => op.mnemonic
  | binaryI op => op.mnemonic
  | loadI => "loadI".toList
  | move => "i2i".toList
  | jump => "jumpI".toList
  | branch => "cbr".toList
  | unassigned => "unknown".toList

/-- The opcode with the given mnemonic. -/
def ofName? (name : Text) : Option Opcode :=
  all.find? fun opcode => opcode.name = name

/-- The opcode at a place of the fixed order; past its end there is only `unassigned`. -/
def ofIndex (i : Nat) : Opcode :=
  all[i]?.getD unassigned

/-- Whether an operation of this kind combines two registers. -/
def isBinary : Opcode → Bool
  | binary _ => true
  | _ => false

/-- Whether an operation of this kind combines a register and an immediate value. -/
def isBinaryI : Opcode → Bool
  | binaryI _ => true
  | _ => false

end Opcode

/-- An operation in the fixed format. -/
structure Operation where
  opcode : Opcode
  lhs : Register := .global 0
  rhs : Register := .global 0
  out : Register := .global 0
  imm : Int32 := 0
  label : Label := .numbered 0
  labelFalse : Label := .numbered 0
deriving DecidableEq, Repr

/-- An operation of any kind on three registers. -/
def Operation.ofRegisters (opcode : Opcode) (lhs rhs out : Register) : Operation :=
  { opcode, lhs, rhs, out }

/-- An operation of any kind on a register, an immediate value and a register. -/
def Operation.ofImmediate (opcode : Opcode) (lhs : Register) (imm : Int32) (out : Register) :
    Operation :=
  { opcode, lhs, imm, out }

/-- The instruction that an operation stands for. -/
def Operation.decode (op : Operation) : Instr :=
  match op.opcode with
  | .label => .label op.label
  | .call => .call op.label
  | .ret => .ret
  | .push => .push op.lhs
  | .pop => .pop op.lhs
  | .pushI => .pushI op.imm
  | .binary operator => .binary operator op.lhs op.rhs op.out
  | .binaryI operator => .binaryI operator op.lhs op.imm op.out
  | .loadI => .loadI op.imm op.out
  | .move => .move op.lhs op.rhs
  | .jump => .jump op.label
  | .branch => .branch op.lhs op.label op.labelFalse
  | .unassigned => .unassigned

/-- The canonical operation of an instruction. -/
def Instr.encode : Instr → Operation
  | .label l => { opcode := .label, label := l }
  | .call target => { opcode := .call, label := target }
  | .ret => { opcode := .ret }
  | .push src => { opcode := .push, lhs := src }
  | .pop dst => { opcode := .pop, lhs := dst }
  | .pushI value => { opcode := .pushI, imm := value }
  | .binary op lhs rhs out => .ofRegisters (.binary op) lhs rhs out
  | .binaryI op lhs imm out => .ofImmediate (.binaryI op) lhs imm out
  | .loadI value out => { opcode := .loadI, imm := value, out }
  | .move src dst => { opcode := .move, lhs := src, rhs := dst }
  | .jump target => { opcode := .jump, label := target }
  | .branch test ifOne ifOther =>
    { opcode := .branch, lhs := test, label := ifOne, labelFalse := ifOther }
  | .unassigned => { opcode := .unassigned }

@[simp] theorem Instr.decode_encode (i : Instr) : i.encode.decode = i := by
  cases i <;> rfl

/-- How an operation is written: only the fields in use are shown. -/
def Operation.text (op : Operation) : Text :=
  op.decode.text

/-- Whether all registers of an operation exist, in use or not. -/
def Operation.inRange (op : Operation) : Bool :=
  op.lhs.inRange && op.rhs.inRange && op.out.inRange

end FrameLang
