import FrameLang.Operator

/-!
# Instructions

The machine has two kinds of registers: global ones, which live in the bottom frame, and ones that
are relative to the activation record, which live in the top frame. Control moves to labels, which
are named (the entries of functions) or numbered (everything else).

## Main definitions

* `Register`, `Label`, `Instr` — what code is made of.
* `Register.text`, `Label.text`, `Instr.text` — how it is written in listings and messages.
-/

namespace FrameLang

/-- The number of slots of a register file. -/
def registerFileSize : Nat := 256

/-- A register. -/
inductive Register where
  | global (addr : UInt32)
  | arp (addr : UInt32)
deriving DecidableEq, Repr

instance : Inhabited Register := ⟨.global 0⟩

namespace Register

/-- The slot that a register names. -/
def addr : Register → UInt32
  | .global a | .arp a => a

/-- Whether the slot exists. -/
def inRange (r : Register) : Bool :=
  r.addr.toNat < registerFileSize

/-- How a register is written. -/
def text : Register → Text
  | .global a => 'g' :: Text.ofNat a.toNat
  | .arp a => "arp+".toList ++ Text.ofNat a.toNat

end Register

/-- A label. -/
inductive Label where
  | named (name : Text)
  | numbered (number : UInt32)
deriving DecidableEq, Repr

instance : Inhabited Label := ⟨.numbered 0⟩

/-- How a label is written. -/
def Label.text : Label → Text
  | .named name => '@' :: name
  | .numbered number => 'L' :: Text.ofNat number.toNat

/-- The operators that take an immediate right operand. -/
inductive ImmOperator where
  | add
  | sub
  | mul
  | div
deriving DecidableEq, Repr

/-- The operator of the same meaning that takes two registers. -/
def ImmOperator.operator : ImmOperator → Operator
  | add => .add
  | sub => .sub
  | mul => .mul
  | div => .div

/-- The mnemonic of an operator on registers. -/
def Operator.mnemonic : Operator → Text
  | add => "add".toList
  | sub => "sub".toList
  | mul => "mult".toList
  | div => "div".toList
  | mod => "mod".toList
  | eq => "cmp_EQ".toList
  | lt => "cmp_LT".toList
  | le => "cmp_LE".toList
  | gt => "cmp_GT".toList
  | ge => "cmp_GE".toList

/-- The mnemonic of an operator with an immediate operand. -/
def ImmOperator.mnemonic (op : ImmOperator) : Text :=
  op.operator.mnemonic ++ ['I']

/-- An instruction. -/
inductive Instr where
  /-- Marks a place in the code and does nothing. -/
  | label (l : Label)
  /-- Opens a new frame and goes to the label. -/
  | call (target : Label)
  /-- Drops the top frame and goes back behind the call that opened it. -/
  | ret
  | push (src : Register)
  | pop (dst : Register)
  | pushI (value : Int32)
  | binary (op : Operator) (lhs rhs out : Register)
  | binaryI (op : ImmOperator) (lhs : Register) (imm : Int32) (out : Register)
  | loadI (value : Int32) (out : Register)
  | move (src dst : Register)
  | jump (target : Label)
  /-- Goes to the first label if the register holds one, and to the second otherwise. -/
  | branch (test : Register) (ifOne ifOther : Label)
  /-- A code that has no meaning; it does nothing. -/
  | unassigned
deriving DecidableEq, Repr

instance : Inhabited Instr := ⟨.unassigned⟩

namespace Instr

/-- Three operands as they are written behind a mnemonic. -/
def operands (lhs rhs out : Text) : Text :=
  ' ' :: lhs ++ [',', ' '] ++ rhs ++ " => ".toList ++ out

/-- How an instruction is written. -/
def text : Instr → Text
  | .label l => l.text ++ [':']
  | .call target => "call -> ".toList ++ target.text
  | .ret => "return".toList
  | .push src => "push ".toList ++ src.text
  | .pop dst => "pop ".toList ++ dst.text
  | .pushI value => "pushI ".toList ++ Text.ofInt value.toInt
  | .binary op lhs rhs out => op.mnemonic ++ operands lhs.text rhs.text out.text
  | .binaryI op lhs imm out =>
    op.mnemonic ++ operands lhs.text (Text.ofInt imm.toInt) out.text
  | .loadI value out => "loadI ".toList ++ Text.ofInt value.toInt ++ " => ".toList ++ out.text
  | .move src dst => "i2i ".toList ++ src.text ++ " => ".toList ++ dst.text
  | .jump target => "jumpI -> ".toList ++ target.text
  | .branch test ifOne ifOther =>
    "cbr ".toList ++ test.text ++ " -> ".toList ++ ifOne.text ++ [',', ' '] ++ ifOther.text
  | .unassigned => "unknown".toList

/-- Whether an instruction marks a place. -/
def isLabel : Instr → Bool
  | .label _ => true
  | _ => false

/-- Whether an instruction marks the place of the given label. -/
def defines (l : Label) : Instr → Bool
  | .label m => m = l
  | _ => false

end Instr

end FrameLang
