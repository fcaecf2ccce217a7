import FrameLang.Instr

/-!
# Faults and arithmetic

Words have 32 bits and a sign. Sums, differences and products wrap around; quotients and remainders
are taken toward zero and fail where they have no value.
-/

namespace FrameLang

/-- The kinds of faults. -/
inductive FaultKind where
  | labelResolution
  | stackUnderflow
  | frameUnderflow
  | arithmetic
  | resourceExhausted
deriving DecidableEq, Repr

namespace FaultKind

/-- Every kind, in the fixed order. -/
def all : List FaultKind :=
  [labelResolution, stackUnderflow, frameUnderflow, arithmetic, resourceExhausted]

/-- The name of a kind. -/
def name : FaultKind → Text
  | labelResolution => "label resolution".toList
  | stackUnderflow => "stack underflow".toList
  | frameUnderflow => "frame underflow".toList
  | arithmetic => "arithmetic".toList
  | resourceExhausted => "resource exhausted".toList

/-- The name of a kind, or of there being no fault. -/
def nameOf : Option FaultKind → Text
  | none => "none".toList
  | some kind => kind.name

/-- The name at a place of the fixed order, which begins with there being no fault. -/
def nameAt (i : Nat) : Text :=
  ((none :: all.map some)[i]?.map nameOf).getD "unknown".toList

end FaultKind

/-- Why an instruction cannot be executed. -/
inductive Fault where
  | undefinedCall (target : Label)
  | undefinedJump (target : Label)
  | undefinedBranch (target : Label)
  | callDepth
  | operandLimit
  | emptyOperands
  | noActiveCall
  | divisionByZero
  | divisionOverflow
deriving DecidableEq, Repr

namespace Fault

/-- The kind of a fault. -/
def kind : Fault → FaultKind
  | undefinedCall _ | undefinedJump _ | undefinedBranch _ => .labelResolution
  | callDepth | operandLimit => .resourceExhausted
  | emptyOperands => .stackUnderflow
  | noActiveCall => .frameUnderflow
  | divisionByZero | divisionOverflow => .arithmetic

/-- The wording of a fault. -/
def message : Fault → Text
  | undefinedCall target => "call to undefined label ".toList ++ target.text
  | undefinedJump target => "jump to undefined label ".toList ++ target.text
  | undefinedBranch target => "branch to undefined label ".toList ++ target.text
  | callDepth => "call depth limit exceeded".toList
  | operandLimit => "operand stack limit exceeded".toList
  | emptyOperands => "pop on empty operand stack".toList
  | noActiveCall => "return with no active call".toList
  | divisionByZero => "division by zero".toList
  | divisionOverflow => "division overflow".toList

end Fault

/-- The word that stands for a truth value. -/
def truthWord (b : Bool) : Int32 :=
  if b then 1 else 0

/-- A division, which fails on a zero divisor and where the quotient does not fit a word. -/
def divide (op : Int32 → Int32 → Int32) (a b : Int32) : Except Fault Int32 :=
  if b = 0 then .error .divisionByZero
  else if a = Int32.minValue ∧ b = -1 then .error .divisionOverflow
  else .ok (op a b)

/-- The value of an operator. -/
def Operator.eval (a b : Int32) : Operator → Except Fault Int32
  | add => .ok (a + b)
  | sub => .ok (a - b)
  | mul => .ok (a * b)
  | div => divide (· / ·) a b
  | mod => divide (· % ·) a b
  | eq => .ok (truthWord (a = b))
  | lt => .ok (truthWord (a < b))
  | le => .ok (truthWord (a ≤ b))
  | gt => .ok (truthWord (b < a))
  | ge => .ok (truthWord (b ≤ a))

end FrameLang
