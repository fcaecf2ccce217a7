import FrameLang.Lowering.CallSite
import FrameLang.Machine.State
import Mathlib.Algebra.Group.Int.Defs

/-!
# The meaning of programs

Programs are interpreted directly on their trees. Every activation of a function has variables of
its own, all zero at first, and so has the top level; nothing else is shared but the operand stack,
on which arguments and results are passed.

An expression denotes a *place*, and the place is read where the value is used: a name or an
assignment denotes the variable itself, so that later assignments show, and any other expression a
temporary that keeps its value.

A program need not come to an end. Only loops can go on forever, because the number of active calls
is limited, so the interpreter takes a bound on the rounds of each loop and is unfinished if one of
them needs more.

## Main definitions

* `Expr.Place`, `World`, `Ending` — places, the state of an activation, and how a computation ends.
* `Expr.eval`, `Line.eval`, `FnDef.eval` — the meaning of each construct.
* `Program.interpret` — the meaning of a program.
-/

namespace FrameLang

/-- What an expression denotes. -/
inductive Expr.Place where
  | named (x : Text)
  | temporary (value : Int32)
deriving DecidableEq, Repr

/-- The value at a place. -/
def Expr.Place.value (env : Text → Int32) : Expr.Place → Int32
  | .named x => env x
  | .temporary value => value

/-- The variables of an activation, and the operand stack. -/
structure World where
  env : Text → Int32
  operands : Array Int32

/-- How a computation ends. -/
inductive Ending (α : Type) where
  | done (result : α) (w : World)
  /-- A `break` was met; the loop around it goes on from here. -/
  | broken (w : World)
  | faulted (kind : FaultKind)
  /-- A loop needs more rounds, or a construct without meaning was met. -/
  | unfinished

/-- Computations in an activation. -/
def Exec (α : Type) := World → Ending α

namespace Exec

/-- Goes on with `f` if `x` is done. -/
def bind {α β : Type} (x : Exec α) (f : α → Exec β) : Exec β := fun w =>
  match x w with
  | .done result w => f result w
  | .broken w => .broken w
  | .faulted kind => .faulted kind
  | .unfinished => .unfinished

instance : Monad Exec where
  pure result := fun w => .done result w
  bind := bind

/-- Fails. -/
def fault {α : Type} (kind : FaultKind) : Exec α := fun _ => .faulted kind

/-- Gives no answer. -/
def unfinished {α : Type} : Exec α := fun _ => .unfinished

/-- Leaves the loop. -/
def leave {α : Type} : Exec α := fun w => .broken w

/-- Reads a place. -/
def read (place : Expr.Place) : Exec Int32 := fun w => .done (place.value w.env) w

/-- Gives a variable a value. -/
def assign (x : Text) (value : Int32) : Exec Unit := fun w =>
  .done () { w with env := fun y => if y = x then value else w.env y }

/-- Puts a value on the operand stack. -/
def push (value : Int32) : Exec Unit := fun w =>
  if w.operands.size < maxOperands then .done () { w with operands := w.operands.push value }
  else .faulted .resourceExhausted

/-- Takes a value from the operand stack. -/
def pop : Exec Int32 := fun w =>
  match w.operands.back? with
  | some value => .done value { w with operands := w.operands.pop }
  | none => .faulted .stackUnderflow

/-- Repeats `body` until it leaves the loop, for at most `rounds` rounds. -/
def iterate {α : Type} (body : Exec α) : (rounds : Nat) → Exec Unit
  | 0 => unfinished
  | rounds + 1 => fun w =>
    match body w with
    | .done _ w => body.iterate rounds w
    | .broken w => .done () w
    | .faulted kind => .faulted kind
    | .unfinished => .unfinished

/-- Runs `body` with variables of its own. -/
def inNewActivation {α : Type} (body : Exec α) : Exec α := fun w =>
  match body ⟨fun _ => 0, w.operands⟩ with
  | .done result v => .done result ⟨w.env, v.operands⟩
  | .faulted kind => .faulted kind
  | .broken _ | .unfinished => .unfinished

end Exec

/-- The value of an operator, if it has one. Sums, differences and products are taken modulo the
word size, quotients and remainders toward zero; truth values are one and zero. -/
def Operator.value? (a b : Int32) : Operator → Option Int32
  | add => some (.ofInt (a.toInt + b.toInt))
  | sub => some (.ofInt (a.toInt - b.toInt))
  | mul => some (.ofInt (a.toInt * b.toInt))
  | div => if Defined a b then some (.ofInt (a.toInt.tdiv b.toInt)) else none
  | mod => if Defined a b then some (.ofInt (a.toInt.tmod b.toInt)) else none
  | eq => some (if a.toInt = b.toInt then 1 else 0)
  | lt => some (if a.toInt < b.toInt then 1 else 0)
  | le => some (if a.toInt ≤ b.toInt then 1 else 0)
  | gt => some (if b.toInt < a.toInt then 1 else 0)
  | ge => some (if b.toInt ≤ a.toInt then 1 else 0)
where
  /-- The divisor is not zero, and the quotient is a word. -/
  Defined (a b : Int32) : Bool :=
    b.toInt ≠ 0 ∧ a.toInt.tdiv b.toInt < 2 ^ 31

/-- The value of an operator, or a fault. -/
def Exec.compute (op : Operator) (a b : Int32) : Exec Int32 :=
  match op.value? a b with
  | some value => pure value
  | none => fault .arithmetic

/-- Puts the values at places on the operand stack, one after another. -/
def Exec.pushAll : List Expr.Place → Exec Unit
  | [] => pure ()
  | place :: rest => do
    Exec.push (← Exec.read place)
    Exec.pushAll rest

/-- The value of a block, which is zero if it has none. -/
def Exec.readBlock : Option Expr.Place → Exec Int32
  | some place => Exec.read place
  | none => pure 0

mutual

/-- The place that an expression denotes. Calls are made by `invoke`, and loops have at most
`rounds` rounds. -/
def Expr.eval (invoke : Text → Exec Unit) (rounds : Nat) : Expr → Exec Expr.Place
  | .int _ value => pure (.temporary value)
  | .bool _ value => pure (.temporary (if value then 1 else 0))
  | .name _ x => pure (.named x)
  | .assign _ x value => do
    let place ← value.eval invoke rounds
    Exec.assign x (← Exec.read place)
    return .named x
  | .binary _ op lhs rhs => do
    let l ← lhs.eval invoke rounds
    let r ← rhs.eval invoke rounds
    return .temporary (← Exec.compute op (← Exec.read l) (← Exec.read r))
  | .call _ callee args => do
    let places ← Expr.evalAll invoke rounds args
    Exec.pushAll places.reverse
    invoke callee
    return .temporary (← Exec.pop)
  | .branch _ test thenBlock elseBlock => do
    let place ← test.eval invoke rounds
    if (← Exec.read place) = 1 then
      let value ← Line.evalAll invoke rounds none thenBlock
      return .temporary (← Exec.readBlock value)
    else
      let value ← Line.evalElse invoke rounds elseBlock
      return .temporary (← Exec.readBlock value)
  | .str .. | .malformed .. => Exec.unfinished

/-- The places that several expressions denote, evaluated from left to right. -/
def Expr.evalAll (invoke : Text → Exec Unit) (rounds : Nat) : List Expr → Exec (List Expr.Place)
  | [] => pure []
  | e :: rest => do
    let place ← e.eval invoke rounds
    let places ← Expr.evalAll invoke rounds rest
    return place :: places

/-- The place that a line denotes, if it is an expression line. -/
def Line.eval (invoke : Text → Exec Unit) (rounds : Nat) : Line → Exec (Option Expr.Place)
  | .expr _ e => do
    let place ← e.eval invoke rounds
    return some place
  | .loop _ body => do
    (Line.evalAll invoke rounds none body).iterate rounds
    return none
  | .brk _ => Exec.leave
  | .other _ => Exec.unfinished

/-- The place that a block denotes: that of its last line, or the given one if it has no lines. -/
def Line.evalAll (invoke : Text → Exec Unit) (rounds : Nat) (place : Option Expr.Place) :
    List Line → Exec (Option Expr.Place)
  | [] => pure place
  | l :: rest => do
    let place ← l.eval invoke rounds
    Line.evalAll invoke rounds place rest

/-- The place that an else branch denotes. -/
def Line.evalElse (invoke : Text → Exec Unit) (rounds : Nat) :
    Option (List Line) → Exec (Option Expr.Place)
  | none => pure none
  | some block => Line.evalAll invoke rounds none block

end

/-- Takes the arguments of a function from the operand stack, the first from the top. -/
def Exec.takeArguments : List Text → Exec Unit
  | [] => pure ()
  | x :: rest => do
    Exec.assign x (← Exec.pop)
    Exec.takeArguments rest

/-- An activation of a function: it takes its arguments and leaves its result on the stack. -/
def FnDef.eval (f : FnDef) (invoke : Text → Exec Unit) (rounds : Nat) : Exec Unit := do
  Exec.takeArguments f.params
  match ← Line.evalAll invoke rounds none f.block with
  | some place => Exec.push (← Exec.read place)
  | none => Exec.unfinished

/-- A call to the function that a name means, while at most `depth` more calls may become active. -/
def Program.invoke (p : Program) (rounds : Nat) : (depth : Nat) → Text → Exec Unit
  | 0, x =>
    match p.function? x with
    | none => Exec.fault .labelResolution
    | some _ => Exec.fault .resourceExhausted
  | depth + 1, x =>
    match p.function? x with
    | none => Exec.fault .labelResolution
    | some f => Exec.inNewActivation (f.eval (p.invoke rounds depth) rounds)

/-- The place that the last expression line denotes, or else the given one. Definitions do
nothing where they stand. -/
def Program.evalFrom (invoke : Text → Exec Unit) (rounds : Nat) (last : Option Expr.Place) :
    Program → Exec (Option Expr.Place)
  | [] => pure last
  | .fn _ :: rest => Program.evalFrom invoke rounds last rest
  | .line l :: rest => do
    let place ← l.eval invoke rounds
    Program.evalFrom invoke rounds (place.or last) rest

/-- The meaning of a program: the value of its last expression line, read when all are done. -/
def Program.interpret (p : Program) (rounds : Nat) : Ending (Option Int32) :=
  let run : Exec (Option Int32) := do
    match ← Program.evalFrom (p.invoke rounds maxCallDepth) rounds none p with
    | some place => return some (← Exec.read place)
    | none => return none
  run ⟨fun _ => 0, #[]⟩

/-! ## Operators of the machine -/

/-- The quotient of two words is a word except for one pair of words. -/
theorem Operator.value?.defined_iff (a b : Int32) :
    Operator.value?.Defined a b = true ↔ b ≠ 0 ∧ ¬ (a = Int32.minValue ∧ b = -1) := by
  have hle := a.le_toInt
  have hlt := a.toInt_lt
  have hb : b.toInt ≠ 0 ↔ b ≠ 0 := by
    rw [← Int32.toInt_zero, ne_eq, ne_eq, Int32.toInt_inj]
  have hneg : a.toInt = -2 ^ 31 ∧ b.toInt = -1 ↔ a = Int32.minValue ∧ b = -1 := by
    rw [← Int32.toInt_inj, ← Int32.toInt_inj]
    exact Iff.rfl
  simp only [Operator.value?.Defined, decide_eq_true_eq, hb, ← hneg]
  refine and_congr_right fun hb' => ?_
  have hb₀ := hb.2 hb'
  constructor
  · rintro hq ⟨ha, hone⟩
    rw [ha, hone] at hq
    exact absurd hq (by decide)
  · intro hne
    rcases Int.lt_or_le (a.toInt.tdiv b.toInt) (2 ^ 31) with hq | hq
    · exact hq
    · -- The quotient is as large as any dividend, so the divisor is one or minus one.
      have habs : (a.toInt.tdiv b.toInt).natAbs = a.toInt.natAbs / b.toInt.natAbs :=
        Int.natAbs_tdiv _ _
      have hone : b.toInt.natAbs < 2 := by
        refine Nat.lt_of_not_le fun htwo => ?_
        have hhalf := Nat.div_le_div_left htwo (by decide) (a := a.toInt.natAbs)
        omega
      rcases (by omega : b.toInt = 1 ∨ b.toInt = -1) with hb₁ | hb₁
      · rw [hb₁, Int.tdiv_one] at hq
        omega
      · rw [hb₁, Int.tdiv_neg, Int.tdiv_one] at hq
        exact absurd ⟨by omega, hb₁⟩ hne

section Values

variable {op : Operator} {a b v : Int32}

theorem Operator.eval_eq_ok (h : op.value? a b = some v) : op.eval a b = .ok v := by
  have ha₁ := a.minValue_le_toInt
  have ha₂ := a.toInt_le
  have hb₁ := b.minValue_le_toInt
  have hb₂ := b.toInt_le
  cases op with
  | add | sub | mul => simpa [Operator.value?, Operator.eval] using h
  | eq | lt | le | gt | ge =>
    simpa [Operator.value?, Operator.eval, truthWord, Int32.toInt_inj, Int32.lt_iff_toInt_lt,
      Int32.le_iff_toInt_le] using h
  | div =>
    simp only [Operator.value?, Option.ite_none_right_eq_some, Option.some.injEq] at h
    obtain ⟨hd, rfl⟩ := h
    obtain ⟨hb, hne⟩ := (Operator.value?.defined_iff a b).1 hd
    rw [Int32.ofInt_tdiv ha₁ ha₂ hb₁ hb₂]
    simp [Operator.eval, divide, hb, hne]
  | mod =>
    simp only [Operator.value?, Option.ite_none_right_eq_some, Option.some.injEq] at h
    obtain ⟨hd, rfl⟩ := h
    obtain ⟨hb, hne⟩ := (Operator.value?.defined_iff a b).1 hd
    rw [Int32.ofInt_tmod ha₁ ha₂ hb₁ hb₂]
    simp [Operator.eval, divide, hb, hne]

theorem Operator.eval_eq_error (h : op.value? a b = none) :
    ∃ f, op.eval a b = .error f ∧ f.kind = .arithmetic := by
  cases op with
  | div | mod =>
    simp only [Operator.value?, ite_eq_right_iff, reduceCtorEq, imp_false,
      Operator.value?.defined_iff] at h
    simp only [Operator.eval, divide]
    by_cases hb : b = 0
    · exact ⟨.divisionByZero, by simp [hb], rfl⟩
    · refine ⟨.divisionOverflow, ?_, rfl⟩
      have hmin : a = Int32.minValue ∧ b = -1 := Classical.not_not.1 fun hne => h ⟨hb, hne⟩
      rw [if_neg hb, if_pos hmin]
  | _ => cases h

end Values

end FrameLang
