import FrameLang.Lowering.Allocation
import FrameLang.Program

/-!
# Lowering programs to code

An expression becomes code together with the register that holds its value when the code has run.
The value of a name or an assignment is held by the register of the name itself; every other
expression has a register of its own. A block has the value of its last line if that is an
expression line.

The body of a function stands where the function is defined and is jumped over there. Arguments are
passed on the operand stack, the first on top, and so is the result.

## Main definitions

* `Expr.lower`, `Line.lower`, `FnDef.lower`, `Statement.lower` — the code of each construct.
* `Program.lower` — the code of a program, with the register of its last expression line.
-/

namespace FrameLang

/-- The surroundings of a line: its scope, and the label that `break` goes to, if there is one. -/
structure Surroundings where
  owner : Owner
  loopEnd : Option Label

/-- Brings the value of a block to `out`; a block without a value counts as zero. -/
def deliver (value : Option Register) (out : Register) : Instr :=
  match value with
  | some src => .move src out
  | none => .loadI 0 out

mutual

/-- The code of an expression and the register of its value. -/
def Expr.lower (s : Surroundings) : Expr → Lower (List Instr × Register)
  | .int _ value => do
    let out ← Lower.register s.owner
    return ([.loadI value out], out)
  | .bool _ value => do
    let out ← Lower.register s.owner
    return ([.loadI (if value then 1 else 0) out], out)
  | .str pos _ => Lower.fail pos .stringLiteral
  | .name _ text => do
    let out ← Lower.named s.owner text
    return ([], out)
  | .assign _ target value => do
    let (code, src) ← value.lower s
    let out ← Lower.named s.owner target
    return (code ++ [.move src out], out)
  | .binary _ op lhs rhs => do
    let (lhsCode, l) ← lhs.lower s
    let (rhsCode, r) ← rhs.lower s
    let out ← Lower.register s.owner
    return (lhsCode ++ rhsCode ++ [.binary op l r out], out)
  | .call _ callee args => do
    let (code, places) ← Expr.lowerAll s args
    let out ← Lower.register s.owner
    return (code ++ places.reverse.map .push ++ [.call (.named callee), .pop out], out)
  | .branch _ test thenBlock elseBlock => do
    let out ← Lower.register s.owner
    let (testCode, t) ← test.lower s
    let thenLabel ← Lower.label
    let endLabel ← Lower.label
    let elseLabel ← Lower.label
    let (thenCode, thenValue) ← Line.lowerAll s none thenBlock
    let (elseCode, elseValue) ← Line.lowerElse s elseBlock
    return (testCode ++ [.branch t thenLabel elseLabel] ++
      (.label thenLabel :: thenCode ++ [deliver thenValue out, .jump endLabel]) ++
      (.label elseLabel :: elseCode ++ [deliver elseValue out, .jump endLabel]) ++
      [.label endLabel], out)
  | .malformed pos (.binary none) [lhs, rhs] _ _ => do
    let _ ← lhs.lower s
    let _ ← rhs.lower s
    Lower.fail pos .unknownOperator
  | .malformed pos (.binary _) _ _ _ => Lower.fail pos .malformedBinary
  | .malformed pos (.assign _) _ _ _ => Lower.fail pos .malformedAssignment
  | .malformed pos .branch _ _ _ => Lower.fail pos .malformedBranch
  | .malformed pos .other _ _ _ => Lower.fail pos .unknownExpression

/-- The code of several expressions, one after another, and the registers of their values. -/
def Expr.lowerAll (s : Surroundings) : List Expr → Lower (List Instr × List Register)
  | [] => return ([], [])
  | e :: rest => do
    let (code, place) ← e.lower s
    let (restCode, places) ← Expr.lowerAll s rest
    return (code ++ restCode, place :: places)

/-- The code of a line and the register of its value, if it is an expression line. -/
def Line.lower (s : Surroundings) : Line → Lower (List Instr × Option Register)
  | .expr _ e => do
    let (code, place) ← e.lower s
    return (code, some place)
  | .loop _ body => do
    let startLabel ← Lower.label
    let endLabel ← Lower.label
    let (code, _) ← Line.lowerAll { s with loopEnd := some endLabel } none body
    return (.label startLabel :: code ++ [.jump startLabel, .label endLabel], none)
  | .brk pos =>
    match s.loopEnd with
    | some target => return ([.jump target], none)
    | none => Lower.fail pos .breakOutsideLoop
  | .other pos => Lower.fail pos .unknownLine

/-- The code of a block and the register of its value. A block without lines has the given value. -/
def Line.lowerAll (s : Surroundings) (value : Option Register) :
    List Line → Lower (List Instr × Option Register)
  | [] => return ([], value)
  | l :: rest => do
    let (code, value) ← l.lower s
    let (restCode, value) ← Line.lowerAll s value rest
    return (code ++ restCode, value)

/-- The code of an else branch and the register of its value. -/
def Line.lowerElse (s : Surroundings) : Option (List Line) → Lower (List Instr × Option Register)
  | none => return ([], none)
  | some block => Line.lowerAll s none block

end

/-- Takes the arguments of a function from the operand stack. -/
def lowerParams (owner : Owner) : List Text → Lower (List Instr)
  | [] => return []
  | param :: rest => do
    let place ← Lower.named owner param
    let code ← lowerParams owner rest
    return .pop place :: code

/-- The code of a function, from its entry to its return. -/
def FnDef.lowerBody (f : FnDef) : Lower (List Instr) := do
  let params ← lowerParams (.function f.name) f.params
  let (code, value) ← Line.lowerAll ⟨.function f.name, none⟩ none f.block
  match value with
  | some place => return params ++ code ++ [.push place, .ret]
  | none => Lower.fail f.pos (.noValue f.name)

/-- The code of a function definition: a jump over the function, its entry, and its body. -/
def FnDef.lower (f : FnDef) : Lower (List Instr) := do
  let skip ← Lower.label
  let body ← Lower.inNewScope f.lowerBody
  return [.jump skip, .label (.named f.name)] ++ body ++ [.label skip]

/-- The code of a statement and the register of its value, if it is an expression line. -/
def Statement.lower : Statement → Lower (List Instr × Option Register)
  | .fn f => do return (← f.lower, none)
  | .line l => l.lower ⟨.topLevel, none⟩

/-- The code of a program, and the register of its last expression line or else of `result`. -/
def Program.lower (result : Option Register) : Program → Lower (List Instr × Option Register)
  | [] => return ([], result)
  | statement :: rest => do
    let (code, value) ← statement.lower
    let (restCode, result) ← Program.lower (value.or result) rest
    return (code ++ restCode, result)

end FrameLang
