import FrameLang.Lowering.Allocation
import FrameLang.Program

/-!
# Calls and definitions

A name means the function that is defined last under it, wherever the call stands. Calls can be
checked against that definition; without a check, callers and functions agree on the number of
arguments only by what they put on the operand stack and take from it.

## Main definitions

* `Program.callSites` — the calls in a program.
* `Program.function?` — the function that a name means.
* `Program.callError?` — what is wrong with the first call that is wrong.
-/

namespace FrameLang

/-- A call: where it stands, the function it names, and the number of its arguments. -/
structure CallSite where
  pos : Pos
  callee : Text
  args : Nat
deriving DecidableEq, Repr

mutual

/-- The calls in an expression, those in arguments before the call itself. -/
def Expr.callSites : Expr → List CallSite
  | .int .. | .str .. | .bool .. | .name .. => []
  | .assign _ _ value => value.callSites
  | .binary _ _ lhs rhs => lhs.callSites ++ rhs.callSites
  | .call pos callee args => Expr.allCallSites args ++ [⟨pos, callee, args.length⟩]
  | .branch _ test thenBlock elseBlock =>
    test.callSites ++ Line.allCallSites thenBlock ++ Line.elseCallSites elseBlock
  | .malformed _ _ parts thenBlock elseBlock =>
    Expr.allCallSites parts ++ Line.allCallSites thenBlock ++ Line.elseCallSites elseBlock

/-- The calls in several expressions. -/
def Expr.allCallSites : List Expr → List CallSite
  | [] => []
  | e :: rest => e.callSites ++ Expr.allCallSites rest

/-- The calls in a line. -/
def Line.callSites : Line → List CallSite
  | .expr _ e => e.callSites
  | .loop _ body => Line.allCallSites body
  | .brk _ | .other _ => []

/-- The calls in a block. -/
def Line.allCallSites : List Line → List CallSite
  | [] => []
  | l :: rest => l.callSites ++ Line.allCallSites rest

/-- The calls in an else branch. -/
def Line.elseCallSites : Option (List Line) → List CallSite
  | none => []
  | some block => Line.allCallSites block

end

/-- The calls in a statement. -/
def Statement.callSites : Statement → List CallSite
  | .fn f => Line.allCallSites f.block
  | .line l => l.callSites

/-- The calls in a program, in the order in which they are lowered. -/
def Program.callSites (p : Program) : List CallSite :=
  p.flatMap Statement.callSites

/-- The definitions of a program. -/
def Program.functions (p : Program) : List FnDef :=
  p.filterMap fun
    | .fn f => some f
    | .line _ => none

/-- The function that a name means: its last definition. -/
def Program.function? (p : Program) (name : Text) : Option FnDef :=
  p.functions.reverse.find? fun f => f.name = name

/-- What is wrong with a call, if anything. -/
def CallSite.error? (p : Program) (site : CallSite) : Option LowerError :=
  match p.function? site.callee with
  | none => some (.located site.pos (.undefinedFunction site.callee))
  | some f =>
    if f.params.length = site.args then none
    else some (.located site.pos (.arity site.callee f.params.length site.args))

/-- What is wrong with the first call that is wrong. -/
def Program.callError? (p : Program) : Option LowerError :=
  p.callSites.findSome? (CallSite.error? p)

end FrameLang
