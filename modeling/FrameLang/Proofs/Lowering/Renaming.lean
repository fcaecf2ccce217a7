import FrameLang.Lowering.Build
import Mathlib.Data.List.Find
import Mathlib.Data.Set.Function

/-!
# Building does not depend on the names of functions

A name of a function stands in definitions, calls, labels and messages. If the functions of a
program are renamed consistently, then the program can be built exactly if it could be before, and
otherwise it fails for the same reason, at the same place, with the new names in the message.

## Main definitions

* `Program.renamed`, `LowerError.renamed` — a program or an error with other names for its
  functions.
* `SameOutcome`, `Lower.Alike` — two results, or two computations, that succeed or fail alike.
-/

namespace FrameLang

variable (ρ : Text → Text)

mutual

/-- An expression with other names for the functions that it calls. -/
def Expr.renamed : Expr → Expr
  | .int pos value => .int pos value
  | .str pos text => .str pos text
  | .bool pos value => .bool pos value
  | .name pos text => .name pos text
  | .assign pos target value => .assign pos target value.renamed
  | .binary pos op lhs rhs => .binary pos op lhs.renamed rhs.renamed
  | .call pos callee args => .call pos (ρ callee) (Expr.renamedAll args)
  | .branch pos test thenBlock elseBlock =>
    .branch pos test.renamed (Line.renamedAll thenBlock) (Line.renamedElse elseBlock)
  | .malformed pos form parts thenBlock elseBlock =>
    .malformed pos form (Expr.renamedAll parts) (Line.renamedAll thenBlock)
      (Line.renamedElse elseBlock)

/-- Several expressions with other names for the functions that they call. -/
def Expr.renamedAll : List Expr → List Expr
  | [] => []
  | e :: rest => e.renamed :: Expr.renamedAll rest

/-- A line with other names for the functions that it calls. -/
def Line.renamed : Line → Line
  | .expr pos e => .expr pos e.renamed
  | .loop pos body => .loop pos (Line.renamedAll body)
  | .brk pos => .brk pos
  | .other pos => .other pos

/-- A block with other names for the functions that it calls. -/
def Line.renamedAll : List Line → List Line
  | [] => []
  | l :: rest => l.renamed :: Line.renamedAll rest

/-- An else branch with other names for the functions that it calls. -/
def Line.renamedElse : Option (List Line) → Option (List Line)
  | none => none
  | some block => some (Line.renamedAll block)

end

/-- A definition with another name, and other names for the functions that it calls. -/
def FnDef.renamed (f : FnDef) : FnDef :=
  { f with name := ρ f.name, block := Line.renamedAll ρ f.block }

/-- A statement with other names for functions. -/
def Statement.renamed : Statement → Statement
  | .fn f => .fn (f.renamed ρ)
  | .line l => .line (l.renamed ρ)

/-- A program with other names for its functions. -/
def Program.renamed (p : Program) : Program :=
  p.map (Statement.renamed ρ)

/-- The names of functions in a program: of those that it defines and of those that it calls. -/
def Program.functionNames (p : Program) : List Text :=
  p.functions.map FnDef.name ++ p.callSites.map CallSite.callee

/-! ## Errors -/

/-- A scope with another name for its function. -/
def Owner.renamed : Owner → Owner
  | topLevel => topLevel
  | function name => function (ρ name)

/-- A cause with another name for its function. -/
def LowerCause.renamed : LowerCause → LowerCause
  | noValue name => noValue (ρ name)
  | undefinedFunction name => undefinedFunction (ρ name)
  | arity name params args => arity (ρ name) params args
  | cause => cause

/-- An error with another name for its function. -/
def LowerError.renamed : LowerError → LowerError
  | located pos cause => located pos (cause.renamed ρ)
  | exhausted owner => exhausted (owner.renamed ρ)

/-- The surroundings of a line with another name for the function around it. -/
def Surroundings.renamed (s : Surroundings) : Surroundings :=
  { s with owner := s.owner.renamed ρ }

theorem Owner.register_renamed (owner : Owner) (n : Nat) :
    (owner.renamed ρ).register n = owner.register n := by
  cases owner <;> rfl

/-! ## Computations -/

/-- Both succeed with related results, or both fail with related errors. -/
inductive SameOutcome {ε α β : Type} (E : ε → ε → Prop) (R : α → β → Prop) :
    Except ε α → Except ε β → Prop
  | ok {r : α} {r' : β} : R r r' → SameOutcome E R (.ok r) (.ok r')
  | error {e e' : ε} : E e e' → SameOutcome E R (.error e) (.error e')

namespace Lower

variable {ρ} {α β γ δ : Type} {R : α → β → Prop} {S : γ → δ → Prop}

/-- The computations hand out the same and their results are related, or both fail, for the same
reason up to the names of functions. -/
def Alike (ρ : Text → Text) (R : α → β → Prop) (x : Lower α) (y : Lower β) : Prop :=
  ∀ a, SameOutcome (fun e e' => e' = e.renamed ρ) (fun r r' => R r.1 r'.1 ∧ r.2 = r'.2) (x a) (y a)

namespace Alike

variable {x : Lower α} {y : Lower β} {f : α → Lower γ} {g : β → Lower δ}

theorem pure {r : α} {r' : β} (h : R r r') : Alike ρ R (Pure.pure r) (Pure.pure r') :=
  fun _ => .ok ⟨h, rfl⟩

/-- Computations that go on alike behind related results. -/
theorem bind (h : Alike ρ R x y) (hf : ∀ r r', R r r' → Alike ρ S (f r) (g r')) :
    Alike ρ S (x >>= f) (y >>= g) := by
  intro a
  have ha := h a
  simp only [Bind.bind, StateT.bind, Except.bind]
  generalize x a = u, y a = v at ha
  cases ha with
  | error he => exact .error he
  | @ok r r' hr =>
    obtain ⟨r, b⟩ := r
    obtain ⟨r', b'⟩ := r'
    obtain ⟨hr, rfl⟩ := hr
    exact hf r r' hr b

theorem fail (pos : Pos) (cause : LowerCause) :
    Alike ρ R (Lower.fail pos cause) (Lower.fail pos (cause.renamed ρ)) :=
  fun _ => .error rfl

theorem label : Alike ρ Eq Lower.label Lower.label :=
  fun _ => .ok ⟨rfl, rfl⟩

theorem register (owner : Owner) :
    Alike ρ Eq (Lower.register owner) (Lower.register (owner.renamed ρ)) := by
  intro a
  by_cases h : a.registers < registerFileSize
  · simp only [Lower.register, h, if_true, Owner.register_renamed]
    exact .ok ⟨rfl, rfl⟩
  · simp only [Lower.register, h, if_false]
    exact .error rfl

theorem named (owner : Owner) (x : Text) :
    Alike ρ Eq (Lower.named owner x) (Lower.named (owner.renamed ρ) x) := by
  intro a
  have hregister := register (ρ := ρ) owner a
  cases hx : a.names.lookup x with
  | some n =>
    simp only [Lower.named, hx, Owner.register_renamed]
    exact .ok ⟨rfl, rfl⟩
  | none =>
    simp only [Lower.named, hx, Bind.bind, Except.bind]
    generalize Lower.register owner a = u, Lower.register (owner.renamed ρ) a = v at hregister
    cases hregister with
    | error he => exact .error he
    | ok hr => exact .ok ⟨hr.1, by rw [hr.2]⟩

theorem inNewScope (h : Alike ρ R x y) : Alike ρ R (Lower.inNewScope x) (Lower.inNewScope y) := by
  intro a
  have ha := h { labels := a.labels }
  simp only [Lower.inNewScope, Bind.bind, Except.bind]
  generalize x { labels := a.labels } = u, y { labels := a.labels } = v at ha
  cases ha with
  | error he => exact .error he
  | ok hr => exact .ok ⟨hr.1, by rw [hr.2]⟩

end Alike

/-- The same register or no register, whatever the code. -/
abbrev SameValue {α : Type} (r r' : List Instr × α) : Prop :=
  r.2 = r'.2

end Lower

/-! ## Code -/

section Code

open Lower (Alike SameValue)

mutual

theorem Expr.lower_alike (s : Surroundings) : (e : Expr) →
    Alike ρ SameValue (e.lower s) ((e.renamed ρ).lower (s.renamed ρ))
  | .int .. | .bool .. => (Alike.register s.owner).bind fun _ _ h => .pure h
  | .str pos _ => .fail pos .stringLiteral
  | .name _ x => (Alike.named s.owner x).bind fun _ _ h => .pure h
  | .assign _ target value =>
    (value.lower_alike s).bind fun _ _ _ =>
      (Alike.named s.owner target).bind fun _ _ h => .pure h
  | .binary _ _ lhs rhs =>
    (lhs.lower_alike s).bind fun _ _ _ => (rhs.lower_alike s).bind fun _ _ _ =>
      (Alike.register s.owner).bind fun _ _ h => .pure h
  | .call _ _ args =>
    (Expr.lowerAll_alike s args).bind fun _ _ _ =>
      (Alike.register s.owner).bind fun _ _ h => .pure h
  | .branch _ test thenBlock elseBlock =>
    (Alike.register s.owner).bind fun _ _ h => (test.lower_alike s).bind fun _ _ _ =>
      Alike.label.bind fun _ _ _ => Alike.label.bind fun _ _ _ => Alike.label.bind fun _ _ _ =>
        (Line.lowerAll_alike s none thenBlock).bind fun _ _ _ =>
          (Line.lowerElse_alike s elseBlock).bind fun _ _ _ => .pure h
  | .malformed pos (.binary none) [lhs, rhs] _ _ =>
    (lhs.lower_alike s).bind fun _ _ _ => (rhs.lower_alike s).bind fun _ _ _ =>
      .fail pos .unknownOperator
  | .malformed pos (.binary none) [] _ _ | .malformed pos (.binary none) [_] _ _
  | .malformed pos (.binary none) (_ :: _ :: _ :: _) _ _
  | .malformed pos (.binary (some _)) _ _ _ => .fail pos .malformedBinary
  | .malformed pos (.assign _) _ _ _ => .fail pos .malformedAssignment
  | .malformed pos .branch _ _ _ => .fail pos .malformedBranch
  | .malformed pos .other _ _ _ => .fail pos .unknownExpression

theorem Expr.lowerAll_alike (s : Surroundings) : (es : List Expr) →
    Alike ρ SameValue (Expr.lowerAll s es) (Expr.lowerAll (s.renamed ρ) (Expr.renamedAll ρ es))
  | [] => .pure rfl
  | e :: rest =>
    (e.lower_alike s).bind fun (_, place) (_, _) h => by
      cases h
      exact (Expr.lowerAll_alike s rest).bind fun _ _ h => .pure (congrArg (List.cons place) h)

theorem Line.lower_alike (s : Surroundings) : (l : Line) →
    Alike ρ SameValue (l.lower s) ((l.renamed ρ).lower (s.renamed ρ))
  | .expr _ e => (e.lower_alike s).bind fun _ _ h => .pure (congrArg some h)
  | .loop _ body =>
    Alike.label.bind fun _ _ _ => Alike.label.bind fun endLabel _ h => by
      subst h
      exact (Line.lowerAll_alike { s with loopEnd := some endLabel } none body).bind
        fun _ _ _ => .pure rfl
  | .brk pos => by
    obtain ⟨owner, loopEnd⟩ := s
    cases loopEnd with
    | none => exact .fail pos .breakOutsideLoop
    | some target => exact .pure rfl
  | .other pos => .fail pos .unknownLine

theorem Line.lowerAll_alike (s : Surroundings) (value : Option Register) : (ls : List Line) →
    Alike ρ SameValue (Line.lowerAll s value ls)
      (Line.lowerAll (s.renamed ρ) value (Line.renamedAll ρ ls))
  | [] => .pure rfl
  | l :: rest => (l.lower_alike s).bind fun (_, value) (_, _) h => by
    cases h
    exact (Line.lowerAll_alike s value rest).bind fun _ _ h => .pure h

theorem Line.lowerElse_alike (s : Surroundings) : (block : Option (List Line)) →
    Alike ρ SameValue (Line.lowerElse s block)
      (Line.lowerElse (s.renamed ρ) (Line.renamedElse ρ block))
  | none => .pure rfl
  | some block => Line.lowerAll_alike s none block

end

theorem lowerParams_alike (owner : Owner) (params : List Text) :
    Alike ρ (fun _ _ => True) (lowerParams owner params)
      (lowerParams (owner.renamed ρ) params) := by
  induction params with
  | nil => exact .pure trivial
  | cons x rest ih => exact (Alike.named owner x).bind fun _ _ _ => ih.bind fun _ _ h => .pure h

theorem FnDef.lower_alike (f : FnDef) :
    Alike ρ (fun _ _ => True) f.lower (f.renamed ρ).lower := by
  have hbody : Alike ρ (fun _ _ => True) f.lowerBody (f.renamed ρ).lowerBody :=
    (lowerParams_alike ρ (.function f.name) f.params).bind fun _ _ _ =>
      (Line.lowerAll_alike ρ ⟨.function f.name, none⟩ none f.block).bind
        fun (_, value) (_, _) h => by
          cases h
          cases value with
          | none => exact .fail f.pos (.noValue f.name)
          | some place => exact .pure trivial
  exact Alike.label.bind fun _ _ _ => hbody.inNewScope.bind fun _ _ h => .pure h

theorem Statement.lower_alike (st : Statement) :
    Alike ρ SameValue st.lower (st.renamed ρ).lower := by
  cases st with
  | fn f => exact (f.lower_alike ρ).bind fun _ _ _ => .pure rfl
  | line l => exact l.lower_alike ρ ⟨.topLevel, none⟩

theorem Program.lower_alike (result : Option Register) (p : Program) :
    Alike ρ SameValue (Program.lower result p) (Program.lower result (p.renamed ρ)) := by
  induction p generalizing result with
  | nil => exact .pure rfl
  | cons st rest ih =>
    exact (st.lower_alike ρ).bind fun (_, value) (_, _) h => by
      cases h
      exact (ih (value.or result)).bind fun _ _ h => .pure h

end Code

/-! ## Calls -/

/-- A call with another name for its function. -/
def CallSite.renamed (site : CallSite) : CallSite :=
  { site with callee := ρ site.callee }

@[simp] theorem Expr.length_renamedAll (es : List Expr) :
    (Expr.renamedAll ρ es).length = es.length := by
  induction es with
  | nil => rfl
  | cons e rest ih => simp [Expr.renamedAll, ih]

mutual

theorem Expr.callSites_renamed :
    (e : Expr) → (e.renamed ρ).callSites = e.callSites.map (CallSite.renamed ρ)
  | .int .. | .bool .. | .str .. | .name .. => by simp [Expr.renamed, Expr.callSites]
  | .assign _ _ value => value.callSites_renamed
  | .binary _ _ lhs rhs => by
    have hl := lhs.callSites_renamed
    have hr := rhs.callSites_renamed
    simp [Expr.renamed, Expr.callSites, hl, hr]
  | .call _ _ args => by
    have hargs := Expr.allCallSites_renamed args
    simp [Expr.renamed, Expr.callSites, hargs, CallSite.renamed]
  | .branch _ test thenBlock elseBlock => by
    have htest := test.callSites_renamed
    have hthen := Line.allCallSites_renamed thenBlock
    have helse := Line.elseCallSites_renamed elseBlock
    simp [Expr.renamed, Expr.callSites, htest, hthen, helse]
  | .malformed _ _ parts thenBlock elseBlock => by
    have hparts := Expr.allCallSites_renamed parts
    have hthen := Line.allCallSites_renamed thenBlock
    have helse := Line.elseCallSites_renamed elseBlock
    simp [Expr.renamed, Expr.callSites, hparts, hthen, helse]

theorem Expr.allCallSites_renamed : (es : List Expr) →
    Expr.allCallSites (Expr.renamedAll ρ es) = (Expr.allCallSites es).map (CallSite.renamed ρ)
  | [] => rfl
  | e :: rest => by
    have he := e.callSites_renamed
    have hrest := Expr.allCallSites_renamed rest
    simp [Expr.renamedAll, Expr.allCallSites, he, hrest]

theorem Line.callSites_renamed :
    (l : Line) → (l.renamed ρ).callSites = l.callSites.map (CallSite.renamed ρ)
  | .expr _ e => e.callSites_renamed
  | .loop _ body => Line.allCallSites_renamed body
  | .brk _ | .other _ => rfl

theorem Line.allCallSites_renamed : (ls : List Line) →
    Line.allCallSites (Line.renamedAll ρ ls) = (Line.allCallSites ls).map (CallSite.renamed ρ)
  | [] => rfl
  | l :: rest => by
    have hl := l.callSites_renamed
    have hrest := Line.allCallSites_renamed rest
    simp [Line.renamedAll, Line.allCallSites, hl, hrest]

theorem Line.elseCallSites_renamed : (block : Option (List Line)) →
    Line.elseCallSites (Line.renamedElse ρ block) =
      (Line.elseCallSites block).map (CallSite.renamed ρ)
  | none => rfl
  | some block => Line.allCallSites_renamed block

end

theorem Program.callSites_renamed (p : Program) :
    (p.renamed ρ).callSites = p.callSites.map (CallSite.renamed ρ) := by
  induction p with
  | nil => rfl
  | cons st rest ih =>
    have hst : (st.renamed ρ).callSites = st.callSites.map (CallSite.renamed ρ) := by
      cases st with
      | fn f => exact Line.allCallSites_renamed ρ f.block
      | line l => exact l.callSites_renamed ρ
    simp only [Program.callSites, Program.renamed] at ih
    simp [Program.callSites, Program.renamed, hst, ih]

theorem Program.functions_renamed (p : Program) :
    (p.renamed ρ).functions = p.functions.map (FnDef.renamed ρ) := by
  induction p with
  | nil => rfl
  | cons st rest ih =>
    simp only [Program.functions, Program.renamed] at ih
    cases st <;> simp [Program.functions, Program.renamed, Statement.renamed, ih]

section Calls

variable {ρ} {p : Program} (h : Set.InjOn ρ {x | x ∈ p.functionNames})
include h

/-- A name means the same function, if different names stay different. -/
theorem Program.function?_renamed {name : Text} (hname : name ∈ p.functionNames) :
    (p.renamed ρ).function? (ρ name) = (p.function? name).map (FnDef.renamed ρ) := by
  have hsame : ∀ f ∈ p.functions.reverse, decide ((f.renamed ρ).name = ρ name) =
      decide (f.name = name) := by
    intro f hf
    have hdefined : f.name ∈ p.functionNames :=
      List.mem_append_left _ (List.mem_map_of_mem (List.mem_reverse.1 hf))
    exact decide_eq_decide.2 (h.eq_iff hdefined hname)
  rw [Program.function?, p.functions_renamed, ← List.map_reverse, List.find?_map, Program.function?]
  exact congrArg _ (List.find?_congr hsame)

theorem CallSite.error?_renamed {site : CallSite} (hsite : site ∈ p.callSites) :
    (site.renamed ρ).error? (p.renamed ρ) = (site.error? p).map (LowerError.renamed ρ) := by
  have hname : site.callee ∈ p.functionNames :=
    List.mem_append_right _ (List.mem_map_of_mem hsite)
  have hfunction := Program.function?_renamed h hname
  simp only [CallSite.error?, CallSite.renamed, hfunction]
  cases p.function? site.callee with
  | none => rfl
  | some f =>
    simp only [Option.map_some, FnDef.renamed]
    rw [apply_ite (Option.map (LowerError.renamed ρ))]
    rfl

theorem Program.callError?_renamed :
    (p.renamed ρ).callError? = p.callError?.map (LowerError.renamed ρ) := by
  have hsites (sites : List CallSite) (hmem : ∀ site ∈ sites, site ∈ p.callSites) :
      (sites.map (CallSite.renamed ρ)).findSome? (CallSite.error? (p.renamed ρ)) =
        (sites.findSome? (CallSite.error? p)).map (LowerError.renamed ρ) := by
    induction sites with
    | nil => rfl
    | cons site rest ih =>
      obtain ⟨hsite, hrest⟩ := List.forall_mem_cons.1 hmem
      rw [List.map_cons, List.findSome?_cons, List.findSome?_cons, site.error?_renamed h hsite,
        ih hrest]
      cases site.error? p <;> rfl
  rw [Program.callError?, p.callSites_renamed]
  exact hsites p.callSites fun _ => id

/-- A program with other names for its functions can be built exactly if it could be before, and
fails for the same reason. -/
theorem Program.build_renamed (checkArity : Bool) :
    SameOutcome (fun e e' => e' = e.renamed ρ) (fun _ _ => True) (p.build checkArity)
      ((p.renamed ρ).build checkArity) := by
  have hlower := p.lower_alike ρ none {}
  simp only [Program.build, StateT.run, Program.callError?_renamed h, bind, Except.bind]
  generalize Program.lower none p {} = u, Program.lower none (p.renamed ρ) {} = v at hlower
  cases hlower with
  | error he => exact .error he
  | ok _ =>
    cases checkArity with
    | false => exact .ok trivial
    | true =>
      cases p.callError? with
      | none => exact .ok trivial
      | some e => exact .error rfl

end Calls

end FrameLang
