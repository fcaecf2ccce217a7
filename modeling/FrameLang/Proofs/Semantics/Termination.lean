import FrameLang.Proofs.Semantics.Rearrangement

/-!
# Programs without loops

A program without loops always comes to an end, however its functions call each other: the number of
active calls is limited, and within one activation control only moves forward. Both are built into
the interpreter, whose only source of endless computations is a loop, so it is enough to see that
without loops no computation of the interpreter stays unfinished.

## Main definitions

* `Expr.isLoopFree`, `Line.isLoopFree`, `Program.isLoopFree` — trees without loops.
* `Exec.Settles` — computations that end with a result or with a fault.
-/

namespace FrameLang

/-! ## Trees without loops -/

mutual

/-- Whether there is no loop in an expression. -/
def Expr.isLoopFree : Expr → Bool
  | .int .. | .str .. | .bool .. | .name .. => true
  | .assign _ _ value => value.isLoopFree
  | .binary _ _ lhs rhs => lhs.isLoopFree && rhs.isLoopFree
  | .call _ _ args => Expr.allLoopFree args
  | .branch _ test thenBlock elseBlock =>
    test.isLoopFree && Line.allLoopFree thenBlock && Line.elseLoopFree elseBlock
  | .malformed _ _ parts thenBlock elseBlock =>
    Expr.allLoopFree parts && Line.allLoopFree thenBlock && Line.elseLoopFree elseBlock

/-- Whether there is no loop in several expressions. -/
def Expr.allLoopFree : List Expr → Bool
  | [] => true
  | e :: rest => e.isLoopFree && Expr.allLoopFree rest

/-- Whether a line neither is a loop nor has one in it. -/
def Line.isLoopFree : Line → Bool
  | .expr _ e => e.isLoopFree
  | .loop .. => false
  | .brk _ | .other _ => true

/-- Whether there is no loop in a block. -/
def Line.allLoopFree : List Line → Bool
  | [] => true
  | l :: rest => l.isLoopFree && Line.allLoopFree rest

/-- Whether there is no loop in an else branch. -/
def Line.elseLoopFree : Option (List Line) → Bool
  | none => true
  | some block => Line.allLoopFree block

end

/-- Whether there is no loop in a statement. -/
def Statement.isLoopFree : Statement → Bool
  | .fn f => Line.allLoopFree f.block
  | .line l => l.isLoopFree

/-- Whether there is no loop in a program, neither at the top level nor in a function. -/
def Program.isLoopFree (p : Program) : Bool :=
  p.all Statement.isLoopFree

/-- Whether there is no loop in a construct. -/
def Construct.isLoopFree : Construct → Bool
  | .expr e => e.isLoopFree
  | .args es => Expr.allLoopFree es
  | .line l => l.isLoopFree
  | .block _ ls => Line.allLoopFree ls
  | .params _ => true

theorem Line.elseLoopFree_eq (block : Option (List Line)) :
    Line.elseLoopFree block = Line.allLoopFree (block.getD []) := by
  cases block <;> simp [Line.elseLoopFree, Line.allLoopFree]

/-! ## Computations that settle -/

/-- The computation ends, from whatever world: with a result that satisfies `P`, or with a fault. -/
def Exec.Settles {α : Type} (P : α → Prop) (x : Exec α) : Prop :=
  ∀ w, (∃ r w', x w = .done r w' ∧ P r) ∨ ∃ kind, x w = .faulted kind

namespace Exec.Settles

variable {α β : Type} {P : α → Prop} {Q : β → Prop} {x : Exec α} {g : α → Exec β}

theorem pure {r : α} (h : P r) : Settles P (Pure.pure r : Exec α) :=
  fun w => .inl ⟨r, w, rfl, h⟩

theorem fault (kind : FaultKind) : Settles P (Exec.fault kind) :=
  fun _ => .inr ⟨kind, rfl⟩

/-- One computation after another. -/
theorem bind (h : Settles P x) (hg : ∀ r, P r → Settles Q (g r)) : Settles Q (x >>= g) := by
  intro w
  rcases h w with ⟨r, w', hx, hr⟩ | ⟨kind, hx⟩
  · have hstep : (x >>= g) w = g r w' := by simp only [Bind.bind, Exec.bind, hx]
    rw [hstep]
    exact hg r hr w'
  · exact .inr ⟨kind, by simp only [Bind.bind, Exec.bind, hx]⟩

theorem ne_unfinished (h : Settles P x) (w : World) : x w ≠ .unfinished := by
  intro hu
  rcases h w with ⟨r, w', hx, -⟩ | ⟨kind, hx⟩
  · cases hu.symm.trans hx
  · cases hu.symm.trans hx

theorem read (place : Expr.Place) : Settles (fun _ => True) (Exec.read place) :=
  fun w => .inl ⟨_, w, rfl, trivial⟩

theorem assign (y : Text) (value : Int32) : Settles (fun _ => True) (Exec.assign y value) :=
  fun _ => .inl ⟨(), _, rfl, trivial⟩

theorem push (value : Int32) : Settles (fun _ => True) (Exec.push value) := by
  intro w
  by_cases h : w.operands.size < maxOperands
  · exact .inl ⟨(), _, by simp only [Exec.push, h, if_true]; rfl, trivial⟩
  · exact .inr ⟨_, by simp only [Exec.push, h, if_false]; rfl⟩

theorem pop : Settles (fun _ => True) Exec.pop := by
  intro w
  cases h : w.operands.back? with
  | some value => exact .inl ⟨value, _, by simp only [Exec.pop, h]; rfl, trivial⟩
  | none => exact .inr ⟨_, by simp only [Exec.pop, h]; rfl⟩

theorem compute (op : Operator) (a b : Int32) :
    Settles (fun _ => True) (Exec.compute op a b) := by
  unfold Exec.compute
  cases op.value? a b with
  | some value => exact .pure trivial
  | none => exact .fault _

theorem readBlock (place : Option Expr.Place) : Settles (fun _ => True) (Exec.readBlock place) := by
  cases place with
  | some place => exact .read place
  | none => exact .pure trivial

theorem pushAll (places : List Expr.Place) : Settles (fun _ => True) (Exec.pushAll places) := by
  induction places with
  | nil => exact .pure trivial
  | cons place rest ih => exact (Settles.read place).bind fun _ _ => (push _).bind fun _ _ => ih

/-- What settles settles in an activation of its own too. -/
theorem inNewActivation (h : Settles P x) : Settles P (Exec.inNewActivation x) := by
  intro w
  rcases h ⟨fun _ => 0, w.operands⟩ with ⟨r, w', hx, hr⟩ | ⟨kind, hx⟩
  · exact .inl ⟨r, ⟨w.env, w'.operands⟩, by simp only [Exec.inNewActivation, hx], hr⟩
  · exact .inr ⟨kind, by simp only [Exec.inNewActivation, hx]⟩

end Exec.Settles

/-! ## Constructs without loops settle -/

/-- A block or a line denotes a place exactly if it has a register for its value. -/
def Construct.Matches : (c : Construct) → c.Value → c.Result → Prop
  | .line _, v, place | .block _ _, v, place => place.isSome = v.isSome
  | .expr _, _, _ | .args _, _, _ | .params _, _, _ => True

/-- A block comes with a place exactly if it comes with a register. -/
def Construct.Admits (given : Option Expr.Place) : Construct → Prop
  | .block value _ => given.isSome = value.isSome
  | _ => True

section Constructs

variable {invoke : Text → Exec Unit} (rounds : Nat)

/-- An arm of an if expression settles if its block does. -/
theorem Exec.Settles.arm {P : Option Expr.Place → Prop} {block : Exec (Option Expr.Place)}
    (h : block.Settles P) :
    Exec.Settles (fun _ => True) (do return .temporary (← Exec.readBlock (← block)) :
      Exec Expr.Place) :=
  h.bind fun place _ => (readBlock place).bind fun _ _ => .pure trivial

/-- The code of a construct that is in no loop and has none in it settles, if all calls do. -/
theorem Emits.settles {s : Surroundings} {c : Construct} {a b : Allocation} {code : List Instr}
    {v : c.Value} (h : Emits s c a code v b)
    (hinvoke : ∀ x, (invoke x).Settles fun _ => True) (hs : s.loopEnd = none)
    (hc : c.isLoopFree = true) (given : Option Expr.Place) (hgiven : c.Admits given) :
    (c.eval invoke rounds given).Settles (c.Matches v) := by
  induction h generalizing given with
  | int | bool | name => exact .pure trivial
  | assign _ _ _ _ ih =>
    exact (ih hs hc none trivial).bind fun place _ => (Exec.Settles.read place).bind fun _ _ =>
      (Exec.Settles.assign _ _).bind fun _ _ => .pure trivial
  | binary _ _ _ _ _ ihl ihr =>
    simp only [Construct.isLoopFree, Expr.isLoopFree, Bool.and_eq_true] at hc
    exact (ihl hs hc.1 none trivial).bind fun l _ => (ihr hs hc.2 none trivial).bind fun r _ =>
      (Exec.Settles.read l).bind fun _ _ => (Exec.Settles.read r).bind fun _ _ =>
        (Exec.Settles.compute _ _ _).bind fun _ _ => .pure trivial
  | call _ callee _ _ ih =>
    exact (ih hs hc none trivial).bind fun places _ => (Exec.Settles.pushAll _).bind fun _ _ =>
      (hinvoke callee).bind fun _ _ => Exec.Settles.pop.bind fun _ _ => .pure trivial
  | branch _ _ _ _ _ iht ihthen ihelse =>
    simp only [Construct.isLoopFree, Expr.isLoopFree, Bool.and_eq_true, Line.elseLoopFree_eq] at hc
    have hthen := ihthen hs hc.1.2 none rfl
    have helse := ihelse hs hc.2 none rfl
    refine (iht hs hc.1.1 none trivial).bind fun place _ =>
      (Exec.Settles.read place).bind fun value _ => ?_
    rw [Line.evalElse_eq]
    split
    · exact hthen.arm
    · exact helse.arm
  | noArgs | noParams => exact .pure trivial
  | moreArgs _ _ ih ihrest =>
    simp only [Construct.isLoopFree, Expr.allLoopFree, Bool.and_eq_true] at hc
    exact (ih hs hc.1 none trivial).bind fun place _ =>
      (ihrest hs hc.2 none trivial).bind fun places _ => .pure trivial
  | exprLine _ _ ih => exact (ih hs hc none trivial).bind fun _ _ => .pure rfl
  | loop => simp [Construct.isLoopFree, Line.isLoopFree] at hc
  | brk _ ht => simp [hs] at ht
  | noLines => exact .pure hgiven
  | moreLines _ _ _ ih ihrest =>
    simp only [Construct.isLoopFree, Line.allLoopFree, Bool.and_eq_true] at hc
    exact (ih hs hc.1 none trivial).bind fun place hplace => ihrest hs hc.2 place hplace
  | moreParams _ _ ih =>
    exact Exec.Settles.pop.bind fun _ _ => (Exec.Settles.assign _ _).bind fun _ _ =>
      ih hs rfl none trivial

/-- An activation of a function without loops settles, if all calls do. -/
theorem FnDef.PlacedAt.settles {f : FnDef} {code : List Instr} {start : Nat}
    (h : f.PlacedAt code start) (hf : Line.allLoopFree f.block = true)
    (hinvoke : ∀ x, (invoke x).Settles fun _ => True) :
    (f.eval invoke rounds).Settles fun _ => True := by
  obtain ⟨hparams, hbody, -, -⟩ := h
  refine (hparams.settles rounds hinvoke rfl rfl none trivial).bind fun _ _ =>
    (hbody.settles rounds hinvoke rfl hf none rfl).bind fun place hplace => ?_
  cases place with
  | none => cases hplace
  | some place => exact (Exec.Settles.read place).bind fun _ _ => .push _

end Constructs

/-! ## Programs without loops settle -/

section Programs

variable {p : Program} {code : List Instr} (rounds : Nat)

/-- Calls settle: each level of calls has one level less below it. -/
theorem Linked.settles_invoke (h : Linked p code) (hp : p.isLoopFree = true) (depth : Nat)
    (x : Text) : (p.invoke rounds depth x).Settles fun _ => True := by
  induction depth generalizing x with
  | zero =>
    cases hx : p.function? x with
    | none =>
      rw [Program.invoke_of_none hx]
      exact .fault _
    | some f =>
      rw [Program.invoke_zero hx]
      exact .fault _
  | succ depth ih =>
    cases hx : p.function? x with
    | none =>
      rw [Program.invoke_of_none hx]
      exact .fault _
    | some f =>
      rw [Program.invoke_succ hx]
      obtain ⟨before, after, rfl, -, -⟩ := Program.function?_eq_some.1 hx
      have hf : Line.allLoopFree f.block = true :=
        List.all_eq_true.1 hp (.fn f) (List.mem_append_right _ List.mem_cons_self)
      exact ((h.fn rfl).settles rounds hf ih).inNewActivation

/-- What is left of a program settles, if its lines are loop free and all calls settle. -/
theorem Linked.settles_evalFrom (h : Linked p code) (hp : p.isLoopFree = true)
    {invoke : Text → Exec Unit} (hinvoke : ∀ x, (invoke x).Settles fun _ => True)
    {before rest : Program} (hrest : p = before ++ rest) (last : Option Expr.Place) :
    (Program.evalFrom invoke rounds last rest).Settles fun _ => True := by
  induction rest generalizing before last with
  | nil => exact .pure trivial
  | cons st rest ih =>
    have hnext : p = (before ++ [st]) ++ rest := by rw [hrest, List.append_assoc]; rfl
    cases st with
    | fn f => exact ih hnext last
    | line l =>
      obtain ⟨hl, -⟩ := h.line hrest
      have hfree : l.isLoopFree = true :=
        List.all_eq_true.1 hp (.line l) (hrest ▸ List.mem_append_right _ List.mem_cons_self)
      exact (hl.settles rounds hinvoke rfl hfree none trivial).bind fun _ _ => ih hnext _

/-- The interpreter comes to an end on a program without loops. -/
theorem Linked.interpret_ne_unfinished (h : Linked p code) (hp : p.isLoopFree = true) :
    p.interpret rounds ≠ .unfinished := by
  have hcalls := h.settles_invoke rounds hp maxCallDepth
  have hlines := h.settles_evalFrom rounds hp hcalls (List.nil_append p).symm none
  intro hu
  simp only [Program.interpret] at hu
  refine Exec.Settles.ne_unfinished (P := fun _ => True) (hlines.bind fun place _ => ?_) _ hu
  cases place with
  | some place => exact (Exec.Settles.read place).bind fun _ _ => .pure trivial
  | none => exact .pure trivial

end Programs

/-- Programs without loops always end: a machine that has loaded one halts or ends with a fault,
whatever calls the program makes and whether or not they fit the functions. -/
theorem Program.build_terminates {p : Program} {checkArity : Bool} {listing : Listing}
    (h : p.build checkArity = .ok listing) (hl : p.labelsDrawn < 2 ^ 32)
    (hp : p.isLoopFree = true) (m : Machine) :
    (m.load listing).1 = none ∧
      ((∃ value, (m.load listing).2.HaltsWith value) ∨
        ∃ kind, (m.load listing).2.TrapsWith kind) := by
  obtain ⟨hload, himage, hagrees⟩ := Program.build_loaded h hl m
  refine ⟨hload, ?_⟩
  rcases Machine.run_cases himage with hd | hend
  · exact absurd (hagrees.diverges.1 hd 0)
      ((Program.build_linked h hl).interpret_ne_unfinished 0 hp)
  · exact hend

/-- Two functions that call each other without end, twice at each level, and with arguments that
they do not take. -/
def Program.mutualCalls : Program :=
  let call (f : String) (args : List Expr) : Expr := .call .start f.toList args
  let x : Expr := .name .start ['x']
  [.fn ⟨.start, ['f'], [['x']], [.expr .start (call "g" [x, x])]⟩,
    .fn ⟨.start, ['g'], [['x']],
      [.expr .start (.binary .start .add (call "f" [x]) (call "f" []))]⟩,
    .line (.expr .start (call "f" []))]

theorem Program.mutualCalls_terminates : ∃ listing,
    Program.mutualCalls.build false = .ok listing ∧ Program.mutualCalls.labelsDrawn < 2 ^ 32 ∧
    Program.mutualCalls.isLoopFree = true ∧ (({} : Machine).load listing).1 = none ∧
    ((∃ value, (({} : Machine).load listing).2.HaltsWith value) ∨
      ∃ kind, (({} : Machine).load listing).2.TrapsWith kind) := by
  obtain ⟨listing, h⟩ : ∃ listing, Program.mutualCalls.build false = .ok listing :=
    Program.exists_listing (by decide +kernel)
  have hl : Program.mutualCalls.labelsDrawn < 2 ^ 32 := by decide +kernel
  have hp : Program.mutualCalls.isLoopFree = true := by decide +kernel
  exact ⟨listing, h, hl, hp, Program.build_terminates h hl hp {}⟩

end FrameLang
