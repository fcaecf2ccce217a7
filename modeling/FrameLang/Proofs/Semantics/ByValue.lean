import FrameLang.Proofs.Lowering.Success
import FrameLang.Proofs.Semantics.Rearrangement

/-!
# Call by value

Programs are evaluated from left to right without places and without an operand stack: every
operand of an operator and every argument of a call is a value, and a call passes values.

There is one question left open by this, namely whether a variable that is an operand is read where
it stands or when all operands have been evaluated, so that assignments in later operands show. The
evaluator answers it either way. Programs whose calls are checked and whose last statement is an
expression mean what the second answer says.

## Main definitions

* `Reading` — when variables that are operands or arguments are read.
* `Expr.value`, `Line.value`, `FnDef.value` — the value of each construct.
* `Program.evaluate` — the value of a program.
* `Ending.Matches` — two computations end alike, with results that are related.
-/

namespace FrameLang

/-- When a variable is read that is an operand or an argument. -/
inductive Reading where
  /-- Where it stands. -/
  | atOnce
  /-- When all operands of its operator, or all arguments of its call, have been evaluated. -/
  | late

/-- The variable that an expression denotes: a name, or the target of an assignment. -/
def Expr.variable? : Expr → Option Text
  | .name _ x | .assign _ x _ => some x
  | _ => none

/-- What becomes of the value that an operand had when all operands have been evaluated. -/
def Expr.recall (reading : Reading) (env : Text → Int32) (e : Expr) (value : Int32) : Int32 :=
  match reading, e.variable? with
  | .late, some x => env x
  | _, _ => value

theorem Expr.recall_of_none {e : Expr} (h : e.variable? = none) (reading : Reading)
    (env : Text → Int32) (value : Int32) : e.recall reading env value = value := by
  cases reading <;> simp [Expr.recall, h]

namespace Exec

/-- The variables with their values. -/
def environment : Exec (Text → Int32) := fun w => .done w.env w

/-- Gives several variables values, one after another. -/
def assignAll : List Text → List Int32 → Exec Unit
  | x :: xs, value :: values => do
    assign x value
    assignAll xs values
  | _, _ => pure ()

theorem bind_assoc {α β γ : Type} (x : Exec α) (f : α → Exec β) (g : β → Exec γ) :
    x >>= f >>= g = x >>= fun a => f a >>= g := by
  funext w
  simp only [Bind.bind, Exec.bind]
  cases x w <;> rfl

@[simp] theorem environment_bind {β : Type} (g : (Text → Int32) → Exec β) (w : World) :
    (environment >>= g) w = g w.env w := rfl

end Exec

mutual

/-- The value of an expression. Calls are made by `apply`, and loops have at most `rounds`
rounds. -/
def Expr.value (reading : Reading) (apply : Text → List Int32 → Exec Int32) (rounds : Nat) :
    Expr → Exec Int32
  | .int _ value => pure value
  | .bool _ value => pure (if value then 1 else 0)
  | .name _ x => Exec.read (.named x)
  | .assign _ x e => do
    let value ← e.value reading apply rounds
    Exec.assign x value
    return value
  | .binary _ op lhs rhs => do
    let a ← lhs.value reading apply rounds
    let b ← rhs.value reading apply rounds
    let env ← Exec.environment
    Exec.compute op (lhs.recall reading env a) (rhs.recall reading env b)
  | .call _ callee args => do
    let values ← Expr.values reading apply rounds args
    let env ← Exec.environment
    apply callee (List.zipWith (Expr.recall reading env) args values)
  | .branch _ test thenBlock elseBlock => do
    if (← test.value reading apply rounds) = 1 then
      let value ← Line.valueAll reading apply rounds none thenBlock
      return value.getD 0
    else
      let value ← Line.valueElse reading apply rounds elseBlock
      return value.getD 0
  | .str .. | .malformed .. => Exec.unfinished

/-- The values of several expressions, evaluated from left to right. -/
def Expr.values (reading : Reading) (apply : Text → List Int32 → Exec Int32) (rounds : Nat) :
    List Expr → Exec (List Int32)
  | [] => pure []
  | e :: rest => do
    let value ← e.value reading apply rounds
    let values ← Expr.values reading apply rounds rest
    return value :: values

/-- The value of a line, if it is an expression line. -/
def Line.value (reading : Reading) (apply : Text → List Int32 → Exec Int32) (rounds : Nat) :
    Line → Exec (Option Int32)
  | .expr _ e => do
    let value ← e.value reading apply rounds
    return some value
  | .loop _ body => do
    (Line.valueAll reading apply rounds none body).iterate rounds
    return none
  | .brk _ => Exec.leave
  | .other _ => Exec.unfinished

/-- The value of a block: that of its last line, or the given one if it has no lines. -/
def Line.valueAll (reading : Reading) (apply : Text → List Int32 → Exec Int32) (rounds : Nat)
    (last : Option Int32) : List Line → Exec (Option Int32)
  | [] => pure last
  | l :: rest => do
    let value ← l.value reading apply rounds
    Line.valueAll reading apply rounds value rest

/-- The value of an else branch. -/
def Line.valueElse (reading : Reading) (apply : Text → List Int32 → Exec Int32) (rounds : Nat) :
    Option (List Line) → Exec (Option Int32)
  | none => pure none
  | some block => Line.valueAll reading apply rounds none block

end

/-- The value of a function for given arguments. -/
def FnDef.value (f : FnDef) (reading : Reading) (apply : Text → List Int32 → Exec Int32)
    (rounds : Nat) (args : List Int32) : Exec Int32 := do
  Exec.assignAll f.params args
  match ← Line.valueAll reading apply rounds none f.block with
  | some value => return value
  | none => Exec.unfinished

/-- The value of the function that a name means, while at most `depth` more calls may become active.
No call can pass more arguments than there is room for operands. -/
def Program.apply (p : Program) (reading : Reading) (rounds : Nat) :
    (depth : Nat) → Text → List Int32 → Exec Int32
  | 0, _, _ => Exec.fault .resourceExhausted
  | depth + 1, x, args =>
    if args.length ≤ maxOperands then
      match p.function? x with
      | none => Exec.fault .labelResolution
      | some f => Exec.inNewActivation (f.value reading (p.apply reading rounds depth) rounds args)
    else
      Exec.fault .resourceExhausted

/-- The value of a program: that of its last line. -/
def Program.evaluate (p : Program) (reading : Reading) (rounds : Nat) : Ending (Option Int32) :=
  Line.valueAll reading (p.apply reading rounds maxCallDepth) rounds none p.lines ⟨fun _ => 0, #[]⟩

/-! ## Computations that end alike -/

/-- Two computations end alike, in the same world. It satisfies `I`, and the results, if any, are
related by `R` there. -/
inductive Ending.Matches {α β : Type} (I : World → Prop) (R : α → β → World → Prop) :
    Ending α → Ending β → Prop where
  | done {a : α} {b : β} {w : World} : I w → R a b w → Matches I R (.done a w) (.done b w)
  | broken {w : World} : I w → Matches I R (.broken w) (.broken w)
  | faulted (kind : FaultKind) : Matches I R (.faulted kind) (.faulted kind)
  | unfinished : Matches I R .unfinished .unfinished

namespace Ending.Matches

variable {α β γ δ : Type} {I J : World → Prop} {R : α → β → World → Prop}
  {S : γ → δ → World → Prop} {x : Exec α} {y : Exec β} {w : World}

/-- One computation after another. -/
theorem bind {f : α → Exec γ} {g : β → Exec δ} (h : Matches I R (x w) (y w))
    (hI : ∀ v, I v → J v) (hf : ∀ a b v, I v → R a b v → Matches J S (f a v) (g b v)) :
    Matches J S ((x >>= f) w) ((y >>= g) w) := by
  simp only [Bind.bind, Exec.bind]
  generalize x w = e, y w = e' at h
  cases h with
  | done hi hr => exact hf _ _ _ hi hr
  | broken hi => exact .broken (hI _ hi)
  | faulted kind => exact .faulted kind
  | unfinished => exact .unfinished

/-- One computation after another, under one invariant. -/
theorem seq {f : α → Exec γ} {g : β → Exec δ} (h : Matches I R (x w) (y w))
    (hf : ∀ a b v, I v → R a b v → Matches I S (f a v) (g b v)) :
    Matches I S ((x >>= f) w) ((y >>= g) w) :=
  h.bind (fun _ hi => hi) hf

theorem compute (op : Operator) (a b : Int32) (hw : I w) :
    Matches I (fun a b _ => a = b) (Exec.compute op a b w) (Exec.compute op a b w) := by
  unfold Exec.compute
  cases op.value? a b with
  | none => exact .faulted _
  | some value => exact .done hw rfl

/-- Bodies that end alike in every world that they can leave are iterated alike. -/
theorem iterate (h : ∀ v, I v → Matches I R (x v) (y v)) (hw : I w) (rounds : Nat) :
    Matches I (fun _ _ _ => True) (x.iterate rounds w) (y.iterate rounds w) := by
  induction rounds generalizing w with
  | zero => exact .unfinished
  | succ rounds ih =>
    simp only [Exec.iterate]
    have hround := h w hw
    generalize x w = e, y w = e' at hround
    cases hround with
    | done hi _ => exact ih hi
    | broken hi => exact .done hi trivial
    | faulted kind => exact .faulted kind
    | unfinished => exact .unfinished

end Ending.Matches

/-! ## Calls -/

section Calls

variable {env : Text → Int32} {operands : Array Int32}

/-- All values are pushed if there is room for them. -/
theorem Exec.pushAll_eq (places : List Expr.Place) (h : operands.size ≤ maxOperands) :
    Exec.pushAll places ⟨env, operands⟩ =
      if operands.size + places.length ≤ maxOperands then
        .done () ⟨env, operands ++ (places.map (Expr.Place.value env)).toArray⟩
      else .faulted .resourceExhausted := by
  induction places generalizing operands with
  | nil => simp [Exec.pushAll, h, pure]
  | cons place rest ih =>
    rw [Exec.pushAll, Exec.read_bind]
    by_cases hroom : operands.size < maxOperands
    · have hsize : (operands.push (place.value env)).size ≤ maxOperands := by
        rwa [Array.size_push]
      simp only [Bind.bind, Exec.bind, Exec.push, if_pos hroom, ih hsize, Array.size_push,
        List.length_cons, Nat.add_right_comm _ 1, ← Nat.add_assoc]
      simp
    · simp only [Bind.bind, Exec.bind, Exec.push, if_neg hroom]
      rw [if_neg (by rw [List.length_cons]; omega)]

/-- Arguments are pushed from the last to the first. -/
theorem Exec.pushAll_reverse (places : List Expr.Place) :
    Exec.pushAll places.reverse ⟨env, #[]⟩ =
      if places.length ≤ maxOperands then
        .done () ⟨env, (places.map (Expr.Place.value env)).reverse.toArray⟩
      else .faulted .resourceExhausted := by
  rw [Exec.pushAll_eq _ (Nat.zero_le _)]
  simp

/-- The arguments that a function takes from the stack are given to its parameters. -/
theorem Exec.takeArguments_eq {params : List Text} {values : List Int32}
    (h : params.length = values.length) :
    Exec.takeArguments params ⟨env, values.reverse.toArray⟩ =
      Exec.assignAll params values ⟨env, #[]⟩ := by
  induction params generalizing values env with
  | nil =>
    obtain rfl := List.length_eq_zero_iff.1 h.symm
    rfl
  | cons x rest ih =>
    obtain ⟨value, values, rfl⟩ := List.exists_cons_of_length_eq_add_one h.symm
    have hstack : (value :: values).reverse.toArray = values.reverse.toArray.push value := by simp
    rw [Exec.takeArguments, hstack]
    simp only [Bind.bind, Exec.bind, Exec.pop, Array.back?_push, Array.pop_push, Exec.assign,
      Exec.assignAll]
    exact ih (by simpa using h)

/-- Assignments are done and leave the stack as it is. -/
theorem Exec.assignAll_done (params : List Text) (values : List Int32) (w : World) :
    ∃ env, Exec.assignAll params values w = .done () ⟨env, w.operands⟩ := by
  fun_induction Exec.assignAll params values generalizing w with
  | case1 x xs value values ih => exact ih _
  | case2 => exact ⟨_, rfl⟩

end Calls

/-! ## Places that are read late -/

/-- The place that `e` denotes where its value is `value`: it is read as `e` is when it is read
late, and it still holds the value. -/
structure Expr.Denotes (e : Expr) (place : Expr.Place) (value : Int32) (w : World) : Prop where
  later (env : Text → Int32) : place.value env = e.recall .late env value
  now : place.value w.env = value

/-- The place that a block denotes, if any, holds its value. -/
def Line.Denotes (place : Option Expr.Place) (value : Option Int32) (w : World) : Prop :=
  place.map (Expr.Place.value w.env) = value

/-- Nothing is on the operand stack. -/
def World.IsClear (w : World) : Prop := w.operands = #[]

/-- A call passes what the function takes that its name means. -/
def CallSite.Fits (p : Program) (site : CallSite) : Prop :=
  ∃ f, p.function? site.callee = some f ∧ f.params.length = site.args

/-- Calls with arguments on the stack end like those with values. -/
def Program.CallsMatch (p : Program) (invoke : Text → Exec Unit)
    (apply : Text → List Int32 → Exec Int32) : Prop :=
  ∀ ⦃x : Text⦄ ⦃f : FnDef⦄ ⦃places : List Expr.Place⦄ ⦃w : World⦄, p.function? x = some f →
    f.params.length = places.length → w.IsClear →
    Ending.Matches World.IsClear (fun a b _ => a = b)
      ((do Exec.pushAll places.reverse; invoke x; Exec.pop : Exec Int32) w)
      (apply x (places.map (Expr.Place.value w.env)) w)

namespace Ending.Matches

variable {e : Expr} {x y : Exec Int32} {w : World}

/-- The value of an expression that denotes no variable is kept in a temporary. -/
theorem temporary (h : Matches World.IsClear (fun a b _ => a = b) (x w) (y w))
    (he : e.variable? = none) :
    Matches World.IsClear e.Denotes ((x >>= fun value => pure (.temporary value)) w) (y w) := by
  simp only [Bind.bind, Exec.bind]
  generalize x w = r, y w = r' at h
  cases h with
  | done hi hr => exact .done hi ⟨fun env => by rw [Expr.recall_of_none he]; exact hr, hr⟩
  | broken hi => exact .broken hi
  | faulted kind => exact .faulted kind
  | unfinished => exact .unfinished

/-- The value of a block is kept in a temporary. -/
theorem readBlock {place : Option Expr.Place} {value : Option Int32} (hw : w.IsClear)
    (hplace : Line.Denotes place value w) :
    Matches World.IsClear (fun a b _ => a = b) (Exec.readBlock place w)
      ((pure (value.getD 0) : Exec Int32) w) := by
  subst hplace
  cases place <;> exact .done hw rfl

end Ending.Matches

section Places

variable {p : Program} {invoke : Text → Exec Unit} {apply : Text → List Int32 → Exec Int32}
  (hcalls : p.CallsMatch invoke apply) (rounds : Nat)

include hcalls

-- The linter does not follow the calls within the mutual block.
set_option linter.unusedSectionVars false

mutual

theorem Expr.eval_matches (e : Expr) (hfits : ∀ site ∈ e.callSites, site.Fits p) {w : World}
    (hw : w.IsClear) :
    Ending.Matches World.IsClear e.Denotes (e.eval invoke rounds w)
      (e.value .late apply rounds w) := by
  cases e with
  | int _ _ | bool _ _ | name _ _ =>
    simp only [Expr.eval, Expr.value]
    exact .done hw ⟨fun _ => rfl, rfl⟩
  | str _ _ | malformed _ _ _ _ _ =>
    simp only [Expr.eval, Expr.value]
    exact .unfinished
  | assign _ x e =>
    simp only [Expr.callSites] at hfits
    simp only [Expr.eval, Expr.value]
    refine (e.eval_matches hfits hw).seq fun place value v hv hplace => ?_
    simp only [Exec.read_bind, Exec.assign_bind, hplace.now]
    exact .done hv ⟨fun _ => rfl, if_pos rfl⟩
  | binary _ op lhs rhs =>
    simp only [Expr.callSites, List.forall_mem_append] at hfits
    simp only [Expr.eval, Expr.value]
    refine (lhs.eval_matches hfits.1 hw).seq fun l a _ hv hl => ?_
    refine (rhs.eval_matches hfits.2 hv).seq fun r b v hv hr => ?_
    rw [Exec.read_bind, Exec.read_bind, Exec.environment_bind, hl.later, hr.later]
    exact (Ending.Matches.compute op _ _ hv).temporary rfl
  | call pos callee args =>
    simp only [Expr.callSites, List.forall_mem_append, List.forall_mem_singleton] at hfits
    simp only [Expr.eval, Expr.value]
    obtain ⟨f, hf, hparams⟩ := hfits.2
    refine (Expr.evalAll_matches args hfits.1 hw).seq ?_
    rintro places values v hv ⟨hlength, hplaces⟩
    rw [Exec.environment_bind, ← hplaces v.env]
    have hcall := hcalls hf (hparams.trans hlength.symm) hv
    have htemporary := hcall.temporary (e := .call pos callee args) rfl
    simpa only [Exec.bind_assoc] using htemporary
  | branch _ test thenBlock elseBlock =>
    simp only [Expr.callSites, List.forall_mem_append] at hfits
    simp only [Expr.eval, Expr.value]
    refine (test.eval_matches hfits.1.1 hw).seq fun place value v hv hplace => ?_
    simp only [Exec.read_bind, hplace.now]
    split
    · exact (Line.evalAll_matches none none thenBlock hfits.1.2 hv rfl).seq
        fun _ _ _ hv hblock => (Ending.Matches.readBlock hv hblock).temporary rfl
    · exact (Line.evalElse_matches elseBlock hfits.2 hv).seq
        fun _ _ _ hv hblock => (Ending.Matches.readBlock hv hblock).temporary rfl

theorem Expr.evalAll_matches (es : List Expr) (hfits : ∀ site ∈ Expr.allCallSites es, site.Fits p)
    {w : World} (hw : w.IsClear) :
    Ending.Matches World.IsClear
      (fun places values _ => places.length = es.length ∧
        ∀ env, places.map (Expr.Place.value env) = List.zipWith (Expr.recall .late env) es values)
      (Expr.evalAll invoke rounds es w) (Expr.values .late apply rounds es w) := by
  cases es with
  | nil =>
    simp only [Expr.evalAll, Expr.values]
    exact .done hw ⟨rfl, fun _ => rfl⟩
  | cons e rest =>
    simp only [Expr.allCallSites, List.forall_mem_append] at hfits
    simp only [Expr.evalAll, Expr.values]
    refine (e.eval_matches hfits.1 hw).seq fun place value _ hv hplace => ?_
    refine (Expr.evalAll_matches rest hfits.2 hv).seq ?_
    rintro places values v hv ⟨hlength, hplaces⟩
    refine .done hv ⟨congrArg (· + 1) hlength, fun env => ?_⟩
    rw [List.map_cons, List.zipWith_cons_cons, hplace.later, hplaces]

theorem Line.eval_matches (l : Line) (hfits : ∀ site ∈ l.callSites, site.Fits p) {w : World}
    (hw : w.IsClear) :
    Ending.Matches World.IsClear Line.Denotes (l.eval invoke rounds w)
      (l.value .late apply rounds w) := by
  cases l with
  | expr _ e =>
    simp only [Line.callSites] at hfits
    simp only [Line.eval, Line.value]
    refine (e.eval_matches hfits hw).seq fun place value v hv hplace => ?_
    exact .done hv (congrArg some hplace.now)
  | loop _ body =>
    simp only [Line.callSites] at hfits
    simp only [Line.eval, Line.value]
    have hbody (v : World) (hv : v.IsClear) := Line.evalAll_matches none none body hfits hv rfl
    exact (Ending.Matches.iterate hbody hw rounds).seq fun _ _ _ hv _ => .done hv rfl
  | brk _ =>
    simp only [Line.eval, Line.value]
    exact .broken hw
  | other _ =>
    simp only [Line.eval, Line.value]
    exact .unfinished

theorem Line.evalAll_matches (place : Option Expr.Place) (value : Option Int32) (ls : List Line)
    (hfits : ∀ site ∈ Line.allCallSites ls, site.Fits p) {w : World} (hw : w.IsClear)
    (hplace : Line.Denotes place value w) :
    Ending.Matches World.IsClear Line.Denotes
      (Line.evalAll invoke rounds place ls w)
      (Line.valueAll .late apply rounds value ls w) := by
  cases ls with
  | nil =>
    simp only [Line.evalAll, Line.valueAll]
    exact .done hw hplace
  | cons l rest =>
    simp only [Line.allCallSites, List.forall_mem_append] at hfits
    simp only [Line.evalAll, Line.valueAll]
    exact (l.eval_matches hfits.1 hw).seq fun place value v hv hplace =>
      Line.evalAll_matches place value rest hfits.2 hv hplace

theorem Line.evalElse_matches (block : Option (List Line))
    (hfits : ∀ site ∈ Line.elseCallSites block, site.Fits p) {w : World} (hw : w.IsClear) :
    Ending.Matches World.IsClear Line.Denotes
      (Line.evalElse invoke rounds block w)
      (Line.valueElse .late apply rounds block w) := by
  cases block with
  | none =>
    simp only [Line.evalElse, Line.valueElse]
    exact .done hw rfl
  | some ls =>
    simp only [Line.elseCallSites] at hfits
    simp only [Line.evalElse, Line.valueElse]
    exact Line.evalAll_matches none none ls hfits hw rfl

end

end Places

/-! ## Programs -/

section Programs

variable {p : Program}

/-- A function that takes its arguments from the stack and leaves its value there ends like one that
is applied to values. -/
theorem FnDef.eval_matches {invoke : Text → Exec Unit} {apply : Text → List Int32 → Exec Int32}
    (hcalls : p.CallsMatch invoke apply) (rounds : Nat) (f : FnDef)
    (hfits : ∀ site ∈ Line.allCallSites f.block, site.Fits p) {values : List Int32}
    (hlength : f.params.length = values.length) (env : Text → Int32) :
    Ending.Matches World.IsClear (fun a b _ => a = b)
      ((do Exec.inNewActivation (f.eval invoke rounds); Exec.pop : Exec Int32)
        ⟨env, values.reverse.toArray⟩)
      (Exec.inNewActivation (f.value .late apply rounds values) ⟨env, #[]⟩) := by
  obtain ⟨env', hargs⟩ := Exec.assignAll_done f.params values ⟨fun _ => 0, #[]⟩
  have htake := (Exec.takeArguments_eq hlength).trans hargs
  have hblock :=
    Line.evalAll_matches hcalls rounds none none f.block hfits (w := ⟨env', #[]⟩) rfl rfl
  simp only [Bind.bind, Exec.bind, Exec.inNewActivation, FnDef.eval, FnDef.value, hargs, htake]
  generalize Line.evalAll _ _ _ _ _ = r, Line.valueAll _ _ _ _ _ _ = r' at hblock
  cases hblock with
  | @done place value w hw hplace =>
    obtain ⟨env₁, operands⟩ := w
    obtain rfl : operands = #[] := hw
    subst hplace
    cases place with
    | none => exact .unfinished
    | some place =>
      have hpush (value : Int32) : Exec.push value ⟨env₁, #[]⟩ = .done () ⟨env₁, #[value]⟩ :=
        if_pos (show 0 < maxOperands by decide)
      simp only [Exec.read, Exec.bind, hpush]
      exact .done rfl rfl
  | broken hw => exact .unfinished
  | faulted kind => exact .faulted kind
  | unfinished => exact .unfinished

/-- The calls in a function that a name means are calls of the program. -/
theorem Program.CallsFit.of_function? (h : p.CallsFit) {x : Text} {f : FnDef}
    (hf : p.function? x = some f) : ∀ site ∈ Line.allCallSites f.block, site.Fits p := by
  obtain ⟨before, after, rfl, -, -⟩ := Program.function?_eq_some.1 hf
  intro site hsite
  exact h site (List.mem_flatMap.2 ⟨.fn f, by simp, hsite⟩)

theorem Program.callsMatch (hfits : p.CallsFit) (rounds depth : Nat) :
    p.CallsMatch (p.invoke rounds depth) (p.apply .late rounds depth) := by
  -- What a function calls has one level of calls less to go, under both evaluations.
  induction depth with
  | zero =>
    rintro x f places ⟨env, operands⟩ hf - (rfl : operands = #[])
    simp only [Bind.bind, Exec.bind, Exec.pushAll_reverse, Program.invoke_zero hf, Program.apply]
    by_cases hroom : places.length ≤ maxOperands
    · simp only [if_pos hroom]
      exact .faulted _
    · simp only [if_neg hroom]
      exact .faulted _
  | succ depth ih =>
    rintro x f places ⟨env, operands⟩ hf hlength (rfl : operands = #[])
    have hmatch := f.eval_matches ih rounds (hfits.of_function? hf)
      (hlength.trans (List.length_map (Expr.Place.value env)).symm) env
    simp only [Bind.bind, Exec.bind, Exec.pushAll_reverse, Program.apply, hf, List.length_map]
    by_cases hroom : places.length ≤ maxOperands
    · simp only [if_pos hroom, Program.invoke_succ hf]
      exact hmatch
    · simp only [if_neg hroom]
      exact .faulted _

/-- A program whose last statement is an expression ends as its evaluation says. -/
theorem Program.evalFrom_matches {invoke : Text → Exec Unit}
    {apply : Text → List Int32 → Exec Int32} (hcalls : p.CallsMatch invoke apply) (rounds : Nat)
    (before : Program) (pos : Pos) (e : Expr)
    (hfits : ∀ site ∈ Program.callSites (before ++ [.line (.expr pos e)]), site.Fits p)
    (last : Option Expr.Place) (value : Option Int32) {w : World} (hw : w.IsClear) :
    Ending.Matches World.IsClear Line.Denotes
      (Program.evalFrom invoke rounds last (before ++ [.line (.expr pos e)]) w)
      (Line.valueAll .late apply rounds value
        (Program.lines (before ++ [.line (.expr pos e)])) w) := by
  induction before generalizing last value w with
  | nil =>
    have he : ∀ site ∈ e.callSites, site.Fits p := fun site hsite => hfits site (by
      simpa [Program.callSites, Statement.callSites, Line.callSites] using hsite)
    simp only [Program.evalFrom, Program.lines, List.nil_append, List.filterMap_cons,
      List.filterMap_nil, Line.valueAll, Line.eval, Line.value, Exec.bind_assoc]
    exact (e.eval_matches hcalls rounds he hw).seq fun _ _ _ hv hplace =>
      .done hv (congrArg some hplace.now)
  | cons st rest ih =>
    rw [List.cons_append] at hfits
    simp only [Program.callSites, List.flatMap_cons, List.forall_mem_append] at hfits
    cases st with
    | fn f => exact ih hfits.2 last value hw
    | line l =>
      refine (l.eval_matches hcalls rounds hfits.1 hw).seq ?_
      exact fun place value v hv _ => ih hfits.2 _ value hv

/-- A program with checked calls whose last statement is an expression means what its evaluation
gives that reads variables late. -/
theorem Program.interpret_matches {before : Program} {pos : Pos} {e : Expr}
    (hp : p = before ++ [.line (.expr pos e)]) (hfits : p.CallsFit) (rounds : Nat) :
    Ending.Matches World.IsClear (fun a b _ => a = b) (p.interpret rounds)
      (p.evaluate .late rounds) := by
  have hcalls := Program.callsMatch hfits rounds maxCallDepth
  have hlast := Program.evalFrom_matches hcalls rounds before pos e (hp ▸ hfits) none none
    (w := ⟨fun _ => 0, #[]⟩) rfl
  rw [← hp] at hlast
  simp only [Program.interpret, Program.evaluate, Bind.bind, Exec.bind]
  generalize Program.evalFrom _ _ _ _ _ = r, Line.valueAll _ _ _ _ _ _ = r' at hlast
  cases hlast with
  | @done place value w hw hplace =>
    subst hplace
    cases place <;> exact .done hw rfl
  | broken hw => exact .broken hw
  | faulted kind => exact .faulted kind
  | unfinished => exact .unfinished

end Programs

end FrameLang
