import FrameLang.Lowering

/-!
# The code of a construct as a relation

`Emits` relates a construct to the code that is made for it, with one rule for each form of the
language. Every successful lowering is an instance of it, so a fact about code is an induction over
these rules and never opens the lowering functions.

Allocations only grow while code is made: names keep their registers, and new registers and labels
come behind those already handed out.

## Main definitions

* `Construct` — what code is made for.
* `Emits` — the code of a construct.
* `Allocation.Valid`, `Allocation.GrowsTo` — what holds of every allocation, and how it changes.
-/

namespace FrameLang

/-! ## Inverting computations that allocate -/

namespace Lower

variable {α β : Type} {a b : Allocation}

/-- A sequence succeeds exactly if both parts do. -/
theorem bind_eq_ok {x : Lower α} {f : α → Lower β} {r : β} :
    (x >>= f) a = .ok (r, b) ↔ ∃ y c, x a = .ok (y, c) ∧ f y c = .ok (r, b) := by
  simp only [bind, StateT.bind, Except.bind]
  cases hx : x a with
  | error e => simp
  | ok yc =>
    simp only [Except.ok.injEq]
    exact ⟨fun h => ⟨yc.1, yc.2, rfl, h⟩, by rintro ⟨y, c, rfl, h⟩; exact h⟩

/-- A sequence fails exactly if its first part does, or its second part behind the first. -/
theorem bind_eq_error {x : Lower α} {f : α → Lower β} {e : LowerError} :
    (x >>= f) a = .error e ↔
      x a = .error e ∨ ∃ y c, x a = .ok (y, c) ∧ f y c = .error e := by
  simp only [bind, StateT.bind, Except.bind]
  cases hx : x a with
  | error e => simp
  | ok yc =>
    simp only [reduceCtorEq, false_or, Except.ok.injEq]
    exact ⟨fun h => ⟨yc.1, yc.2, rfl, h⟩, by rintro ⟨y, c, rfl, h⟩; exact h⟩

theorem pure_ne_error {x : α} {e : LowerError} : (pure x : Lower α) a ≠ .error e := nofun

theorem pure_eq_ok {x r : α} : (pure x : Lower α) a = .ok (r, b) ↔ x = r ∧ a = b := by
  have hpure : (pure x : Lower α) a = .ok (x, a) := rfl
  rw [hpure, Except.ok.injEq, Prod.mk.injEq]

theorem register_eq_ok {owner : Owner} {r : Register} :
    register owner a = .ok (r, b) ↔ a.registers < registerFileSize ∧
      owner.register a.registers = r ∧ { a with registers := a.registers + 1 } = b := by
  by_cases h : a.registers < registerFileSize <;> simp [register, h]

/-- A name has the register of its first use, or gets a new one. -/
theorem named_eq_ok {owner : Owner} {x : Text} {r : Register} :
    named owner x a = .ok (r, b) ↔
      (∃ n, a.names.lookup x = some n ∧ owner.register n = r ∧ a = b) ∨
      (a.names.lookup x = none ∧ a.registers < registerFileSize ∧
        owner.register a.registers = r ∧
        { a with registers := a.registers + 1, names := (x, a.registers) :: a.names } = b) := by
  unfold named
  cases hx : a.names.lookup x with
  | some n => simp
  | none =>
    by_cases hr : a.registers < registerFileSize <;> simp [register, hr, bind, Except.bind]

theorem inNewScope_eq_ok {body : Lower α} {r : α} :
    inNewScope body a = .ok (r, b) ↔
      ∃ inner, body { labels := a.labels } = .ok (r, inner) ∧
        { a with labels := inner.labels } = b := by
  unfold inNewScope
  cases hx : body { labels := a.labels } with
  | error e => simp [bind, Except.bind]
  | ok yc =>
    obtain ⟨y, c⟩ := yc
    simp only [bind, Except.bind, Except.ok.injEq, Prod.mk.injEq]
    exact ⟨fun ⟨hy, hb⟩ => ⟨c, ⟨hy, rfl⟩, hb⟩, by rintro ⟨_, ⟨hy, rfl⟩, hb⟩; exact ⟨hy, hb⟩⟩

theorem inNewScope_eq_error {body : Lower α} {e : LowerError} :
    inNewScope body a = .error e ↔ body { labels := a.labels } = .error e := by
  unfold inNewScope
  cases hx : body { labels := a.labels } <;> simp [bind, Except.bind]

end Lower

/-! ## The relation -/

/-- The label with the given number. -/
def Label.ofNumber (n : Nat) : Label := .numbered (UInt32.ofNat n)

/-- What code is made for. A block stands with the value that it has if it has no lines. -/
inductive Construct where
  | expr (e : Expr)
  | args (es : List Expr)
  | line (l : Line)
  | block (value : Option Register) (ls : List Line)
  /-- The parameters of a function, which are taken from the operand stack. -/
  | params (xs : List Text)

/-- Where the value of a construct is found. -/
abbrev Construct.Value : Construct → Type
  | .expr _ => Register
  | .args _ => List Register
  | .line _ | .block _ _ => Option Register
  | .params _ => Unit

/-- `Emits s c a code v b`: in the surroundings `s` and with `a` handed out before and `b` behind,
the construct `c` has the code `code`, and its value is found at `v`. -/
inductive Emits : Surroundings → (c : Construct) → Allocation → List Instr → c.Value →
    Allocation → Prop where
  | int {s : Surroundings} {a b : Allocation} {out : Register} (pos : Pos) (value : Int32) :
      Lower.register s.owner a = .ok (out, b) →
      Emits s (.expr (.int pos value)) a [.loadI value out] out b
  | bool {s : Surroundings} {a b : Allocation} {out : Register} (pos : Pos) (value : Bool) :
      Lower.register s.owner a = .ok (out, b) →
      Emits s (.expr (.bool pos value)) a [.loadI (if value then 1 else 0) out] out b
  | name {s : Surroundings} {a b : Allocation} {out : Register} (pos : Pos) (x : Text) :
      Lower.named s.owner x a = .ok (out, b) → Emits s (.expr (.name pos x)) a [] out b
  | assign {s : Surroundings} {a a₁ b : Allocation} {value : Expr} {code : List Instr}
      {src out : Register} (pos : Pos) (x : Text) :
      Emits s (.expr value) a code src a₁ → Lower.named s.owner x a₁ = .ok (out, b) →
      Emits s (.expr (.assign pos x value)) a (code ++ [.move src out]) out b
  | binary {s : Surroundings} {a a₁ a₂ b : Allocation} {lhs rhs : Expr}
      {lhsCode rhsCode : List Instr} {l r out : Register} (pos : Pos) (op : Operator) :
      Emits s (.expr lhs) a lhsCode l a₁ → Emits s (.expr rhs) a₁ rhsCode r a₂ →
      Lower.register s.owner a₂ = .ok (out, b) →
      Emits s (.expr (.binary pos op lhs rhs)) a (lhsCode ++ rhsCode ++ [.binary op l r out]) out b
  | call {s : Surroundings} {a a₁ b : Allocation} {args : List Expr} {code : List Instr}
      {places : List Register} {out : Register} (pos : Pos) (callee : Text) :
      Emits s (.args args) a code places a₁ → Lower.register s.owner a₁ = .ok (out, b) →
      Emits s (.expr (.call pos callee args)) a
        (code ++ places.reverse.map .push ++ [.call (.named callee), .pop out]) out b
  | branch {s : Surroundings} {a a₁ a₂ a₃ b : Allocation} {test : Expr} {thenBlock : List Line}
      {elseBlock : Option (List Line)} {testCode thenCode elseCode : List Instr}
      {t out : Register} {thenValue elseValue : Option Register} (pos : Pos) :
      Lower.register s.owner a = .ok (out, a₁) → Emits s (.expr test) a₁ testCode t a₂ →
      Emits s (.block none thenBlock) { a₂ with labels := a₂.labels + 3 } thenCode thenValue a₃ →
      Emits s (.block none (elseBlock.getD [])) a₃ elseCode elseValue b →
      Emits s (.expr (.branch pos test thenBlock elseBlock)) a
        (testCode ++
          [.branch t (.ofNumber a₂.labels) (.ofNumber (a₂.labels + 2))] ++
          (.label (.ofNumber a₂.labels) ::
            thenCode ++ [deliver thenValue out, .jump (.ofNumber (a₂.labels + 1))]) ++
          (.label (.ofNumber (a₂.labels + 2)) ::
            elseCode ++ [deliver elseValue out, .jump (.ofNumber (a₂.labels + 1))]) ++
          [.label (.ofNumber (a₂.labels + 1))]) out b
  | noArgs {s : Surroundings} {a : Allocation} : Emits s (.args []) a [] [] a
  | moreArgs {s : Surroundings} {a a₁ b : Allocation} {e : Expr} {es : List Expr}
      {code restCode : List Instr} {place : Register} {places : List Register} :
      Emits s (.expr e) a code place a₁ → Emits s (.args es) a₁ restCode places b →
      Emits s (.args (e :: es)) a (code ++ restCode) (place :: places) b
  | exprLine {s : Surroundings} {a b : Allocation} {e : Expr} {code : List Instr}
      {place : Register} (pos : Pos) :
      Emits s (.expr e) a code place b → Emits s (.line (.expr pos e)) a code (some place) b
  | loop {s : Surroundings} {a b : Allocation} {body : List Line} {code : List Instr}
      {value : Option Register} (pos : Pos) :
      Emits { s with loopEnd := some (.ofNumber (a.labels + 1)) } (.block none body)
        { a with labels := a.labels + 2 } code value b →
      Emits s (.line (.loop pos body)) a
        (.label (.ofNumber a.labels) ::
          code ++ [.jump (.ofNumber a.labels), .label (.ofNumber (a.labels + 1))]) none b
  | brk {s : Surroundings} {a : Allocation} {target : Label} (pos : Pos) :
      s.loopEnd = some target → Emits s (.line (.brk pos)) a [.jump target] none a
  | noLines {s : Surroundings} {a : Allocation} (value : Option Register) :
      Emits s (.block value []) a [] value a
  | moreLines {s : Surroundings} {a a₁ b : Allocation} {l : Line} {ls : List Line}
      {code restCode : List Instr} {v result : Option Register} (value : Option Register) :
      Emits s (.line l) a code v a₁ → Emits s (.block v ls) a₁ restCode result b →
      Emits s (.block value (l :: ls)) a (code ++ restCode) result b
  | noParams {s : Surroundings} {a : Allocation} : Emits s (.params []) a [] () a
  | moreParams {s : Surroundings} {a a₁ b : Allocation} {x : Text} {xs : List Text}
      {code : List Instr} {place : Register} :
      Lower.named s.owner x a = .ok (place, a₁) → Emits s (.params xs) a₁ code () b →
      Emits s (.params (x :: xs)) a (.pop place :: code) () b

theorem Line.lowerElse_eq (s : Surroundings) (block : Option (List Line)) :
    Line.lowerElse s block = Line.lowerAll s none (block.getD []) := by
  cases block <;> simp [Line.lowerElse, Line.lowerAll]

/-- A malformed node has no code. -/
theorem Expr.lower_malformed_ne_ok {s : Surroundings} {a b : Allocation} {r : List Instr × Register}
    (pos : Pos) (form : Form) (parts : List Expr) (thenBlock : List Line)
    (elseBlock : Option (List Line)) :
    (Expr.malformed pos form parts thenBlock elseBlock).lower s a ≠ .ok (r, b) := by
  intro h
  cases form with
  | assign | branch | other => simp [Expr.lower, Lower.fail] at h
  | binary op =>
    match op, parts with
    | some _, _ | none, [] | none, [_] | none, _ :: _ :: _ :: _ =>
      simp [Expr.lower, Lower.fail] at h
    | none, [lhs, rhs] => simp [Expr.lower, Lower.bind_eq_ok, Lower.fail] at h

mutual

/-- The code of an expression is what the relation says. -/
theorem Expr.emits (e : Expr) (s : Surroundings) (a : Allocation) {code : List Instr}
    {r : Register} {b : Allocation} (h : e.lower s a = .ok ((code, r), b)) :
    Emits s (.expr e) a code r b := by
  cases e with
  | int pos value =>
    simp only [Expr.lower, Lower.bind_eq_ok, Lower.pure_eq_ok, Prod.mk.injEq] at h
    obtain ⟨out, _, hr, ⟨rfl, rfl⟩, rfl⟩ := h
    exact .int pos value hr
  | bool pos value =>
    simp only [Expr.lower, Lower.bind_eq_ok, Lower.pure_eq_ok, Prod.mk.injEq] at h
    obtain ⟨out, _, hr, ⟨rfl, rfl⟩, rfl⟩ := h
    exact .bool pos value hr
  | str pos text => simp [Expr.lower, Lower.fail] at h
  | name pos x =>
    simp only [Expr.lower, Lower.bind_eq_ok, Lower.pure_eq_ok, Prod.mk.injEq] at h
    obtain ⟨out, _, hr, ⟨rfl, rfl⟩, rfl⟩ := h
    exact .name pos x hr
  | assign pos x value =>
    simp only [Expr.lower, Lower.bind_eq_ok, Lower.pure_eq_ok, Prod.mk.injEq] at h
    obtain ⟨⟨vc, src⟩, a₁, hv, out, _, hr, ⟨rfl, rfl⟩, rfl⟩ := h
    exact .assign pos x (value.emits s a hv) hr
  | binary pos op lhs rhs =>
    simp only [Expr.lower, Lower.bind_eq_ok, Lower.pure_eq_ok, Prod.mk.injEq] at h
    obtain ⟨⟨lc, l⟩, a₁, hl, ⟨rc, r'⟩, a₂, hr, out, _, ho, ⟨rfl, rfl⟩, rfl⟩ := h
    exact .binary pos op (lhs.emits s a hl) (rhs.emits s a₁ hr) ho
  | call pos callee args =>
    simp only [Expr.lower, Lower.bind_eq_ok, Lower.pure_eq_ok, Prod.mk.injEq] at h
    obtain ⟨⟨ac, places⟩, a₁, ha, out, _, ho, ⟨rfl, rfl⟩, rfl⟩ := h
    exact .call pos callee (Expr.emitsAll args s a ha) ho
  | branch pos test thenBlock elseBlock =>
    simp only [Expr.lower, Line.lowerElse_eq, Lower.bind_eq_ok, Lower.pure_eq_ok, Lower.label,
      Except.ok.injEq, Prod.mk.injEq] at h
    obtain ⟨out, a₁, ho, ⟨tc, t⟩, a₂, ht, _, _, ⟨rfl, rfl⟩, _, _, ⟨rfl, rfl⟩, _, _, ⟨rfl, rfl⟩,
      ⟨thc, tv⟩, a₃, hth, ⟨ec, ev⟩, _, he, ⟨rfl, rfl⟩, rfl⟩ := h
    refine .branch pos ho (test.emits s a₁ ht) (Line.emitsAll thenBlock s none _ hth) ?_
    cases elseBlock with
    | none =>
      simp only [Option.getD_none, Line.lowerAll, Lower.pure_eq_ok, Prod.mk.injEq] at he
      obtain ⟨⟨rfl, rfl⟩, rfl⟩ := he
      exact .noLines none
    | some block => exact Line.emitsAll block s none a₃ he
  | malformed pos form parts thenBlock elseBlock =>
    exact absurd h (Expr.lower_malformed_ne_ok pos form parts thenBlock elseBlock)

/-- The code of several expressions is what the relation says. -/
theorem Expr.emitsAll (es : List Expr) (s : Surroundings) (a : Allocation) {code : List Instr}
    {rs : List Register} {b : Allocation} (h : Expr.lowerAll s es a = .ok ((code, rs), b)) :
    Emits s (.args es) a code rs b := by
  cases es with
  | nil =>
    simp only [Expr.lowerAll, Lower.pure_eq_ok, Prod.mk.injEq] at h
    obtain ⟨⟨rfl, rfl⟩, rfl⟩ := h
    exact .noArgs
  | cons e rest =>
    simp only [Expr.lowerAll, Lower.bind_eq_ok, Lower.pure_eq_ok, Prod.mk.injEq] at h
    obtain ⟨⟨ec, r⟩, a₁, he, ⟨rc, rs'⟩, _, hr, ⟨rfl, rfl⟩, rfl⟩ := h
    exact .moreArgs (e.emits s a he) (Expr.emitsAll rest s a₁ hr)

/-- The code of a line is what the relation says. -/
theorem Line.emits (l : Line) (s : Surroundings) (a : Allocation) {code : List Instr}
    {v : Option Register} {b : Allocation} (h : l.lower s a = .ok ((code, v), b)) :
    Emits s (.line l) a code v b := by
  cases l with
  | expr pos e =>
    simp only [Line.lower, Lower.bind_eq_ok, Lower.pure_eq_ok, Prod.mk.injEq] at h
    obtain ⟨⟨ec, r⟩, _, he, ⟨rfl, rfl⟩, rfl⟩ := h
    exact .exprLine pos (e.emits s a he)
  | loop pos body =>
    simp only [Line.lower, Lower.bind_eq_ok, Lower.pure_eq_ok, Lower.label, Except.ok.injEq,
      Prod.mk.injEq] at h
    obtain ⟨_, _, ⟨rfl, rfl⟩, _, _, ⟨rfl, rfl⟩, ⟨bc, bv⟩, _, hb, ⟨rfl, rfl⟩, rfl⟩ := h
    exact .loop pos (Line.emitsAll body _ none _ hb)
  | brk pos =>
    cases ht : s.loopEnd with
    | none => simp [Line.lower, ht, Lower.fail] at h
    | some target =>
      simp only [Line.lower, ht, Lower.pure_eq_ok, Prod.mk.injEq] at h
      obtain ⟨⟨rfl, rfl⟩, rfl⟩ := h
      exact .brk pos ht
  | other pos => simp [Line.lower, Lower.fail] at h

/-- The code of a block is what the relation says. -/
theorem Line.emitsAll (ls : List Line) (s : Surroundings) (value : Option Register)
    (a : Allocation) {code : List Instr} {v : Option Register} {b : Allocation}
    (h : Line.lowerAll s value ls a = .ok ((code, v), b)) :
    Emits s (.block value ls) a code v b := by
  cases ls with
  | nil =>
    simp only [Line.lowerAll, Lower.pure_eq_ok, Prod.mk.injEq] at h
    obtain ⟨⟨rfl, rfl⟩, rfl⟩ := h
    exact .noLines value
  | cons l rest =>
    simp only [Line.lowerAll, Lower.bind_eq_ok, Lower.pure_eq_ok, Prod.mk.injEq] at h
    obtain ⟨⟨lc, v'⟩, a₁, hl, ⟨rc, rv⟩, _, hr, ⟨rfl, rfl⟩, rfl⟩ := h
    exact .moreLines value (l.emits s a hl) (Line.emitsAll rest s v' a₁ hr)

end

theorem lowerParams_emits {owner : Owner} (loopEnd : Option Label) (xs : List Text)
    {a b : Allocation} {code : List Instr} (h : lowerParams owner xs a = .ok (code, b)) :
    Emits ⟨owner, loopEnd⟩ (.params xs) a code () b := by
  induction xs generalizing a code with
  | nil =>
    simp only [lowerParams, Lower.pure_eq_ok] at h
    obtain ⟨rfl, rfl⟩ := h
    exact .noParams
  | cons x rest ih =>
    simp only [lowerParams, Lower.bind_eq_ok, Lower.pure_eq_ok] at h
    obtain ⟨place, a₁, hx, restCode, _, hr, rfl, rfl⟩ := h
    exact .moreParams hx (ih hr)

/-! ## Statements and programs -/

/-- The surroundings of the lines at the top level. -/
def Surroundings.top : Surroundings := ⟨.topLevel, none⟩

/-- The surroundings of the body of a function. -/
def FnDef.surroundings (f : FnDef) : Surroundings := ⟨.function f.name, none⟩

/-- The code of a statement. A definition takes labels from outside and registers of its own. -/
inductive Statement.Emits : Statement → Allocation → List Instr → Option Register →
    Allocation → Prop where
  | line {l : Line} {a b : Allocation} {code : List Instr} {v : Option Register} :
      FrameLang.Emits .top (.line l) a code v b → Statement.Emits (.line l) a code v b
  | fn {f : FnDef} {a mid inner : Allocation} {params body : List Instr} {place : Register} :
      FrameLang.Emits f.surroundings (.params f.params) { labels := a.labels + 1 } params () mid →
      FrameLang.Emits f.surroundings (.block none f.block) mid body (some place) inner →
      Statement.Emits (.fn f) a
        ([.jump (.ofNumber a.labels), .label (.named f.name)] ++
          (params ++ body ++ [.push place, .ret]) ++ [.label (.ofNumber a.labels)])
        none { a with labels := inner.labels }

theorem FnDef.lower_emits {f : FnDef} {a b : Allocation} {code : List Instr}
    (h : f.lower a = .ok (code, b)) : Statement.Emits (.fn f) a code none b := by
  simp only [FnDef.lower, Lower.bind_eq_ok, Lower.pure_eq_ok, Lower.label, Except.ok.injEq,
    Prod.mk.injEq, Lower.inNewScope_eq_ok] at h
  obtain ⟨_, _, ⟨rfl, rfl⟩, body, _, ⟨inner, hb, rfl⟩, rfl, rfl⟩ := h
  simp only [FnDef.lowerBody, Lower.bind_eq_ok] at hb
  obtain ⟨params, mid, hp, ⟨code, value⟩, inner', hc, hv⟩ := hb
  cases value with
  | none => simp [Lower.fail] at hv
  | some place =>
    simp only [Lower.pure_eq_ok] at hv
    obtain ⟨rfl, rfl⟩ := hv
    exact .fn (lowerParams_emits none f.params hp) (Line.emitsAll f.block _ none mid hc)

theorem Statement.lower_emits {st : Statement} {a b : Allocation} {code : List Instr}
    {v : Option Register} (h : st.lower a = .ok ((code, v), b)) : st.Emits a code v b := by
  cases st with
  | fn f =>
    simp only [Statement.lower, Lower.bind_eq_ok, Lower.pure_eq_ok, Prod.mk.injEq] at h
    obtain ⟨fc, _, hf, ⟨rfl, rfl⟩, rfl⟩ := h
    exact FnDef.lower_emits hf
  | line l => exact .line (l.emits _ a h)

/-- The code of a program, with the register of its last expression line or else `result`. -/
inductive Program.Emits : Option Register → Program → Allocation → List Instr →
    Option Register → Allocation → Prop where
  | nil {result : Option Register} {a : Allocation} : Program.Emits result [] a [] result a
  | cons {result final v : Option Register} {st : Statement} {rest : Program}
      {a a₁ b : Allocation} {code restCode : List Instr} :
      st.Emits a code v a₁ → Program.Emits (v.or result) rest a₁ restCode final b →
      Program.Emits result (st :: rest) a (code ++ restCode) final b

theorem Program.lower_emits {p : Program} {result final : Option Register} {a b : Allocation}
    {code : List Instr} (h : Program.lower result p a = .ok ((code, final), b)) :
    Program.Emits result p a code final b := by
  induction p generalizing result a code with
  | nil =>
    simp only [Program.lower, Lower.pure_eq_ok, Prod.mk.injEq] at h
    obtain ⟨⟨rfl, rfl⟩, rfl⟩ := h
    exact .nil
  | cons st rest ih =>
    simp only [Program.lower, Lower.bind_eq_ok, Lower.pure_eq_ok, Prod.mk.injEq] at h
    obtain ⟨⟨sc, v⟩, a₁, hs, ⟨rc, rv⟩, _, hr, ⟨rfl, rfl⟩, rfl⟩ := h
    exact .cons (Statement.lower_emits hs) (ih hr)

/-! ## Growing allocations -/

/-- What holds of every allocation: it fits a register file, and no two names share a register. -/
structure Allocation.Valid (a : Allocation) : Prop where
  bounded : a.registers ≤ registerFileSize
  below {x : Text} {n : Nat} : a.names.lookup x = some n → n < a.registers
  distinct {x y : Text} {n : Nat} :
    a.names.lookup x = some n → a.names.lookup y = some n → x = y

/-- How allocations change: names keep their registers, and new ones get new registers. -/
structure Allocation.GrowsTo (a b : Allocation) : Prop where
  labels : a.labels ≤ b.labels
  registers : a.registers ≤ b.registers
  kept {x : Text} {n : Nat} : a.names.lookup x = some n → b.names.lookup x = some n
  fresh {x : Text} {n : Nat} :
    b.names.lookup x = some n → a.names.lookup x = some n ∨ a.registers ≤ n

namespace Allocation

variable {a b c : Allocation}

theorem lookup_names_cons (x y : Text) (n : Nat) (names : List (Text × Nat)) :
    ((x, n) :: names).lookup y = if y = x then some n else names.lookup y := by
  rw [List.lookup_cons]
  by_cases h : y = x
  · simp [h]
  · simp [h, beq_false_of_ne h]

theorem valid_empty (labels : Nat) : ({ labels := labels } : Allocation).Valid :=
  ⟨Nat.zero_le _, by simp, by simp⟩

theorem Valid.withLabels (h : a.Valid) (labels : Nat) : { a with labels := labels }.Valid :=
  ⟨h.bounded, h.below, h.distinct⟩

theorem GrowsTo.refl (a : Allocation) : a.GrowsTo a :=
  ⟨Nat.le_refl _, Nat.le_refl _, id, .inl⟩

theorem GrowsTo.trans (h : a.GrowsTo b) (g : b.GrowsTo c) : a.GrowsTo c where
  labels := Nat.le_trans h.labels g.labels
  registers := Nat.le_trans h.registers g.registers
  kept hx := g.kept (h.kept hx)
  fresh hx := by
    rcases g.fresh hx with hb | hb
    · exact h.fresh hb
    · exact .inr (Nat.le_trans h.registers hb)

theorem growsTo_withLabels {labels : Nat} (h : a.labels ≤ labels) :
    a.GrowsTo { a with labels := labels } :=
  ⟨h, Nat.le_refl _, id, .inl⟩

/-- A register that was handed out without a name never gets one. -/
theorem Valid.lookup_ne (h : a.Valid) (g : { a with registers := a.registers + 1 }.GrowsTo b)
    (x : Text) : b.names.lookup x ≠ some a.registers := by
  intro hx
  rcases g.fresh hx with ha | ha
  · exact absurd (h.below ha) (Nat.lt_irrefl _)
  · exact absurd ha (Nat.not_succ_le_self _)

end Allocation

namespace Lower

variable {a b : Allocation} {owner : Owner} {r : Register} {x : Text}

theorem register_growsTo (h : register owner a = .ok (r, b)) : a.GrowsTo b := by
  obtain ⟨-, -, rfl⟩ := register_eq_ok.1 h
  exact ⟨Nat.le_refl _, Nat.le_succ _, id, .inl⟩

theorem register_valid (h : register owner a = .ok (r, b)) (ha : a.Valid) : b.Valid := by
  obtain ⟨hr, -, rfl⟩ := register_eq_ok.1 h
  exact ⟨hr, fun hx => Nat.lt_succ_of_lt (ha.below hx), ha.distinct⟩

theorem named_growsTo (h : named owner x a = .ok (r, b)) : a.GrowsTo b := by
  rcases named_eq_ok.1 h with ⟨n, -, -, rfl⟩ | ⟨hx, -, -, rfl⟩
  · exact .refl a
  · refine ⟨Nat.le_refl _, Nat.le_succ _, fun {y n} hy => ?_, fun {y n} hy => ?_⟩
    · have hne : y ≠ x := by rintro rfl; simp_all
      simpa [Allocation.lookup_names_cons, hne] using hy
    · simp only [Allocation.lookup_names_cons] at hy
      split at hy
      · exact .inr (Nat.le_of_eq (Option.some.inj hy))
      · exact .inl hy

theorem named_valid (h : named owner x a = .ok (r, b)) (ha : a.Valid) : b.Valid := by
  rcases named_eq_ok.1 h with ⟨n, -, -, rfl⟩ | ⟨hx, hr, -, rfl⟩
  · exact ha
  · have hlt {w : Text} (hw : a.names.lookup w = some a.registers) : False :=
      absurd (ha.below hw) (Nat.lt_irrefl _)
    refine ⟨hr, fun {y n} hy => ?_, fun {y z n} hy hz => ?_⟩
    · simp only [Allocation.lookup_names_cons] at hy
      split at hy
      · exact Nat.lt_succ_of_le (Nat.le_of_eq (Option.some.inj hy).symm)
      · exact Nat.lt_succ_of_lt (ha.below hy)
    · simp only [Allocation.lookup_names_cons] at hy hz
      split at hy <;> split at hz
      · simp_all
      · cases hy; exact (hlt hz).elim
      · cases hz; exact (hlt hy).elim
      · exact ha.distinct hy hz

theorem register_labels (h : register owner a = .ok (r, b)) : b.labels = a.labels := by
  obtain ⟨-, -, rfl⟩ := register_eq_ok.1 h
  rfl

theorem named_labels (h : named owner x a = .ok (r, b)) : b.labels = a.labels := by
  rcases named_eq_ok.1 h with ⟨n, -, -, rfl⟩ | ⟨-, -, -, rfl⟩ <;> rfl

/-- The register of a name is found under the name. -/
theorem named_lookup (h : named owner x a = .ok (r, b)) :
    ∃ n, b.names.lookup x = some n ∧ owner.register n = r := by
  rcases named_eq_ok.1 h with ⟨n, hx, hr, rfl⟩ | ⟨hx, -, hr, rfl⟩
  · exact ⟨n, hx, hr⟩
  · exact ⟨a.registers, by simp, hr⟩

end Lower

namespace Emits

variable {s : Surroundings} {c : Construct} {a b : Allocation} {code : List Instr} {v : c.Value}

/-- Making code hands out more and takes nothing back. -/
theorem growsTo (h : Emits s c a code v b) : a.GrowsTo b := by
  induction h with
  | int _ _ hr | bool _ _ hr => exact Lower.register_growsTo hr
  | name _ _ hn => exact Lower.named_growsTo hn
  | assign _ _ _ hn ih => exact ih.trans (Lower.named_growsTo hn)
  | binary _ _ _ _ hr ihl ihr => exact (ihl.trans ihr).trans (Lower.register_growsTo hr)
  | call _ _ _ hr ih => exact ih.trans (Lower.register_growsTo hr)
  | branch _ hr _ _ _ iht ihth ihe =>
    have hg := (Lower.register_growsTo hr).trans iht
    exact (hg.trans (Allocation.growsTo_withLabels (Nat.le_add_right _ 3))).trans (ihth.trans ihe)
  | noArgs | brk | noLines | noParams => exact .refl _
  | moreArgs _ _ ih₁ ih₂ | moreLines _ _ _ ih₁ ih₂ => exact ih₁.trans ih₂
  | exprLine _ _ ih => exact ih
  | loop _ _ ih => exact (Allocation.growsTo_withLabels (Nat.le_add_right _ 2)).trans ih
  | moreParams hn _ ih => exact (Lower.named_growsTo hn).trans ih

/-- Making code keeps allocations valid. -/
theorem valid (h : Emits s c a code v b) (ha : a.Valid) : b.Valid := by
  induction h with
  | int _ _ hr | bool _ _ hr => exact Lower.register_valid hr ha
  | name _ _ hn => exact Lower.named_valid hn ha
  | assign _ _ _ hn ih => exact Lower.named_valid hn (ih ha)
  | binary _ _ _ _ hr ihl ihr => exact Lower.register_valid hr (ihr (ihl ha))
  | call _ _ _ hr ih => exact Lower.register_valid hr (ih ha)
  | branch _ hr _ _ _ iht ihth ihe =>
    exact ihe (ihth ((iht (Lower.register_valid hr ha)).withLabels _))
  | noArgs | brk | noLines | noParams => exact ha
  | moreArgs _ _ ih₁ ih₂ | moreLines _ _ _ ih₁ ih₂ => exact ih₂ (ih₁ ha)
  | exprLine _ _ ih => exact ih ha
  | loop _ _ ih => exact ih (ha.withLabels _)
  | moreParams hn _ ih => exact ih (Lower.named_valid hn ha)

end Emits

theorem Statement.Emits.growsTo {st : Statement} {a b : Allocation} {code : List Instr}
    {v : Option Register} (h : st.Emits a code v b) : a.GrowsTo b := by
  cases h with
  | line hl => exact hl.growsTo
  | fn hp hb =>
    have hg := (hp.growsTo.trans hb.growsTo).labels
    exact Allocation.growsTo_withLabels (Nat.le_trans (Nat.le_succ _) hg)

theorem Statement.Emits.valid {st : Statement} {a b : Allocation} {code : List Instr}
    {v : Option Register} (h : st.Emits a code v b) (ha : a.Valid) : b.Valid := by
  cases h with
  | line hl => exact hl.valid ha
  | fn _ _ => exact ha.withLabels _

theorem Program.Emits.growsTo {p : Program} {result final : Option Register} {a b : Allocation}
    {code : List Instr} (h : Program.Emits result p a code final b) : a.GrowsTo b := by
  induction h with
  | nil => exact .refl _
  | cons hs _ ih => exact hs.growsTo.trans ih

theorem Program.Emits.valid {p : Program} {result final : Option Register} {a b : Allocation}
    {code : List Instr} (h : Program.Emits result p a code final b) (ha : a.Valid) : b.Valid := by
  induction h with
  | nil => exact ha
  | cons hs _ ih => exact ih (hs.valid ha)

end FrameLang
