import FrameLang.Proofs.Lowering.Emission
import Mathlib.Algebra.GroupWithZero.Nat

/-!
# The layout of code

How much code a construct has depends on the construct alone, so the place of every statement is
known before any label or register is. A program is described by splitting it: in
`before ++ st :: after` the code of `st` starts behind `before.codeLength` instructions.

## Main definitions

* `Expr.codeLength`, `Line.codeLength`, `Program.codeLength` — the number of instructions.
* `FnDef.Spans` — the places from the entry of a function to its return.
-/

namespace FrameLang

mutual

/-- The number of instructions of an expression. -/
def Expr.codeLength : Expr → Nat
  | .int .. | .bool .. => 1
  | .str .. | .name .. | .malformed .. => 0
  | .assign _ _ value => value.codeLength + 1
  | .binary _ _ lhs rhs => lhs.codeLength + rhs.codeLength + 1
  | .call _ _ args => Expr.codeLengthAll args + args.length + 2
  | .branch _ test thenBlock elseBlock =>
    test.codeLength + Line.codeLengthAll thenBlock + Line.codeLengthElse elseBlock + 8

/-- The number of instructions of several expressions. -/
def Expr.codeLengthAll : List Expr → Nat
  | [] => 0
  | e :: rest => e.codeLength + Expr.codeLengthAll rest

/-- The number of instructions of a line. -/
def Line.codeLength : Line → Nat
  | .expr _ e => e.codeLength
  | .loop _ body => Line.codeLengthAll body + 3
  | .brk _ => 1
  | .other _ => 0

/-- The number of instructions of a block. -/
def Line.codeLengthAll : List Line → Nat
  | [] => 0
  | l :: rest => l.codeLength + Line.codeLengthAll rest

/-- The number of instructions of an else branch. -/
def Line.codeLengthElse : Option (List Line) → Nat
  | none => 0
  | some block => Line.codeLengthAll block

end

/-- The number of instructions of a definition: a jump, the entry, the parameters, the body, the
delivery of the result, the return and the label behind it. -/
def FnDef.codeLength (f : FnDef) : Nat :=
  f.params.length + Line.codeLengthAll f.block + 5

/-- The number of instructions of a statement. -/
def Statement.codeLength : Statement → Nat
  | .fn f => f.codeLength
  | .line l => l.codeLength

/-- The number of instructions of a program. -/
def Program.codeLength (p : Program) : Nat :=
  (p.map Statement.codeLength).sum

/-- The number of instructions of a construct. -/
def Construct.codeLength : Construct → Nat
  | .expr e => e.codeLength
  | .args es => Expr.codeLengthAll es
  | .line l => l.codeLength
  | .block _ ls => Line.codeLengthAll ls
  | .params xs => xs.length

/-- The place `i` lies between the entry of `f` and its return, both included, if the code of the
definition starts at `start`. -/
def FnDef.Spans (f : FnDef) (start i : Nat) : Prop :=
  start + 1 ≤ i ∧ i + 2 ≤ start + f.codeLength

instance (f : FnDef) (start i : Nat) : Decidable (f.Spans start i) :=
  inferInstanceAs (Decidable (_ ∧ _))

theorem Line.codeLengthElse_eq (block : Option (List Line)) :
    Line.codeLengthElse block = Line.codeLengthAll (block.getD []) := by
  cases block <;> simp [Line.codeLengthElse, Line.codeLengthAll]

@[simp] theorem Program.codeLength_nil : Program.codeLength [] = 0 := rfl

@[simp] theorem Program.codeLength_cons (st : Statement) (p : Program) :
    Program.codeLength (st :: p) = st.codeLength + Program.codeLength p := by
  simp [Program.codeLength]

@[simp] theorem Program.codeLength_append (p q : Program) :
    Program.codeLength (p ++ q) = Program.codeLength p + Program.codeLength q := by
  simp [Program.codeLength]

/-- One register is found for every argument. -/
theorem Emits.length_places {s : Surroundings} {es : List Expr} {a b : Allocation}
    {code : List Instr} {places : List Register} (h : Emits s (.args es) a code places b) :
    places.length = es.length := by
  induction es generalizing a code places with
  | nil => cases h; rfl
  | cons e rest ih =>
    cases h with
    | moreArgs _ hr => simp [ih hr]

/-- Code has the length that its construct says. -/
theorem Emits.length_eq {s : Surroundings} {c : Construct} {a b : Allocation} {code : List Instr}
    {v : c.Value} (h : Emits s c a code v b) : code.length = c.codeLength := by
  induction h with
  | int | bool | name | noArgs | brk | noLines | noParams =>
    simp [Construct.codeLength, Expr.codeLength, Expr.codeLengthAll, Line.codeLength,
      Line.codeLengthAll]
  | assign _ _ _ _ ih => simpa [Construct.codeLength, Expr.codeLength] using ih
  | binary _ _ _ _ _ ihl ihr =>
    simp only [Construct.codeLength] at ihl ihr
    simp [Construct.codeLength, Expr.codeLength, ihl, ihr, Nat.add_assoc]
  | call _ _ ha _ ih =>
    simp only [Construct.codeLength] at ih
    simp [Construct.codeLength, Expr.codeLength, ih, ha.length_places, Nat.add_assoc]
  | branch _ _ _ _ _ iht ihth ihe =>
    simp only [Construct.codeLength] at iht ihth ihe
    simp only [Construct.codeLength, Expr.codeLength, Line.codeLengthElse_eq, List.length_append,
      List.length_cons, List.length_nil, iht, ihth, ihe]
    omega
  | moreArgs _ _ ih₁ ih₂ =>
    simp only [Construct.codeLength] at ih₁ ih₂
    simp [Construct.codeLength, Expr.codeLengthAll, ih₁, ih₂]
  | exprLine _ _ ih => simpa [Construct.codeLength, Line.codeLength] using ih
  | loop _ _ ih =>
    simp only [Construct.codeLength] at ih
    simp [Construct.codeLength, Line.codeLength, ih]
  | moreLines _ _ _ ih₁ ih₂ =>
    simp only [Construct.codeLength] at ih₁ ih₂
    simp [Construct.codeLength, Line.codeLengthAll, ih₁, ih₂]
  | moreParams _ _ ih => simpa [Construct.codeLength] using ih

theorem Statement.Emits.length_eq {st : Statement} {a b : Allocation} {code : List Instr}
    {v : Option Register} (h : st.Emits a code v b) : code.length = st.codeLength := by
  cases h with
  | line hl => exact hl.length_eq
  | fn hp hb =>
    have hp' := hp.length_eq
    have hb' := hb.length_eq
    simp only [Construct.codeLength] at hp' hb'
    simp only [Statement.codeLength, FnDef.codeLength, List.length_append, List.length_cons,
      List.length_nil, hp', hb']
    omega

theorem Program.Emits.length_eq {p : Program} {result final : Option Register}
    {a b : Allocation} {code : List Instr} (h : Program.Emits result p a code final b) :
    code.length = Program.codeLength p := by
  induction h with
  | nil => rfl
  | cons hs _ ih => simp [hs.length_eq, ih]

/-! ## Splitting programs -/

/-- The code of a program splits where the program does. -/
theorem Program.Emits.append_inv {p q : Program} {result final : Option Register}
    {a b : Allocation} {code : List Instr} (h : Program.Emits result (p ++ q) a code final b) :
    ∃ pCode qCode middle mid, code = pCode ++ qCode ∧
      Program.Emits result p a pCode middle mid ∧ Program.Emits middle q mid qCode final b := by
  induction p generalizing result a code with
  | nil => exact ⟨[], code, result, a, rfl, .nil, h⟩
  | cons st rest ih =>
    cases h with
    | cons hs hr =>
      obtain ⟨pCode, qCode, middle, mid, rfl, hp, hq⟩ := ih hr
      exact ⟨_, qCode, middle, mid, (List.append_assoc _ _ _).symm, .cons hs hp, hq⟩

/-- Two statements of a program are the same one, or one of them is laid out before the other. -/
theorem Program.split_cases {before before' after after' : Program} {st st' : Statement}
    (h : before ++ st :: after = before' ++ st' :: after') :
    (before = before' ∧ st = st' ∧ after = after') ∨
      before.codeLength + st.codeLength ≤ before'.codeLength ∨
      before'.codeLength + st'.codeLength ≤ before.codeLength := by
  rcases List.append_eq_append_iff.1 h with ⟨mid, rfl, hm⟩ | ⟨mid, rfl, hm⟩
  all_goals
    cases mid with
    | nil => simp_all
    | cons x mid =>
      obtain ⟨rfl, -⟩ := List.cons.inj hm
      simp only [Program.codeLength_append, Program.codeLength_cons]
      omega

/-- Every place of the code belongs to a statement. -/
theorem Program.exists_statement {p : Program} {i : Nat} (h : i < p.codeLength) :
    ∃ (before : Program) (st : Statement) (after : Program), p = before ++ st :: after ∧
      before.codeLength ≤ i ∧ i < before.codeLength + st.codeLength := by
  induction p generalizing i with
  | nil => simp at h
  | cons st rest ih =>
    by_cases hi : i < st.codeLength
    · exact ⟨[], st, rest, rfl, Nat.zero_le _, by simpa using hi⟩
    · rw [Program.codeLength_cons] at h
      obtain ⟨before, st', after, rfl, hl, hr⟩ := ih (i := i - st.codeLength) (by omega)
      refine ⟨st :: before, st', after, rfl, ?_, ?_⟩ <;>
        simp only [Program.codeLength_cons] <;> omega

end FrameLang
