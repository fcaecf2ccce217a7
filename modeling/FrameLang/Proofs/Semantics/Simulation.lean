import FrameLang.Proofs.Lowering.Relabelling
import FrameLang.Proofs.Semantics.Following
import Mathlib.Data.List.Forall2

/-!
# Code follows its construct

The code of every construct follows the computation that the construct means. The induction is over
the rules that make code, for all frames at once; what carries it is that the variables of the world
are read off the frame, and that code leaves alone the temporaries handed out before it.

## Main definitions

* `Construct.eval` — the computation that a construct means.
* `Construct.Held` — registers hold what a construct denotes.
* `Scope.Calls` — calls follow a given computation.
* `Simulates` — code follows a construct wherever it stands.
-/

namespace FrameLang

/-- What a construct denotes. -/
abbrev Construct.Result : Construct → Type
  | .expr _ => Expr.Place
  | .args _ => List Expr.Place
  | .line _ | .block _ _ => Option Expr.Place
  | .params _ => Unit

/-- The computation that a construct means. A block without lines denotes the given place. -/
def Construct.eval (invoke : Text → Exec Unit) (rounds : Nat) (given : Option Expr.Place) :
    (c : Construct) → Exec c.Result
  | .expr e => e.eval invoke rounds
  | .args es => Expr.evalAll invoke rounds es
  | .line l => l.eval invoke rounds
  | .block _ ls => Line.evalAll invoke rounds given ls
  | .params xs => Exec.takeArguments xs

theorem Line.evalElse_eq (invoke : Text → Exec Unit) (rounds : Nat) (block : Option (List Line)) :
    Line.evalElse invoke rounds block = Line.evalAll invoke rounds none (block.getD []) := by
  cases block <;> simp [Line.evalElse, Line.evalAll]

section Held

variable (S : Scope) (lo : Nat) (g : Frame)

/-- The register holds in the frame what the place denotes. -/
abbrev Scope.Holds (r : Register) (place : Expr.Place) : Prop :=
  place.Held S.final S.owner lo g r

/-- The registers of a value hold what the construct denotes. -/
def Construct.Held : (c : Construct) → c.Value → c.Result → Prop
  | .expr _, r, place => S.Holds lo g r place
  | .args _, rs, places => List.Forall₂ (S.Holds lo g) rs places
  | .line _, v, place | .block _ _, v, place => Option.Rel (S.Holds lo g) v place
  | .params _, _, _ => True

/-- The place that a block comes with is held by the register that it comes with. -/
def Construct.Given (given : Option Expr.Place) : Construct → Prop
  | .block value _ => Option.Rel (S.Holds lo g) value given
  | _ => True

end Held

/-! ## Conditions at the ends -/

namespace Scope

/-- The state is at `ip` and stands for the world; temporaries below `lo` are as in `f`, and the
registers of the value, which are below `lo'`, hold the result. -/
def Ends (S : Scope) (ip lo lo' : Nat) (f : Frame) (c : Construct) (v : c.Value) (r : c.Result) :
    World → State → Prop :=
  S.Stands ip fun g => Untouched S.final lo f g ∧ c.Held S lo' g v r

/-- The state is behind the end of the loop and stands for the world; temporaries below `lo` are as
in `f`. -/
def Breaks (S : Scope) (code : List Instr) (loopEnd : Option Label) (lo : Nat) (f : Frame)
    (w : World) (t : State) : Prop :=
  ∃ l j, loopEnd = some l ∧ code[j]? = some (.label l) ∧
    S.Stands (j + 1) (fun g => Untouched S.final lo f g) w t

/-- Calls follow the computation `invoke`, which leaves the variables alone. -/
def Calls (S : Scope) (code : List Instr) (result : Option Register) (rounds : Nat)
    (invoke : Text → Exec Unit) : Prop :=
  ∀ (x : Text) (ip : Nat) (f : Frame) (operands : Array Int32),
    code[ip]? = some (.call (.named x)) →
    Follows ⟨code.toArray, result⟩ rounds (S.state ip f operands)
      (fun _ => S.Stands (ip + 1) (· = f)) (fun _ _ => False) (invoke x (S.world f operands))

variable {S : Scope} {code : List Instr} {loopEnd : Option Label} {lo lo' : Nat} {f g : Frame}
  {w : World} {t : State}

/-- Breaking out of a later part is breaking out of the whole. -/
theorem Breaks.earlier (h : S.Breaks code loopEnd lo' g w t) (hu : Untouched S.final lo f g)
    (hlo : lo ≤ lo') : S.Breaks code loopEnd lo f w t := by
  obtain ⟨l, j, hl, hj, hs⟩ := h
  exact ⟨l, j, hl, hj, hs.imp fun _ hu' => hu.trans (hu'.mono hlo)⟩

/-- Outside of loops there is nothing to break out of. -/
theorem not_breaks_none : ¬ S.Breaks code none lo f w t := by
  rintro ⟨l, j, hnone, -⟩
  cases hnone

/-- Ending a later part is ending the whole. -/
theorem Ends.earlier {ip lo₂ : Nat} {c : Construct} {v : c.Value} {r : c.Result}
    (h : S.Ends ip lo' lo₂ g c v r w t) (hu : Untouched S.final lo f g) (hlo : lo ≤ lo') :
    S.Ends ip lo lo₂ f c v r w t :=
  Stands.imp h fun _ ⟨hu', hr⟩ => ⟨hu.trans (hu'.mono hlo), hr⟩

end Scope

/-! ## Several steps -/

namespace Scope

variable {S : Scope} {code : List Instr} {result : Option Register} {rounds : Nat} {α β : Type}
  {P : β → World → State → Prop} {B : World → State → Prop} {ip lo n : Nat} {f : Frame}
  {operands : Array Int32}

/-- Values are put on the operand stack, one after another. -/
theorem follows_pushAll {rs : List Register} {places : List Expr.Place}
    (hc : CodeAt code ip (rs.map .push)) (h : List.Forall₂ (S.Holds lo f) rs places) :
    Follows ⟨code.toArray, result⟩ rounds (S.state ip f operands)
      (fun _ => S.Stands (ip + rs.length) (· = f)) B
      (Exec.pushAll places (S.world f operands)) := by
  induction h generalizing ip operands with
  | nil => exact .done (.intro rfl)
  | @cons r place rs places hr _ ih =>
    obtain ⟨hpush, hrest⟩ := codeAt_cons.1 hc
    rw [Exec.pushAll, Exec.read_bind, List.length_cons, Nat.add_comm rs.length, ← Nat.add_assoc]
    refine Follows.bind (follows_push hpush hr) ?_
    rintro - w t (@⟨_, operands', rfl⟩)
    exact ih hrest

/-- The value of a block is brought to a register. -/
theorem follows_deliver {value : Option Register} {place : Option Expr.Place} {g : Int32 → Exec β}
    (hi : code[ip]? = some (deliver value (S.owner.register n)))
    (h : Option.Rel (S.Holds lo f) value place)
    (hg : ∀ v, Follows ⟨code.toArray, result⟩ rounds (S.state (ip + 1) (f.set n v) operands) P B
      (g v (S.world f operands))) :
    Follows ⟨code.toArray, result⟩ rounds (S.state ip f operands) P B
      ((Exec.readBlock place >>= g) (S.world f operands)) := by
  cases h with
  | none => exact Follows.next (next_write hi (.loadI _ _)) (hg 0)
  | some h => exact Follows.next (next_move hi h) (hg _)

/-- A loop follows the rounds of its body. Every round takes a step, the jump back to the head. -/
theorem follows_iterate {body : Exec α} {head back stop : Nat} {Q : Frame → Prop} {k : Nat}
    (hbody : ∀ g operands, Q g → Follows ⟨code.toArray, result⟩ rounds (S.state head g operands)
      (fun _ => S.Stands back Q) (S.Stands stop Q) (body (S.world g operands)))
    (hback : ∀ g operands, Image.Next ⟨code.toArray, result⟩ (S.state back g operands)
      (S.state head g operands)) (hf : Q f) (hk : k ≤ rounds) :
    Follows ⟨code.toArray, result⟩ k (S.state head f operands) (fun _ => S.Stands stop Q) B
      (body.iterate k (S.world f operands)) := by
  induction k generalizing f operands with
  | zero => exact ⟨0, _, Nat.le_refl 0, .refl _⟩
  | succ k ih =>
    have hround := hbody f operands hf
    simp only [Exec.iterate]
    cases hx : body (S.world f operands) with
    | done r w =>
      rw [hx] at hround
      obtain ⟨n, t, hn, ht⟩ := hround
      cases ht with
      | intro hg => exact ((ih hg (by omega)).steps_add (.one (hback _ _))).steps hn
    | broken w =>
      rw [hx] at hround
      exact hround
    | faulted kind =>
      rw [hx] at hround
      exact hround
    | unfinished =>
      rw [hx] at hround
      obtain ⟨n, t, hle, hn⟩ := hround
      exact ⟨n, t, Nat.le_trans hk hle, hn⟩

end Scope

/-! ## Simulation -/

/-- The code `part` follows the construct wherever it stands in `code`. -/
def Simulates (S : Scope) (code : List Instr) (result : Option Register) (rounds : Nat)
    (invoke : Text → Exec Unit) (loopEnd : Option Label) (c : Construct) (a : Allocation)
    (part : List Instr) (v : c.Value) (b : Allocation) : Prop :=
  ∀ (start : Nat) (f : Frame) (operands : Array Int32) (given : Option Expr.Place),
    CodeAt code start part → (∀ l, loopEnd = some l → .label l ∈ code) →
    c.Given S a.registers f given →
    Follows ⟨code.toArray, result⟩ rounds (S.state start f operands)
      (S.Ends (start + part.length) a.registers b.registers f c v)
      (S.Breaks code loopEnd a.registers f) (c.eval invoke rounds given (S.world f operands))

namespace Simulates

variable {S : Scope} {code : List Instr} {result : Option Register} {rounds : Nat}
  {invoke : Text → Exec Unit} {loopEnd : Option Label} {a a₁ a₂ b : Allocation}
  {part rest : List Instr} {out : Register} {β : Type} {P : β → World → State → Prop}
  {start ip lo lo' : Nat} {f g : Frame} {operands : Array Int32}

/-- What follows a construct goes on behind its code. -/
theorem bind {c : Construct} {v : c.Value} {k : c.Result → Exec β}
    (h : Simulates S code result rounds invoke loopEnd c a part v b) (given : Option Expr.Place)
    (hc : CodeAt code start part) (hend : ∀ l, loopEnd = some l → .label l ∈ code)
    (hgiven : c.Given S a.registers g given) (hu : Untouched S.final lo f g)
    (hlo : lo ≤ a.registers)
    (hk : ∀ r g' operands', Untouched S.final lo f g' → Untouched S.final a.registers g g' →
      c.Held S b.registers g' v r →
      Follows ⟨code.toArray, result⟩ rounds (S.state (start + part.length) g' operands') P
        (S.Breaks code loopEnd lo f) (k r (S.world g' operands'))) :
    Follows ⟨code.toArray, result⟩ rounds (S.state start g operands) P
      (S.Breaks code loopEnd lo f)
      ((c.eval invoke rounds given >>= k) (S.world g operands)) := by
  refine Follows.bind ((h start g operands given hc hend hgiven).imp (fun _ _ _ he => he)
    fun _ _ hb => hb.earlier hu hlo) ?_
  intro r w t he
  cases he with
  | intro hg =>
    obtain ⟨hu', hr⟩ := hg
    exact hk r _ _ (hu.trans (hu'.mono hlo)) hu' hr

/-- A fresh register that is written last holds the result of an expression. -/
theorem ends_fresh {e : Expr} {value : Int32} (hr : Lower.register S.owner a = .ok (out, b))
    (ha : a.Valid) (hN : b.GrowsTo S.final) (hu : Untouched S.final lo f g)
    (hlo : lo ≤ a.registers) (hlo' : b.registers ≤ lo') :
    S.Ends ip lo lo' f (.expr e) out (.temporary value) (S.world g operands)
      (S.state ip (g.set a.registers value) operands) := by
  obtain ⟨hw, hu', hheld⟩ := Scope.set_fresh hr ha hN g operands value
  rw [← hw]
  exact .intro ⟨hu.trans (hu'.mono hlo), hheld.mono hlo'⟩

/-- A number or a truth value is loaded into a fresh register. -/
theorem constant {e : Expr} {value : Int32} (he : e.eval invoke rounds = pure (.temporary value))
    (ho : Lower.register S.owner a = .ok (out, b)) (ha : a.Valid) (hN : b.GrowsTo S.final) :
    Simulates S code result rounds invoke loopEnd (.expr e) a [.loadI value out] out b := by
  intro start f operands given hc _ _
  obtain rfl := (Lower.register_fresh ho ha hN).1
  rw [Construct.eval, he]
  exact Follows.next (Scope.next_write (codeAt_cons.1 hc).1 (.loadI _ _))
    (.done (ends_fresh ho ha hN .refl (Nat.le_refl _) (Nat.le_refl _)))

theorem name {x : Text} (hx : Lower.named S.owner x a = .ok (out, b)) (hN : b.GrowsTo S.final)
    (pos : Pos) :
    Simulates S code result rounds invoke loopEnd (.expr (.name pos x)) a [] out b := by
  intro start f operands given _ _ _
  obtain ⟨n, hn, rfl⟩ := Lower.named_kept hx hN
  exact .done (.intro ⟨.refl, .named hn⟩)

theorem assign {value : Expr} {src : Register} {x : Text}
    (h : Simulates S code result rounds invoke loopEnd (.expr value) a part src a₁)
    (hx : Lower.named S.owner x a₁ = .ok (out, b)) (ha : a.Valid) (hN : b.GrowsTo S.final)
    (pos : Pos) :
    Simulates S code result rounds invoke loopEnd (.expr (.assign pos x value)) a
      (part ++ [.move src out]) out b := by
  intro start f operands given hc hend _
  obtain ⟨n, hn, rfl⟩ := Lower.named_kept hx hN
  simp only [codeAt_append, codeAt_cons] at hc
  obtain ⟨hcode, hmove, -⟩ := hc
  refine h.bind none hcode hend trivial .refl (Nat.le_refl _) ?_
  intro place g operands' hu _ hplace
  refine Follows.next (Scope.next_move hmove hplace) ?_
  rw [Exec.read_bind, Exec.assign_bind, List.length_append, ← Nat.add_assoc]
  refine .done ?_
  rw [← Scope.set_named hn]
  exact .intro ⟨hu.trans (.set_named S.valid hn ha.bounded), .named hn⟩

theorem binary {lhs rhs : Expr} {rhsCode : List Instr} {l r : Register}
    (hl : Simulates S code result rounds invoke loopEnd (.expr lhs) a part l a₁)
    (hr : Simulates S code result rounds invoke loopEnd (.expr rhs) a₁ rhsCode r a₂)
    (ho : Lower.register S.owner a₂ = .ok (out, b)) (hv : a₂.Valid)
    (ha₁ : a.registers ≤ a₁.registers) (ha₂ : a₁.registers ≤ a₂.registers)
    (hN : b.GrowsTo S.final) (pos : Pos) (op : Operator) :
    Simulates S code result rounds invoke loopEnd (.expr (.binary pos op lhs rhs)) a
      (part ++ rhsCode ++ [.binary op l r out]) out b := by
  intro start f operands given hc hend _
  obtain rfl := (Lower.register_fresh ho hv hN).1
  simp only [codeAt_append, codeAt_cons, List.length_append, ← Nat.add_assoc] at hc ⊢
  obtain ⟨⟨hlhs, hrhs⟩, hop, -⟩ := hc
  refine hl.bind none hlhs hend trivial .refl (Nat.le_refl _) ?_
  intro x g operands₁ hu _ hx
  refine hr.bind none hrhs hend trivial hu ha₁ ?_
  intro y g' operands₂ hu' hxu hy
  rw [Exec.read_bind, Exec.read_bind]
  refine Scope.follows_compute hop (hx.untouched hxu) hy ?_
  intro value
  exact .done (ends_fresh ho hv hN hu' (Nat.le_trans ha₁ ha₂) (Nat.le_refl _))

theorem call {args : List Expr} {places : List Register} {callee : Text}
    (h : Simulates S code result rounds invoke loopEnd (.args args) a part places a₁)
    (hcalls : S.Calls code result rounds invoke) (ho : Lower.register S.owner a₁ = .ok (out, b))
    (hv : a₁.Valid) (ha : a.registers ≤ a₁.registers) (hN : b.GrowsTo S.final) (pos : Pos) :
    Simulates S code result rounds invoke loopEnd (.expr (.call pos callee args)) a
      (part ++ places.reverse.map .push ++ [.call (.named callee), .pop out]) out b := by
  intro start f operands given hc hend _
  obtain rfl := (Lower.register_fresh ho hv hN).1
  simp only [codeAt_append, codeAt_cons, List.length_append, List.length_map,
    ← Nat.add_assoc] at hc ⊢
  obtain ⟨⟨hargs, hpushes⟩, hcall, hpop, -⟩ := hc
  refine h.bind none hargs hend trivial .refl (Nat.le_refl _) ?_
  intro xs g operands₁ hu _ hxs
  refine Follows.bind (Scope.follows_pushAll hpushes (List.rel_reverse hxs)) ?_
  rintro - w t (@⟨_, operands₂, rfl⟩)
  refine Follows.bind ((hcalls callee _ _ _ hcall).imp (fun _ _ _ ht => ht)
    fun _ _ hb => hb.elim) ?_
  rintro - w t (@⟨_, operands₃, rfl⟩)
  refine Scope.follows_pop hpop ?_
  intro value operands₄
  exact .done (ends_fresh ho hv hN hu ha (Nat.le_refl _))

/-- An arm of an if expression brings its value to the register of the expression, and goes on
behind the expression. -/
theorem arm {e : Expr} {ls : List Line} {value : Option Register} {l : Label} {j : Nat}
    (h : Simulates S code result rounds invoke loopEnd (.block none ls) a₁ part value a₂)
    (ho : Lower.register S.owner a = .ok (out, b)) (ha : a.Valid) (hN : b.GrowsTo S.final)
    (hlo : a.registers ≤ a₁.registers) (hlo' : b.registers ≤ lo')
    (hc : CodeAt code start (part ++ [deliver value out, .jump l]))
    (hend : ∀ l, loopEnd = some l → .label l ∈ code) (hl : placed l code ≤ 1)
    (hj : code[j]? = some (.label l)) (hu : Untouched S.final a.registers f g) :
    Follows ⟨code.toArray, result⟩ rounds (S.state start g operands)
      (S.Ends (j + 1) a.registers lo' f (.expr e) out) (S.Breaks code loopEnd a.registers f)
      ((do return .temporary (← Exec.readBlock (← Line.evalAll invoke rounds none ls)) :
        Exec Expr.Place) (S.world g operands)) := by
  obtain rfl := (Lower.register_fresh ho ha hN).1
  simp only [codeAt_append, codeAt_cons] at hc
  obtain ⟨hcode, hdeliver, hjump, -⟩ := hc
  refine h.bind none hcode hend .none hu hlo ?_
  intro place g' operands' hu' _ hplace
  refine Scope.follows_deliver hdeliver hplace ?_
  intro v
  exact Follows.next (Scope.next_jump hl hjump hj)
    (.done (ends_fresh ho ha hN hu' (Nat.le_refl _) hlo'))

theorem branch {test : Expr} {thenBlock : List Line} {elseBlock : Option (List Line)}
    {thenCode elseCode : List Instr} {t : Register} {thenValue elseValue : Option Register}
    {a₃ a₄ : Allocation} {thenLabel elseLabel endLabel : Label}
    (ht : Simulates S code result rounds invoke loopEnd (.expr test) a₁ part t a₂)
    (hthen : Simulates S code result rounds invoke loopEnd (.block none thenBlock) a₃ thenCode
      thenValue a₄)
    (helse : Simulates S code result rounds invoke loopEnd (.block none (elseBlock.getD [])) a₄
      elseCode elseValue b)
    (ho : Lower.register S.owner a = .ok (out, a₁)) (ha : a.Valid) (hN : a₁.GrowsTo S.final)
    (h₂ : a₁.registers ≤ a₂.registers) (h₃ : a₂.registers ≤ a₃.registers)
    (h₄ : a₃.registers ≤ a₄.registers) (hb : a₄.registers ≤ b.registers)
    (hl : ∀ l, placed l code ≤ 1) (pos : Pos) :
    Simulates S code result rounds invoke loopEnd (.expr (.branch pos test thenBlock elseBlock)) a
      (part ++ [.branch t thenLabel elseLabel] ++
        (.label thenLabel :: thenCode ++ [deliver thenValue out, .jump endLabel]) ++
        (.label elseLabel :: elseCode ++ [deliver elseValue out, .jump endLabel]) ++
        [.label endLabel]) out b := by
  intro start f operands given hc hend _
  have h₁ : a.registers ≤ a₁.registers := (Lower.register_growsTo ho).registers
  simp only [List.cons_append] at hc ⊢
  obtain ⟨hc, hlast⟩ := codeAt_append.1 hc
  obtain ⟨hc, helseCode⟩ := codeAt_append.1 hc
  obtain ⟨hc, hthenCode⟩ := codeAt_append.1 hc
  obtain ⟨htest, hbranch⟩ := codeAt_append.1 hc
  rw [codeAt_cons] at hbranch hthenCode helseCode hlast
  rw [List.length_append, ← Nat.add_assoc]
  refine ht.bind none htest hend trivial .refl h₁ ?_
  intro place g operands' hu _ hplace
  rw [Exec.read_bind]
  by_cases hone : place.value (S.world g operands').env = 1
  · rw [if_pos hone]
    refine Follows.next (Scope.next_branch hl hbranch.1 hplace ?_)
      (hthen.arm ho ha hN (by omega) (by omega) hthenCode.2 hend (hl _) hlast.1 hu)
    rw [if_pos hone]
    exact hthenCode.1
  · rw [if_neg hone, Line.evalElse_eq]
    refine Follows.next (Scope.next_branch hl hbranch.1 hplace ?_)
      (helse.arm ho ha hN (by omega) (by omega) helseCode.2 hend (hl _) hlast.1 hu)
    rw [if_neg hone]
    exact helseCode.1

theorem noArgs : Simulates S code result rounds invoke loopEnd (.args []) a [] [] a := by
  intro start f operands given _ _ _
  exact .done (.intro ⟨.refl, .nil⟩)

theorem moreArgs {e : Expr} {es : List Expr} {place : Register} {places : List Register}
    (h : Simulates S code result rounds invoke loopEnd (.expr e) a part place a₁)
    (hrest : Simulates S code result rounds invoke loopEnd (.args es) a₁ rest places b)
    (ha : a.registers ≤ a₁.registers) (hb : a₁.registers ≤ b.registers) :
    Simulates S code result rounds invoke loopEnd (.args (e :: es)) a (part ++ rest)
      (place :: places) b := by
  intro start f operands given hc hend _
  obtain ⟨hcode, hcode'⟩ := codeAt_append.1 hc
  rw [List.length_append, ← Nat.add_assoc]
  refine h.bind none hcode hend trivial .refl (Nat.le_refl _) ?_
  intro x g operands₁ hu _ hx
  refine hrest.bind none hcode' hend trivial hu ha ?_
  intro xs g' operands₂ hu' hxu hxs
  exact .done (.intro ⟨hu', .cons ((hx.untouched hxu).mono hb) hxs⟩)

theorem exprLine {e : Expr} {place : Register}
    (h : Simulates S code result rounds invoke loopEnd (.expr e) a part place b) (pos : Pos) :
    Simulates S code result rounds invoke loopEnd (.line (.expr pos e)) a part (some place) b := by
  intro start f operands given hc hend _
  refine h.bind none hc hend trivial .refl (Nat.le_refl _) ?_
  intro x g operands' hu _ hx
  exact .done (.intro ⟨hu, .some hx⟩)

theorem loop {body : List Line} {value : Option Register} {head stop : Label}
    (h : Simulates S code result rounds invoke (some stop) (.block none body) a₁ part value b)
    (ha : a.registers ≤ a₁.registers) (hl : ∀ l, placed l code ≤ 1) (pos : Pos) :
    Simulates S code result rounds invoke loopEnd (.line (.loop pos body)) a
      (.label head :: part ++ [.jump head, .label stop]) none b := by
  intro start f operands given hc _ _
  simp only [codeAt_append, codeAt_cons, List.cons_append] at hc
  obtain ⟨hhead, hpart, hjump, hstop, -⟩ := hc
  have hbody (g : Frame) (operands : Array Int32) (hu : Untouched S.final a.registers f g) :
      Follows ⟨code.toArray, result⟩ rounds (S.state (start + 1) g operands)
        (fun _ => S.Stands (start + 1 + part.length) (Untouched S.final a.registers f))
        (S.Stands (start + 1 + part.length + 1 + 1) (Untouched S.final a.registers f))
        (Line.evalAll invoke rounds none body (S.world g operands)) := by
    have hend : ∀ l, some stop = some l → .label l ∈ code := by
      rintro _ ⟨⟩
      exact List.mem_of_getElem? hstop
    refine (h _ g operands none hpart hend .none).imp ?_ ?_
    · intro _ w t he
      exact (he.earlier hu ha).imp fun _ hg => hg.1
    · -- The label that a break goes to stands in one place only, behind the jump.
      intro w t hb
      obtain ⟨l, j, hstop', hj, ht⟩ := hb.earlier hu ha
      cases hstop'
      obtain rfl := placed_unique (hl stop) hstop hj
      exact ht
  have hback (g : Frame) (operands : Array Int32) : Image.Next ⟨code.toArray, result⟩
      (S.state (start + 1 + part.length) g operands) (S.state (start + 1) g operands) :=
    Scope.next_jump (hl head) hjump hhead
  have hstop' : start + (.label head :: part ++ [.jump head, .label stop] : List Instr).length =
      start + 1 + part.length + 1 + 1 := by
    simp only [List.cons_append, List.length_cons, List.length_append, List.length_nil]
    omega
  rw [hstop']
  refine Follows.next (Scope.next_label hhead)
    (Follows.bind (Scope.follows_iterate hbody hback .refl (Nat.le_refl _)) ?_)
  rintro - w t (@⟨g, operands', hu⟩)
  exact .done (.intro ⟨hu, .none⟩)

theorem brk {target : Label} (ht : loopEnd = some target) (hl : ∀ l, placed l code ≤ 1)
    (pos : Pos) :
    Simulates S code result rounds invoke loopEnd (.line (.brk pos)) a [.jump target] none a := by
  intro start f operands given hc hend _
  obtain ⟨j, hj⟩ := List.getElem?_of_mem (hend target ht)
  exact ⟨1, S.state (j + 1) f operands, .one (Scope.next_jump (hl _) (codeAt_cons.1 hc).1 hj),
    target, j, ht, hj, .intro .refl⟩

theorem noLines (value : Option Register) :
    Simulates S code result rounds invoke loopEnd (.block value []) a [] value a := by
  intro start f operands given _ _ hgiven
  exact .done (.intro ⟨.refl, hgiven⟩)

theorem moreLines {l : Line} {ls : List Line} {v last : Option Register}
    (h : Simulates S code result rounds invoke loopEnd (.line l) a part v a₁)
    (hrest : Simulates S code result rounds invoke loopEnd (.block v ls) a₁ rest last b)
    (ha : a.registers ≤ a₁.registers) (value : Option Register) :
    Simulates S code result rounds invoke loopEnd (.block value (l :: ls)) a (part ++ rest) last
      b := by
  intro start f operands given hc hend _
  obtain ⟨hcode, hcode'⟩ := codeAt_append.1 hc
  rw [List.length_append, ← Nat.add_assoc]
  refine h.bind none hcode hend trivial .refl (Nat.le_refl _) ?_
  intro place g operands' hu _ hplace
  exact (hrest _ g operands' place hcode' hend hplace).imp
    (fun _ _ _ he => he.earlier hu ha) fun _ _ hb => hb.earlier hu ha

theorem noParams : Simulates S code result rounds invoke loopEnd (.params []) a [] () a := by
  intro start f operands given _ _ _
  exact .done (.intro ⟨.refl, trivial⟩)

theorem moreParams {x : Text} {xs : List Text}
    (hx : Lower.named S.owner x a = .ok (out, a₁))
    (h : Simulates S code result rounds invoke loopEnd (.params xs) a₁ rest () b)
    (ha : a.Valid) (ha₁ : a.registers ≤ a₁.registers) (hN : a₁.GrowsTo S.final) :
    Simulates S code result rounds invoke loopEnd (.params (x :: xs)) a (.pop out :: rest) ()
      b := by
  intro start f operands given hc hend _
  obtain ⟨n, hn, rfl⟩ := Lower.named_kept hx hN
  obtain ⟨hpop, hrest⟩ := codeAt_cons.1 hc
  rw [List.length_cons, Nat.add_comm rest.length, ← Nat.add_assoc]
  refine Scope.follows_pop hpop ?_
  intro value operands'
  rw [Exec.assign_bind, ← Scope.set_named hn]
  have hu : Untouched S.final a.registers f (f.set n value) :=
    .set_named S.valid hn ha.bounded
  exact (h _ _ operands' none hrest hend trivial).imp
    (fun _ _ _ he => he.earlier hu ha₁) fun _ _ hb => hb.earlier hu ha₁

end Simulates

/-- The code of every construct follows it. -/
theorem Emits.simulates {S : Scope} {code : List Instr} {result : Option Register} {rounds : Nat}
    {invoke : Text → Exec Unit} {s : Surroundings} {c : Construct} {a b : Allocation}
    {part : List Instr} {v : c.Value} (h : Emits s c a part v b)
    (hl : ∀ l, placed l code ≤ 1) (hcalls : S.Calls code result rounds invoke)
    (hs : s.owner = S.owner) (ha : a.Valid) (hN : b.GrowsTo S.final) :
    Simulates S code result rounds invoke s.loopEnd c a part v b := by
  induction h with
  | int _ _ ho | bool _ _ ho => exact .constant rfl (hs ▸ ho) ha hN
  | name pos x hx => exact .name (hs ▸ hx) hN pos
  | assign pos x _ hx ih =>
    have hg := Lower.named_growsTo hx
    exact .assign (ih hs ha (hg.trans hN)) (hs ▸ hx) ha hN pos
  | binary pos op hl hr ho ihl ihr =>
    have hg := Lower.register_growsTo ho
    have hv := hl.valid ha
    exact .binary (ihl hs ha (hr.growsTo.trans (hg.trans hN))) (ihr hs hv (hg.trans hN)) (hs ▸ ho)
      (hr.valid hv) hl.growsTo.registers hr.growsTo.registers hN pos op
  | call pos callee hargs ho ih =>
    have hg := Lower.register_growsTo ho
    exact .call (ih hs ha (hg.trans hN)) hcalls (hs ▸ ho) (hargs.valid ha)
      hargs.growsTo.registers hN pos
  | branch pos ho ht hthen helse iht ihthen ihelse =>
    have hv₁ := Lower.register_valid ho ha
    have hN₃ := helse.growsTo.trans hN
    have hN₂ := (Allocation.growsTo_withLabels (Nat.le_add_right _ 3)).trans
      (hthen.growsTo.trans hN₃)
    have hv₃ := hthen.valid ((ht.valid hv₁).withLabels _)
    exact .branch (iht hs hv₁ hN₂) (ihthen hs ((ht.valid hv₁).withLabels _) hN₃)
      (ihelse hs hv₃ hN) (hs ▸ ho) ha (ht.growsTo.trans hN₂) ht.growsTo.registers (Nat.le_refl _)
      hthen.growsTo.registers helse.growsTo.registers hl pos
  | noArgs => exact .noArgs
  | moreArgs he hrest ih ihrest =>
    exact .moreArgs (ih hs ha (hrest.growsTo.trans hN)) (ihrest hs (he.valid ha) hN)
      he.growsTo.registers hrest.growsTo.registers
  | exprLine pos _ ih => exact .exprLine (ih hs ha hN) pos
  | loop pos _ ih => exact .loop (ih hs (ha.withLabels _) hN) (Nat.le_refl _) hl pos
  | brk pos ht => exact .brk ht hl pos
  | noLines value => exact .noLines value
  | moreLines value hline hrest ih ihrest =>
    exact .moreLines (ih hs ha (hrest.growsTo.trans hN)) (ihrest hs (hline.valid ha) hN)
      hline.growsTo.registers value
  | noParams => exact .noParams
  | moreParams hx hrest ih =>
    exact .moreParams (hs ▸ hx) (ih hs (Lower.named_valid hx ha) hN) ha
      (Lower.named_growsTo hx).registers (hrest.growsTo.trans hN)

end FrameLang
