import FrameLang.Proofs.Semantics.Rearrangement

/-!
# Results do not depend on the bounds

The interpreter takes two bounds, on the rounds of each loop and on the calls that may become
active. They decide whether a computation comes to an end, and not what it gives: a computation that
has been done, or left by `break`, ends in the same way with larger bounds. So a function that comes
to an end under two pairs of bounds gives the same under both.

## Main definitions

* `Ending.isCompleted` — a computation was done, or left by `break`.
* `Exec.Below` — a computation ends like another one wherever that one is completed.
-/

namespace FrameLang

/-- Whether a computation was done, or left by `break`. -/
def Ending.isCompleted {α : Type} : Ending α → Bool
  | .done .. | .broken _ => true
  | .faulted _ | .unfinished => false

/-- Wherever `x` is completed `y` ends as `x` does. -/
def Exec.Below {α : Type} (x y : Exec α) : Prop :=
  ∀ w, (x w).isCompleted = true → y w = x w

namespace Exec.Below

variable {α β : Type} {x y : Exec α} {g h : α → Exec β}

theorem refl (x : Exec α) : x.Below x := fun _ _ => rfl

theorem unfinished : (Exec.unfinished : Exec α).Below y := by
  intro w hw
  cases hw

theorem fault (kind : FaultKind) : (Exec.fault kind : Exec α).Below y := by
  intro w hw
  cases hw

/-- One computation after another. -/
theorem bind (hx : x.Below y) (hg : ∀ r, (g r).Below (h r)) : (x >>= g).Below (y >>= h) := by
  intro w hw
  simp only [Bind.bind, Exec.bind] at hw ⊢
  cases hxw : x w with
  | done r w' =>
    have hyw : y w = .done r w' := hxw ▸ hx w (by rw [hxw]; rfl)
    rw [hxw] at hw
    rw [hyw]
    exact hg r w' hw
  | broken w' =>
    have hyw : y w = .broken w' := hxw ▸ hx w (by rw [hxw]; rfl)
    rw [hyw]
  | faulted kind =>
    rw [hxw] at hw
    cases hw
  | unfinished =>
    rw [hxw] at hw
    cases hw

/-- More rounds of a body that does no less. -/
theorem iterate (hx : x.Below y) {rounds rounds' : Nat} (hle : rounds ≤ rounds') :
    (x.iterate rounds).Below (y.iterate rounds') := by
  induction rounds generalizing rounds' with
  | zero => exact unfinished
  | succ rounds ih =>
    obtain ⟨more, rfl⟩ : ∃ more, rounds' = more + 1 := ⟨rounds' - 1, by omega⟩
    intro w hw
    simp only [Exec.iterate] at hw ⊢
    cases hxw : x w with
    | done r w' =>
      have hyw : y w = .done r w' := hxw ▸ hx w (by rw [hxw]; rfl)
      rw [hxw] at hw
      rw [hyw]
      exact ih (Nat.le_of_succ_le_succ hle) w' hw
    | broken w' =>
      have hyw : y w = .broken w' := hxw ▸ hx w (by rw [hxw]; rfl)
      rw [hyw]
    | faulted kind =>
      rw [hxw] at hw
      cases hw
    | unfinished =>
      rw [hxw] at hw
      cases hw

theorem inNewActivation (hx : x.Below y) :
    (Exec.inNewActivation x).Below (Exec.inNewActivation y) := by
  intro w hw
  simp only [Exec.inNewActivation] at hw ⊢
  cases hxw : x ⟨fun _ => 0, w.operands⟩ with
  | done r w' =>
    have hyw : y ⟨fun _ => 0, w.operands⟩ = .done r w' := hxw ▸ hx _ (by rw [hxw]; rfl)
    rw [hyw]
  | _ =>
    rw [hxw] at hw
    cases hw

end Exec.Below

/-! ## Larger bounds -/

section Bounds

variable {invoke invoke' : Text → Exec Unit} {rounds rounds' : Nat}
  (hinvoke : ∀ x, (invoke x).Below (invoke' x)) (hle : rounds ≤ rounds')

include hinvoke hle

-- The linter does not follow the calls within the mutual block.
set_option linter.unusedSectionVars false

mutual

theorem Expr.eval_below (e : Expr) :
    (e.eval invoke rounds).Below (e.eval invoke' rounds') := by
  cases e with
  | int _ _ | bool _ _ | name _ _ | str _ _ | malformed _ _ _ _ _ =>
    simp only [Expr.eval]
    exact .refl _
  | assign _ x value =>
    simp only [Expr.eval]
    exact value.eval_below.bind fun _ => .refl _
  | binary _ op lhs rhs =>
    simp only [Expr.eval]
    exact lhs.eval_below.bind fun _ => rhs.eval_below.bind fun _ => .refl _
  | call _ callee args =>
    simp only [Expr.eval]
    exact (Expr.evalAll_below args).bind fun _ => (Exec.Below.refl _).bind fun _ =>
      (hinvoke callee).bind fun _ => .refl _
  | branch _ test thenBlock elseBlock =>
    simp only [Expr.eval]
    refine test.eval_below.bind fun place => (Exec.Below.refl _).bind fun value => ?_
    split
    · exact (Line.evalAll_below none thenBlock).bind fun _ => .refl _
    · exact (Line.evalElse_below elseBlock).bind fun _ => .refl _

theorem Expr.evalAll_below (es : List Expr) :
    (Expr.evalAll invoke rounds es).Below (Expr.evalAll invoke' rounds' es) := by
  cases es with
  | nil =>
    simp only [Expr.evalAll]
    exact .refl _
  | cons e rest =>
    simp only [Expr.evalAll]
    exact e.eval_below.bind fun _ => (Expr.evalAll_below rest).bind fun _ => .refl _

theorem Line.eval_below (l : Line) :
    (l.eval invoke rounds).Below (l.eval invoke' rounds') := by
  cases l with
  | expr _ e =>
    simp only [Line.eval]
    exact e.eval_below.bind fun _ => .refl _
  | loop _ body =>
    simp only [Line.eval]
    exact ((Line.evalAll_below none body).iterate hle).bind fun _ => .refl _
  | brk _ | other _ =>
    simp only [Line.eval]
    exact .refl _

theorem Line.evalAll_below (place : Option Expr.Place) (ls : List Line) :
    (Line.evalAll invoke rounds place ls).Below (Line.evalAll invoke' rounds' place ls) := by
  cases ls with
  | nil =>
    simp only [Line.evalAll]
    exact .refl _
  | cons l rest =>
    simp only [Line.evalAll]
    exact l.eval_below.bind fun place => Line.evalAll_below place rest

theorem Line.evalElse_below (block : Option (List Line)) :
    (Line.evalElse invoke rounds block).Below (Line.evalElse invoke' rounds' block) := by
  cases block with
  | none =>
    simp only [Line.evalElse]
    exact .refl _
  | some ls =>
    simp only [Line.evalElse]
    exact Line.evalAll_below none ls

end

theorem FnDef.eval_below (f : FnDef) :
    (f.eval invoke rounds).Below (f.eval invoke' rounds') := by
  unfold FnDef.eval
  exact (Exec.Below.refl _).bind fun _ =>
    (Line.evalAll_below hinvoke hle none f.block).bind fun _ => .refl _

end Bounds

/-- Calls with larger bounds. -/
theorem Program.invoke_below (p : Program) {rounds rounds' depth depth' : Nat}
    (hle : rounds ≤ rounds') (hd : depth ≤ depth') (x : Text) :
    (p.invoke rounds depth x).Below (p.invoke rounds' depth' x) := by
  -- What a function calls has one level of calls less to go, under both bounds.
  induction depth generalizing depth' x with
  | zero =>
    cases hx : p.function? x with
    | none =>
      rw [Program.invoke_of_none hx]
      exact .fault _
    | some f =>
      rw [Program.invoke_zero hx]
      exact .fault _
  | succ depth ih =>
    obtain ⟨more, rfl⟩ : ∃ more, depth' = more + 1 := ⟨depth' - 1, by omega⟩
    cases hx : p.function? x with
    | none =>
      rw [Program.invoke_of_none hx]
      exact .fault _
    | some f =>
      rw [Program.invoke_succ hx, Program.invoke_succ hx]
      apply Exec.Below.inNewActivation
      exact f.eval_below (ih (Nat.le_of_succ_le_succ hd)) hle

/-- An activation that comes to an end under two pairs of bounds gives the same under both. -/
theorem FnDef.eval_unique (p : Program) (f : FnDef) {rounds rounds' depth depth' : Nat}
    {w v v' : World} (h : f.eval (p.invoke rounds depth) rounds w = .done () v)
    (h' : f.eval (p.invoke rounds' depth') rounds' w = .done () v') : v = v' := by
  have hup {r d : Nat} {u : World} (hr : r ≤ max rounds rounds') (hd : d ≤ max depth depth')
      (hu : f.eval (p.invoke r d) r w = .done () u) :
      f.eval (p.invoke (max rounds rounds') (max depth depth')) (max rounds rounds') w =
        .done () u := by
    rw [← hu]
    exact f.eval_below (p.invoke_below hr hd) hr w (by rw [hu]; rfl)
  have heq := (hup (Nat.le_max_left _ _) (Nat.le_max_left _ _) h).symm.trans
    (hup (Nat.le_max_right _ _) (Nat.le_max_right _ _) h')
  cases heq
  rfl

end FrameLang
