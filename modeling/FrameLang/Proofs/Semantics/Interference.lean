import FrameLang.Proofs.Semantics.ByValue

/-!
# Assignments in later operands

A variable that is an operand is read late, so an assignment in a later operand shows. Nothing else
can show: evaluating an expression changes no variables but those that it assigns. So a program in
which no variable that is an operand or an argument is assigned by a later one means the same
whether variables are read late or at once, and its runs end as ordinary call by value does.

## Main definitions

* `Expr.assigned`, `Line.assigned` — the variables that a construct assigns.
* `Program.isSteady` — no operand or argument that is a variable is assigned by a later one.
* `World.AgreesOff` — the variables that are not listed have the same values.
* `Machine.EndsAs` — the runs of a machine end as an evaluation says.
-/

namespace FrameLang

mutual

/-- The variables that an expression assigns, those of other activations left out. -/
def Expr.assigned : Expr → List Text
  | .int .. | .str .. | .bool .. | .name .. | .malformed .. => []
  | .assign _ x value => x :: value.assigned
  | .binary _ _ lhs rhs => lhs.assigned ++ rhs.assigned
  | .call _ _ args => Expr.allAssigned args
  | .branch _ test thenBlock elseBlock =>
    test.assigned ++ Line.allAssigned thenBlock ++ Line.elseAssigned elseBlock

/-- The variables that several expressions assign. -/
def Expr.allAssigned : List Expr → List Text
  | [] => []
  | e :: rest => e.assigned ++ Expr.allAssigned rest

/-- The variables that a line assigns. -/
def Line.assigned : Line → List Text
  | .expr _ e => e.assigned
  | .loop _ body => Line.allAssigned body
  | .brk _ | .other _ => []

/-- The variables that a block assigns. -/
def Line.allAssigned : List Line → List Text
  | [] => []
  | l :: rest => l.assigned ++ Line.allAssigned rest

/-- The variables that an else branch assigns. -/
def Line.elseAssigned : Option (List Line) → List Text
  | none => []
  | some block => Line.allAssigned block

end

/-- Whether an operand keeps its value where variables are assigned behind it: it denotes none of
them. -/
def Expr.isKept (e : Expr) (assigned : List Text) : Bool :=
  e.variable?.all fun x => ! assigned.contains x

mutual

/-- Whether every operand and every argument in an expression keeps its value. -/
def Expr.isSteady : Expr → Bool
  | .int .. | .str .. | .bool .. | .name .. | .malformed .. => true
  | .assign _ _ value => value.isSteady
  | .binary _ _ lhs rhs => lhs.isSteady && rhs.isSteady && lhs.isKept rhs.assigned
  | .call _ _ args => Expr.allSteady args
  | .branch _ test thenBlock elseBlock =>
    test.isSteady && Line.allSteady thenBlock && Line.elseSteady elseBlock

/-- Whether every argument keeps its value. -/
def Expr.allSteady : List Expr → Bool
  | [] => true
  | e :: rest => e.isSteady && Expr.allSteady rest && e.isKept (Expr.allAssigned rest)

/-- Whether every operand and every argument in a line keeps its value. -/
def Line.isSteady : Line → Bool
  | .expr _ e => e.isSteady
  | .loop _ body => Line.allSteady body
  | .brk _ | .other _ => true

/-- Whether every operand and every argument in a block keeps its value. -/
def Line.allSteady : List Line → Bool
  | [] => true
  | l :: rest => l.isSteady && Line.allSteady rest

/-- Whether every operand and every argument in an else branch keeps its value. -/
def Line.elseSteady : Option (List Line) → Bool
  | none => true
  | some block => Line.allSteady block

end

/-- Whether every operand and every argument in a statement keeps its value. -/
def Statement.isSteady : Statement → Bool
  | .fn f => Line.allSteady f.block
  | .line l => l.isSteady

/-- Whether no operand or argument in a program that is a variable is assigned by a later one. -/
def Program.isSteady (p : Program) : Bool :=
  p.all Statement.isSteady

/-! ## Variables that are left alone -/

/-- Variables that are not listed have the same values in both worlds. -/
def World.AgreesOff (vars : List Text) (w v : World) : Prop :=
  ∀ x ∉ vars, v.env x = w.env x

section Frames

variable {us vs : List Text} {w v u : World}

theorem World.AgreesOff.refl (vars : List Text) (w : World) : w.AgreesOff vars w :=
  fun _ _ => rfl

theorem World.AgreesOff.trans (h : w.AgreesOff us v) (h' : v.AgreesOff us u) : w.AgreesOff us u :=
  fun x hx => (h' x hx).trans (h x hx)

theorem World.AgreesOff.mono (h : w.AgreesOff us v) (hsub : us ⊆ vs) : w.AgreesOff vs v :=
  fun x hx => h x fun hmem => hx (hsub hmem)

/-- An operand that is kept is recalled with the value that it had. -/
theorem Expr.recall_of_isKept {e : Expr} {value : Int32} (hkept : e.isKept us = true)
    (h : w.AgreesOff us v) (hw : ∀ reading, e.recall reading w.env value = value)
    (reading : Reading) : e.recall reading v.env value = value := by
  cases he : e.variable? with
  | none => exact Expr.recall_of_none he ..
  | some x =>
    cases reading with
    | atOnce => exact hw .atOnce
    | late =>
      have hx : x ∉ us := by simpa [Expr.isKept, he] using hkept
      have hvalue : w.env x = value := by simpa [Expr.recall, he] using hw .late
      simpa [Expr.recall, he] using (h x hx).trans hvalue

end Frames

namespace Ending.Matches

variable {α β γ δ : Type} {I J : World → Prop} {R : α → β → World → Prop}
  {S : γ → δ → World → Prop} {x : Exec α} {y : Exec β} {w : World}

theorem imp {r : Ending α} {r' : Ending β} {R' : α → β → World → Prop} (h : Matches I R r r')
    (hI : ∀ v, I v → J v) (hR : ∀ a b v, I v → R a b v → R' a b v) : Matches J R' r r' := by
  cases h with
  | done hi hr => exact .done (hI _ hi) (hR _ _ _ hi hr)
  | broken hi => exact .broken (hI _ hi)
  | faulted kind => exact .faulted kind
  | unfinished => exact .unfinished

/-- Computations that end alike with the same results are the same. -/
theorem eq {r r' : Ending α} (h : Matches I (fun a b _ => a = b) r r') : r = r' := by
  cases h with
  | done _ hr => rw [hr]
  | _ => rfl

/-- The value of an expression that denotes no variable is recalled. -/
theorem recalled {e : Expr} {r r' : Ending Int32} (h : Matches I (fun a b _ => a = b) r r')
    (he : e.variable? = none) :
    Matches I (fun a b v => a = b ∧ ∀ reading, e.recall reading v.env a = a) r r' :=
  h.imp (fun _ hi => hi) fun _ _ _ _ hr => ⟨hr, fun reading => Expr.recall_of_none he reading _ _⟩

/-- One computation after another leaves alone what both do. -/
theorem andThen {us vs ws : List Text} {f : α → Exec γ} {g : β → Exec δ}
    (h : Matches (w.AgreesOff us) R (x w) (y w)) (hus : us ⊆ ws) (hvs : vs ⊆ ws)
    (hf : ∀ a b v, w.AgreesOff us v → R a b v → Matches (v.AgreesOff vs) S (f a v) (g b v)) :
    Matches (w.AgreesOff ws) S ((x >>= f) w) ((y >>= g) w) := by
  refine h.bind (fun v hv => hv.mono hus) fun a b v hv hr => ?_
  exact (hf a b v hv hr).imp (fun u hu => (hv.mono hus).trans (hu.mono hvs)) fun _ _ _ _ hs => hs

/-- An activation leaves all variables around it alone. -/
theorem inNewActivation {x y : Exec α}
    (h : x ⟨fun _ => 0, w.operands⟩ = y ⟨fun _ => 0, w.operands⟩) :
    Matches (w.AgreesOff []) (fun a b _ => a = b) (Exec.inNewActivation x w)
      (Exec.inNewActivation y w) := by
  unfold Exec.inNewActivation
  rw [h]
  cases y ⟨fun _ => 0, w.operands⟩ with
  | done a v => exact .done (fun _ _ => rfl) rfl
  | faulted kind => exact .faulted kind
  | broken _ => exact .unfinished
  | unfinished => exact .unfinished

end Ending.Matches

/-! ## Steady programs -/

/-- Calls end alike and leave all variables alone. -/
def CallsAlike (apply apply' : Text → List Int32 → Exec Int32) : Prop :=
  ∀ x args (w : World),
    Ending.Matches (w.AgreesOff []) (fun a b _ => a = b) (apply x args w) (apply' x args w)

section Steady

variable {apply apply' : Text → List Int32 → Exec Int32} (hcalls : CallsAlike apply apply')
  (rounds : Nat)

include hcalls

-- The linter does not follow the calls within the mutual block.
set_option linter.unusedSectionVars false

mutual

theorem Expr.value_steady (e : Expr) (h : e.isSteady = true) (w : World) :
    Ending.Matches (w.AgreesOff e.assigned)
      (fun a b v => a = b ∧ ∀ reading, e.recall reading v.env a = a)
      (e.value .late apply rounds w) (e.value .atOnce apply' rounds w) := by
  cases e with
  | int _ _ | bool _ _ =>
    simp only [Expr.value]
    exact (Ending.Matches.done (.refl _ w) rfl).recalled rfl
  | name _ x =>
    simp only [Expr.value]
    exact .done (.refl _ w) ⟨rfl, fun reading => by cases reading <;> rfl⟩
  | str _ _ | malformed _ _ _ _ _ =>
    simp only [Expr.value]
    exact .unfinished
  | assign pos x e =>
    simp only [Expr.isSteady] at h
    simp only [Expr.value, Expr.assigned]
    have hx : [x] ⊆ x :: e.assigned := by simp
    refine (e.value_steady h w).andThen (List.subset_cons_self x _) hx ?_
    rintro value _ v hv ⟨rfl, -⟩
    rw [Exec.assign_bind]
    refine .done (fun y hy => if_neg (by simpa using hy)) ⟨rfl, fun reading => ?_⟩
    cases reading with
    | atOnce => rfl
    | late => exact if_pos rfl
  | binary pos op lhs rhs =>
    simp only [Expr.isSteady, Bool.and_eq_true] at h
    obtain ⟨⟨hl, hr⟩, hkept⟩ := h
    simp only [Expr.value, Expr.assigned]
    refine (lhs.value_steady hl w).andThen (List.subset_append_left _ _)
      (List.subset_append_right _ _) ?_
    rintro a _ v hv ⟨rfl, ha⟩
    refine (rhs.value_steady hr v).andThen (List.Subset.refl _) (List.nil_subset _) ?_
    rintro b _ u hu ⟨rfl, hb⟩
    have ha' := Expr.recall_of_isKept hkept hu ha
    rw [Exec.environment_bind, Exec.environment_bind, ha', ha', hb, hb]
    exact (Ending.Matches.compute op a b (.refl _ u)).recalled rfl
  | call pos callee args =>
    simp only [Expr.isSteady] at h
    simp only [Expr.value, Expr.assigned]
    refine (Expr.values_steady args h w).andThen (List.Subset.refl _) (List.nil_subset _) ?_
    rintro values _ v hv ⟨rfl, hvalues⟩
    rw [Exec.environment_bind, Exec.environment_bind, hvalues, hvalues]
    exact (hcalls callee values v).recalled rfl
  | branch pos test thenBlock elseBlock =>
    simp only [Expr.isSteady, Bool.and_eq_true] at h
    obtain ⟨⟨ht, hthen⟩, helse⟩ := h
    simp only [Expr.value, Expr.assigned, List.append_assoc]
    refine (test.value_steady ht w).andThen (List.subset_append_left _ _)
      (List.subset_append_right _ _) ?_
    rintro value _ v hv ⟨rfl, -⟩
    split
    · refine (Line.valueAll_steady none thenBlock hthen v).andThen (List.subset_append_left _ _)
        (List.nil_subset _) ?_
      rintro block _ u hu rfl
      exact (Ending.Matches.done (.refl _ u) rfl).recalled rfl
    · refine (Line.valueElse_steady elseBlock helse v).andThen (List.subset_append_right _ _)
        (List.nil_subset _) ?_
      rintro block _ u hu rfl
      exact (Ending.Matches.done (.refl _ u) rfl).recalled rfl

theorem Expr.values_steady (es : List Expr) (h : Expr.allSteady es = true) (w : World) :
    Ending.Matches (w.AgreesOff (Expr.allAssigned es))
      (fun as bs v => as = bs ∧ ∀ reading, List.zipWith (Expr.recall reading v.env) es as = as)
      (Expr.values .late apply rounds es w) (Expr.values .atOnce apply' rounds es w) := by
  cases es with
  | nil =>
    simp only [Expr.values]
    exact .done (.refl _ w) ⟨rfl, fun _ => rfl⟩
  | cons e rest =>
    simp only [Expr.allSteady, Bool.and_eq_true] at h
    obtain ⟨⟨he, hrest⟩, hkept⟩ := h
    simp only [Expr.values, Expr.allAssigned]
    refine (e.value_steady he w).andThen (List.subset_append_left _ _)
      (List.subset_append_right _ _) ?_
    rintro value _ v hv ⟨rfl, hvalue⟩
    refine (Expr.values_steady rest hrest v).andThen (List.Subset.refl _) (List.nil_subset _) ?_
    rintro values _ u hu ⟨rfl, hvalues⟩
    refine .done (.refl _ u) ⟨rfl, fun reading => ?_⟩
    rw [List.zipWith_cons_cons, Expr.recall_of_isKept hkept hu hvalue, hvalues]

theorem Line.value_steady (l : Line) (h : l.isSteady = true) (w : World) :
    Ending.Matches (w.AgreesOff l.assigned) (fun a b _ => a = b)
      (l.value .late apply rounds w) (l.value .atOnce apply' rounds w) := by
  cases l with
  | expr _ e =>
    simp only [Line.isSteady] at h
    simp only [Line.value, Line.assigned]
    refine (e.value_steady h w).andThen (List.Subset.refl _) (List.nil_subset _) ?_
    rintro value _ v hv ⟨rfl, -⟩
    exact .done (.refl _ v) rfl
  | loop _ body =>
    simp only [Line.isSteady] at h
    simp only [Line.value, Line.assigned]
    have hbody (v : World) (hv : w.AgreesOff (Line.allAssigned body) v) :=
      (Line.valueAll_steady none body h v).imp (fun _ hu => hv.trans hu) fun _ _ _ _ heq => heq
    refine (Ending.Matches.iterate hbody (.refl _ w) rounds).andThen (List.Subset.refl _)
      (List.nil_subset _) ?_
    exact fun _ _ v _ _ => .done (.refl _ v) rfl
  | brk _ =>
    simp only [Line.value]
    exact .broken (.refl _ w)
  | other _ =>
    simp only [Line.value]
    exact .unfinished

theorem Line.valueAll_steady (last : Option Int32) (ls : List Line)
    (h : Line.allSteady ls = true) (w : World) :
    Ending.Matches (w.AgreesOff (Line.allAssigned ls)) (fun a b _ => a = b)
      (Line.valueAll .late apply rounds last ls w)
      (Line.valueAll .atOnce apply' rounds last ls w) := by
  cases ls with
  | nil =>
    simp only [Line.valueAll]
    exact .done (.refl _ w) rfl
  | cons l rest =>
    simp only [Line.allSteady, Bool.and_eq_true] at h
    simp only [Line.valueAll, Line.allAssigned]
    refine (l.value_steady h.1 w).andThen (List.subset_append_left _ _)
      (List.subset_append_right _ _) ?_
    rintro value _ v hv rfl
    exact Line.valueAll_steady value rest h.2 v

theorem Line.valueElse_steady (block : Option (List Line)) (h : Line.elseSteady block = true)
    (w : World) :
    Ending.Matches (w.AgreesOff (Line.elseAssigned block)) (fun a b _ => a = b)
      (Line.valueElse .late apply rounds block w)
      (Line.valueElse .atOnce apply' rounds block w) := by
  cases block with
  | none =>
    simp only [Line.valueElse]
    exact .done (.refl _ w) rfl
  | some ls =>
    simp only [Line.elseSteady] at h
    simp only [Line.valueElse, Line.elseAssigned]
    exact Line.valueAll_steady none ls h w

end

theorem FnDef.value_steady (f : FnDef) (h : Line.allSteady f.block = true) (args : List Int32) :
    f.value .late apply rounds args = f.value .atOnce apply' rounds args := by
  funext w
  obtain ⟨env, hargs⟩ := Exec.assignAll_done f.params args w
  have hblock := (Line.valueAll_steady hcalls rounds none f.block h ⟨env, w.operands⟩).eq
  simp only [FnDef.value, Bind.bind, Exec.bind, hargs, hblock]

end Steady

section Programs

variable {p : Program}

theorem Program.allSteady_of_function? (h : p.isSteady = true) {x : Text} {f : FnDef}
    (hf : p.function? x = some f) : Line.allSteady f.block = true := by
  obtain ⟨before, after, rfl, -, -⟩ := Program.function?_eq_some.1 hf
  exact List.all_eq_true.1 h (.fn f) (by simp)

theorem Program.allSteady_lines (h : p.isSteady = true) : Line.allSteady p.lines = true := by
  induction p with
  | nil => rfl
  | cons st rest ih =>
    simp only [Program.isSteady, List.all_cons, Bool.and_eq_true] at h
    cases st with
    | fn f => exact ih h.2
    | line l => exact Bool.and_eq_true_iff.2 ⟨h.1, ih h.2⟩

/-- Calls do not depend on when variables are read. -/
theorem Program.callsAlike (h : p.isSteady = true) (rounds depth : Nat) :
    CallsAlike (p.apply .late rounds depth) (p.apply .atOnce rounds depth) := by
  -- What a function calls has one level of calls less to go, under both evaluations.
  induction depth with
  | zero => exact fun _ _ _ => .faulted _
  | succ depth ih =>
    intro x args w
    simp only [Program.apply]
    split
    · cases hf : p.function? x with
      | none => exact .faulted _
      | some f =>
        have hvalue := f.value_steady ih rounds (Program.allSteady_of_function? h hf) args
        exact .inNewActivation (congrFun hvalue _)
    · exact .faulted _

/-- A program in which no variable that is an operand is assigned by a later one means the same
whenever variables are read. -/
theorem Program.evaluate_steady (h : p.isSteady = true) (rounds : Nat) :
    p.evaluate .late rounds = p.evaluate .atOnce rounds :=
  (Line.valueAll_steady (Program.callsAlike h rounds maxCallDepth) rounds none p.lines
    (Program.allSteady_lines h) _).eq

end Programs

/-! ## Runs -/

/-- The machine halts with the value that the evaluation gives, ends with a fault where the
evaluation does, and runs forever if the evaluation never ends. -/
structure Machine.EndsAs (m : Machine) (evaluation : Nat → Ending (Option Int32)) : Prop where
  halts (value : Option Int32) :
    m.HaltsWith value ↔ ∃ rounds w, evaluation rounds = .done value w
  traps (kind : FaultKind) : m.TrapsWith kind ↔ ∃ rounds, evaluation rounds = .faulted kind
  diverges : m.Diverges ↔ ∀ rounds, evaluation rounds = .unfinished

theorem Machine.Agrees.endsAs {m : Machine} {p : Program} (h : m.Agrees p) :
    m.EndsAs p.interpret :=
  ⟨h.haltsWith_iff, h.traps, h.diverges⟩

/-- A program that is built with checked calls and whose last statement is an expression runs as
call by value, with variables that are operands read late. If none of them is assigned by a later
operand, it runs as ordinary call by value. -/
theorem Program.build_endsAs {p before : Program} {pos : Pos} {e : Expr} {listing : Listing}
    (hlast : p = before ++ [.line (.expr pos e)]) (h : p.build true = .ok listing)
    (hl : p.labelsDrawn < 2 ^ 32) (m : Machine) :
    (m.load listing).1 = none ∧ (m.load listing).2.EndsAs (p.evaluate .late) ∧
      (p.isSteady = true → (m.load listing).2.EndsAs (p.evaluate .atOnce)) := by
  obtain ⟨hload, -, hagrees⟩ := Program.build_loaded h hl m
  obtain ⟨_, _, _, -, -, hcalls, -⟩ := Program.build_eq_ok h
  have hfits : p.CallsFit := Program.callError?_eq_none.1 (hcalls rfl)
  have hlate : p.interpret = p.evaluate .late :=
    funext fun rounds => (Program.interpret_matches hlast hfits rounds).eq
  have hends : (m.load listing).2.EndsAs (p.evaluate .late) := hlate ▸ hagrees.endsAs
  refine ⟨hload, hends, fun hsteady => ?_⟩
  have honce : p.evaluate .late = p.evaluate .atOnce := funext (Program.evaluate_steady hsteady)
  exact honce ▸ hends

/-- A call whose second argument assigns what neither the first nor an operand before it is. -/
theorem Program.build_endsAs_nested_assignments :
    let x := Expr.name .start ['x']
    let set (y : Char) (value : Int32) : Expr := .assign .start [y] (.int .start value)
    let f : FnDef := ⟨.start, ['f'], [['x'], ['y']],
      [.expr .start (.binary .start .sub x (.name .start ['y']))]⟩
    let p : Program := [.fn f, .line (.expr .start (.binary .start .mul
      (.call .start ['f'] [set 'x' 2, .binary .start .add x (set 'y' 3)]) (set 'x' 4)))]
    p.isSteady = true ∧ p.labelsDrawn < 2 ^ 32 ∧ ∃ listing, p.build true = .ok listing ∧
      (({} : Machine).load listing).2.EndsAs (p.evaluate .atOnce) ∧
      (({} : Machine).load listing).2.HaltsWith (some (-12)) := by
  intro x set f p
  have hsteady : p.isSteady = true := by decide +kernel
  have hl : p.labelsDrawn < 2 ^ 32 := by decide +kernel
  obtain ⟨listing, h⟩ : ∃ listing, p.build true = .ok listing :=
    Program.exists_listing (by decide +kernel)
  have hvalue : ∃ w, p.evaluate .atOnce 0 = .done (some (-12)) w := by
    have hresult : (match p.evaluate .atOnce 0 with
        | .done value _ => value
        | _ => none) = some (-12) := by decide +kernel
    cases hrun : p.evaluate .atOnce 0 <;> simp_all
  obtain ⟨-, -, hends⟩ := @Program.build_endsAs p [.fn f] _ _ listing rfl h hl {}
  exact ⟨hsteady, hl, listing, h, hends hsteady, ((hends hsteady).halts _).2 ⟨0, hvalue⟩⟩

/-- An operand that is a variable and is assigned by the next one does not keep its value: the sum
of a new variable and an assignment of one is two, and not one. -/
theorem Program.not_endsAs_overwritten :
    let p : Program := [.line (.expr .start (.binary .start .add (.name .start ['x'])
      (.assign .start ['x'] (.int .start 1))))]
    p.labelsDrawn < 2 ^ 32 ∧ ∃ listing, p.build true = .ok listing ∧
      (({} : Machine).load listing).2.HaltsWith (some 2) ∧
      (∃ w, p.evaluate .atOnce 0 = .done (some 1) w) ∧
      ¬ (({} : Machine).load listing).2.EndsAs (p.evaluate .atOnce) := by
  intro p
  have hl : p.labelsDrawn < 2 ^ 32 := by decide +kernel
  obtain ⟨listing, h⟩ : ∃ listing, p.build true = .ok listing :=
    Program.exists_listing (by decide +kernel)
  obtain ⟨-, -, hagrees⟩ := Program.build_loaded h hl {}
  have htwo := (hagrees.haltsWith_iff (some 2)).2 ⟨0, _, rfl⟩
  refine ⟨hl, listing, h, htwo, ⟨_, rfl⟩, fun hends => ?_⟩
  obtain ⟨rounds, w, hrun⟩ := (hends.halts _).1 htwo
  obtain ⟨v, hone⟩ : ∃ v, p.evaluate .atOnce rounds = .done (some 1) v := ⟨_, rfl⟩
  exact absurd (hone.symm.trans hrun) (by simp)

end FrameLang
