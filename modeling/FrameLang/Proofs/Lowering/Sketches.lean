import FrameLang.Proofs.Lowering.Registers
import Mathlib.Data.List.Perm.Basic

/-!
# Sketches of code

Registers are handed out to holders: the names of a scope, and those of its nodes that have a value
of their own. The sketch of a construct is its code with holders in the place of registers, together
with the holders in the order in which they ask for registers. It is read off the construct alone.

A node is known by its way from the root of its scope, the last turn first. In a list 0 leads to the
first element and 1 to the others. The parts of an expression are numbered from the left, so an if
expression has its test at 0 and its branches at 1 and 2.

## Main definitions

* `Holder`, `SketchStep`, `Sketch` — what asks for registers, and code without registers.
* `Expr.sketch`, `Line.sketch`, `FnDef.sketch` — the sketches of constructs.
* `Sketch.Orderly` — every node asks once, and is written as often as a node of its kind is.
-/

namespace FrameLang

/-! ## Holders and steps -/

/-- What a register is handed out to. -/
inductive Holder where
  /-- A variable or a parameter. -/
  | name (x : Text)
  /-- A number, a truth value, a binary expression or a call. -/
  | node (path : List Nat)
  /-- An if expression. -/
  | branch (path : List Nat)
deriving DecidableEq, Repr

/-- The way to a node. Names are not bound to one. -/
def Holder.path? : Holder → Option (List Nat)
  | .name _ => none
  | .node path | .branch path => some path

/-- An instruction with holders in the place of registers. -/
inductive SketchStep where
  /-- A label, a jump, a call or a return. -/
  | plain
  | push (src : Holder)
  /-- The argument for the parameter `x` is taken from the operand stack. -/
  | take (x : Text)
  /-- The number or the truth value at `path` is loaded. -/
  | load (value : Int32) (path : List Nat)
  /-- What `src` holds is assigned to the variable `x`. -/
  | assign (src : Holder) (x : Text)
  /-- The binary expression at `path` is computed. -/
  | binary (op : Operator) (lhs rhs : Holder) (path : List Nat)
  /-- The result of the call at `path` is taken from the operand stack. -/
  | result (path : List Nat)
  | test (src : Holder)
  /-- A branch of the if expression at `path` delivers its value, which is zero without a `src`. -/
  | deliver (src : Option Holder) (path : List Nat)

namespace SketchStep

/-- The holder that a step writes. -/
def writes : SketchStep → Option Holder
  | .take x | .assign _ x => some (.name x)
  | .load _ path | .binary _ _ _ path | .result path => some (.node path)
  | .deliver _ path => some (.branch path)
  | .plain | .push _ | .test _ => none

/-- The step is the instruction, if holders have the given registers. -/
def Describes (place : Holder → Register) : SketchStep → Instr → Prop
  | .plain, i => i.registers = []
  | .push src, i => i = .push (place src)
  | .take x, i => i = .pop (place (.name x))
  | .load value path, i => i = .loadI value (place (.node path))
  | .assign src x, i => i = .move (place src) (place (.name x))
  | .binary op lhs rhs path, i => i = .binary op (place lhs) (place rhs) (place (.node path))
  | .result path, i => i = .pop (place (.node path))
  | .test src, i => ∃ l m, i = .branch (place src) l m
  | .deliver src path, i => i = FrameLang.deliver (src.map place) (place (.branch path))

end SketchStep

/-! ## Sketches -/

/-- Code with holders in the place of registers. -/
structure Sketch where
  /-- What asks for registers, in this order. A name asks at each of its uses. -/
  holders : List Holder := []
  steps : List SketchStep := []

namespace Sketch

instance : Append Sketch where
  append k m := ⟨k.holders ++ m.holders, k.steps ++ m.steps⟩

variable (k m : Sketch)

@[simp] theorem holders_append : (k ++ m).holders = k.holders ++ m.holders := rfl

@[simp] theorem steps_append : (k ++ m).steps = k.steps ++ m.steps := rfl

/-- What is written, as often as it is. -/
def written : List Holder := k.steps.filterMap SketchStep.writes

theorem written_mk (holders : List Holder) (steps : List SketchStep) :
    written ⟨holders, steps⟩ = steps.filterMap SketchStep.writes := rfl

@[simp] theorem written_append : (k ++ m).written = k.written ++ m.written := by
  simp [written]

end Sketch

/-- What holds the value of an expression. -/
def Expr.holder (path : List Nat) : Expr → Holder
  | .name _ x | .assign _ x _ => .name x
  | .branch .. => .branch path
  | _ => .node path

/-- What holds the values of several expressions. -/
def Expr.holders (path : List Nat) : List Expr → List Holder
  | [] => []
  | e :: rest => e.holder (0 :: path) :: Expr.holders (1 :: path) rest

/-- What holds the value of a line, if it has one. -/
def Line.holder? (path : List Nat) : Line → Option Holder
  | .expr _ e => some (e.holder path)
  | _ => none

/-- What holds the value of the last line of a block. -/
def Line.lastHolder? (path : List Nat) : List Line → Option Holder
  | [] => none
  | [l] => l.holder? (0 :: path)
  | _ :: rest => Line.lastHolder? (1 :: path) rest

mutual

/-- The sketch of an expression. -/
def Expr.sketch (path : List Nat) : Expr → Sketch
  | .int _ value => ⟨[.node path], [.load value path]⟩
  | .bool _ value => ⟨[.node path], [.load (if value then 1 else 0) path]⟩
  | .name _ x => ⟨[.name x], []⟩
  | .assign _ x value =>
    value.sketch (0 :: path) ++ ⟨[.name x], [.assign (value.holder (0 :: path)) x]⟩
  | .binary _ op lhs rhs =>
    lhs.sketch (0 :: path) ++ rhs.sketch (1 :: path) ++
      ⟨[.node path], [.binary op (lhs.holder (0 :: path)) (rhs.holder (1 :: path)) path]⟩
  | .call _ _ args =>
    Expr.sketchAll (0 :: path) args ++
      ⟨[.node path],
        (Expr.holders (0 :: path) args).reverse.map .push ++ [.plain, .result path]⟩
  | .branch _ test thenBlock elseBlock =>
    ⟨[.branch path], []⟩ ++ test.sketch (0 :: path) ++
      ⟨[], [.test (test.holder (0 :: path)), .plain]⟩ ++ Line.sketchAll (1 :: path) thenBlock ++
      ⟨[], [.deliver (Line.lastHolder? (1 :: path) thenBlock) path, .plain, .plain]⟩ ++
      Line.sketchElse (2 :: path) elseBlock ++
      ⟨[], [.deliver (Line.lastHolder? (2 :: path) (elseBlock.getD [])) path, .plain, .plain]⟩
  | .str .. | .malformed .. => {}

/-- The sketch of several expressions. -/
def Expr.sketchAll (path : List Nat) : List Expr → Sketch
  | [] => {}
  | e :: rest => e.sketch (0 :: path) ++ Expr.sketchAll (1 :: path) rest

/-- The sketch of a line. -/
def Line.sketch (path : List Nat) : Line → Sketch
  | .expr _ e => e.sketch path
  | .loop _ body => ⟨[], [.plain]⟩ ++ Line.sketchAll path body ++ ⟨[], [.plain, .plain]⟩
  | .brk _ => ⟨[], [.plain]⟩
  | .other _ => {}

/-- The sketch of a block. -/
def Line.sketchAll (path : List Nat) : List Line → Sketch
  | [] => {}
  | l :: rest => l.sketch (0 :: path) ++ Line.sketchAll (1 :: path) rest

/-- The sketch of an else branch. -/
def Line.sketchElse (path : List Nat) : Option (List Line) → Sketch
  | none => {}
  | some block => Line.sketchAll path block

end

/-- The sketch of the parameters of a function. -/
def paramSketch (xs : List Text) : Sketch :=
  ⟨xs.map .name, xs.map .take⟩

/-- The sketch of a function between its entry and its return, with the return. -/
def FnDef.sketch (f : FnDef) : Sketch :=
  paramSketch f.params ++ Line.sketchAll [] f.block ++
    ⟨[], (Line.lastHolder? [] f.block).toList.map .push ++ [.plain]⟩

theorem Line.sketchElse_eq (path : List Nat) (block : Option (List Line)) :
    Line.sketchElse path block = Line.sketchAll path (block.getD []) := by
  cases block <;> rfl

/-! ## Ways -/

/-- The holder is a name, or a node at the end of `path` or behind it. -/
def Holder.Under (path : List Nat) (h : Holder) : Prop :=
  ∀ way, h.path? = some way → path <:+ way

/-- All holders of the sketch are names, or nodes at the end of `path` or behind it. -/
def Sketch.Under (path : List Nat) (k : Sketch) : Prop :=
  ∀ h ∈ k.holders, h.Under path

namespace Holder

variable {h : Holder} {path : List Nat} {i j : Nat}

theorem Under.of_child (hh : h.Under (i :: path)) : h.Under path :=
  fun way hway => (List.suffix_cons i path).trans (hh way hway)

/-- No way ends in two turns. -/
theorem Under.not_sibling (hi : h.Under (i :: path)) (hne : i ≠ j) {way : List Nat}
    (hway : h.path? = some way) : ¬ j :: path <:+ way := by
  intro hj
  have hsame : i :: path <:+ j :: path :=
    List.suffix_of_suffix_length_le (hi way hway) hj (Nat.le_refl _)
  exact hne (List.cons.inj (hsame.eq_of_length rfl)).1

/-- A node is not behind itself. -/
theorem Under.path?_ne (hi : h.Under (i :: path)) : h.path? ≠ some path := fun hway =>
  absurd (hi path hway).length_le (by simp)

end Holder

namespace Sketch

variable {k m : Sketch} {path : List Nat} {i j : Nat}

theorem Under.empty (path : List Nat) : Sketch.Under path {} := List.forall_mem_nil _

theorem Under.append (hk : k.Under path) (hm : m.Under path) : (k ++ m).Under path :=
  List.forall_mem_append.2 ⟨hk, hm⟩

theorem Under.of_child (hk : k.Under (i :: path)) : k.Under path :=
  fun h hh => (hk h hh).of_child

theorem under_steps (path : List Nat) (steps : List SketchStep) :
    Sketch.Under path ⟨[], steps⟩ := List.forall_mem_nil _

theorem under_name (path : List Nat) (x : Text) (steps : List SketchStep) :
    Sketch.Under path ⟨[.name x], steps⟩ := by
  intro h hh way hway
  rw [List.mem_singleton.1 hh] at hway
  cases hway

theorem under_own {h : Holder} (hh : h.path? = some path) (steps : List SketchStep) :
    Sketch.Under path ⟨[h], steps⟩ := by
  intro h' hh' way hway
  rw [List.mem_singleton.1 hh', hh] at hway
  cases hway
  exact List.suffix_refl path

end Sketch

mutual

theorem Expr.under_sketch (path : List Nat) : (e : Expr) → (e.sketch path).Under path
  | .int .. | .bool .. => Sketch.under_own rfl _
  | .name _ x => Sketch.under_name path x _
  | .str .. | .malformed .. => .empty path
  | .assign _ x value =>
    (value.under_sketch (0 :: path)).of_child.append (Sketch.under_name path x _)
  | .binary _ _ lhs rhs =>
    ((lhs.under_sketch (0 :: path)).of_child.append (rhs.under_sketch (1 :: path)).of_child).append
      (Sketch.under_own rfl _)
  | .call _ _ args =>
    (Expr.under_sketchAll (0 :: path) args).of_child.append (Sketch.under_own rfl _)
  | .branch _ test thenBlock elseBlock =>
    ((((((Sketch.under_own rfl _).append (test.under_sketch (0 :: path)).of_child).append
      (Sketch.under_steps path _)).append
      (Line.under_sketchAll (1 :: path) thenBlock).of_child).append
      (Sketch.under_steps path _)).append
      (Line.under_sketchElse (2 :: path) elseBlock).of_child).append (Sketch.under_steps path _)

theorem Expr.under_sketchAll (path : List Nat) :
    (es : List Expr) → (Expr.sketchAll path es).Under path
  | [] => .empty path
  | e :: rest =>
    (e.under_sketch (0 :: path)).of_child.append (Expr.under_sketchAll (1 :: path) rest).of_child

theorem Line.under_sketch (path : List Nat) : (l : Line) → (l.sketch path).Under path
  | .expr _ e => e.under_sketch path
  | .loop _ body =>
    ((Sketch.under_steps path _).append (Line.under_sketchAll path body)).append
      (Sketch.under_steps path _)
  | .brk _ => Sketch.under_steps path _
  | .other _ => .empty path

theorem Line.under_sketchAll (path : List Nat) :
    (ls : List Line) → (Line.sketchAll path ls).Under path
  | [] => .empty path
  | l :: rest =>
    (l.under_sketch (0 :: path)).of_child.append (Line.under_sketchAll (1 :: path) rest).of_child

theorem Line.under_sketchElse (path : List Nat) :
    (block : Option (List Line)) → (Line.sketchElse path block).Under path
  | none => .empty path
  | some block => Line.under_sketchAll path block

end

/-! ## Order -/

namespace Sketch

/-- No node is in both sketches. -/
def Disjoint (k m : Sketch) : Prop :=
  ∀ h way, h.path? = some way → h ∈ k.holders → h ∉ m.holders

/-- What holds of the nodes and the writes of a sketch. -/
structure Orderly (k : Sketch) : Prop where
  /-- A node asks for one register only. -/
  once {h : Holder} {way : List Nat} : h.path? = some way → k.holders.count h ≤ 1
  /-- A node is written by one step. -/
  nodes (way : List Nat) : k.written.count (.node way) = k.holders.count (.node way)
  /-- An if expression is written by two steps. -/
  branches (way : List Nat) : k.written.count (.branch way) = 2 * k.holders.count (.branch way)
  /-- Nothing else is written than what asks for a register. -/
  written_subset : k.written ⊆ k.holders

section Orderly

variable {k m : Sketch} {path : List Nat} {i j : Nat}

theorem Disjoint.of_under (hk : k.Under (i :: path)) (hm : m.Under (j :: path)) (hne : i ≠ j) :
    k.Disjoint m :=
  fun h way hway hmem hmem' => (hk h hmem).not_sibling hne hway (hm h hmem' way hway)

theorem Disjoint.append_left {k' : Sketch} (hk : k.Disjoint m) (hk' : k'.Disjoint m) :
    (k ++ k').Disjoint m :=
  fun h way hway hmem =>
    (List.mem_append.1 hmem).elim (hk h way hway) (hk' h way hway)

/-- A node is disjoint from what is behind it. -/
theorem Disjoint.own (hk : k.Under (i :: path)) {own : Holder} (hown : own.path? = some path)
    (steps : List SketchStep) : k.Disjoint ⟨[own], steps⟩ := by
  intro h way _ hmem hmem'
  rw [List.mem_singleton.1 hmem'] at hmem
  exact (hk own hmem).path?_ne hown

theorem Disjoint.name (k : Sketch) (x : Text) (steps : List SketchStep) :
    k.Disjoint ⟨[.name x], steps⟩ := by
  intro h way hway _ hmem
  rw [List.mem_singleton.1 hmem] at hway
  cases hway

theorem Orderly.append (hk : k.Orderly) (hm : m.Orderly) (hdisj : k.Disjoint m) :
    (k ++ m).Orderly where
  once {h way} hway := by
    rw [holders_append, List.count_append]
    by_cases hmem : h ∈ k.holders
    · rw [List.count_eq_zero_of_not_mem (hdisj h way hway hmem)]
      exact hk.once hway
    · rw [List.count_eq_zero_of_not_mem hmem, Nat.zero_add]
      exact hm.once hway
  nodes way := by
    rw [written_append, holders_append, List.count_append, List.count_append, hk.nodes, hm.nodes]
  branches way := by
    rw [written_append, holders_append, List.count_append, List.count_append, hk.branches,
      hm.branches, Nat.mul_add]
  written_subset := by
    rw [written_append, holders_append]
    exact List.append_subset.2 ⟨List.subset_append_of_subset_left _ hk.written_subset,
      List.subset_append_of_subset_right _ hm.written_subset⟩

/-- The order of asking and writing does not matter. -/
theorem Orderly.of_perm (hk : k.Orderly) (hholders : k.holders.Perm m.holders)
    (hwritten : k.written.Perm m.written) : m.Orderly where
  once hway := by
    rw [← hholders.count_eq]
    exact hk.once hway
  nodes way := by rw [← hholders.count_eq, ← hwritten.count_eq, hk.nodes]
  branches way := by rw [← hholders.count_eq, ← hwritten.count_eq, hk.branches]
  written_subset h hh :=
    hholders.subset (hk.written_subset (hwritten.symm.subset hh))

/-- Names ask as often as they like, and are written by any steps. -/
theorem orderly_names (xs : List Text) {steps : List SketchStep}
    (hw : steps.filterMap SketchStep.writes ⊆ xs.map .name) : Orderly ⟨xs.map .name, steps⟩ := by
  have hname {hs : List Holder} (hsub : hs ⊆ xs.map .name) {h : Holder} {way : List Nat}
      (hway : h.path? = some way) : hs.count h = 0 := by
    refine List.count_eq_zero_of_not_mem fun hmem => ?_
    obtain ⟨x, -, rfl⟩ := List.mem_map.1 (hsub hmem)
    cases hway
  exact
    { once := fun hway => by rw [hname (List.Subset.refl _) hway]; exact Nat.zero_le 1
      nodes := fun way => (hname hw rfl).trans (hname (List.Subset.refl _) rfl).symm
      branches := fun way => by
        rw [hname (List.Subset.refl _) (h := .branch way) rfl]
        exact hname hw rfl
      written_subset := hw }

theorem orderly_steps {steps : List SketchStep} (hw : steps.filterMap SketchStep.writes = []) :
    Orderly ⟨[], steps⟩ :=
  orderly_names [] (by simp [hw])

theorem orderly_node {steps : List SketchStep}
    (hw : steps.filterMap SketchStep.writes = [.node path]) : Orderly ⟨[.node path], steps⟩ where
  once _ := List.count_le_length
  nodes way := by rw [written_mk, hw]
  branches way := by simp [written_mk, hw]
  written_subset := by simp [written_mk, hw]

theorem orderly_branch {steps : List SketchStep}
    (hw : steps.filterMap SketchStep.writes = [.branch path, .branch path]) :
    Orderly ⟨[.branch path], steps⟩ where
  once _ := List.count_le_length
  nodes way := by simp [written_mk, hw]
  branches way := by
    simp only [written_mk, hw, List.count_cons, List.count_nil]
    omega
  written_subset := by simp [written_mk, hw]

end Orderly

end Sketch

mutual

theorem Expr.orderly_sketch (path : List Nat) : (e : Expr) → (e.sketch path).Orderly
  | .int .. | .bool .. => Sketch.orderly_node rfl
  | .name _ x => Sketch.orderly_names [x] (List.nil_subset _)
  | .str .. | .malformed .. => Sketch.orderly_steps rfl
  | .assign _ x value =>
    (value.orderly_sketch (0 :: path)).append
      (Sketch.orderly_names [x] (List.Subset.refl _)) (.name _ x _)
  | .binary _ _ lhs rhs =>
    ((lhs.orderly_sketch (0 :: path)).append (rhs.orderly_sketch (1 :: path))
      (.of_under (lhs.under_sketch _) (rhs.under_sketch _) (by decide))).append
      (Sketch.orderly_node rfl)
      (.append_left (.own (lhs.under_sketch _) rfl _) (.own (rhs.under_sketch _) rfl _))
  | .call _ _ args =>
    (Expr.orderly_sketchAll (0 :: path) args).append
      (Sketch.orderly_node (by simp [SketchStep.writes, List.filterMap_cons, List.filterMap_map]))
      (.own (Expr.under_sketchAll _ args) rfl _)
  | .branch _ test thenBlock elseBlock => by
    -- The node asks first and is written behind each branch, so it is taken out of the middle.
    have htest := test.under_sketch (0 :: path)
    have hthen := Line.under_sketchAll (1 :: path) thenBlock
    have helse := Line.under_sketchElse (2 :: path) elseBlock
    have hown : Sketch.Orderly ⟨[.branch path],
        [.deliver (Line.lastHolder? (1 :: path) thenBlock) path,
          .deliver (Line.lastHolder? (2 :: path) (elseBlock.getD [])) path]⟩ :=
      Sketch.orderly_branch rfl
    refine ((((test.orderly_sketch (0 :: path)).append (Line.orderly_sketchAll _ thenBlock)
      (.of_under htest hthen (by decide))).append (Line.orderly_sketchElse _ elseBlock)
      (.append_left (.of_under htest helse (by decide)) (.of_under hthen helse (by decide)))).append
      hown (.append_left (.append_left (.own htest rfl _) (.own hthen rfl _))
        (.own helse rfl _))).of_perm ?_ ?_
    · simp only [List.perm_iff_count, Expr.sketch, Sketch.holders_append, List.count_append,
        List.count_nil]
      omega
    · simp only [List.perm_iff_count, Expr.sketch, Sketch.written_append, Sketch.written_mk,
        List.filterMap_cons, List.filterMap_nil, SketchStep.writes, List.count_append,
        List.count_cons, List.count_nil]
      omega

theorem Expr.orderly_sketchAll (path : List Nat) :
    (es : List Expr) → (Expr.sketchAll path es).Orderly
  | [] => Sketch.orderly_steps rfl
  | e :: rest =>
    (e.orderly_sketch (0 :: path)).append (Expr.orderly_sketchAll (1 :: path) rest)
      (.of_under (e.under_sketch _) (Expr.under_sketchAll _ rest) (by decide))

theorem Line.orderly_sketch (path : List Nat) : (l : Line) → (l.sketch path).Orderly
  | .expr _ e => e.orderly_sketch path
  | .loop _ body => (Line.orderly_sketchAll path body).of_perm (by simp [Line.sketch])
    (by simp [Line.sketch, Sketch.written_mk, SketchStep.writes, List.filterMap_cons])
  | .brk _ => Sketch.orderly_steps rfl
  | .other _ => Sketch.orderly_steps rfl

theorem Line.orderly_sketchAll (path : List Nat) :
    (ls : List Line) → (Line.sketchAll path ls).Orderly
  | [] => Sketch.orderly_steps rfl
  | l :: rest =>
    (l.orderly_sketch (0 :: path)).append (Line.orderly_sketchAll (1 :: path) rest)
      (.of_under (l.under_sketch _) (Line.under_sketchAll _ rest) (by decide))

theorem Line.orderly_sketchElse (path : List Nat) :
    (block : Option (List Line)) → (Line.sketchElse path block).Orderly
  | none => Sketch.orderly_steps rfl
  | some block => Line.orderly_sketchAll path block

end

theorem FnDef.orderly_sketch (f : FnDef) : f.sketch.Orderly := by
  have hparams : (paramSketch f.params).Orderly :=
    Sketch.orderly_names f.params
      (by simp [List.filterMap_map, Function.comp_def, SketchStep.writes])
  have hend : Sketch.Orderly
      ⟨[], (Line.lastHolder? [] f.block).toList.map .push ++ [.plain]⟩ :=
    Sketch.orderly_steps
      (by simp [List.filterMap_map, List.filterMap_cons, Function.comp_def, SketchStep.writes])
  refine (hparams.append (Line.orderly_sketchAll [] f.block) ?_).append hend ?_
  · intro h way hway hmem
    obtain ⟨x, -, rfl⟩ := List.mem_map.1 hmem
    cases hway
  · exact fun _ _ _ _ => List.not_mem_nil

end FrameLang
