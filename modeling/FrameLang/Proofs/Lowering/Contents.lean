import FrameLang.Proofs.Lowering.Emission
import FrameLang.Proofs.Syntax.Provenance
import Mathlib.Data.Finset.Card

/-!
# What lowering asks for

Whether a construct can be lowered depends on what is in it: how many registers it needs for values
of its own, which names it uses, and whether there is a string literal or a `break` outside of all
its loops. A lowering asks for exactly that. It succeeds with as many more registers handed out as
there are values and new names, and it fails for no other reason than that something is missing.

## Main definitions

* `Contents` — what matters for the lowering of a construct, and `Line.contents` that of a line.
* `Granted`, `Denied` — what follows from a lowering that succeeds, and from one that fails.
* `Lower.Asks` — a computation asks for exactly the given contents.
-/

namespace FrameLang

/-- What matters for the lowering of a construct. -/
structure Contents where
  /-- The number of values that have a register of their own. -/
  temporaries : Nat := 0
  /-- The names that are used, each as often as it is. -/
  names : List Text := []
  /-- Where string literals stand. -/
  strings : List Pos := []
  /-- Where there is a `break` outside of all loops. -/
  strayBreaks : List Pos := []

namespace Contents

instance : Append Contents where
  append k m := ⟨k.temporaries + m.temporaries, k.names ++ m.names, k.strings ++ m.strings,
    k.strayBreaks ++ m.strayBreaks⟩

variable (k m n : Contents)

@[simp] theorem temporaries_append : (k ++ m).temporaries = k.temporaries + m.temporaries := rfl

@[simp] theorem names_append : (k ++ m).names = k.names ++ m.names := rfl

@[simp] theorem strings_append : (k ++ m).strings = k.strings ++ m.strings := rfl

@[simp] theorem strayBreaks_append : (k ++ m).strayBreaks = k.strayBreaks ++ m.strayBreaks := rfl

@[simp] theorem append_empty : k ++ ({} : Contents) = k := by
  show Contents.mk _ _ _ _ = k
  simp

@[simp] theorem empty_append : ({} : Contents) ++ k = k := by
  show Contents.mk _ _ _ _ = k
  simp

theorem append_assoc : k ++ m ++ n = k ++ (m ++ n) := by
  show Contents.mk _ _ _ _ = Contents.mk _ _ _ _
  simp [Nat.add_assoc]

/-- One value that has a register of its own. -/
def temporary : Contents := { temporaries := 1 }

/-- One use of a name. -/
def name (x : Text) : Contents := { names := [x] }

/-- Inside a loop a `break` goes to its end. -/
def inLoop : Contents := { k with strayBreaks := [] }

/-- The number of registers that the contents of a whole scope need. -/
def registers : Nat := k.temporaries + k.names.toFinset.card

end Contents

mutual

/-- The contents of an expression. -/
def Expr.contents : Expr → Contents
  | .int .. | .bool .. => .temporary
  | .str pos _ => { strings := [pos] }
  | .name _ x => .name x
  | .assign _ x value => value.contents ++ .name x
  | .binary _ _ lhs rhs => lhs.contents ++ rhs.contents ++ .temporary
  | .call _ _ args => Expr.allContents args ++ .temporary
  | .branch _ test thenBlock elseBlock =>
    .temporary ++ test.contents ++ Line.allContents thenBlock ++ Line.elseContents elseBlock
  | .malformed _ _ parts thenBlock elseBlock =>
    Expr.allContents parts ++ Line.allContents thenBlock ++ Line.elseContents elseBlock

/-- The contents of several expressions. -/
def Expr.allContents : List Expr → Contents
  | [] => {}
  | e :: rest => e.contents ++ Expr.allContents rest

/-- The contents of a line. -/
def Line.contents : Line → Contents
  | .expr _ e => e.contents
  | .loop _ body => (Line.allContents body).inLoop
  | .brk pos => { strayBreaks := [pos] }
  | .other _ => {}

/-- The contents of a block. -/
def Line.allContents : List Line → Contents
  | [] => {}
  | l :: rest => l.contents ++ Line.allContents rest

/-- The contents of an else branch. -/
def Line.elseContents : Option (List Line) → Contents
  | none => {}
  | some block => Line.allContents block

end

/-- The contents of a function. -/
def FnDef.contents (f : FnDef) : Contents :=
  { names := f.params } ++ Line.allContents f.block

/-! ## Handing out registers -/

/-- The names that have a register. -/
def Allocation.known (a : Allocation) : Finset Text :=
  (a.names.map Prod.fst).toFinset

theorem Allocation.lookup_eq_none {a : Allocation} {x : Text} :
    a.names.lookup x = none ↔ x ∉ a.known := by
  simp only [Allocation.known, List.lookup_eq_none_iff, List.mem_toFinset, List.mem_map]
  grind

/-- What has been handed out behind a lowering that succeeds. -/
structure Granted (s : Surroundings) (a : Allocation) (k : Contents) (b : Allocation) : Prop where
  registers : b.registers = a.registers + k.temporaries + (k.names.toFinset \ a.known).card
  known : b.known = a.known ∪ k.names.toFinset
  bounded : a.registers ≤ registerFileSize → b.registers ≤ registerFileSize
  strings : k.strings = []
  breaks : s.loopEnd = none → k.strayBreaks = []

/-- Why a lowering fails. -/
inductive Denied (s : Surroundings) (a : Allocation) (k : Contents) : LowerError → Prop where
  | exhausted : registerFileSize < a.registers + k.temporaries +
      (k.names.toFinset \ a.known).card → Denied s a k (.exhausted s.owner)
  | string {pos : Pos} : pos ∈ k.strings → Denied s a k (.located pos .stringLiteral)
  | stray {pos : Pos} : s.loopEnd = none → pos ∈ k.strayBreaks →
      Denied s a k (.located pos .breakOutsideLoop)

/-- New names of two constructs are those of the first and those that are new behind it. -/
theorem card_union_sdiff (X Y K : Finset Text) :
    ((X ∪ Y) \ K).card = (X \ K).card + (Y \ (K ∪ X)).card := by
  rw [← Finset.card_union_of_disjoint]
  · congr 1
    grind
  · rw [Finset.disjoint_left]
    grind

section Sequences

variable {s : Surroundings} {a b c : Allocation} {k m : Contents} {e : LowerError}

theorem Granted.empty (s : Surroundings) (a : Allocation) : Granted s a {} a :=
  ⟨by simp, by simp, id, rfl, fun _ => rfl⟩

theorem Granted.append (h : Granted s a k b) (h' : Granted s b m c) : Granted s a (k ++ m) c where
  registers := by
    rw [Contents.names_append, List.toFinset_append, card_union_sdiff, ← h.known, h'.registers,
      h.registers, Contents.temporaries_append]
    omega
  known := by
    rw [h'.known, h.known, Contents.names_append, List.toFinset_append, Finset.union_assoc]
  bounded ha := h'.bounded (h.bounded ha)
  strings := by rw [Contents.strings_append, h.strings, h'.strings, List.append_nil]
  breaks hs := by rw [Contents.strayBreaks_append, h.breaks hs, h'.breaks hs, List.append_nil]

/-- What is denied to the first of two constructs is denied to both. -/
theorem Denied.left (h : Denied s a k e) : Denied s a (k ++ m) e := by
  cases h with
  | exhausted h =>
    refine .exhausted ?_
    rw [Contents.names_append, List.toFinset_append, card_union_sdiff, Contents.temporaries_append]
    omega
  | string h => exact .string (List.mem_append_left _ h)
  | stray hs h => exact .stray hs (List.mem_append_left _ h)

/-- What is denied to the second of two constructs, behind the first, is denied to both. -/
theorem Denied.right (hg : Granted s a k b) (h : Denied s b m e) : Denied s a (k ++ m) e := by
  cases h with
  | exhausted h =>
    refine .exhausted ?_
    rw [hg.registers, hg.known] at h
    rw [Contents.names_append, List.toFinset_append, card_union_sdiff, Contents.temporaries_append]
    omega
  | string h => exact .string (List.mem_append_right _ h)
  | stray hs h => exact .stray hs (List.mem_append_right _ h)

end Sequences

/-- The computation asks for exactly the given contents. -/
def Lower.Asks {α : Type} (s : Surroundings) (k : Contents) (x : Lower α) : Prop :=
  ∀ a, match x a with
    | .ok (_, b) => Granted s a k b
    | .error e => Denied s a k e

namespace Lower.Asks

variable {α β : Type} {s : Surroundings} {k m : Contents} {x : Lower α} {f : α → Lower β}

theorem granted {a b : Allocation} {r : α} (hx : Asks s k x) (h : x a = .ok (r, b)) :
    Granted s a k b := by
  have ha := hx a
  rwa [h] at ha

theorem denied {a : Allocation} {e : LowerError} (hx : Asks s k x) (h : x a = .error e) :
    Denied s a k e := by
  have ha := hx a
  rwa [h] at ha

theorem pure (s : Surroundings) (r : α) : Asks s {} (Pure.pure r : Lower α) :=
  fun a => .empty s a

theorem label (s : Surroundings) : Asks s {} Lower.label :=
  fun _ => ⟨by simp, by simp [Allocation.known], id, rfl, fun _ => rfl⟩

/-- One computation after another asks for what both ask for. -/
theorem bind (hx : Asks s k x) (hf : ∀ r, Asks s m (f r)) : Asks s (k ++ m) (x >>= f) := by
  intro a
  cases hr : (x >>= f) a with
  | error e =>
    rcases Lower.bind_eq_error.1 hr with hxa | ⟨y, b, hxa, hfb⟩
    · exact (hx.denied hxa).left
    · exact Denied.right (hx.granted hxa) ((hf y).denied hfb)
  | ok r =>
    obtain ⟨y, b, hxa, hfb⟩ := Lower.bind_eq_ok.1 hr
    exact (hx.granted hxa).append ((hf y).granted hfb)

/-- What is done first asks for nothing. -/
theorem after (hx : Asks s {} x) (hf : ∀ r, Asks s m (f r)) : Asks s m (x >>= f) := by
  have h := hx.bind hf
  rwa [Contents.empty_append] at h

/-- What is left to do asks for nothing. -/
theorem map (hx : Asks s k x) (hf : ∀ r, Asks s {} (f r)) : Asks s k (x >>= f) := by
  have h := hx.bind hf
  rwa [Contents.append_empty] at h

theorem register (s : Surroundings) : Asks s .temporary (Lower.register s.owner) := by
  intro a
  by_cases h : a.registers < registerFileSize
  · simp only [Lower.register, h, if_true]
    exact ⟨by simp [Contents.temporary], by simp [Contents.temporary, Allocation.known],
      fun _ => h, rfl, fun _ => rfl⟩
  · simp only [Lower.register, h, if_false]
    exact .exhausted (by simp only [Contents.temporary]; omega)

theorem named (s : Surroundings) (x : Text) : Asks s (.name x) (Lower.named s.owner x) := by
  intro a
  cases hx : a.names.lookup x with
  | some n =>
    have hknown : x ∈ a.known := by
      by_contra hnot
      rw [Allocation.lookup_eq_none.2 hnot] at hx
      cases hx
    simp only [Lower.named, hx]
    refine ⟨?_, ?_, id, rfl, fun _ => rfl⟩
    · simp [Contents.name, hknown]
    · simp [Contents.name, hknown]
  | none =>
    have hnew := Allocation.lookup_eq_none.1 hx
    have hcard : (({x} : Finset Text) \ a.known).card = 1 := by
      rw [Finset.sdiff_eq_self_of_disjoint (by simpa using hnew), Finset.card_singleton]
    by_cases h : a.registers < registerFileSize
    · simp only [Lower.named, hx, Lower.register, h, if_true, Bind.bind, Except.bind]
      refine ⟨?_, ?_, fun _ => h, rfl, fun _ => rfl⟩
      · simp [Contents.name, hcard]
      · simp [Contents.name, Allocation.known, Finset.union_comm]
    · simp only [Lower.named, hx, Lower.register, h, if_false, Bind.bind, Except.bind]
      exact .exhausted (by simp [Contents.name, hcard]; omega)

/-- In a loop nothing is asked of a `break`. -/
theorem inLoop {loopEnd : Label} (h : Asks { s with loopEnd := some loopEnd } k x) :
    Asks s k.inLoop x := by
  intro a
  have ha := h a
  cases hx : x a with
  | error e =>
    rw [hx] at ha
    cases ha with
    | exhausted h => exact .exhausted h
    | string h => exact .string h
    | stray h _ => cases h
  | ok r =>
    rw [hx] at ha
    exact ⟨ha.registers, ha.known, ha.bounded, ha.strings, fun _ => rfl⟩

end Lower.Asks

/-! ## Constructs -/

section Constructs

variable {T : Token → Prop}

mutual

/-- The lowering of an expression asks for its contents. -/
theorem Expr.asks (s : Surroundings) : (e : Expr) → e.ReadFrom T → (e.lower s).Asks s e.contents
  | .int _ _, _ | .bool _ _, _ => (Lower.Asks.register s).map fun _ => .pure s _
  | .str pos _, _ => fun _ => .string List.mem_cons_self
  | .name _ x, _ => (Lower.Asks.named s x).map fun _ => .pure s _
  | .assign _ x value, h =>
    (value.asks s h.2.2).bind fun _ => (Lower.Asks.named s x).map fun _ => .pure s _
  | .binary _ _ lhs rhs, h => by
    rw [Expr.contents, Contents.append_assoc]
    exact (lhs.asks s h.2.1).bind fun _ => (rhs.asks s h.2.2).bind fun _ =>
      (Lower.Asks.register s).map fun _ => .pure s _
  | .call _ _ args, h =>
    (Expr.allAsks s args h.2.2).bind fun _ => (Lower.Asks.register s).map fun _ => .pure s _
  | .branch _ test thenBlock elseBlock, h => by
    rw [Expr.contents, Contents.append_assoc, Contents.append_assoc]
    exact (Lower.Asks.register s).bind fun _ => (test.asks s h.2.1).bind fun _ =>
      (Lower.Asks.label s).after fun _ => (Lower.Asks.label s).after fun _ =>
        (Lower.Asks.label s).after fun _ => (Line.allAsks s none thenBlock h.2.2.1).bind fun _ =>
          (Line.elseAsks s elseBlock h.2.2.2).map fun _ => .pure s _
  | .malformed .., h => h.elim

/-- The lowering of several expressions asks for their contents. -/
theorem Expr.allAsks (s : Surroundings) : (es : List Expr) → Expr.AllReadFrom T es →
    (Expr.lowerAll s es).Asks s (Expr.allContents es)
  | [], _ => .pure s _
  | e :: rest, h =>
    (e.asks s h.1).bind fun _ => (Expr.allAsks s rest h.2).map fun _ => .pure s _

/-- The lowering of a line asks for its contents. -/
theorem Line.asks (s : Surroundings) : (l : Line) → l.ReadFrom T → (l.lower s).Asks s l.contents
  | .expr _ e, h => (e.asks s h.2).map fun _ => .pure s _
  | .loop _ body, h =>
    (Lower.Asks.label s).after fun _ => (Lower.Asks.label s).after fun endLabel =>
      (Lower.Asks.inLoop (Line.allAsks { s with loopEnd := some endLabel } none body h.2)).map
        fun _ => .pure s _
  | .brk pos, _ => by
    intro a
    cases hs : s.loopEnd with
    | some target =>
      simp only [Line.lower, hs]
      exact ⟨by simp [Line.contents], by simp [Line.contents], id, rfl, fun h => by simp [hs] at h⟩
    | none =>
      simp only [Line.lower, hs]
      exact .stray hs List.mem_cons_self
  | .other _, h => h.elim

/-- The lowering of a block asks for its contents. -/
theorem Line.allAsks (s : Surroundings) (value : Option Register) : (ls : List Line) →
    Line.AllReadFrom T ls → (Line.lowerAll s value ls).Asks s (Line.allContents ls)
  | [], _ => .pure s _
  | l :: rest, h =>
    (l.asks s h.1).bind fun (_, value) => (Line.allAsks s value rest h.2).map fun _ => .pure s _

/-- The lowering of an else branch asks for its contents. -/
theorem Line.elseAsks (s : Surroundings) : (block : Option (List Line)) →
    Line.ElseReadFrom T block → (Line.lowerElse s block).Asks s (Line.elseContents block)
  | none, _ => .pure s _
  | some block, h => Line.allAsks s none block h

end

/-- Taking the arguments of a function asks for a register for each parameter. -/
theorem lowerParams_asks (s : Surroundings) (xs : List Text) :
    (lowerParams s.owner xs).Asks s { names := xs } := by
  induction xs with
  | nil => exact .pure s _
  | cons x rest ih => exact (Lower.Asks.named s x).bind fun _ => ih.map fun _ => .pure s _

end Constructs

end FrameLang
