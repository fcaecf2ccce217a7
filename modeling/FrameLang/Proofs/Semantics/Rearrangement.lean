import FrameLang.Proofs.Lowering.LabelDiscipline
import FrameLang.Proofs.Semantics.Agreement
import FrameLang.Proofs.Syntax.Unplaced

/-!
# Where functions are defined

A definition does nothing where it stands, and a name means the last definition under it. So a
program means the same as another one that has the same lines and in which every name has the same
last definition. Definitions can be moved over lines and over each other, and those that are
overridden can be left out.

## Main definitions

* `Program.SameContents` — equal lines, and equal functions under every name.
* `Program.Rearranged` — one program is got from another by moving, dropping and adding definitions.
* `Machine.EndsLike` — two machines end in the same way.
-/

namespace FrameLang

/-! ## Positions have no meaning -/

section Positions

variable (invoke : Text → Exec Unit) (rounds : Nat)

mutual

theorem Expr.eval_unplaced (e : Expr) :
    e.unplaced.eval invoke rounds = e.eval invoke rounds := by
  cases e with
  | int _ _ | str _ _ | bool _ _ | name _ _ | malformed _ _ _ _ _ =>
    simp only [Expr.unplaced, Expr.eval]
  | assign _ _ value => simp only [Expr.unplaced, Expr.eval, value.eval_unplaced]
  | binary _ _ lhs rhs =>
    simp only [Expr.unplaced, Expr.eval, lhs.eval_unplaced, rhs.eval_unplaced]
  | call _ _ args => simp only [Expr.unplaced, Expr.eval, Expr.evalAll_unplaced args]
  | branch _ test thenBlock elseBlock =>
    simp only [Expr.unplaced, Expr.eval, test.eval_unplaced, Line.evalAll_unplaced _ thenBlock,
      Line.evalElse_unplaced elseBlock]

theorem Expr.evalAll_unplaced (es : List Expr) :
    Expr.evalAll invoke rounds (Expr.unplacedAll es) = Expr.evalAll invoke rounds es := by
  cases es with
  | nil => rfl
  | cons e rest =>
    simp only [Expr.unplacedAll, Expr.evalAll, e.eval_unplaced, Expr.evalAll_unplaced rest]

theorem Line.eval_unplaced (l : Line) :
    l.unplaced.eval invoke rounds = l.eval invoke rounds := by
  cases l with
  | expr _ e => simp only [Line.unplaced, Line.eval, e.eval_unplaced]
  | loop _ body => simp only [Line.unplaced, Line.eval, Line.evalAll_unplaced none body]
  | brk _ | other _ => simp only [Line.unplaced, Line.eval]

theorem Line.evalAll_unplaced (place : Option Expr.Place) (ls : List Line) :
    Line.evalAll invoke rounds place (Line.unplacedAll ls) =
      Line.evalAll invoke rounds place ls := by
  cases ls with
  | nil => rfl
  | cons l rest =>
    simp only [Line.unplacedAll, Line.evalAll, l.eval_unplaced, Line.evalAll_unplaced _ rest]

theorem Line.evalElse_unplaced (block : Option (List Line)) :
    Line.evalElse invoke rounds (Line.unplacedElse block) =
      Line.evalElse invoke rounds block := by
  cases block with
  | none => rfl
  | some ls => simp only [Line.unplacedElse, Line.evalElse, Line.evalAll_unplaced none ls]

end

theorem FnDef.eval_unplaced (f : FnDef) :
    f.unplaced.eval invoke rounds = f.eval invoke rounds := by
  simp only [FnDef.unplaced, FnDef.eval, Line.evalAll_unplaced]

end Positions

/-! ## Programs with the same contents -/

/-- The lines of a program, its definitions left out. -/
def Program.lines (p : Program) : List Line :=
  p.filterMap fun
    | .fn _ => none
    | .line l => some l

/-- Two programs have the same lines, define the same names, and agree on the last definition of
each name, positions apart. -/
structure Program.SameContents (p q : Program) : Prop where
  lines : Line.unplacedAll p.lines = Line.unplacedAll q.lines
  functions (x : Text) : (p.function? x).map FnDef.unplaced = (q.function? x).map FnDef.unplaced

/-- What a program does line by line, its lines without their positions. -/
def Program.evalLines (invoke : Text → Exec Unit) (rounds : Nat) (last : Option Expr.Place) :
    List Line → Exec (Option Expr.Place)
  | [] => pure last
  | l :: rest => do
    let place ← l.eval invoke rounds
    Program.evalLines invoke rounds (place.or last) rest

theorem Program.evalFrom_eq_evalLines (invoke : Text → Exec Unit) (rounds : Nat)
    (last : Option Expr.Place) (p : Program) :
    Program.evalFrom invoke rounds last p =
      Program.evalLines invoke rounds last (Line.unplacedAll p.lines) := by
  induction p generalizing last with
  | nil => rfl
  | cons st rest ih =>
    cases st with
    | fn f => exact ih last
    | line l =>
      show (do
          let place ← l.eval invoke rounds
          Program.evalFrom invoke rounds (place.or last) rest) =
        (do
          let place ← l.unplaced.eval invoke rounds
          Program.evalLines invoke rounds (place.or last) (Line.unplacedAll (Program.lines rest)))
      simp only [Line.eval_unplaced, ih]

/-- Calls mean the same in two programs that agree on the last definition of every name. -/
theorem Program.invoke_congr {p q : Program}
    (h : ∀ x, (p.function? x).map FnDef.unplaced = (q.function? x).map FnDef.unplaced)
    (rounds depth : Nat) : p.invoke rounds depth = q.invoke rounds depth := by
  -- The functions of both programs make their own calls with one level less to go.
  induction depth with
  | zero =>
    funext x
    have hx := h x
    cases hp : p.function? x <;> cases hq : q.function? x <;>
      simp_all [Program.invoke]
  | succ depth ih =>
    funext x
    have hx := h x
    cases hp : p.function? x with
    | none =>
      cases hq : q.function? x with
      | none => simp only [Program.invoke, hp, hq]
      | some g => simp [hp, hq] at hx
    | some f =>
      cases hq : q.function? x with
      | none => simp [hp, hq] at hx
      | some g =>
        have hfg : f.unplaced = g.unplaced := by simpa [hp, hq] using hx
        rw [Program.invoke_succ hp, Program.invoke_succ hq, ih, ← FnDef.eval_unplaced, hfg,
          FnDef.eval_unplaced]

namespace Program.SameContents

variable {p q : Program}

theorem refl (p : Program) : p.SameContents p := ⟨rfl, fun _ => rfl⟩

theorem symm (h : p.SameContents q) : q.SameContents p :=
  ⟨h.lines.symm, fun x => (h.functions x).symm⟩

theorem trans {r : Program} (h : p.SameContents q) (h' : q.SameContents r) : p.SameContents r :=
  ⟨h.lines.trans h'.lines, fun x => (h.functions x).trans (h'.functions x)⟩

/-- Programs with the same contents have the same meaning. -/
theorem interpret_eq (h : p.SameContents q) (rounds : Nat) :
    p.interpret rounds = q.interpret rounds := by
  simp only [Program.interpret, Program.evalFrom_eq_evalLines, Program.invoke_congr h.functions,
    h.lines]

end Program.SameContents

/-! ## Moving definitions -/

/-- Definitions are moved over lines and over definitions of other names, and definitions that are
overridden later are dropped or added. -/
inductive Program.Rearranged : Program → Program → Prop where
  | refl (p : Program) : Rearranged p p
  | overLine (before after : Program) (f : FnDef) (l : Line) :
    Rearranged (before ++ .fn f :: .line l :: after) (before ++ .line l :: .fn f :: after)
  | overOther (before after : Program) {f g : FnDef} (h : f.name ≠ g.name) :
    Rearranged (before ++ .fn f :: .fn g :: after) (before ++ .fn g :: .fn f :: after)
  | overridden (before after : Program) {f : FnDef} (h : after.Defines f.name) :
    Rearranged (before ++ .fn f :: after) (before ++ after)
  | symm {p q : Program} (h : Rearranged p q) : Rearranged q p
  | trans {p q r : Program} (h : Rearranged p q) (h' : Rearranged q r) : Rearranged p r

theorem Program.function?_append (p q : Program) (x : Text) :
    Program.function? (p ++ q) x = (q.function? x).or (p.function? x) := by
  induction p with
  | nil => simp [Program.function?, Program.functions]
  | cons st rest ih =>
    rw [List.cons_append, Program.function?_cons, ih, Program.function?_cons st rest,
      Option.or_assoc]

theorem Program.lines_append (p q : Program) : Program.lines (p ++ q) = p.lines ++ q.lines :=
  List.filterMap_append

/-- Rearranging what stands behind `before` is enough. -/
theorem Program.sameContents_append (before : Program) {p q : Program} (h : p.lines = q.lines)
    (hf : ∀ x, p.function? x = q.function? x) :
    Program.SameContents (before ++ p) (before ++ q) where
  lines := by rw [Program.lines_append, Program.lines_append, h]
  functions x := by rw [Program.function?_append, Program.function?_append, hf]

/-- A definition that is overridden later is not what its name means. -/
theorem Program.function?_fn_cons_of_defines {f : FnDef} {after : Program}
    (h : after.Defines f.name) (x : Text) :
    Program.function? (.fn f :: after) x = after.function? x := by
  rw [Program.function?_cons]
  by_cases hx : f.name = x
  · subst hx
    have hne : after.function? f.name ≠ none := fun hn => Program.function?_eq_none.1 hn h
    rw [Option.or_of_isSome (Option.isSome_iff_ne_none.2 hne)]
  · simp [hx]

theorem Program.Rearranged.sameContents {p q : Program} (h : p.Rearranged q) :
    p.SameContents q := by
  induction h with
  | refl p => exact .refl p
  | overLine before after f l =>
    refine Program.sameContents_append before rfl fun x => ?_
    simp only [Program.function?_cons, Option.or_none]
  | @overOther before after f g h =>
    refine Program.sameContents_append before rfl fun x => ?_
    simp only [Program.function?_cons, Option.or_assoc]
    congr 1
    by_cases hf : f.name = x <;> by_cases hg : g.name = x <;> simp_all
  | overridden before after h =>
    exact Program.sameContents_append before rfl (Program.function?_fn_cons_of_defines h)
  | symm _ ih => exact ih.symm
  | trans _ _ ih ih' => exact ih.trans ih'

/-! ## Runs -/

/-- A run of the machine halts with a value, or with none. -/
def Machine.HaltsWith (m : Machine) (value : Option Int32) : Prop :=
  ∃ fuel ip steps m', m.run fuel = some (.halted ip value steps, m')

/-- A run of the machine ends with a fault of a kind. -/
def Machine.TrapsWith (m : Machine) (kind : FaultKind) : Prop :=
  ∃ fuel ip i fault m', m.run fuel = some (.trapped ip i fault, m') ∧ fault.kind = kind

/-- The machine runs forever. -/
def Machine.Diverges (m : Machine) : Prop :=
  ∀ fuel, m.run fuel = none

/-- Two machines both run forever, or both halt with the same value, or both end with a fault of the
same kind. -/
def Machine.EndsLike (m n : Machine) : Prop :=
  m.Diverges ∧ n.Diverges ∨ (∃ value, m.HaltsWith value ∧ n.HaltsWith value) ∨
    ∃ kind, m.TrapsWith kind ∧ n.TrapsWith kind

/-- A machine with an image runs forever, halts or ends with a fault. -/
theorem Machine.run_cases {m : Machine} {image : Image} (hm : m.image = some image) :
    m.Diverges ∨ (∃ value, m.HaltsWith value) ∨ ∃ kind, m.TrapsWith kind := by
  by_cases h : ∃ fuel r, m.run fuel = some r
  · obtain ⟨fuel, ⟨outcome, m'⟩, hr⟩ := h
    cases outcome with
    | halted ip value steps => exact .inr (.inl ⟨value, fuel, ip, steps, m', hr⟩)
    | trapped ip i fault => exact .inr (.inr ⟨fault.kind, fuel, ip, i, fault, m', hr, rfl⟩)
    | refused message =>
      obtain ⟨t, ht, -⟩ := (Machine.run_eq_some hm).1 hr
      exact absurd (congrArg (Option.map Prod.fst) ht)
        (Image.runFrom_ne_refused image fuel 0 .initial message)
  · refine .inl fun fuel => ?_
    cases hr : m.run fuel with
    | none => rfl
    | some r => exact absurd ⟨fuel, r, hr⟩ h

/-- A machine that agrees with a program halts with the value that the interpreter gives. -/
theorem Machine.Agrees.haltsWith_iff {m : Machine} {p : Program} (h : m.Agrees p)
    (value : Option Int32) :
    m.HaltsWith value ↔ ∃ rounds w, p.interpret rounds = .done value w := by
  constructor
  · rintro ⟨fuel, ip, steps, m', hrun⟩
    obtain ⟨rounds, value', w, he⟩ := h.halts.1 ⟨fuel, ip, value, steps, m', hrun⟩
    obtain ⟨rfl, -⟩ := h.values hrun he
    exact ⟨rounds, w, he⟩
  · rintro ⟨rounds, w, he⟩
    obtain ⟨fuel, ip, value', steps, m', hrun⟩ := h.halts.2 ⟨rounds, value, w, he⟩
    obtain ⟨rfl, -⟩ := h.values hrun he
    exact ⟨fuel, ip, steps, m', hrun⟩

/-- Machines that agree with programs of the same meaning end in the same way. -/
theorem Machine.Agrees.endsLike {m n : Machine} {p q : Program} {image : Image}
    (hm : m.image = some image) (hp : m.Agrees p) (hq : n.Agrees q)
    (h : ∀ rounds, p.interpret rounds = q.interpret rounds) : m.EndsLike n := by
  rcases Machine.run_cases hm with hd | ⟨value, hv⟩ | ⟨kind, ht⟩
  · have hi := hp.diverges.1 hd
    exact .inl ⟨hd, hq.diverges.2 fun rounds => (h rounds).symm.trans (hi rounds)⟩
  · obtain ⟨rounds, w, he⟩ := (hp.haltsWith_iff value).1 hv
    have hv' := (hq.haltsWith_iff value).2 ⟨rounds, w, (h rounds).symm.trans he⟩
    exact .inr (.inl ⟨value, hv, hv'⟩)
  · obtain ⟨rounds, he⟩ := (hp.traps kind).1 ht
    exact .inr (.inr ⟨kind, ht, (hq.traps kind).2 ⟨rounds, (h rounds).symm.trans he⟩⟩)

/-- A machine that has loaded a built program has its image and agrees with the interpreter. -/
theorem Program.build_loaded {p : Program} {checkArity : Bool} {listing : Listing}
    (h : p.build checkArity = .ok listing) (hl : p.labelsDrawn < 2 ^ 32) (m : Machine) :
    (m.load listing).1 = none ∧
      (m.load listing).2.image = some ⟨listing.code.toArray, listing.result⟩ ∧
      (m.load listing).2.Agrees p := by
  have himage : (m.load listing).2.image = some ⟨listing.code.toArray, listing.result⟩ := by
    simp only [Machine.load, Program.build_load h hl]
  exact ⟨by simp only [Machine.load, Program.build_load h hl], himage,
    Machine.agrees_of_follows himage (Program.build_follows h hl)⟩

/-- Where functions are defined, and which overridden versions of them there are, does not matter:
built programs with the same contents run alike, and so do programs that are rearranged. -/
theorem Program.build_endsLike {p q : Program} {checkArity : Bool} {listing listing' : Listing}
    (hp : p.build checkArity = .ok listing) (hq : q.build checkArity = .ok listing')
    (hlp : p.labelsDrawn < 2 ^ 32) (hlq : q.labelsDrawn < 2 ^ 32)
    (h : p.SameContents q ∨ p.Rearranged q) (m n : Machine) :
    (m.load listing).1 = none ∧ (n.load listing').1 = none ∧
      (m.load listing).2.EndsLike (n.load listing').2 := by
  have hsame : p.SameContents q := h.elim id Program.Rearranged.sameContents
  obtain ⟨hm, himage, hagrees⟩ := Program.build_loaded hp hlp m
  obtain ⟨hn, -, hagrees'⟩ := Program.build_loaded hq hlq n
  exact ⟨hm, hn, hagrees.endsLike himage hagrees' hsame.interpret_eq⟩

theorem Program.sample_endsLike : ∃ listing listing', Program.sample.build true = .ok listing ∧
    Program.build true (Program.sample.eraseIdx 1) = .ok listing' ∧
    Program.sample.labelsDrawn < 2 ^ 32 ∧
    Program.labelsDrawn (Program.sample.eraseIdx 1) < 2 ^ 32 ∧
    Program.sample.Rearranged (Program.sample.eraseIdx 1) ∧
    (({} : Machine).load listing).1 = none ∧ (({} : Machine).load listing').1 = none ∧
    (({} : Machine).load listing).2.EndsLike (({} : Machine).load listing').2 := by
  obtain ⟨listing, hp⟩ : ∃ listing, Program.sample.build true = .ok listing :=
    Program.exists_listing (by decide +kernel)
  obtain ⟨listing', hq⟩ :
      ∃ listing, Program.build true (Program.sample.eraseIdx 1) = .ok listing :=
    Program.exists_listing (by decide +kernel)
  have hlp : Program.sample.labelsDrawn < 2 ^ 32 := by decide +kernel
  have hlq : Program.labelsDrawn (Program.sample.eraseIdx 1) < 2 ^ 32 := by decide +kernel
  -- The first of the two definitions of one name is overridden by the second.
  have h : Program.sample.Rearranged (Program.sample.eraseIdx 1) :=
    .overridden (Program.sample.take 1) (Program.sample.drop 2) ⟨_, .head _, rfl⟩
  exact ⟨listing, listing', hp, hq, hlp, hlq, h,
    Program.build_endsLike hp hq hlp hlq (.inr h) {} {}⟩

end FrameLang
