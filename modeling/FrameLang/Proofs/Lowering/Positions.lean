import FrameLang.Lowering.Build
import FrameLang.Proofs.Syntax.Unplaced

/-!
# Building does not depend on positions

The positions of a program stand in the messages about it only. A program without its positions has
the same listing, or fails for the same reason.

## Main definitions

* `LowerError.unplaced`, `Lower.unplaced` — errors without their positions, and computations whose
  errors have none.
-/

namespace FrameLang

/-- An error without its position. -/
def LowerError.unplaced : LowerError → LowerError
  | .located _ cause => .located .nowhere cause
  | .exhausted owner => .exhausted owner

namespace Lower

variable {α β : Type}

/-- A computation whose errors have no positions. -/
def unplaced (x : Lower α) : Lower α :=
  fun a => (x a).mapError LowerError.unplaced

@[simp] theorem unplaced_pure (x : α) : unplaced (pure x : Lower α) = pure x := rfl

@[simp] theorem unplaced_bind (x : Lower α) (f : α → Lower β) :
    unplaced (x >>= f) = unplaced x >>= fun r => unplaced (f r) := by
  funext a
  simp only [unplaced, bind, StateT.bind, Except.bind]
  cases x a <;> rfl

@[simp] theorem unplaced_map (f : α → β) (x : Lower α) :
    unplaced (f <$> x) = f <$> unplaced x :=
  unplaced_bind x (pure ∘ f)

@[simp] theorem unplaced_fail (pos : Pos) (cause : LowerCause) :
    unplaced (fail pos cause : Lower α) = fail .nowhere cause := rfl

@[simp] theorem unplaced_label : unplaced label = label := rfl

@[simp] theorem unplaced_register (owner : Owner) : unplaced (register owner) = register owner := by
  funext a
  simp only [unplaced, register]
  split <;> rfl

@[simp] theorem unplaced_named (owner : Owner) (x : Text) :
    unplaced (named owner x) = named owner x := by
  funext a
  simp only [unplaced, named, register]
  split
  · rfl
  · split <;> rfl

@[simp] theorem unplaced_inNewScope (body : Lower α) :
    unplaced (inNewScope body) = inNewScope (unplaced body) := by
  funext a
  simp only [unplaced, inNewScope, bind, Except.bind]
  cases body { labels := a.labels } <;> rfl

end Lower

/-! ## Code -/

mutual

theorem Expr.lower_unplaced (s : Surroundings) :
    (e : Expr) → e.unplaced.lower s = Lower.unplaced (e.lower s)
  | .int .. | .bool .. | .str .. | .name .. => by simp [Expr.unplaced, Expr.lower]
  | .assign _ _ value => by
    have hvalue := value.lower_unplaced s
    simp [Expr.unplaced, Expr.lower, hvalue]
  | .binary _ _ lhs rhs => by
    have hl := lhs.lower_unplaced s
    have hr := rhs.lower_unplaced s
    simp [Expr.unplaced, Expr.lower, hl, hr]
  | .call _ _ args => by
    have hargs := Expr.lowerAll_unplaced s args
    simp [Expr.unplaced, Expr.lower, hargs]
  | .branch _ test thenBlock elseBlock => by
    have htest := test.lower_unplaced s
    have hthen := Line.lowerAll_unplaced s none thenBlock
    have helse := Line.lowerElse_unplaced s elseBlock
    simp [Expr.unplaced, Expr.lower, htest, hthen, helse]
  | .malformed pos (.binary none) [lhs, rhs] thenBlock elseBlock => by
    have hl := lhs.lower_unplaced s
    have hr := rhs.lower_unplaced s
    simp [Expr.unplaced, Expr.unplacedAll, Expr.lower, hl, hr]
  | .malformed _ (.binary none) [] _ _ | .malformed _ (.binary none) [_] _ _
  | .malformed _ (.binary none) (_ :: _ :: _ :: _) _ _ | .malformed _ (.binary (some _)) _ _ _
  | .malformed _ (.assign _) _ _ _ | .malformed _ .branch _ _ _ | .malformed _ .other _ _ _ => by
    simp [Expr.unplaced, Expr.unplacedAll, Expr.lower]

theorem Expr.lowerAll_unplaced (s : Surroundings) :
    (es : List Expr) → Expr.lowerAll s (Expr.unplacedAll es) = Lower.unplaced (Expr.lowerAll s es)
  | [] => by simp [Expr.unplacedAll, Expr.lowerAll]
  | e :: rest => by
    have he := e.lower_unplaced s
    have hrest := Expr.lowerAll_unplaced s rest
    simp [Expr.unplacedAll, Expr.lowerAll, he, hrest]

theorem Line.lower_unplaced (s : Surroundings) :
    (l : Line) → l.unplaced.lower s = Lower.unplaced (l.lower s)
  | .expr _ e => by
    have he := e.lower_unplaced s
    simp [Line.unplaced, Line.lower, he]
  | .loop _ body => by
    have hbody := fun label => Line.lowerAll_unplaced { s with loopEnd := some label } none body
    simp [Line.unplaced, Line.lower, hbody]
  | .brk _ => by
    simp only [Line.unplaced, Line.lower]
    cases s.loopEnd <;> simp
  | .other _ => by simp [Line.unplaced, Line.lower]

theorem Line.lowerAll_unplaced (s : Surroundings) (value : Option Register) :
    (ls : List Line) →
      Line.lowerAll s value (Line.unplacedAll ls) = Lower.unplaced (Line.lowerAll s value ls)
  | [] => by simp [Line.unplacedAll, Line.lowerAll]
  | l :: rest => by
    have hl := l.lower_unplaced s
    have hrest := fun value => Line.lowerAll_unplaced s value rest
    simp [Line.unplacedAll, Line.lowerAll, hl, hrest]

theorem Line.lowerElse_unplaced (s : Surroundings) :
    (block : Option (List Line)) →
      Line.lowerElse s (Line.unplacedElse block) = Lower.unplaced (Line.lowerElse s block)
  | none => by simp [Line.unplacedElse, Line.lowerElse]
  | some block => by
    have hblock := Line.lowerAll_unplaced s none block
    simp [Line.unplacedElse, Line.lowerElse, hblock]

end

@[simp] theorem unplaced_lowerParams (owner : Owner) (params : List Text) :
    Lower.unplaced (lowerParams owner params) = lowerParams owner params := by
  induction params with
  | nil => simp [lowerParams]
  | cons x rest ih => simp [lowerParams, ih]

theorem FnDef.lower_unplaced (f : FnDef) : f.unplaced.lower = Lower.unplaced f.lower := by
  have hbody : f.unplaced.lowerBody = Lower.unplaced f.lowerBody := by
    simp only [FnDef.lowerBody, FnDef.unplaced, Line.lowerAll_unplaced, Lower.unplaced_bind,
      unplaced_lowerParams]
    congr
    funext params
    congr
    funext (code, value)
    cases value <;> simp
  have hname : f.unplaced.name = f.name := rfl
  simp [FnDef.lower, hbody, hname]

theorem Statement.lower_unplaced (st : Statement) :
    st.unplaced.lower = Lower.unplaced st.lower := by
  cases st with
  | fn f => simp [Statement.unplaced, Statement.lower, f.lower_unplaced]
  | line l => exact l.lower_unplaced _

theorem Program.lower_unplaced (result : Option Register) (p : Program) :
    Program.lower result p.unplaced = Lower.unplaced (Program.lower result p) := by
  induction p generalizing result with
  | nil => simp [Program.unplaced, Program.lower]
  | cons st rest ih =>
    simp only [Program.unplaced] at ih
    simp [Program.unplaced, Program.lower, st.lower_unplaced, ih]

/-! ## Calls -/

/-- A call without its position. -/
def CallSite.unplaced (site : CallSite) : CallSite :=
  { site with pos := .nowhere }

@[simp] theorem Expr.length_unplacedAll (es : List Expr) :
    (Expr.unplacedAll es).length = es.length := by
  induction es with
  | nil => rfl
  | cons e rest ih => simp [Expr.unplacedAll, ih]

mutual

theorem Expr.callSites_unplaced :
    (e : Expr) → e.unplaced.callSites = e.callSites.map CallSite.unplaced
  | .int .. | .str .. | .bool .. | .name .. => by simp [Expr.unplaced, Expr.callSites]
  | .assign _ _ value => value.callSites_unplaced
  | .binary _ _ lhs rhs => by
    have hl := lhs.callSites_unplaced
    have hr := rhs.callSites_unplaced
    simp [Expr.unplaced, Expr.callSites, hl, hr]
  | .call _ _ args => by
    have hargs := Expr.allCallSites_unplaced args
    simp [Expr.unplaced, Expr.callSites, hargs, CallSite.unplaced]
  | .branch _ test thenBlock elseBlock => by
    have htest := test.callSites_unplaced
    have hthen := Line.allCallSites_unplaced thenBlock
    have helse := Line.elseCallSites_unplaced elseBlock
    simp [Expr.unplaced, Expr.callSites, htest, hthen, helse]
  | .malformed _ _ parts thenBlock elseBlock => by
    have hparts := Expr.allCallSites_unplaced parts
    have hthen := Line.allCallSites_unplaced thenBlock
    have helse := Line.elseCallSites_unplaced elseBlock
    simp [Expr.unplaced, Expr.callSites, hparts, hthen, helse]

theorem Expr.allCallSites_unplaced :
    (es : List Expr) →
      Expr.allCallSites (Expr.unplacedAll es) = (Expr.allCallSites es).map CallSite.unplaced
  | [] => rfl
  | e :: rest => by
    have he := e.callSites_unplaced
    have hrest := Expr.allCallSites_unplaced rest
    simp [Expr.unplacedAll, Expr.allCallSites, he, hrest]

theorem Line.callSites_unplaced :
    (l : Line) → l.unplaced.callSites = l.callSites.map CallSite.unplaced
  | .expr _ e => e.callSites_unplaced
  | .loop _ body => Line.allCallSites_unplaced body
  | .brk _ | .other _ => rfl

theorem Line.allCallSites_unplaced :
    (ls : List Line) →
      Line.allCallSites (Line.unplacedAll ls) = (Line.allCallSites ls).map CallSite.unplaced
  | [] => rfl
  | l :: rest => by
    have hl := l.callSites_unplaced
    have hrest := Line.allCallSites_unplaced rest
    simp [Line.unplacedAll, Line.allCallSites, hl, hrest]

theorem Line.elseCallSites_unplaced :
    (block : Option (List Line)) →
      Line.elseCallSites (Line.unplacedElse block) =
        (Line.elseCallSites block).map CallSite.unplaced
  | none => rfl
  | some block => Line.allCallSites_unplaced block

end

theorem Program.callSites_unplaced (p : Program) :
    p.unplaced.callSites = p.callSites.map CallSite.unplaced := by
  induction p with
  | nil => rfl
  | cons st rest ih =>
    have hst : st.unplaced.callSites = st.callSites.map CallSite.unplaced := by
      cases st with
      | fn f => exact Line.allCallSites_unplaced f.block
      | line l => exact l.callSites_unplaced
    simp only [Program.callSites, Program.unplaced] at ih
    simp [Program.callSites, Program.unplaced, hst, ih]

theorem Program.function?_unplaced (p : Program) (name : Text) :
    p.unplaced.function? name = (p.function? name).map FnDef.unplaced := by
  have hfunctions : p.unplaced.functions = p.functions.map FnDef.unplaced := by
    induction p with
    | nil => rfl
    | cons st rest ih =>
      simp only [Program.functions, Program.unplaced] at ih
      cases st <;> simp [Program.functions, Program.unplaced, Statement.unplaced, ih]
  rw [Program.function?, hfunctions, ← List.map_reverse, List.find?_map]
  rfl

theorem CallSite.error?_unplaced (p : Program) (site : CallSite) :
    site.unplaced.error? p.unplaced = (site.error? p).map LowerError.unplaced := by
  unfold CallSite.error?
  rw [show site.unplaced.callee = site.callee from rfl, p.function?_unplaced]
  cases p.function? site.callee with
  | none => rfl
  | some f =>
    simp only [Option.map_some, show f.unplaced.params = f.params from rfl,
      show site.unplaced.args = site.args from rfl]
    split <;> rfl

theorem Program.callError?_unplaced (p : Program) :
    p.unplaced.callError? = p.callError?.map LowerError.unplaced := by
  have hsites (sites : List CallSite) :
      (sites.map CallSite.unplaced).findSome? (CallSite.error? p.unplaced) =
        (sites.findSome? (CallSite.error? p)).map LowerError.unplaced := by
    induction sites with
    | nil => rfl
    | cons site rest ih =>
      rw [List.map_cons, List.findSome?_cons, List.findSome?_cons, site.error?_unplaced, ih]
      cases site.error? p <;> rfl
  rw [Program.callError?, p.callSites_unplaced]
  exact hsites p.callSites

/-- A program without its positions is built alike. -/
theorem Program.build_unplaced (checkArity : Bool) (p : Program) :
    p.unplaced.build checkArity = (p.build checkArity).mapError LowerError.unplaced := by
  unfold Program.build
  rw [p.lower_unplaced, p.callError?_unplaced]
  simp only [StateT.run, Lower.unplaced, bind, Except.bind]
  cases Program.lower none p {} with
  | error e => rfl
  | ok result =>
    obtain ⟨⟨code, value⟩, allocation⟩ := result
    cases checkArity with
    | false => rfl
    | true => cases p.callError? <;> rfl

/-- Programs that differ in positions only have the same listing. -/
theorem Program.build_congr {p q : Program} (h : q.unplaced = p.unplaced) {checkArity : Bool}
    {listing : Listing} (hp : p.build checkArity = .ok listing) :
    q.build checkArity = .ok listing := by
  have hbuild := q.build_unplaced checkArity
  rw [h, p.build_unplaced, hp] at hbuild
  cases hq : q.build checkArity with
  | error e =>
    rw [hq] at hbuild
    cases hbuild
  | ok other =>
    rw [hq] at hbuild
    cases hbuild
    rfl

/-- Programs that differ in positions only need too many registers alike. -/
theorem Program.build_exhausted_congr {p q : Program} (h : q.unplaced = p.unplaced)
    {checkArity : Bool} {owner : Owner} (hp : p.build checkArity = .error (.exhausted owner)) :
    q.build checkArity = .error (.exhausted owner) := by
  have hbuild := q.build_unplaced checkArity
  rw [h, p.build_unplaced, hp] at hbuild
  cases hq : q.build checkArity with
  | error e =>
    rw [hq] at hbuild
    cases e with
    | located => cases hbuild
    | exhausted =>
      cases hbuild
      rfl
  | ok other =>
    rw [hq] at hbuild
    cases hbuild

end FrameLang
