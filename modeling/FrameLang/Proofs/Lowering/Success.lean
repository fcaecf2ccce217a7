import FrameLang.Proofs.Lowering.Contents
import FrameLang.Proofs.Lowering.Heights
import FrameLang.Proofs.Semantics.Rearrangement
import FrameLang.Proofs.Syntax.Literals

/-!
# Which programs can be built

A program that was read from a source text can be built exactly if it has no string literal, no
`break` outside of a loop, no function whose body does not end with an expression line, and no scope
that needs more registers than there are; with checked calls, every call must also fit the last
definition of the function that it names. The errors of trees that lack a part never occur, and
every error but the exhaustion of registers names the position of a token.

## Main definitions

* `Contents.Fits`, `Program.IsBuildable`, `Program.CallsFit` — the conditions.
* `BuildsExactly` — what holds of the builds of a program.
-/

namespace FrameLang

/-! ## Scopes -/

/-- The contents of a scope that can be lowered. -/
structure Contents.Fits (k : Contents) : Prop where
  strings : k.strings = []
  breaks : k.strayBreaks = []
  registers : k.registers ≤ registerFileSize

section Scopes

variable {s : Surroundings} {labels : Nat} {k : Contents} {b : Allocation} {e : LowerError}

/-- What a whole scope is granted fits. -/
theorem Granted.fits (h : Granted s { labels := labels } k b) (hs : s.loopEnd = none) :
    k.Fits where
  strings := h.strings
  breaks := h.breaks hs
  registers := by
    have hb := h.bounded (Nat.zero_le _)
    rw [h.registers] at hb
    simpa [Allocation.known, Contents.registers] using hb

/-- What a whole scope is denied does not fit. -/
theorem Denied.not_fits (h : Denied s { labels := labels } k e) : ¬ k.Fits := by
  intro hk
  cases h with
  | exhausted h =>
    have hle := hk.registers
    simp only [Allocation.known, List.map_nil, List.toFinset_nil, Finset.sdiff_empty] at h
    unfold Contents.registers at hle
    omega
  | string h =>
    rw [hk.strings] at h
    cases h
  | stray _ h =>
    rw [hk.breaks] at h
    cases h

end Scopes

/-! ## Functions -/

/-- The body of the function ends with an expression line. -/
def FnDef.EndsWithValue (f : FnDef) : Prop :=
  ∃ pos e, f.block.getLast? = some (.expr pos e)

/-- A block has a value if its last line is an expression line. -/
theorem Emits.isSome_iff {s : Surroundings} {ls : List Line} {value v : Option Register}
    {a b : Allocation} {code : List Instr} (h : Emits s (.block value ls) a code v b) :
    v.isSome = true ↔
      (ls = [] ∧ value.isSome = true) ∨ ∃ pos e, ls.getLast? = some (.expr pos e) := by
  induction ls generalizing value a code with
  | nil =>
    cases h
    simp
  | cons l rest ih =>
    cases h with
    | moreLines _ hl hrest =>
      rw [ih hrest]
      cases rest with
      | nil => cases hl <;> simp
      | cons m rest => simp

/-- The function can be lowered. -/
structure FnDef.IsLowerable (f : FnDef) : Prop where
  contents : f.contents.Fits
  value : f.EndsWithValue

/-- Why a function cannot be lowered. -/
inductive FnDef.Refuses (f : FnDef) : LowerError → Prop where
  | contents {labels : Nat} {e : LowerError} :
      Denied f.surroundings { labels := labels } f.contents e → f.Refuses e
  | value : ¬ f.EndsWithValue → f.Refuses (.located f.pos (.noValue f.name))

theorem FnDef.Refuses.not_isLowerable {f : FnDef} {e : LowerError} (h : f.Refuses e) :
    ¬ f.IsLowerable := by
  intro hf
  cases h with
  | contents h => exact h.not_fits hf.contents
  | value h => exact h hf.value

section Functions

variable {T : Token → Prop} {f : FnDef}

/-- A function whose body is lowered can be. -/
theorem FnDef.isLowerable_of_lowerBody (hf : f.ReadFrom T) {labels : Nat} {code : List Instr}
    {inner : Allocation} (h : f.lowerBody { labels := labels } = .ok (code, inner)) :
    f.IsLowerable := by
  simp only [FnDef.lowerBody, Lower.bind_eq_ok] at h
  obtain ⟨params, mid, hp, ⟨body, value⟩, inner', hb, hv⟩ := h
  have hparams := (lowerParams_asks f.surroundings f.params).granted hp
  have hbody := (Line.allAsks f.surroundings none f.block hf.2.2.2).granted hb
  refine ⟨(hparams.append hbody).fits rfl, ?_⟩
  have hsome := (Line.emitsAll f.block f.surroundings none mid hb).isSome_iff
  cases value with
  | none => cases hv
  | some place =>
    rcases hsome.1 rfl with ⟨-, hnone⟩ | hlast
    · cases hnone
    · exact hlast

/-- A function whose body is not lowered has something in it that stands against it. -/
theorem FnDef.refuses_of_lowerBody (hf : f.ReadFrom T) {labels : Nat} {e : LowerError}
    (h : f.lowerBody { labels := labels } = .error e) : f.Refuses e := by
  simp only [FnDef.lowerBody, Lower.bind_eq_error] at h
  have hparams := lowerParams_asks f.surroundings f.params
  have hbody := Line.allAsks f.surroundings none f.block hf.2.2.2
  rcases h with hp | ⟨params, mid, hp, hb | ⟨⟨body, value⟩, inner, hb, hv⟩⟩
  · exact .contents (hparams.denied hp).left
  · exact .contents (Denied.right (hparams.granted hp) (hbody.denied hb))
  · have hsome := (Line.emitsAll f.block f.surroundings none mid hb).isSome_iff
    cases value with
    | some place => cases hv
    | none =>
      cases hv
      refine .value fun hvalue => ?_
      cases hsome.2 (.inr hvalue)

end Functions

/-! ## Programs -/

/-- The program can be built, its calls apart. -/
structure Program.IsBuildable (p : Program) : Prop where
  topLevel : (Line.allContents p.lines).Fits
  functions : ∀ f ∈ p.functions, f.IsLowerable

section Programs

variable {T : Token → Prop} {p : Program} {a b : Allocation} {result : Option Register}
  {e : LowerError}

/-- A function that is lowered takes no registers of the scope around it. -/
theorem FnDef.granted_of_lower {f : FnDef} (hf : f.ReadFrom T) {code : List Instr}
    (h : f.lower a = .ok (code, b)) : f.IsLowerable ∧ Granted .top a {} b := by
  simp only [FnDef.lower, Lower.bind_eq_ok, Lower.label, Lower.inNewScope_eq_ok, Lower.pure_eq_ok,
    Except.ok.injEq, Prod.mk.injEq] at h
  obtain ⟨_, _, ⟨-, rfl⟩, body, _, ⟨inner, hb, rfl⟩, -, rfl⟩ := h
  exact ⟨f.isLowerable_of_lowerBody hf hb, by simp, by simp [Allocation.known], id, rfl,
    fun _ => rfl⟩

theorem FnDef.refuses_of_lower {f : FnDef} (hf : f.ReadFrom T) (h : f.lower a = .error e) :
    f.Refuses e := by
  simp only [FnDef.lower, Lower.bind_eq_error, Lower.label, Lower.inNewScope_eq_error,
    Except.ok.injEq, Prod.mk.injEq, reduceCtorEq, false_or] at h
  obtain ⟨_, _, ⟨-, rfl⟩, hb | ⟨body, inner, -, hpure⟩⟩ := h
  · exact f.refuses_of_lowerBody hf hb
  · exact absurd hpure Lower.pure_ne_error

/-- A program that is lowered meets the conditions. -/
theorem Program.granted_of_lower (hp : p.ReadFrom T) {r : List Instr × Option Register}
    (h : Program.lower result p a = .ok (r, b)) :
    Granted .top a (Line.allContents p.lines) b ∧ ∀ f ∈ p.functions, f.IsLowerable := by
  induction p generalizing a result r with
  | nil =>
    obtain ⟨-, rfl⟩ := Lower.pure_eq_ok.1 h
    exact ⟨.empty _ _, nofun⟩
  | cons st rest ih =>
    obtain ⟨hst, hrest⟩ := List.forall_mem_cons.1 hp
    simp only [Program.lower, Lower.bind_eq_ok, Lower.pure_eq_ok] at h
    obtain ⟨⟨code, v⟩, a₁, hs, r', _, hr, -, rfl⟩ := h
    obtain ⟨hgranted, hfns⟩ := ih hrest hr
    cases st with
    | fn f =>
      simp only [Statement.lower, Lower.bind_eq_ok, Lower.pure_eq_ok] at hs
      obtain ⟨fcode, _, hf, -, rfl⟩ := hs
      obtain ⟨hlowerable, hsame⟩ := f.granted_of_lower hst hf
      have hboth := hsame.append hgranted
      rw [Contents.empty_append] at hboth
      exact ⟨hboth, List.forall_mem_cons.2 ⟨hlowerable, hfns⟩⟩
    | line l => exact ⟨((l.asks .top hst).granted hs).append hgranted, hfns⟩

/-- A program that is not lowered has something in it that stands against it. -/
theorem Program.denied_of_lower (hp : p.ReadFrom T) (h : Program.lower result p a = .error e) :
    Denied .top a (Line.allContents p.lines) e ∨ ∃ f ∈ p.functions, f.Refuses e := by
  induction p generalizing a result with
  | nil => cases h
  | cons st rest ih =>
    obtain ⟨hst, hrest⟩ := List.forall_mem_cons.1 hp
    simp only [Program.lower, Lower.bind_eq_error] at h
    cases st with
    | fn f =>
      rcases h with hs | ⟨⟨code, v⟩, a₁, hs, hr | ⟨_, _, -, hpure⟩⟩
      · simp only [Statement.lower, Lower.bind_eq_error] at hs
        rcases hs with hf | ⟨_, _, -, hpure⟩
        · exact .inr ⟨f, List.mem_cons_self, f.refuses_of_lower hst hf⟩
        · exact absurd hpure Lower.pure_ne_error
      · simp only [Statement.lower, Lower.bind_eq_ok, Lower.pure_eq_ok] at hs
        obtain ⟨fcode, _, hf, -, rfl⟩ := hs
        rcases ih hrest hr with hdenied | ⟨g, hg, hrefuses⟩
        · have hboth := Denied.right (f.granted_of_lower hst hf).2 hdenied
          rw [Contents.empty_append] at hboth
          exact .inl hboth
        · exact .inr ⟨g, List.mem_cons_of_mem f hg, hrefuses⟩
      · exact absurd hpure Lower.pure_ne_error
    | line l =>
      have hl := l.asks .top hst
      rcases h with hs | ⟨⟨code, v⟩, a₁, hs, hr | ⟨_, _, -, hpure⟩⟩
      · exact .inl (hl.denied hs).left
      · exact (ih hrest hr).imp_left (Denied.right (hl.granted hs))
      · exact absurd hpure Lower.pure_ne_error

end Programs

/-! ## Positions of what stands against a program -/

/-- The positions of string literals and of stray breaks come from tokens. -/
def Contents.ReadFrom (T : Token → Prop) (k : Contents) : Prop :=
  (∀ pos ∈ k.strings, pos.ReadFrom T) ∧ ∀ pos ∈ k.strayBreaks, pos.ReadFrom T

section Positions

variable {T : Token → Prop}

theorem Contents.ReadFrom.append {k m : Contents} (hk : k.ReadFrom T) (hm : m.ReadFrom T) :
    (k ++ m).ReadFrom T :=
  ⟨List.forall_mem_append.2 ⟨hk.1, hm.1⟩, List.forall_mem_append.2 ⟨hk.2, hm.2⟩⟩

theorem Contents.readFrom_of_nil {k : Contents} (hs : k.strings = []) (hb : k.strayBreaks = []) :
    k.ReadFrom T := by
  rw [Contents.ReadFrom, hs, hb]
  exact ⟨nofun, nofun⟩

mutual

theorem Expr.ReadFrom.contents : (e : Expr) → e.ReadFrom T → e.contents.ReadFrom T
  | .int .., _ | .bool .., _ | .name .., _ => Contents.readFrom_of_nil rfl rfl
  | .str .., h => ⟨List.forall_mem_singleton.2 h, nofun⟩
  | .assign _ _ value, h =>
    (Expr.ReadFrom.contents value h.2.2).append (Contents.readFrom_of_nil rfl rfl)
  | .binary _ _ lhs rhs, h =>
    ((Expr.ReadFrom.contents lhs h.2.1).append (Expr.ReadFrom.contents rhs h.2.2)).append
      (Contents.readFrom_of_nil rfl rfl)
  | .call _ _ args, h =>
    (Expr.AllReadFrom.contents args h.2.2).append (Contents.readFrom_of_nil rfl rfl)
  | .branch _ test thenBlock elseBlock, h =>
    ((((Contents.readFrom_of_nil rfl rfl).append (Expr.ReadFrom.contents test h.2.1)).append
      (Line.AllReadFrom.contents thenBlock h.2.2.1)).append
      (Line.ElseReadFrom.contents elseBlock h.2.2.2))
  | .malformed .., h => h.elim

theorem Expr.AllReadFrom.contents : (es : List Expr) → Expr.AllReadFrom T es →
    (Expr.allContents es).ReadFrom T
  | [], _ => Contents.readFrom_of_nil rfl rfl
  | e :: rest, h =>
    (Expr.ReadFrom.contents e h.1).append (Expr.AllReadFrom.contents rest h.2)

theorem Line.ReadFrom.contents : (l : Line) → l.ReadFrom T → l.contents.ReadFrom T
  | .expr _ e, h => Expr.ReadFrom.contents e h.2
  | .loop _ body, h => ⟨(Line.AllReadFrom.contents body h.2).1, nofun⟩
  | .brk _, h => ⟨nofun, List.forall_mem_singleton.2 h⟩
  | .other _, h => h.elim

theorem Line.AllReadFrom.contents : (ls : List Line) → Line.AllReadFrom T ls →
    (Line.allContents ls).ReadFrom T
  | [], _ => Contents.readFrom_of_nil rfl rfl
  | l :: rest, h =>
    (Line.ReadFrom.contents l h.1).append (Line.AllReadFrom.contents rest h.2)

theorem Line.ElseReadFrom.contents : (block : Option (List Line)) → Line.ElseReadFrom T block →
    (Line.elseContents block).ReadFrom T
  | none, _ => Contents.readFrom_of_nil rfl rfl
  | some block, h => Line.AllReadFrom.contents block h

end

/-- The position and the name of a call come from tokens. -/
def CallSite.ReadFrom (T : Token → Prop) (site : CallSite) : Prop :=
  site.pos.ReadFrom T ∧ NameFrom T site.callee

mutual

theorem Expr.ReadFrom.callSites : (e : Expr) → e.ReadFrom T →
    ∀ site ∈ e.callSites, site.ReadFrom T
  | .int .., _ | .str .., _ | .bool .., _ | .name .., _ => nofun
  | .assign _ _ value, h => Expr.ReadFrom.callSites value h.2.2
  | .binary _ _ lhs rhs, h => List.forall_mem_append.2
    ⟨Expr.ReadFrom.callSites lhs h.2.1, Expr.ReadFrom.callSites rhs h.2.2⟩
  | .call _ _ args, h => List.forall_mem_append.2
    ⟨Expr.AllReadFrom.callSites args h.2.2, List.forall_mem_singleton.2 ⟨h.1, h.2.1⟩⟩
  | .branch _ test thenBlock elseBlock, h => List.forall_mem_append.2
    ⟨List.forall_mem_append.2
      ⟨Expr.ReadFrom.callSites test h.2.1, Line.AllReadFrom.callSites thenBlock h.2.2.1⟩,
      Line.ElseReadFrom.callSites elseBlock h.2.2.2⟩
  | .malformed .., h => h.elim

theorem Expr.AllReadFrom.callSites : (es : List Expr) → Expr.AllReadFrom T es →
    ∀ site ∈ Expr.allCallSites es, site.ReadFrom T
  | [], _ => nofun
  | e :: rest, h => List.forall_mem_append.2
    ⟨Expr.ReadFrom.callSites e h.1, Expr.AllReadFrom.callSites rest h.2⟩

theorem Line.ReadFrom.callSites : (l : Line) → l.ReadFrom T →
    ∀ site ∈ l.callSites, site.ReadFrom T
  | .expr _ e, h => Expr.ReadFrom.callSites e h.2
  | .loop _ body, h => Line.AllReadFrom.callSites body h.2
  | .brk _, _ => nofun
  | .other _, h => h.elim

theorem Line.AllReadFrom.callSites : (ls : List Line) → Line.AllReadFrom T ls →
    ∀ site ∈ Line.allCallSites ls, site.ReadFrom T
  | [], _ => nofun
  | l :: rest, h => List.forall_mem_append.2
    ⟨Line.ReadFrom.callSites l h.1, Line.AllReadFrom.callSites rest h.2⟩

theorem Line.ElseReadFrom.callSites : (block : Option (List Line)) → Line.ElseReadFrom T block →
    ∀ site ∈ Line.elseCallSites block, site.ReadFrom T
  | none, _ => nofun
  | some block, h => Line.AllReadFrom.callSites block h

end

end Positions

/-! ## Errors -/

theorem LowerError.message_of_line_eq_zero {pos : Pos} {cause : LowerCause} (h : pos.line = 0) :
    (LowerError.located pos cause).message = cause.message :=
  congrArg (· ++ cause.message) (if_pos h)

theorem LowerError.message_of_line_ne_zero {pos : Pos} {cause : LowerCause} (h : pos.line ≠ 0) :
    (LowerError.located pos cause).message = pos.mark ++ cause.message :=
  congrArg (· ++ cause.message) (if_neg h)

/-- The tree lacks a part, or has one of an unknown kind. -/
def LowerCause.isDefect : LowerCause → Bool
  | .malformedAssignment | .malformedBinary | .malformedBranch | .unknownExpression
  | .unknownLine | .unknownOperator => true
  | .stringLiteral | .breakOutsideLoop | .noValue _ | .undefinedFunction _ | .arity .. => false

/-- A construct that is to blame stands at a token and lacks no part. -/
def LowerError.PlacedAt (T : Token → Prop) : LowerError → Prop
  | .located pos cause => pos.ReadFrom T ∧ cause.isDefect = false
  | .exhausted _ => True

/-- Every call fits the last definition of the function that it names. -/
def Program.CallsFit (p : Program) : Prop :=
  ∀ site ∈ p.callSites, ∃ f, p.function? site.callee = some f ∧ f.params.length = site.args

section Errors

variable {T : Token → Prop} {p : Program} {e : LowerError}

theorem Denied.placedAt {s : Surroundings} {a : Allocation} {k : Contents}
    (h : Denied s a k e) (hk : k.ReadFrom T) : e.PlacedAt T := by
  cases h with
  | exhausted => trivial
  | string h => exact ⟨hk.1 _ h, rfl⟩
  | stray _ h => exact ⟨hk.2 _ h, rfl⟩

theorem FnDef.Refuses.placedAt {f : FnDef} (h : f.Refuses e) (hf : f.ReadFrom T) :
    e.PlacedAt T := by
  cases h with
  | contents h =>
    exact h.placedAt ((Contents.readFrom_of_nil rfl rfl).append
      (Line.AllReadFrom.contents f.block hf.2.2.2))
  | value => exact ⟨hf.1, rfl⟩

theorem Program.callError?_eq_none : p.callError? = none ↔ p.CallsFit := by
  rw [Program.callError?, List.findSome?_eq_none_iff]
  exact forall₂_congr fun _ _ => CallSite.error?_eq_none

theorem CallSite.error?_eq_some {site : CallSite} (h : site.error? p = some e) :
    ∃ cause, e = .located site.pos cause ∧ cause.isDefect = false := by
  unfold CallSite.error? at h
  split at h
  · cases h
    exact ⟨_, rfl, rfl⟩
  · split at h
    · cases h
    · cases h
      exact ⟨_, rfl, rfl⟩

theorem Program.ReadFrom.lines (h : p.ReadFrom T) : Line.AllReadFrom T p.lines := by
  induction p with
  | nil => trivial
  | cons st rest ih =>
    obtain ⟨hst, hrest⟩ := List.forall_mem_cons.1 h
    cases st with
    | fn f => exact ih hrest
    | line l => exact ⟨hst, ih hrest⟩

theorem Program.ReadFrom.functions (h : p.ReadFrom T) : ∀ f ∈ p.functions, f.ReadFrom T := by
  intro f hf
  obtain ⟨st, hst, heq⟩ := List.mem_filterMap.1 hf
  cases st with
  | fn g =>
    cases heq
    exact h _ hst
  | line l => cases heq

theorem Program.ReadFrom.callSites (h : p.ReadFrom T) :
    ∀ site ∈ p.callSites, site.ReadFrom T := by
  intro site hsite
  obtain ⟨st, hst, hsite⟩ := List.mem_flatMap.1 hsite
  have hread := h st hst
  cases st with
  | fn f => exact Line.AllReadFrom.callSites f.block hread.2.2.2 site hsite
  | line l => exact Line.ReadFrom.callSites l hread site hsite

/-- A build fails in the lowering or in the check of the calls. -/
theorem Program.build_eq_error {checkArity : Bool} (h : p.build checkArity = .error e) :
    Program.lower none p {} = .error e ∨ checkArity = true ∧ p.callError? = some e := by
  unfold Program.build StateT.run at h
  cases hl : Program.lower none p {} with
  | error e' =>
    simp only [hl, bind, Except.bind, Except.error.injEq] at h
    exact .inl (congrArg Except.error h)
  | ok r =>
    simp only [hl, bind, Except.bind] at h
    refine .inr ?_
    cases checkArity with
    | false => cases h
    | true =>
      cases hc : p.callError? with
      | none => simp [hc] at h
      | some e' => simpa [hc] using h

theorem Program.ReadFrom.placedAt_of_build (hp : p.ReadFrom T) {checkArity : Bool}
    (h : p.build checkArity = .error e) : e.PlacedAt T := by
  rcases Program.build_eq_error h with hlower | ⟨-, hcall⟩
  · rcases Program.denied_of_lower hp hlower with hdenied | ⟨f, hf, hrefuses⟩
    · exact hdenied.placedAt (Line.AllReadFrom.contents p.lines hp.lines)
    · exact hrefuses.placedAt (hp.functions f hf)
  · obtain ⟨site, hsite, herror⟩ := List.exists_of_findSome?_eq_some hcall
    obtain ⟨cause, rfl, hcause⟩ := CallSite.error?_eq_some herror
    exact ⟨(hp.callSites site hsite).1, hcause⟩

theorem Program.ReadFrom.build_isOk_iff (hp : p.ReadFrom T) (checkArity : Bool) :
    (∃ listing, p.build checkArity = .ok listing) ↔
      p.IsBuildable ∧ (checkArity = true → p.CallsFit) := by
  constructor
  · rintro ⟨listing, h⟩
    obtain ⟨code, result, a, hlower, -, hcalls, -⟩ := Program.build_eq_ok h
    obtain ⟨hgranted, hfns⟩ := Program.granted_of_lower hp hlower
    exact ⟨⟨hgranted.fits rfl, hfns⟩, fun hcheck => Program.callError?_eq_none.1 (hcalls hcheck)⟩
  · rintro ⟨hbuildable, hcalls⟩
    cases h : p.build checkArity with
    | ok listing => exact ⟨listing, rfl⟩
    | error e =>
      exfalso
      rcases Program.build_eq_error h with hlower | ⟨hcheck, hcall⟩
      · rcases Program.denied_of_lower hp hlower with hdenied | ⟨f, hf, hrefuses⟩
        · exact hdenied.not_fits hbuildable.topLevel
        · exact hrefuses.not_isLowerable (hbuildable.functions f hf)
      · rw [Program.callError?_eq_none.2 (hcalls hcheck)] at hcall
        cases hcall

end Errors

/-! ## Builds -/

/-- What holds of the builds of a program that was read from `source`. -/
structure BuildsExactly (source : Text) (p : Program) : Prop where
  /-- The program is built exactly if it meets the conditions. -/
  isOk_iff (checkArity : Bool) : (∃ listing, p.build checkArity = .ok listing) ↔
    p.IsBuildable ∧ (checkArity = true → p.CallsFit)
  /-- An error is the exhaustion of registers, or it is about a construct that lacks no part. That
  one stands at a token, and its message starts with the position unless the line counter is zero,
  for which the text must be long enough to make it wrap around. -/
  error {checkArity : Bool} {e : LowerError} (h : p.build checkArity = .error e) :
    (∃ owner, e = .exhausted owner) ∨
    ∃ pos cause, e = .located pos cause ∧ cause.isDefect = false ∧
      (∃ tok : Token, tok.StandsIn source ∧ tok.pos = pos) ∧
      (pos.line ≠ 0 → e.message = Text.ofNat pos.line.toNat ++ ':' ::
        Text.ofNat pos.column.toNat ++ [':', ' '] ++ cause.message) ∧
      (source.length < 2 ^ 32 → 1 ≤ pos.line.toNat ∧ 1 ≤ pos.column.toNat)

/-- The programs that are read from a source text are built exactly if they meet the conditions. -/
theorem buildsExactly_of_parse {source : Text} {p : Program} (h : parse source = .ok p) :
    BuildsExactly source p := by
  have hp := parse_readFrom h
  refine ⟨hp.build_isOk_iff, fun {checkArity e} he => ?_⟩
  have hplaced := hp.placedAt_of_build he
  cases e with
  | exhausted owner => exact .inl ⟨owner, rfl⟩
  | located pos cause =>
    obtain ⟨⟨tok, htok, rfl⟩, hcause⟩ := hplaced
    obtain ⟨before, c, after, hbyte, -⟩ := htok.lexed.placed
    exact .inr ⟨tok.pos, cause, rfl, hcause, ⟨tok, htok, rfl⟩, LowerError.message_of_line_ne_zero,
      hbyte.pos_ne_zero⟩

/-- A function that does not end with a value, a `break` outside of a loop and a call that does not
fit. -/
theorem buildsExactly_of_parse_misfits : ∃ p,
    parse "fn f(x) \x7b loop \x7b \x7d \x7d break; f(1, true);".toList = .ok p ∧
    BuildsExactly "fn f(x) \x7b loop \x7b \x7d \x7d break; f(1, true);".toList p := by
  have hok : (parse "fn f(x) \x7b loop \x7b \x7d \x7d break; f(1, true);".toList).isOk = true := by
    decide +kernel
  match h : parse "fn f(x) \x7b loop \x7b \x7d \x7d break; f(1, true);".toList with
  | .ok p => exact ⟨p, rfl, buildsExactly_of_parse h⟩
  | .error e =>
    rw [h] at hok
    cases hok

/-! ## Positions that wrap around -/

/-- A string literal behind blanks is reported where they end. -/
theorem parse_blanks_string {blanks : Text} (h : blanks.all isBlank = true) :
    parse (blanks ++ ['"', '"', ';']) =
      .ok [.line (.expr (Pos.start.past blanks) (.str (Pos.start.past blanks) []))] := by
  have hscan : ∀ pos, (Cursor.mk pos ['"', '"', ';']).scan =
      ⟨[⟨.string, [], pos⟩, ⟨.semicolon, [';'], pos.past ['"', '"']⟩,
        ⟨.eof, [], pos.past ['"', '"', ';']⟩], none, ⟨pos.past ['"', '"', ';'], []⟩⟩ := by
    intro pos
    rw [Cursor.scan_of_lexeme rfl rfl, Cursor.scan_of_lexeme rfl rfl, Cursor.scan_of_gap rfl]
    rfl
  simp only [parse, tokenize, Cursor.start, Cursor.scan_blanks blanks h, hscan]
  rfl

/-- The line counter wraps around to zero behind enough newlines, and the message of an error that
is reported there does not start with a position. -/
theorem message_of_wrapped_line : ∃ p e,
    parse (List.replicate (2 ^ 32 - 1) '\n' ++ ['"', '"', ';']) = .ok p ∧
    p.build false = .error e ∧ (∀ owner, e ≠ .exhausted owner) ∧
    ∀ (line column : Nat) (text : Text),
      e.message ≠ Text.ofNat line ++ ':' :: Text.ofNat column ++ [':', ' '] ++ text := by
  have hblank : (List.replicate (2 ^ 32 - 1) '\n').all isBlank = true := by
    rw [List.all_replicate]
    decide
  have hpos : Pos.start.past (List.replicate (2 ^ 32 - 1) '\n') = ⟨0, 1⟩ := by
    rw [Pos.past_start, List.count_replicate_self, lastLine_replicate_newline]
    rfl
  refine ⟨_, .located ⟨0, 1⟩ .stringLiteral, parse_blanks_string hblank, ?_, nofun, ?_⟩
  · rw [hpos]
    rfl
  · intro line column text h
    obtain ⟨d, digits, hdigits, hd⟩ := Text.exists_ofNat_eq_cons line
    rw [LowerError.message_of_line_eq_zero rfl, hdigits] at h
    have hs : 's' = d := (List.cons.inj h).1
    rw [← hs] at hd
    exact absurd hd (by decide)

end FrameLang
