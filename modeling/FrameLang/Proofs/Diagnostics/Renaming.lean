import FrameLang.Proofs.Diagnostics.Hints

/-!
# Hints of renamed programs

The hint for an error of a build depends on the kind of the error. There is one exception: a message
that quotes the name of a function and calls for no hint by itself gets the hint of syntax errors if
the name contains the word that they are told by.

## Main definitions

* `HintsOfNames` — how the hints for messages that quote two names compare.
* `HelpOfRenamed` — how the builds of a source text and of a renamed one compare.
-/

namespace FrameLang

/-! ## Names in errors -/

section Names

variable {T : Token → Prop} {p : Program} {e : LowerError}

theorem Denied.nameFrom {s : Surroundings} {a : Allocation} {k : Contents} (h : Denied s a k e)
    (hs : ∀ x ∈ s.owner.name?, NameFrom T x) : ∀ x ∈ e.name?, NameFrom T x := by
  cases h with
  | exhausted => exact hs
  | string | stray => nofun

theorem FnDef.Refuses.nameFrom {f : FnDef} (h : f.Refuses e) (hf : f.ReadFrom T) :
    ∀ x ∈ e.name?, NameFrom T x := by
  have hname : ∀ x ∈ some f.name, NameFrom T x := by
    rintro _ ⟨⟩
    exact hf.2.1
  cases h with
  | contents h => exact h.nameFrom hname
  | value => exact hname

theorem CallSite.name?_of_error? {site : CallSite} (h : site.error? p = some e) :
    e.name? = some site.callee := by
  unfold CallSite.error? at h
  split at h
  · cases h
    rfl
  · split at h
    · cases h
    · cases h
      rfl

/-- The names in errors of builds come from tokens. -/
theorem Program.ReadFrom.nameFrom_of_build (hp : p.ReadFrom T) {checkArity : Bool}
    (h : p.build checkArity = .error e) : ∀ x ∈ e.name?, NameFrom T x := by
  rcases Program.build_eq_error h with hlower | ⟨-, hcall⟩
  · rcases Program.denied_of_lower hp hlower with hdenied | ⟨f, hf, hrefuses⟩
    · exact hdenied.nameFrom nofun
    · exact hrefuses.nameFrom (hp.functions f hf)
  · obtain ⟨site, hsite, herror⟩ := List.exists_of_findSome?_eq_some hcall
    rw [CallSite.name?_of_error? herror]
    rintro _ ⟨⟩
    exact (hp.callSites site hsite).2

/-- The names in errors of builds are identifiers. -/
theorem isName_of_build {source : Text} (hp : parse source = .ok p) {checkArity : Bool}
    (h : p.build checkArity = .error e) : ∀ x ∈ e.name?, isName x = true := by
  intro x hx
  obtain ⟨tok, htok, hkind, rfl⟩ := (parse_readFrom hp).nameFrom_of_build h x hx
  exact htok.lexed.name hkind

end Names

/-! ## Diagnostics -/

/-- What a diagnostic shows above the hint. -/
def diagnosticHead (path source : Text) : Located → Text
  | ⟨none, text⟩ => errorLine text
  | ⟨some pos, text⟩ =>
    "error[E0001]: ".toList ++ text ++ "\n --> ".toList ++ path ++
      ':' :: Text.ofNat pos.line.toNat ++ ':' :: Text.ofNat pos.column.toNat ++ ['\n'] ++
      excerpt source pos

/-- A diagnostic ends with the hint for what is left of the message without its position. -/
theorem diagnostic_eq (path source message : Text) : diagnostic path source message =
    (locate message).map fun l => diagnosticHead path source l ++ hintLine l.text := by
  unfold diagnostic
  cases locate message with
  | error e => rfl
  | ok l =>
    obtain ⟨pos, text⟩ := l
    cases pos <;> rfl

theorem hintLine_eq_iff {m m' : Text} : hintLine m = hintLine m' ↔ hintFor m = hintFor m' := by
  unfold hintLine
  cases hintFor m <;> cases hintFor m' <;> simp

theorem LowerError.exists_locate (e : LowerError) :
    ∃ l, locate e.message = .ok l ∧ hintFor l.text = hintFor e.message := by
  cases e with
  | located pos cause =>
    by_cases hline : pos.line = 0
    · rw [message_of_line_eq_zero hline]
      exact ⟨_, locate_of_not_digit cause.tight_message cause.head?_message, rfl⟩
    · rw [message_of_line_ne_zero hline, locate_mark_append pos cause.tight_message]
      split
      · exact ⟨_, rfl, rfl⟩
      · exact ⟨_, rfl, (hintFor_mark_append pos cause.message).symm⟩
  | exhausted owner => exact ⟨_, locate_of_not_digit (tight_exhausted owner) rfl, rfl⟩

/-- The diagnostic for an error of a build ends with the hint for its message. -/
theorem LowerError.diagnostic_message (path source : Text) (e : LowerError) :
    ∃ l, locate e.message = .ok l ∧
      diagnostic path source e.message =
        .ok (diagnosticHead path source l ++ hintLine e.message) := by
  obtain ⟨l, hl, hhint⟩ := e.exists_locate
  refine ⟨l, hl, ?_⟩
  rw [diagnostic_eq, hl, Except.map, hintLine_eq_iff.2 hhint]

/-- Errors that differ in positions and names only have the same hint, unless the name decides on it
and the new name decides otherwise. -/
theorem LowerError.hintLine_renamed_iff {ρ : Text → Text} {e e' : LowerError}
    (h : e'.unplaced = (e.renamed ρ).unplaced) (he : ∀ x ∈ e.name?, isName x = true)
    (he' : ∀ x ∈ e'.name?, isName x = true) :
    hintLine e'.message = hintLine e.message ↔
      ∀ x ∈ e.bareName?, occursIn syntaxWord (ρ x) = occursIn syntaxWord x := by
  have hnames : e'.name? = e.name?.map ρ := by
    rw [← name?_unplaced, h, name?_unplaced, name?_renamed]
  have hblank : isNamePart ' ' = false := by decide
  have hspaces : ∀ x ∈ e.name?, ' ' ∉ x ∧ ' ' ∉ ρ x := by
    intro x hx
    have hx' : ρ x ∈ e'.name? := by
      rw [hnames]
      exact Option.mem_map_of_mem ρ hx
    exact ⟨notMem_of_isName (he x hx) hblank, notMem_of_isName (he' _ hx') hblank⟩
  rw [hintLine_eq_iff, ← e'.hintFor_unplaced, h, hintFor_unplaced]
  exact hintFor_renamed_iff hspaces

/-! ## Renaming -/

/-- How the hints for messages that quote the name `x` or the name `y` compare. -/
structure HintsOfNames (x y : Text) : Prop where
  arity (params args : Nat) : hintFor (LowerCause.arity y params args).message =
    hintFor (LowerCause.arity x params args).message
  noValue : hintFor (LowerCause.noValue y).message = hintFor (LowerCause.noValue x).message
  /-- This message calls for no hint by itself. -/
  undefinedFunction : hintFor (LowerCause.undefinedFunction y).message =
    hintFor (LowerCause.undefinedFunction x).message ↔
      occursIn syntaxWord y = occursIn syntaxWord x
  /-- This message calls for no hint by itself, either. -/
  exhausted : hintFor (LowerError.exhausted (.function y)).message =
    hintFor (LowerError.exhausted (.function x)).message ↔
      occursIn syntaxWord y = occursIn syntaxWord x

/-- How the builds of the program `p` and of the same program `q` with other names compare. -/
structure HelpOfRenamed (ρ : Text → Text) (p q : Program) (checkArity : Bool) : Prop where
  built : (∃ listing, q.build checkArity = .ok listing) ↔
    ∃ listing, p.build checkArity = .ok listing
  /-- The errors are the same up to positions and names, and so are the hints for them, unless the
  name decides on the hint and the new name decides otherwise. -/
  error {e : LowerError} (h : p.build checkArity = .error e) :
    ∃ e', q.build checkArity = .error e' ∧ e'.unplaced = (e.renamed ρ).unplaced ∧
      (hintLine e'.message = hintLine e.message ↔
        ∀ x ∈ e.bareName?, occursIn syntaxWord (ρ x) = occursIn syntaxWord x)

theorem hintsOfNames {x y : Text} (hx : isName x = true) (hy : isName y = true) :
    HintsOfNames x y := by
  have hblank : isNamePart ' ' = false := by decide
  have hnames : ∀ z ∈ some x, ' ' ∉ z ∧ ' ' ∉ y := by
    rintro _ ⟨⟩
    exact ⟨notMem_of_isName hx hblank, notMem_of_isName hy hblank⟩
  have hmem {P : Text → Prop} : (∀ z ∈ some x, P z) ↔ P x := by simp
  have hlocated (cause : LowerCause) (h : cause.name? = some x) :
      hintFor (cause.renamed fun _ => y).message = hintFor cause.message ↔
        ∀ z ∈ (LowerError.located .nowhere cause).bareName?,
          occursIn syntaxWord y = occursIn syntaxWord z := by
    rw [← LowerError.hintFor_message_located .nowhere,
      ← LowerError.hintFor_message_located .nowhere cause]
    exact LowerError.hintFor_renamed_iff (e := .located .nowhere cause)
      (by rw [LowerError.name?, h]; exact hnames)
  exact {
    arity params args := (hlocated (.arity x params args) rfl).2 nofun
    noValue := (hlocated (.noValue x) rfl).2 nofun
    undefinedFunction := (hlocated (.undefinedFunction x) rfl).trans hmem
    exhausted := (LowerError.hintFor_renamed_iff (e := .exhausted (.function x)) hnames).trans
      hmem }

section Programs

variable {ρ : Text → Text} {p q : Program} (h : q.unplaced = (p.renamed ρ).unplaced)
  (hρ : Set.InjOn ρ {x | x ∈ p.functionNames}) (checkArity : Bool)
include h hρ

/-- Programs that differ in positions and in the names of functions are built alike. -/
theorem Program.build_renamed_congr :
    SameOutcome (fun e e' => e'.unplaced = (e.renamed ρ).unplaced) (fun _ _ => True)
      (p.build checkArity) (q.build checkArity) := by
  have hrenamed := Program.build_renamed hρ checkArity
  have hplaces := q.build_unplaced checkArity
  rw [h, Program.build_unplaced] at hplaces
  generalize p.build checkArity = u, (p.renamed ρ).build checkArity = v at hrenamed hplaces
  cases hrenamed with
  | ok _ =>
    cases hq : q.build checkArity with
    | ok _ => exact .ok trivial
    | error e' => simp [hq, Except.mapError] at hplaces
  | error he =>
    cases hq : q.build checkArity with
    | ok _ => simp [hq, Except.mapError] at hplaces
    | error e' =>
      simp only [hq, Except.mapError, Except.error.injEq] at hplaces
      exact .error (by rw [← hplaces, he])

theorem helpOfRenamed {source source' : Text} (hp : parse source = .ok p)
    (hq : parse source' = .ok q) : HelpOfRenamed ρ p q checkArity := by
  have hbuild := Program.build_renamed_congr h hρ checkArity
  generalize hpb : p.build checkArity = u, hqb : q.build checkArity = v at hbuild
  cases hbuild with
  | ok _ => exact ⟨by simp [hpb, hqb], by simp [hpb]⟩
  | error hsame =>
    refine ⟨by simp [hpb, hqb], fun he => ?_⟩
    obtain rfl := Except.error.inj (hpb.symm.trans he)
    exact ⟨_, hqb, hsame, LowerError.hintLine_renamed_iff hsame (isName_of_build hp hpb)
      (isName_of_build hq hqb)⟩

end Programs

/-- A name of a function decides on the hint for an error in two cases only: if the function is not
defined, and if its body needs too many registers. It does so by the word that it has in it or not.
All other hints stay as they are when the functions of a program are renamed. -/
theorem help_of_renaming (ρ : Text → Text) :
    (∀ x, isName x = true → isName (ρ x) = true → HintsOfNames x (ρ x)) ∧
    (∀ (path source : Text) (e : LowerError), ∃ l, locate e.message = .ok l ∧
      diagnostic path source e.message =
        .ok (diagnosticHead path source l ++ hintLine e.message)) ∧
    ∀ (source source' : Text) (p q : Program), parse source = .ok p → parse source' = .ok q →
      q.unplaced = (p.renamed ρ).unplaced → Set.InjOn ρ {x | x ∈ p.functionNames} →
      ∀ checkArity, HelpOfRenamed ρ p q checkArity :=
  ⟨fun _ => hintsOfNames, LowerError.diagnostic_message,
    fun _ _ _ _ hp hq h hρ checkArity => helpOfRenamed h hρ checkArity hp hq⟩

/-! ## One call -/

/-- The program that calls a function without arguments. -/
def loneCall (x : Text) : Program :=
  [.line (.expr .start (.call .start x []))]

theorem parse_loneCall {x : Text} (hx : isName x = true) :
    parse (x ++ ['(', ')', ';']) = .ok (loneCall x) := by
  have hparen : isNamePart '(' = false := by decide
  have hends : TokenKind.identifier.EndsAt ['(', ')', ';'] :=
    TokenKind.endsAt_of_word List.mem_cons_self fun _ hc => Option.some.inj hc ▸ hparen
  have hname : Lexeme .identifier x x ['(', ')', ';'] := ⟨.name hx, hends⟩
  have hrest : ∀ pos, (Cursor.mk pos ['(', ')', ';']).scan =
      ⟨[⟨.lparen, ['('], pos⟩, ⟨.rparen, [')'], pos.past ['(']⟩,
        ⟨.semicolon, [';'], pos.past ['(', ')']⟩, ⟨.eof, [], pos.past ['(', ')', ';']⟩],
        none, ⟨pos.past ['(', ')', ';'], []⟩⟩ := by
    intro pos
    rw [Cursor.scan_of_lexeme rfl rfl, Cursor.scan_of_lexeme rfl rfl,
      Cursor.scan_of_lexeme rfl rfl, Cursor.scan_of_gap rfl]
    rfl
  simp only [parse, tokenize, Cursor.start, hname.scan, hrest]
  rfl

theorem build_loneCall (x : Text) :
    (loneCall x).build true = .error (.located .start (.undefinedFunction x)) := rfl

theorem injOn_loneCall (ρ : Text → Text) (x : Text) :
    Set.InjOn ρ {y | y ∈ (loneCall x).functionNames} := by
  have hnames : (loneCall x).functionNames = [x] := rfl
  simp [hnames]

/-- Neither name decides on the hint. -/
theorem help_of_renaming_bar : ∃ p q,
    parse "foo();".toList = .ok p ∧ parse "bar();".toList = .ok q ∧
    q.unplaced = (p.renamed fun _ => "bar".toList).unplaced ∧
    Set.InjOn (fun _ => "bar".toList) {x | x ∈ p.functionNames} ∧
    HintsOfNames "foo".toList "bar".toList ∧ HelpOfRenamed (fun _ => "bar".toList) p q true := by
  have hfoo : isName "foo".toList = true := by decide +kernel
  have hbar : isName "bar".toList = true := by decide +kernel
  have hp : parse "foo();".toList = .ok (loneCall "foo".toList) := parse_loneCall hfoo
  have hq : parse "bar();".toList = .ok (loneCall "bar".toList) := parse_loneCall hbar
  have hρ := injOn_loneCall (fun _ => "bar".toList) "foo".toList
  have hall := help_of_renaming fun _ => "bar".toList
  exact ⟨_, _, hp, hq, rfl, hρ, hall.1 _ hfoo hbar,
    hall.2.2 _ _ _ _ hp hq rfl hρ true⟩

/-- The name decides on the hint: calls of functions that are not defined are told apart by their
names. -/
theorem help_of_expected : isName "foo".toList = true ∧ isName "expected".toList = true ∧
    hintFor (LowerCause.undefinedFunction "expected".toList).message ≠
      hintFor (LowerCause.undefinedFunction "foo".toList).message ∧
    hintFor (LowerError.exhausted (.function "expected".toList)).message ≠
      hintFor (LowerError.exhausted (.function "foo".toList)).message ∧
    ∃ p q e e', parse "foo();".toList = .ok p ∧ parse "expected();".toList = .ok q ∧
      q.unplaced = (p.renamed fun _ => "expected".toList).unplaced ∧
      Set.InjOn (fun _ => "expected".toList) {x | x ∈ p.functionNames} ∧
      p.build true = .error e ∧ q.build true = .error e' ∧ hintLine e.message = [] ∧
      hintLine e'.message =
        "  = help: check surrounding syntax near the highlighted token\n".toList := by
  have hfoo : isName "foo".toList = true := by decide +kernel
  have hexpected : isName "expected".toList = true := by decide +kernel
  exact ⟨hfoo, hexpected, by decide +kernel, by decide +kernel, _, _, _, _, parse_loneCall hfoo,
    parse_loneCall hexpected, rfl, injOn_loneCall _ _, build_loneCall _, build_loneCall _,
    by decide +kernel, by decide +kernel⟩

end FrameLang
