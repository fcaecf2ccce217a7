import FrameLang.CommandLine
import FrameLang.Proofs.Diagnostics.Pointing
import FrameLang.Proofs.Machine.Runs

/-!
# What is done about a source text

A source text is reported, or its request is carried out: there is no third way. A report never
fails, because the numbers in front of a message were written from words of 32 bits.

## Main definitions

* `Reported` — a message that can be reported, and is not left out.
* `Request.Planned` — what can be done about a source text.
-/

namespace FrameLang

/-! ## Compiling -/

section Compile

variable {checkArity : Bool} {source message : Text} {listing : Listing}

/-- A source text has a listing if it is a program that can be built. -/
theorem compile_eq_ok_iff : compile checkArity source = .ok listing ↔
    ∃ p, parse source = .ok p ∧ p.build checkArity = .ok listing := by
  unfold compile
  cases parse source with
  | error e => simp
  | ok p => cases h : p.build checkArity <;> simp [h]

theorem exists_listing_of_compile (h : (compile checkArity source).isOk = true) :
    ∃ listing, compile checkArity source = .ok listing := by
  cases hc : compile checkArity source with
  | error e =>
    rw [hc] at h
    cases h
  | ok listing => exact ⟨listing, rfl⟩

/-- A source text without a listing is no program, or one that cannot be built. -/
theorem compile_eq_error (h : compile checkArity source = .error message) :
    (∃ e, parse source = .error e ∧ e.message = message) ∨
      ∃ p e, parse source = .ok p ∧ p.build checkArity = .error e ∧ e.message = message := by
  unfold compile at h
  cases hparse : parse source with
  | error e =>
    simp only [hparse, Except.error.injEq] at h
    exact .inl ⟨e, rfl, h⟩
  | ok p =>
    simp only [hparse] at h
    cases hbuild : p.build checkArity with
    | error e =>
      simp only [hbuild, Except.error.injEq] at h
      exact .inr ⟨p, e, rfl, hbuild, h⟩
    | ok listing => simp [hbuild] at h

end Compile

/-! ## Reports -/

/-- There is something to show for the message, whatever it is about. -/
def Reported (message : Text) : Prop :=
  ∀ path source, ∃ text, diagnostic path source message = .ok text ∧ text ≠ []

theorem errorLine_ne_nil (message : Text) : errorLine message ≠ [] :=
  List.append_ne_nil_of_right_ne_nil _ (List.cons_ne_nil _ _)

theorem reported_of_locate {message : Text} {located : Located}
    (h : locate message = .ok located) : Reported message := by
  intro path source
  obtain ⟨pos, text⟩ := located
  cases pos with
  | none =>
    refine ⟨errorLine text ++ hintLine text, by simp only [diagnostic, h]; rfl, ?_⟩
    exact List.append_ne_nil_of_left_ne_nil (errorLine_ne_nil text) _
  | some pos =>
    refine ⟨_, by simp only [diagnostic, h]; rfl, ?_⟩
    have herror (rest : Text) : "error[E0001]: ".toList ++ rest ≠ [] :=
      List.append_ne_nil_of_left_ne_nil (by decide +kernel) _
    simp only [List.append_assoc]
    exact herror _

theorem SourceError.reported {source : Text} {e : SourceError} (h : parse source = .error e) :
    Reported e.message := by
  cases e with
  | lexical e => exact reported_of_locate (locate_mark_append e.pos e.cause.tight_message)
  | grammatical e => exact reported_of_locate (locate_mark_append e.pos (tight_message_of_parse h))

theorem LowerError.reported (e : LowerError) : Reported e.message := by
  cases e with
  | located pos cause =>
    by_cases hline : pos.line = 0
    · rw [LowerError.message_of_line_eq_zero hline]
      exact reported_of_locate (locate_of_not_digit cause.tight_message cause.head?_message)
    · rw [LowerError.message_of_line_ne_zero hline]
      exact reported_of_locate (locate_mark_append pos cause.tight_message)
  | exhausted owner =>
    exact reported_of_locate (locate_of_not_digit (LowerError.tight_exhausted owner) rfl)

theorem reported_of_compile {checkArity : Bool} {source message : Text}
    (h : compile checkArity source = .error message) : Reported message := by
  rcases compile_eq_error h with ⟨e, hparse, rfl⟩ | ⟨p, e, -, -, rfl⟩
  · exact SourceError.reported hparse
  · exact e.reported

/-! ## Plans -/

/-- The value of a run as it is shown. -/
def shownValue (value : Option Int32) : Text :=
  (value.map fun v => Text.ofInt v.toInt).getD "none".toList ++ ['\n']

namespace Request

/-- What can be done about a source text: nothing yet if a run needs more steps, and else a failure
is shown or the task is carried out. -/
inductive Planned (request : Request) (fuel : Nat) (source : Text) : Option Plan → Prop where
  | failed {text : Text} : text ≠ [] → Planned request fuel source (some (.reply (.failure text)))
  | checked {listing : Listing} : request.task = .check →
      compile request.options.checkArity source = .ok listing →
      Planned request fuel source (some (.reply (.success [])))
  | running {listing : Listing} : request.task = .run →
      compile request.options.checkArity source = .ok listing → listing.execute fuel = none →
      Planned request fuel source none
  | halted {listing : Listing} {ip steps : Nat} {value : Option Int32} : request.task = .run →
      compile request.options.checkArity source = .ok listing →
      listing.execute fuel = some (.halted ip value steps) →
      Planned request fuel source (some (.reply (.success (shownValue value))))
  | listed {listing : Listing} : request.task = .emit "-ir".toList →
      compile request.options.checkArity source = .ok listing →
      Planned request fuel source (some (.write (request.target ".ir".toList) listing.text))
  | outlined {p : Program} : request.task = .emit "-ast".toList → parse source = .ok p →
      Planned request fuel source (some (.write (request.target ".ast".toList) p.outline))

variable {request : Request} {fuel : Nat} {source : Text}

theorem listingMode_ne_outlineMode : "-ir".toList ≠ "-ast".toList := by
  decide +kernel

theorem plan_check (htask : request.task = .check) :
    request.plan fuel (some source) =
      match compile request.options.checkArity source with
      | .error message => some <$> Plan.report request.path source message
      | .ok _ => .ok (some (.reply (.success []))) := by
  cases hc : compile request.options.checkArity source <;> simp only [plan, htask, hc]

theorem plan_run (htask : request.task = .run) :
    request.plan fuel (some source) =
      match compile request.options.checkArity source with
      | .error message => some <$> Plan.report request.path source message
      | .ok listing => .ok ((listing.execute fuel).map fun outcome => .reply outcome.reply) := by
  cases hc : compile request.options.checkArity source <;> simp only [plan, htask, hc]

theorem plan_listing (htask : request.task = .emit "-ir".toList) :
    request.plan fuel (some source) =
      match compile request.options.checkArity source with
      | .error message => some <$> Plan.report request.path source message
      | .ok listing => .ok (some (.write (request.target ".ir".toList) listing.text)) := by
  cases hc : compile request.options.checkArity source <;> simp only [plan, htask, hc, if_true]

theorem plan_outline (htask : request.task = .emit "-ast".toList) :
    request.plan fuel (some source) =
      match parse source with
      | .error e => some <$> Plan.report request.path source e.message
      | .ok p => .ok (some (.write (request.target ".ast".toList) p.outline)) := by
  cases hp : parse source <;>
    simp only [plan, htask, hp, listingMode_ne_outlineMode.symm, if_true, if_false]

theorem plan_otherMode {mode : Text} (htask : request.task = .emit mode)
    (hlisting : mode ≠ "-ir".toList) (houtline : mode ≠ "-ast".toList) :
    request.plan fuel (some source) =
      .ok (some (.reply (.failure (errorLine "emit expects -ir or -ast".toList)))) := by
  simp only [plan, htask, hlisting, houtline, if_false]

/-- A message that can be reported makes the request fail. -/
theorem planned_report {message : Text} (h : Reported message) :
    ∃ answer, some <$> Plan.report request.path source message = .ok answer ∧
      request.Planned fuel source answer := by
  obtain ⟨text, htext, hne⟩ := h request.path source
  refine ⟨some (.reply (.failure text)), ?_, .failed hne⟩
  rw [Plan.report, htext]
  rfl

/-- What a run leaves is shown, or the request fails. -/
theorem planned_outcome {listing : Listing} (htask : request.task = .run)
    (hc : compile request.options.checkArity source = .ok listing) :
    request.Planned fuel source
      ((listing.execute fuel).map fun outcome => .reply outcome.reply) := by
  cases hx : listing.execute fuel with
  | none => exact .running htask hc hx
  | some outcome =>
    cases outcome with
    | halted ip value steps => cases value <;> exact .halted htask hc hx
    | trapped ip instr fault => exact .failed (errorLine_ne_nil _)
    | refused message => exact .failed (errorLine_ne_nil _)

/-- There is a plan for every source text. -/
theorem exists_plan (request : Request) (fuel : Nat) (source : Text) :
    ∃ answer, request.plan fuel (some source) = .ok answer ∧
      request.Planned fuel source answer := by
  cases htask : request.task with
  | run =>
    rw [plan_run htask]
    cases hc : compile request.options.checkArity source with
    | error message => exact planned_report (reported_of_compile hc)
    | ok listing => exact ⟨_, rfl, planned_outcome htask hc⟩
  | check =>
    rw [plan_check htask]
    cases hc : compile request.options.checkArity source with
    | error message => exact planned_report (reported_of_compile hc)
    | ok listing => exact ⟨_, rfl, .checked htask hc⟩
  | emit mode =>
    by_cases hlisting : mode = "-ir".toList
    · subst hlisting
      rw [plan_listing htask]
      cases hc : compile request.options.checkArity source with
      | error message => exact planned_report (reported_of_compile hc)
      | ok listing => exact ⟨_, rfl, .listed htask hc⟩
    by_cases houtline : mode = "-ast".toList
    · subst houtline
      rw [plan_outline htask]
      cases hp : parse source with
      | error e => exact planned_report (SourceError.reported hp)
      | ok p => exact ⟨_, rfl, .outlined htask hp⟩
    · exact ⟨_, plan_otherMode htask hlisting houtline, .failed (errorLine_ne_nil _)⟩

/-- A larger bound never changes a plan. -/
theorem plan_mono {more : Nat} {contents : Option Text} {plan : Plan}
    (h : request.plan fuel contents = .ok (some plan)) (hle : fuel ≤ more) :
    request.plan more contents = .ok (some plan) := by
  cases contents with
  | none => exact h
  | some source =>
    cases htask : request.task with
    | check =>
      rw [plan_check htask] at h ⊢
      exact h
    | emit mode =>
      simp only [Request.plan, htask] at h ⊢
      exact h
    | run =>
      rw [plan_run htask] at h ⊢
      cases hc : compile request.options.checkArity source with
      | error message => simpa only [hc] using h
      | ok listing =>
        simp only [hc, Except.ok.injEq, Option.map_eq_some_iff] at h ⊢
        obtain ⟨outcome, hx, hreply⟩ := h
        exact ⟨outcome, Listing.execute_mono hx hle, hreply⟩

end Request

end FrameLang
