import FrameLang.Proofs.Syntax.Descent

/-!
# Procedures that follow a reader

A *stance* is a reader together with the statements that are complete in front of it: it is all that
decides what becomes of the tokens to come. A procedure of the recursive descent follows a stance if
it ends, and makes of the next tokens what a reader does that starts from the stance: it fails where
the reader fails, with the same error, and if it succeeds the reader stands behind the phrase then.
There is one rule for each step of a procedure, so that the proof that a procedure follows a stance
goes through the procedure step by step.

## Main definitions

* `Stance`, `Stance.readAll` — readers with what they have completed, and what they make of tokens.
* `KeepsPace` — the procedure ends on the tape and does what the reader does.
-/

namespace FrameLang

/-- A reader, and the statements that are complete in front of it. -/
structure Stance where
  done : List Statement
  read : Reader

/-- The stance of an unfinished program. -/
def Unfinished.stance (s : Unfinished) : Stance := ⟨s.done, fun tok => s.feed tok⟩

/-- Reads tokens to the end of the input, which is at `eof`, or to the first error. -/
def Stance.readAll (s : Stance) (eof : Pos) : List Token → Parse
  | [] =>
    match s.read ⟨.eof, [], eof⟩ with
    | .ok state => ⟨state.done, none, []⟩
    | .error e => ⟨s.done, some e, []⟩
  | tok :: rest =>
    match s.read tok with
    | .ok state => state.feedAll eof rest
    | .error e => ⟨s.done, some e, if e.cause.readsToken then rest else tok :: rest⟩

/-- `ws` is used up, or it starts with a token of the same kind as `vs` does. -/
def Alike (ws vs : List Token) : Prop :=
  ws = [] ∨ ws.head?.map Token.kind = vs.head?.map Token.kind

/-- The stances do the same with a token of the next kind, and with the end of the input. -/
structure Stance.Meets (s s' : Stance) (kind : TokenKind) : Prop where
  done : s.done = s'.done
  read : ∀ tok : Token, tok.kind = kind ∨ tok.kind = .eof → s.read tok = s'.read tok

/-- On the tape `t` the procedure `p` ends. If it succeeds it has taken at least `least` tokens, and
a reader with the stance `s` is brought by them to the stance `behind a`, whatever stands behind
them, if only it looks alike. If it fails the reader fails with the same error in front of the same
tokens, and the statements `kept` are complete then. -/
inductive KeepsPace {α : Type} (least : Nat) (kept : List Statement) (s : Stance) (p : Descent α)
    (behind : α → Stance) (t : Tape) : Prop
  | ok {a : α} {us : List Token} {t' : Tape} (run : p.run t = some (.ok a, t'))
    (passes : t.Passes us t') (length : least ≤ us.length)
    (reads : ∀ eof ws, Alike ws t'.ahead →
      s.readAll eof (us ++ ws) = (behind a).readAll eof ws)
  | error {e : SyntaxError} {us : List Token} {t' : Tape} (run : p.run t = some (.error e, t'))
    (passes : t.Passes us t')
    (reads : s.readAll t.stop.pos t.ahead = ⟨kept, some e, t'.ahead⟩)

/-! ## What a stance makes of tokens -/

section Stances

variable {s s' : Stance} {state : Unfinished} {tok : Token} {eof : Pos} {us vs ws : List Token}

theorem Alike.refl (vs : List Token) : Alike vs vs := .inr rfl

theorem Alike.append (h : Alike ws vs) (us : List Token) : Alike (us ++ ws) (us ++ vs) := by
  cases us with
  | nil => exact h
  | cons => exact .inr rfl

theorem alike_append (ws vs : List Token) : Alike ws (ws ++ vs) := by
  cases ws with
  | nil => exact .inl rfl
  | cons => exact .inr rfl

/-- The next token is of the same kind, or there is none. -/
theorem Alike.kind_upcoming (h : Alike ws vs) (eof : Pos) :
    (upcoming eof ws).kind = (upcoming eof vs).kind ∨ (upcoming eof ws).kind = .eof := by
  rcases h with rfl | h
  · exact .inr rfl
  · left
    cases ws <;> cases vs <;> simp_all [upcoming]

namespace Stance

theorem readAll_stance (state : Unfinished) (eof : Pos) :
    (ts : List Token) → state.stance.readAll eof ts = state.feedAll eof ts
  | [] => rfl
  | _ :: _ => rfl

theorem readAll_cons (h : s.read tok = .ok state) :
    s.readAll eof (tok :: ws) = state.stance.readAll eof ws := by
  rw [readAll_stance]
  simp only [readAll, h]

theorem readAll_congr (hd : s.done = s'.done)
    (hr : s.read (upcoming eof ws) = s'.read (upcoming eof ws)) :
    s.readAll eof ws = s'.readAll eof ws := by
  cases ws with
  | nil => simp only [readAll, hd, show s.read ⟨.eof, [], eof⟩ = s'.read ⟨.eof, [], eof⟩ from hr]
  | cons tok rest => simp only [readAll, hd, show s.read tok = s'.read tok from hr]

/-- A token that is rejected is not taken. -/
theorem readAll_of_error {e : SyntaxError} (h : s.read (upcoming eof ws) = .error e)
    (hc : e.cause.readsToken = false) : s.readAll eof ws = ⟨s.done, some e, ws⟩ := by
  cases ws with
  | nil => simp only [readAll, show s.read ⟨.eof, [], eof⟩ = .error e from h]
  | cons tok rest =>
    simp only [readAll, show s.read tok = .error e from h, hc, Bool.false_eq_true, if_false]

/-- The next token on a tape is rejected where it stands. -/
theorem readAll_of_reject {t : Tape} {kept : List Statement} {cause : SyntaxCause}
    (hd : s.done = kept) (hc : cause.readsToken = false)
    (hs : ∀ tok : Token, tok.kind = (t.peek 0).kind → s.read tok = tok.reject cause) :
    s.readAll t.stop.pos t.ahead = ⟨kept, some ⟨(t.peek 0).pos, cause⟩, t.ahead⟩ := by
  have hread := hs _ (t.kind_upcoming t.stop.pos)
  rw [Token.reject, t.pos_upcoming] at hread
  rw [readAll_of_error hread hc, hd]

end Stance

end Stances

/-! ## In front of a phrase and behind it -/

/-- In front of an operand without a sign. -/
def OperandSite.entry (site : OperandSite) : Stance :=
  ⟨site.done, fun tok =>
    match tok.kind with
    | .minus => tok.reject (.expression .minus)
    | _ => site.start tok⟩

/-- Behind an operand. -/
def OperandSite.behind (site : OperandSite) (e : Expr) : Stance :=
  (Unfinished.operandDone e site).stance

/-- Behind an expression. -/
def ExprSite.behind (site : ExprSite) (e : Expr) : Stance :=
  ⟨(OperandSite.first site).doneBehind e, fun tok => site.finish e tok⟩

/-- Behind an operand and all the operators that bind more strongly than the one in front of it. -/
def OperandSite.closed : OperandSite → Expr → Stance
  | .first site, e => site.behind e
  | .negated pos site, e => (OperandSite.negated pos site).behind e
  | .rightOf pos op lhs site, e => site.behind (.binary pos op lhs e)

/-- In front of an if expression, at a token that is taken for its first one. -/
def IfSite.entry (site : IfSite) : Stance :=
  ⟨site.done, fun tok =>
    match tok.kind with
    | .eof => tok.reject .testOpen
    | _ => .ok (.ifOpen tok.pos site)⟩

/-- Behind an if expression. -/
def IfSite.behind (site : IfSite) (e : Expr) : Stance :=
  (site.operandOf e).2.behind (site.operandOf e).1

/-- In front of a line, at a token that does not end what is around it. -/
def LineSite.entry (site : LineSite) : Stance :=
  ⟨site.done, fun tok =>
    match tok.kind with
    | .kwFn => tok.reject .nestedFunction
    | .kwLoop => .ok (.block (.loop tok.pos site))
    | .kwBreak => .ok (.breakOpen tok.pos site)
    | _ => (ExprSite.line tok.pos site).start tok⟩

/-- Behind a line. -/
def LineSite.behind (site : LineSite) (l : Line) : Stance :=
  (Unfinished.line (site.add l)).stance

/-- Behind a block. -/
def BlockSite.behind (site : BlockSite) (lines : List Line) : Stance :=
  (site.fill lines).stance

@[simp] theorem Unfinished.stance_done (state : Unfinished) : state.stance.done = state.done := rfl

@[simp] theorem Unfinished.stance_read (state : Unfinished) (tok : Token) :
    state.stance.read tok = state.feed tok := rfl

@[simp] theorem ExprSite.behind_read (site : ExprSite) (e : Expr) (tok : Token) :
    (site.behind e).read tok = site.finish e tok := rfl

/-! ## Rules -/

namespace KeepsPace

variable {α β : Type} {least least' : Nat} {kept : List Statement} {s s' : Stance} {a : α}
  {p : Descent α} {f : α → Descent β} {mid : α → Stance} {behind : β → Stance} {t : Tape}
  {kind : TokenKind} {cause : SyntaxCause}

/-- A phrase is complete if what stands behind it does the same with the next token. -/
protected theorem pure {b : β} (h : s.Meets (behind b) (t.peek 0).kind) :
    KeepsPace 0 kept s (pure b) behind t := by
  refine .ok (Descent.run_pure b t) (.refl t) (Nat.le_refl 0) fun eof ws hw => ?_
  have hk := hw.kind_upcoming eof
  rw [t.kind_upcoming] at hk
  exact Stance.readAll_congr h.done (h.read _ hk)

theorem weaken (h : KeepsPace least kept s p mid t) (hl : least' ≤ least) :
    KeepsPace least' kept s p mid t := by
  cases h with
  | ok run passes length reads => exact .ok run passes (Nat.le_trans hl length) reads
  | error run passes reads => exact .error run passes reads

/-- A step that succeeds brings the reader to the stance `s'`, which the rest follows. -/
theorem step {us : List Token} {t' : Tape} (run : p.run t = some (.ok a, t'))
    (passes : t.Passes us t')
    (reads : ∀ eof ws, Alike ws t'.ahead → s.readAll eof (us ++ ws) = s'.readAll eof ws)
    (h : KeepsPace (least - us.length) kept s' (f a) behind t') :
    KeepsPace least kept s (p >>= f) behind t := by
  cases h with
  | @ok b vs t'' run' passes' length' reads' =>
    refine .ok ((Descent.run_bind_of_ok run).trans run') (passes.trans passes') ?_
      fun eof ws hw => ?_
    · rw [List.length_append]
      omega
    · have hw' : Alike (vs ++ ws) t'.ahead := passes'.ahead ▸ hw.append vs
      rw [List.append_assoc, reads eof _ hw', reads' eof ws hw]
  | error run' passes' reads' =>
    refine .error ((Descent.run_bind_of_ok run).trans run') (passes.trans passes') ?_
    rw [passes.ahead, reads _ _ (.refl _), ← passes.stop, reads']

/-- A phrase is followed by what stands behind it. -/
protected theorem bind (hl : least ≤ 1) (hp : KeepsPace 1 kept s p mid t)
    (hf : ∀ a t', t'.ahead.length < t.ahead.length → KeepsPace 0 kept (mid a) (f a) behind t') :
    KeepsPace least kept s (p >>= f) behind t := by
  cases hp with
  | error run passes reads => exact .error (Descent.run_bind_of_error run) passes reads
  | @ok a us t' run passes length reads =>
    refine step run passes reads ((hf a t' ?_).weaken (by omega))
    rw [passes.ahead, List.length_append]
    omega

theorem peek {f : Token → Descent β} (offset : Nat)
    (h : KeepsPace least kept s (f (t.peek offset)) behind t) :
    KeepsPace least kept s (Descent.peek offset >>= f) behind t :=
  step (Descent.run_peek offset t) (.refl t) (fun _ _ _ => rfl) h

/-- The next token is taken, and the reader reads it. -/
theorem advance {f : Token → Descent β} (state : Unfinished) (hk : (t.peek 0).kind ≠ .eof)
    (hs : s.read (t.peek 0) = .ok state)
    (h : t.advance.ahead.length + 1 = t.ahead.length →
      KeepsPace (least - 1) kept state.stance (f (t.peek 0)) behind t.advance) :
    KeepsPace least kept s (Descent.advance >>= f) behind t :=
  step (Descent.run_advance t) (.advance hk) (fun _ _ _ => Stance.readAll_cons hs)
    (h (Tape.length_advance hk))

/-- At the end of the input no token is taken. -/
theorem advance_eof {f : Token → Descent β} (hk : (t.peek 0).kind = .eof)
    (h : KeepsPace least kept s (f (t.peek 0)) behind t) :
    KeepsPace least kept s (Descent.advance >>= f) behind t := by
  have ht : t.advance = t := Tape.advance_of_nil (Tape.ahead_eq_nil_iff.2 hk)
  have hrun := Descent.run_advance t
  rw [ht] at hrun
  exact step hrun (.refl t) (fun _ _ _ => rfl) h

/-- A token is taken if it is of the given kind. -/
theorem accept {f : Bool → Descent β} (hk : kind ≠ .eof)
    (htrue : (t.peek 0).kind = kind → ∃ state, s.read (t.peek 0) = .ok state ∧
      (t.advance.ahead.length + 1 = t.ahead.length →
        KeepsPace (least - 1) kept state.stance (f true) behind t.advance))
    (hfalse : (t.peek 0).kind ≠ kind → KeepsPace least kept s (f false) behind t) :
    KeepsPace least kept s (Descent.accept kind >>= f) behind t := by
  by_cases hkind : (t.peek 0).kind = kind
  · obtain ⟨state, hs, h⟩ := htrue hkind
    have hne : (t.peek 0).kind ≠ .eof := hkind ▸ hk
    exact step (Descent.run_accept_of_eq hkind) (.advance hne)
      (fun _ _ _ => Stance.readAll_cons hs) (h (Tape.length_advance hne))
  · exact step (Descent.run_accept_of_ne hkind) (.refl t) (fun _ _ _ => rfl) (hfalse hkind)

/-- A token that the reader rejects stops both. -/
theorem fail (hd : s.done = kept) (hc : cause.readsToken = false)
    (hs : ∀ tok : Token, tok.kind = (t.peek 0).kind → s.read tok = tok.reject cause) :
    KeepsPace least kept s (Descent.fail (t.peek 0) cause) behind t :=
  .error (Descent.run_fail _ _ t) (.refl t) (Stance.readAll_of_reject hd hc hs)

/-- A token of another kind stops both, if the reader rejects it too. -/
theorem expect_of_ne {f : Unit → Descent β} (hk : (t.peek 0).kind ≠ kind) (hd : s.done = kept)
    (hc : cause.readsToken = false)
    (hs : ∀ tok : Token, tok.kind = (t.peek 0).kind → s.read tok = tok.reject cause) :
    KeepsPace least kept s (Descent.expect kind cause >>= f) behind t := by
  have hrun : (Descent.expect kind cause).run t = some (.error ⟨(t.peek 0).pos, cause⟩, t) := by
    rw [Descent.expect, Descent.run_bind_of_ok (Descent.run_accept_of_ne hk),
      if_neg Bool.false_ne_true, Descent.run_bind_of_ok (Descent.run_peek 0 t), Descent.run_fail]
  exact .error (Descent.run_bind_of_error hrun) (.refl t) (Stance.readAll_of_reject hd hc hs)

/-- A token of the given kind is taken, and the reader rejects all others. -/
theorem expect {f : Unit → Descent β} (state : Unfinished) (hk : kind ≠ .eof) (hd : s.done = kept)
    (hc : cause.readsToken = false) (hs : ∀ tok : Token, tok.kind = kind → s.read tok = .ok state)
    (hr : ∀ tok : Token, tok.kind ≠ kind → s.read tok = tok.reject cause)
    (h : t.advance.ahead.length + 1 = t.ahead.length →
      KeepsPace (least - 1) kept state.stance (f ()) behind t.advance) :
    KeepsPace least kept s (Descent.expect kind cause >>= f) behind t := by
  by_cases hkind : (t.peek 0).kind = kind
  · have hne : (t.peek 0).kind ≠ .eof := hkind ▸ hk
    have hrun : (Descent.expect kind cause).run t = some (.ok (), t.advance) := by
      rw [Descent.expect, Descent.run_bind_of_ok (Descent.run_accept_of_eq hkind), if_pos rfl,
        Descent.run_pure]
    exact step hrun (.advance hne) (fun _ _ _ => Stance.readAll_cons (hs _ hkind))
      (h (Tape.length_advance hne))
  · exact expect_of_ne hkind hd hc fun tok ht => hr tok (ht ▸ hkind)

/-- A literal is taken also if it is out of range. -/
theorem integer {negative : Bool} {pos : Pos} {site : OperandSite} (hd : s.done = kept)
    (hk : (t.peek 0).kind = .integer)
    (hs : s.read (t.peek 0) = (t.peek 0).literal negative pos site) :
    KeepsPace 1 kept s (Descent.integer negative pos) site.behind t := by
  have hne : (t.peek 0).kind ≠ .eof := by simp [hk]
  have hpasses := Tape.Passes.advance hne
  cases hr : readLiteral negative (t.peek 0).text with
  | some value =>
    have hrun : (Descent.integer negative pos).run t = some (.ok (.int pos value), t.advance) := by
      rw [Descent.integer, Descent.run_bind_of_ok (Descent.run_advance t)]
      simp only [hr, Descent.run_pure]
    exact .ok hrun hpasses (Nat.le_refl 1) fun eof ws _ =>
      Stance.readAll_cons (by simp only [hs, Token.literal, hr])
  | none =>
    have hrun : (Descent.integer negative pos).run t =
        some (.error ⟨(t.peek 0).pos, .literalRange negative (t.peek 0).text⟩, t.advance) := by
      rw [Descent.integer, Descent.run_bind_of_ok (Descent.run_advance t)]
      simp only [hr, Descent.run_fail]
    refine .error hrun hpasses ?_
    rw [hpasses.ahead]
    simp only [List.singleton_append, Stance.readAll, hs, Token.literal, hr, Token.reject, hd,
      SyntaxCause.readsToken, if_true]

/-- A procedure that takes a token may start from any stance that does the same with that one and
what stands behind it. -/
theorem restart (h : KeepsPace least kept s' p mid t) (hl : 1 ≤ least)
    (hnil : t.ahead = [] → s.readAll t.stop.pos [] = s'.readAll t.stop.pos [])
    (hcons : ∀ tok rest eof ws, t.ahead = tok :: rest → Alike ws rest →
      s.readAll eof (tok :: ws) = s'.readAll eof (tok :: ws)) :
    KeepsPace least kept s p mid t := by
  cases h with
  | @ok a us t' run passes length reads =>
    refine .ok run passes length fun eof ws hw => ?_
    cases us with
    | nil => exact absurd (Nat.le_trans hl length) (Nat.not_succ_le_zero 0)
    | cons tok us =>
      rw [← reads eof ws hw]
      exact hcons tok (us ++ t'.ahead) eof (us ++ ws) passes.ahead (hw.append us)
  | error run passes reads =>
    refine .error run passes (Eq.trans ?_ reads)
    cases ha : t.ahead with
    | nil => exact hnil ha
    | cons tok rest => exact hcons tok rest _ rest ha (.refl rest)

/-- A procedure that takes a token may start from any stance that does the same with that one. -/
theorem congr (h : KeepsPace least kept s' p mid t) (hl : 1 ≤ least) (hd : s.done = s'.done)
    (hr : ∀ tok : Token, tok.kind = (t.peek 0).kind → tok.pos = (t.peek 0).pos →
      s.read tok = s'.read tok) : KeepsPace least kept s p mid t := by
  refine h.restart hl (fun ha => ?_) fun tok rest eof ws ha _ => ?_
  · have hp := Tape.peek_of_nil ha
    exact Stance.readAll_congr hd (hr _ (by rw [hp, t.kind_stop]; rfl) (by rw [hp]; rfl))
  · rw [← Tape.peek_of_cons ha]
    exact Stance.readAll_congr hd (hr _ rfl rfl)

end KeepsPace

end FrameLang
