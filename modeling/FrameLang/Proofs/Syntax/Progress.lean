import FrameLang.Proofs.Syntax.Completion
import FrameLang.Proofs.Syntax.Pace

/-!
# Reading makes progress

The recursive descent and the reader make the same of every list of tokens. Since the procedures of
the descent end, and move forward but never over an end token, reading a program comes to an end
however often it is begun again, and what it leaves when it is stopped is settled by the tokens in
front of the statement that fails.

## Main definitions

* `Progresses` — a procedure ends and moves forward.
* `TokenStream.parses` — what a stream is read as if it is read several times in a row.
-/

namespace FrameLang

/-! ## Programs -/

/-- On the tape `t` the procedure `p` ends. The position never moves back or over an end token, and
it has moved if the procedure succeeds. -/
def Progresses {α : Type} (p : Descent α) (t : Tape) : Prop :=
  ∃ r t', p.run t = some (r, t') ∧ t.Leads t' ∧ (r.isOk = true → t.index < t'.index)

/-- What the reader makes of the stream of a tape behind the statements `earlier`. -/
def Tape.readOn (t : Tape) (earlier : Program) : Parse :=
  (statementsBehind earlier).readAll t.stop.pos t.ahead

/-- A reading behind the statements `earlier` that begins at `t` is stopped at `t'` by the error `e`
of a single statement, and the tokens in front of that statement are read as the program `done`,
wherever the end of the input stands. -/
def StoppedBy (e : SyntaxError) (earlier done : Program) (t t' : Tape) : Prop :=
  ∃ us t₁, t.Passes us t₁ ∧ Descent.statement.run t₁ = some (.error e, t') ∧
    ∀ eof, (statementsBehind earlier).readAll eof us = ⟨done, none, []⟩

theorem KeepsPace.progresses {α : Type} {kept : List Statement} {s : Stance} {p : Descent α}
    {mid : α → Stance} {t : Tape} (h : KeepsPace 1 kept s p mid t) : Progresses p t := by
  cases h with
  | @ok a us t' run passes length _ =>
    refine ⟨.ok a, t', run, passes.leads, fun _ => ?_⟩
    rw [passes.tokens]
    exact Nat.lt_add_of_pos_right length
  | @error e us t' run passes _ => exact ⟨.error e, t', run, passes.leads, nofun⟩

/-- Where a statement may start, any token but an end token starts one. -/
theorem LineSite.start_top {done : List Statement} {tok : Token} (h : tok.kind ≠ .eof) :
    (LineSite.top done).start tok = (statementEntry done).read tok := by
  unfold LineSite.start statementEntry LineSite.entry
  split <;> simp_all

/-- Reading a program on a tape ends as the reader ends on its stream. -/
theorem program_run (earlier : Program) (t : Tape) :
    ∃ us t', t.readProgram earlier =
        some (((t.readOn earlier).program, (t.readOn earlier).error), t') ∧
      t.Passes us t' ∧ t'.ahead = (t.readOn earlier).rest ∧
      ∀ e, (t.readOn earlier).error = some e →
        StoppedBy e earlier (t.readOn earlier).program t t' := by
  induction h : t.ahead.length using Nat.strongRecOn generalizing earlier t with
  | _ n ih =>
    subst h
    rw [Tape.readProgram]
    by_cases hk : (t.peek 0).kind = .eof
    · have hread : t.readOn earlier = ⟨earlier, none, []⟩ := by
        rw [Tape.readOn, Tape.ahead_eq_nil_iff.2 hk]
        rfl
      rw [if_pos hk, hread]
      exact ⟨[], t, rfl, .refl t, Tape.ahead_eq_nil_iff.2 hk, nofun⟩
    rw [if_neg hk]
    have hpace : KeepsPace 1 earlier (statementsBehind earlier) Descent.statement
        (fun s => statementsBehind (earlier ++ [s])) t :=
      (statement_keepsPace earlier t).congr (Nat.le_refl 1) rfl
        fun tok htok _ => LineSite.start_top (htok ▸ hk)
    cases hpace with
    | @ok s us t₁ run passes length reads =>
      have hlen : t₁.ahead.length < t.ahead.length := by
        rw [passes.ahead, List.length_append]
        omega
      have hread : t.readOn earlier = t₁.readOn (earlier ++ [s]) := by
        rw [Tape.readOn, passes.ahead, reads _ _ (.refl _), ← passes.stop, Tape.readOn]
      obtain ⟨vs, t', hrun, hpasses, hrest, hstopped⟩ := ih _ hlen (earlier ++ [s]) t₁ rfl
      rw [hread]
      refine ⟨us ++ vs, t', ?_, passes.trans hpasses, hrest, fun e he => ?_⟩
      · simp only [run, hrun, Option.bind_eq_bind, Option.bind_some]
      · obtain ⟨ws, t₂, hws, hfails, hdone⟩ := hstopped e he
        refine ⟨us ++ ws, t₂, passes.trans hws, hfails, fun eof => ?_⟩
        rw [reads eof ws (hws.ahead ▸ alike_append ws _), hdone]
    | @error e us t₁ run passes reads =>
      have hread : t.readOn earlier = ⟨earlier, some e, t₁.ahead⟩ := reads
      rw [hread]
      refine ⟨us, t₁, ?_, passes, rfl, fun e' he => ?_⟩
      · simp only [run, Option.bind_eq_bind, Option.bind_some, Option.pure_def]
      · obtain rfl := Option.some.inj he
        exact ⟨[], t, .refl t, run, fun _ => rfl⟩

/-- What a stream is read as if it is read `n` times, each time from where the reading before
stopped. -/
def TokenStream.parses : Nat → TokenStream → List Parse
  | 0, _ => []
  | n + 1, stream => stream.parse :: (stream.after stream.parse).parses n

/-- What a reading leaves. -/
def Parse.reading (parse : Parse) : Descent.Reading := (parse.program, parse.error)

theorem Tape.readOn_nil (t : Tape) : t.readOn [] = t.stream.parse :=
  Stance.readAll_stance _ _ _

/-- Readings in a row end as the readings of the stream do. -/
theorem calls_run (n : Nat) (t : Tape) :
    ∃ us t', Tape.readPrograms n t = some ((t.stream.parses n).map Parse.reading, t') ∧
      t.Passes us t' := by
  induction n generalizing t with
  | zero => exact ⟨[], t, rfl, .refl t⟩
  | succ n ih =>
    obtain ⟨us, t₁, hrun, hpasses, hrest, -⟩ := program_run [] t
    obtain ⟨vs, t', hruns, hpasses'⟩ := ih t₁
    rw [t.readOn_nil] at hrun hrest
    have hstream : t₁.stream = t.stream.after t.stream.parse := by
      rw [Tape.stream, hrest, hpasses.stop]
      rfl
    rw [hstream] at hruns
    refine ⟨us ++ vs, t', ?_, hpasses.trans hpasses'⟩
    simp only [Tape.readPrograms, hrun, hruns, Option.bind_eq_bind, Option.bind_some]
    rfl

/-! ## Progress -/

/-- Every procedure of the descent ends and moves forward on the tape. -/
structure EveryProcedureProgresses (t : Tape) : Prop where
  statement : Progresses Descent.statement t
  fnDef : Progresses Descent.fnDef t
  block : Progresses Procedure.block.call t
  line : Progresses Procedure.line.call t
  expr : Progresses Procedure.expr.call t
  binary (least : Nat) : Progresses (Procedure.binary least).call t
  unary : Progresses Procedure.unary.call t
  primary : Progresses Procedure.primary.call t
  branch : Progresses Procedure.branch.call t

theorem Operator.precedence_lt (op : Operator) : op.precedence < 3 := by
  cases op <;> decide

/-- No operator binds more strongly than the strongest ones. -/
theorem Procedure.binary_of_le {least : Nat} (h : 3 ≤ least) :
    (Procedure.binary least).call = (Procedure.binary 3).call := by
  have hoperators (lhs : Expr) :
      (Procedure.operators least lhs).call = (Procedure.operators 3 lhs).call := by
    rw [Procedure.call, Procedure.call]
    congr
    funext tok
    split
    · rfl
    · rename_i op _
      rw [if_pos (Nat.lt_of_lt_of_le op.precedence_lt h), if_pos op.precedence_lt]
  rw [Procedure.call, Procedure.call]
  simp only [hoperators]

/-- There is a site for operands that are joined by operators of any strength. -/
theorem exists_joins {least : Nat} (h : least ≤ 3) : ∃ site : OperandSite, site.Joins least := by
  have hop (op : Operator) : ∃ site : OperandSite, site.Joins (op.precedence + 1) :=
    ⟨.rightOf .start op (.bool .start true) (.first (.line .start (.top []))), .rightOf⟩
  match least, h with
  | 0, _ => exact ⟨.first (.line .start (.top [])), .first⟩
  | 1, _ => exact hop .eq
  | 2, _ => exact hop .add
  | 3, _ => exact hop .mul

theorem binary_progresses (least : Nat) (t : Tape) :
    Progresses (Procedure.binary least).call t := by
  have hbound (least : Nat) (h : least ≤ 3) : Progresses (Procedure.binary least).call t := by
    obtain ⟨site, hsite⟩ := exists_joins h
    exact ((keepPace t.ahead.length).binary_succ hsite (Nat.lt_succ_self _)).progresses
  rcases Nat.le_total least 3 with h | h
  · exact hbound least h
  · rw [Procedure.binary_of_le h]
    exact hbound 3 (Nat.le_refl 3)

theorem everyProcedureProgresses (t : Tape) : EveryProcedureProgresses t where
  statement := (statement_keepsPace [] t).progresses
  fnDef := (fnDef_keepsPace [] t).progresses
  block := (block_keepsPace (.function .start [] [] []) t).progresses
  line := (line_keepsPace (.top []) t).progresses
  expr := ((keepPace t.ahead.length).expr_succ (.line .start (.top []))
    (Nat.lt_succ_self _)).progresses
  binary least := binary_progresses least t
  unary := ((keepPace t.ahead.length).unary_succ (.first (.line .start (.top [])))
    (Nat.lt_succ_self _)).progresses
  primary := ((keepPace t.ahead.length).primary_succ (.first (.line .start (.top [])))
    (Nat.lt_succ_self _)).progresses
  branch := ((keepPace t.ahead.length).branch_succ (.operand (.first (.line .start (.top []))))
    (Nat.lt_succ_self _)).progresses

/-- Reading makes progress on every list of tokens and from every position in it. Each procedure
ends, never moves back or over an end token, and takes a token if it succeeds. So any number of
readings in a row end, with what the stream of the tape is read as, and a reading that is stopped by
an error leaves the program that the tokens in front of the failing statement are read as. -/
theorem descent_progresses (tokens : List Token) (index : Nat) :
    let t := Tape.ofTokens tokens index
    EveryProcedureProgresses t ∧
    (∀ n, ∃ t', Tape.readPrograms n t = some ((t.stream.parses n).map Parse.reading, t') ∧
      t.Leads t') ∧
    (∃ t', t.readProgram [] = some (t.stream.parse.reading, t') ∧
      ∀ e, t.stream.parse.error = some e →
        ∃ us t₁, t.Passes us t₁ ∧ Descent.statement.run t₁ = some (.error e, t') ∧
          parseTokens us = ⟨t.stream.parse.program, none, []⟩) ∧
    (Tape.ofTokens tokens 0).stream = TokenStream.ofTokens tokens := by
  intro t
  refine ⟨everyProcedureProgresses t, fun n => ?_, ?_, Tape.stream_ofTokens tokens⟩
  · obtain ⟨us, t', hruns, hpasses⟩ := calls_run n t
    exact ⟨t', hruns, hpasses.leads⟩
  · obtain ⟨us, t', hrun, -, -, hstopped⟩ := program_run [] t
    rw [t.readOn_nil] at hrun hstopped
    refine ⟨t', hrun, fun e he => ?_⟩
    obtain ⟨us, t₁, hpasses, hfails, hread⟩ := hstopped e he
    refine ⟨us, t₁, hpasses, hfails, ?_⟩
    have hus : ∀ tok ∈ us, tok.kind ≠ .eof := fun tok htok =>
      Tape.kind_of_mem_ahead (hpasses.ahead ▸ List.mem_append_left _ htok)
    rw [parseTokens, TokenStream.parse, TokenStream.tokens_of_forall hus,
      ← Stance.readAll_stance]
    exact hread _

end FrameLang
