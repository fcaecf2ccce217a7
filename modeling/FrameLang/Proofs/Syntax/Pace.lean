import FrameLang.Proofs.Syntax.Stances

/-!
# The descent keeps pace with the reader

Every procedure of the recursive descent ends on every tape, and does what the reader does where the
phrase of the procedure is due. Procedures call each other without taking a token in between, but no
phrase gets to another one of its kind before it has taken one. So all of this is shown at once, by
induction on the number of tokens in front of the next end token: there is one lemma for each
procedure, which takes the others for granted on shorter tapes.

## Main definitions

* `PaceBelow` — the procedures keep pace on tapes up to some length.
-/

namespace FrameLang

/-- A site with operands that are joined by operators of strength `least` or more. -/
inductive OperandSite.Joins : Nat → OperandSite → Prop
  | first {site : ExprSite} : Joins 0 (.first site)
  | rightOf {pos : Pos} {op : Operator} {lhs : Expr} {site : OperandSite} :
    Joins (op.precedence + 1) (.rightOf pos op lhs site)

/-- On tapes with less than `n` tokens in front of the next end token the procedures keep pace. -/
structure PaceBelow (n : Nat) : Prop where
  block {t : Tape} (site : BlockSite) : t.ahead.length < n →
    KeepsPace 1 site.done (Unfinished.block site).stance Procedure.block.call site.behind t
  lines {t : Tape} (earlier : List Line) (site : BlockSite) : t.ahead.length < n →
    KeepsPace 1 site.done (Unfinished.line (.inside earlier site)).stance
      (Procedure.lines earlier).call site.behind t
  expr {t : Tape} (site : ExprSite) : t.ahead.length < n →
    KeepsPace 1 site.done (Unfinished.expr site).stance Procedure.expr.call site.behind t
  binary {t : Tape} {least : Nat} {site : OperandSite} : site.Joins least → t.ahead.length < n →
    KeepsPace 1 site.done (Unfinished.operand site).stance (Procedure.binary least).call
      site.closed t
  operators {t : Tape} {least : Nat} {site : OperandSite} (lhs : Expr) : site.Joins least →
    t.ahead.length < n →
    KeepsPace 0 site.done (site.behind lhs) (Procedure.operators least lhs).call site.closed t
  unary {t : Tape} (site : OperandSite) : t.ahead.length < n →
    KeepsPace 1 site.done (Unfinished.operand site).stance Procedure.unary.call site.behind t
  branch {t : Tape} (site : IfSite) : t.ahead.length < n →
    KeepsPace 1 site.done site.entry Procedure.branch.call site.behind t
  moreArgs {t : Tape} (pos : Pos) (callee : Text) (earlier : List Expr) (site : OperandSite) :
    t.ahead.length < n →
    KeepsPace 1 site.done (Unfinished.expr (.argument pos callee earlier site)).stance
      (Procedure.moreArgs earlier).call (fun es => site.behind (.call pos callee es)) t

/-! ## Sites -/

theorem OperandSite.doneBehind_of_not_branch {e : Expr} (h : e.isBranch = false) :
    (site : OperandSite) → site.doneBehind e = site.done
  | .first (.line _ _) => by simp only [doneBehind, h, Bool.false_eq_true, if_false]; rfl
  | .first (.assigned ..) | .first (.grouped _) | .first (.argument ..) | .first (.test ..)
  | .negated .. | .rightOf .. => rfl

/-- A sign in front of an operand makes another operand of it. -/
theorem OperandSite.behind_negated (pos : Pos) (site : OperandSite) (e : Expr) :
    (OperandSite.negated pos site).behind e = site.behind (.negate pos e) := by
  have hdone : site.doneBehind (.negate pos e) = site.done :=
    OperandSite.doneBehind_of_not_branch rfl site
  have hafter : ∀ tok, (OperandSite.negated pos site).after e tok =
      site.after (.negate pos e) tok := fun tok => by
    simp only [OperandSite.after, OperandSite.reduce, OperandSite.finish]
  simp only [OperandSite.behind, Unfinished.stance, Unfinished.done, Unfinished.feed, hdone, hafter]
  rfl

theorem OperandSite.Joins.reduce {least : Nat} {site : OperandSite} (h : site.Joins least)
    {p : Nat} (hp : least ≤ p) (e : Expr) : site.reduce p e = (e, site) := by
  cases h with
  | first => rfl
  | rightOf => exact if_neg (Nat.not_le.2 hp)

/-- An operator that binds less strongly stands behind the whole operand. -/
theorem OperandSite.Joins.meets {least : Nat} {site : OperandSite} (h : site.Joins least)
    {kind : TokenKind} (hk : ∀ op, kind.operator? = some op → op.precedence < least) (e : Expr) :
    (site.behind e).Meets (site.closed e) kind := by
  have hlow : ∀ tok : Token, tok.kind = kind ∨ tok.kind = .eof →
      ∀ op, tok.kind.operator? = some op → op.precedence < least := by
    intro tok htok op hop
    rcases htok with htok | htok
    · exact hk op (htok ▸ hop)
    · rw [htok] at hop
      cases hop
  cases h with
  | @first site =>
    refine ⟨rfl, fun tok htok => ?_⟩
    change (OperandSite.first site).after e tok = site.finish e tok
    cases hop : tok.kind.operator? with
    | none => rw [after_of_not_operator hop, base, close]
    | some op => exact absurd (hlow tok htok op hop) (Nat.not_lt_zero _)
  | @rightOf pos op lhs site =>
    refine ⟨(doneBehind_of_not_branch rfl site).symm, fun tok htok => ?_⟩
    change (OperandSite.rightOf pos op lhs site).after e tok = site.after (.binary pos op lhs e) tok
    cases hop : tok.kind.operator? with
    | none => rw [after_of_not_operator hop, after_of_not_operator hop, base, close]
    | some op' =>
      have hle := Nat.lt_succ_iff.1 (hlow tok htok op' hop)
      rw [after_of_operator hop, after_of_operator hop, OperandSite.reduce, if_pos hle]

/-- In a block a line starts with any token that does not end the block. -/
theorem LineSite.start_inside {lines : List Line} {site : BlockSite} {tok : Token}
    (heof : tok.kind ≠ .eof) (hbrace : tok.kind ≠ .rbrace) :
    (LineSite.inside lines site).start tok = (LineSite.inside lines site).entry.read tok := by
  unfold LineSite.start LineSite.entry
  split <;> simp_all

section Steps

variable {n : Nat} {t : Tape}

/-! ## Operands -/

theorem PaceBelow.branch_succ (ih : PaceBelow n) (site : IfSite) (ht : t.ahead.length < n + 1) :
    KeepsPace 1 site.done site.entry Procedure.branch.call site.behind t := by
  rw [Procedure.call]
  by_cases hk : (t.peek 0).kind = .eof
  · exact .advance_eof hk (.expect_of_ne (by simp [hk]) rfl rfl fun tok h => by
      simp [IfSite.entry, h, hk])
  refine .advance (.ifOpen (t.peek 0).pos site) hk (by grind [IfSite.entry]) fun h₁ => ?_
  refine .expect (.expr (.test (t.peek 0).pos site)) (by decide) rfl rfl
    (fun tok h => by simp [Unfinished.feed, h]) (fun tok h => by simp [Unfinished.feed])
    fun h₂ => ?_
  refine .bind (Nat.zero_le 1) (ih.expr (.test (t.peek 0).pos site) (by omega)) fun test t₁ h₃ => ?_
  refine .expect (.block (.thenOf (t.peek 0).pos test site)) (by decide) rfl rfl
    (fun tok h => by simp [ExprSite.finish, h]) (fun tok h => by simp [ExprSite.finish])
    fun h₄ => ?_
  refine .bind (Nat.zero_le 1) (ih.block (.thenOf (t.peek 0).pos test site) (by omega))
    fun lines t₂ h₅ => ?_
  refine .accept (by decide) (fun h => ⟨.elseOpen (t.peek 0).pos test lines site, ?_, fun h₆ => ?_⟩)
    fun h => ?_
  · simp [BlockSite.behind, BlockSite.fill, Unfinished.feed, h]
  · rw [if_pos rfl]
    refine .peek 0 ?_
    by_cases hif : (t₂.advance.peek 0).kind = .kwIf
    · rw [if_pos hif]
      have hbranch := ih.branch (.elseOf (t.peek 0).pos test lines site)
        (show t₂.advance.ahead.length < n by omega)
      refine .bind (Nat.zero_le 1) (hbranch.congr (Nat.le_refl 1) rfl fun tok htok _ => ?_)
        fun e t₃ _ => .pure ⟨rfl, fun _ _ => rfl⟩
      simp [Unfinished.feed, IfSite.entry, htok, hif]
    · rw [if_neg hif]
      have hblock := ih.block (.elseOf (t.peek 0).pos test lines site)
        (show t₂.advance.ahead.length < n by omega)
      refine .bind (Nat.zero_le 1) (hblock.congr (Nat.le_refl 1) rfl fun tok htok _ => ?_)
        fun lines' t₃ _ => .pure ⟨rfl, fun _ _ => rfl⟩
      simp [Unfinished.feed, htok]
  · rw [if_neg Bool.false_ne_true]
    refine KeepsPace.pure ⟨rfl, fun tok htok => ?_⟩
    have hne : tok.kind ≠ .kwElse := by rcases htok with htok | htok <;> simp [htok, h]
    simp [BlockSite.behind, BlockSite.fill, Unfinished.feed, IfSite.behind, OperandSite.behind]

/-- The arguments of a call, behind the parenthesis that opens them. -/
theorem PaceBelow.args (ih : PaceBelow n) (pos : Pos) (callee : Text) (site : OperandSite)
    (ht : t.ahead.length < n) :
    KeepsPace 1 site.done (Unfinished.callOpen pos callee site).stance Procedure.args.call
      (fun es => site.behind (.call pos callee es)) t := by
  rw [Procedure.call]
  refine .accept (by decide)
    (fun h => ⟨.operandDone (.call pos callee []) site, by simp [Unfinished.feed, h], fun _ => ?_⟩)
    fun h => ?_
  · exact .pure ⟨rfl, fun _ _ => rfl⟩
  · refine (ih.moreArgs pos callee [] site ht).congr (Nat.le_refl 1) rfl fun tok htok _ => ?_
    simp [Unfinished.feed, htok]

/-- An operand of one token. -/
theorem KeepsPace.constant {site : OperandSite} {e : Expr} (hk : (t.peek 0).kind ≠ .eof)
    (hs : site.entry.read (t.peek 0) = .ok (.operandDone e site)) :
    KeepsPace 1 site.done site.entry (do let _ ← Descent.advance; return e) site.behind t :=
  .advance (.operandDone e site) hk hs fun _ => .pure ⟨rfl, fun _ _ => rfl⟩

theorem PaceBelow.primary_succ (ih : PaceBelow n) (site : OperandSite)
    (ht : t.ahead.length < n + 1) :
    KeepsPace 1 site.done site.entry Procedure.primary.call site.behind t := by
  rw [Procedure.call]
  refine .peek 0 ?_
  split
  case h_1 hk => exact .integer rfl hk (by simp [OperandSite.entry, OperandSite.start, hk])
  case h_2 hk =>
    exact .constant (by simp [hk]) (by simp [OperandSite.entry, OperandSite.start, hk])
  case h_3 hk =>
    exact .constant (by simp [hk]) (by simp [OperandSite.entry, OperandSite.start, hk])
  case h_4 hk =>
    exact .constant (by simp [hk]) (by simp [OperandSite.entry, OperandSite.start, hk])
  case h_5 hk =>
    refine (ih.branch_succ (.operand site) ht).congr (Nat.le_refl 1) rfl fun tok htok _ => ?_
    simp [OperandSite.entry, OperandSite.start, IfSite.entry, htok, hk]
  case h_6 hk =>
    refine .advance (.namedOperand (t.peek 0).pos (t.peek 0).text site) (by simp [hk])
      (by simp [OperandSite.entry, OperandSite.start, hk]) fun h₁ => ?_
    refine .accept (by decide)
      (fun h => ⟨.callOpen (t.peek 0).pos (t.peek 0).text site,
        by simp [Unfinished.feed, OperandSite.afterName, h], fun h₂ => ?_⟩) fun h => ?_
    · rw [if_pos rfl]
      exact .bind (Nat.zero_le 1) (ih.args (t.peek 0).pos (t.peek 0).text site (by omega))
        fun es t₁ _ => .pure ⟨rfl, fun _ _ => rfl⟩
    · rw [if_neg Bool.false_ne_true]
      refine KeepsPace.pure ⟨(OperandSite.doneBehind_of_not_branch rfl site).symm,
        fun tok htok => ?_⟩
      have hne : tok.kind ≠ .lparen := by rcases htok with htok | htok <;> simp [htok, h]
      simp [Unfinished.feed, OperandSite.afterName, OperandSite.behind]
  case h_7 hk =>
    refine .advance (.expr (.grouped site)) (by simp [hk])
      (by simp [OperandSite.entry, OperandSite.start, hk]) fun h₁ => ?_
    refine .bind (Nat.zero_le 1) (ih.expr (.grouped site) (by omega)) fun e t₁ h₂ => ?_
    refine .expect (.operandDone e site) (by decide) rfl rfl
      (fun tok h => by simp [ExprSite.finish, h]) (fun tok h => by simp [ExprSite.finish])
      fun h₃ => ?_
    exact .pure ⟨rfl, fun _ _ => rfl⟩
  case h_8 hint hstr htrue hfalse hif hname hgroup =>
    refine .fail rfl rfl fun tok htok => ?_
    by_cases hminus : (t.peek 0).kind = .minus
    · simp [OperandSite.entry, htok, hminus]
    · unfold OperandSite.entry OperandSite.start
      simp only [htok]

theorem PaceBelow.unary_succ (ih : PaceBelow n) (site : OperandSite) (ht : t.ahead.length < n + 1) :
    KeepsPace 1 site.done (Unfinished.operand site).stance Procedure.unary.call site.behind t := by
  rw [Procedure.call]
  refine .peek 0 ?_
  by_cases hk : (t.peek 0).kind = .minus
  · rw [if_pos hk]
    refine .advance (.sign (t.peek 0).pos site) (by simp [hk])
      (by simp [Unfinished.feed, OperandSite.start, hk]) fun h₁ => ?_
    refine .peek 0 ?_
    by_cases hint : (t.advance.peek 0).kind = .integer
    · rw [if_pos hint]
      have hread : (Unfinished.sign (t.peek 0).pos site).stance.read (t.advance.peek 0) =
          (t.advance.peek 0).literal true (t.peek 0).pos site := by
        simp [Unfinished.feed, hint]
      exact (KeepsPace.integer rfl hint hread).weaken (Nat.zero_le 1)
    · rw [if_neg hint]
      have hunary := ih.unary (.negated (t.peek 0).pos site)
        (show t.advance.ahead.length < n by omega)
      refine .bind (Nat.zero_le 1) (hunary.congr (Nat.le_refl 1) rfl fun tok htok _ => ?_)
        fun e t₁ _ => .pure ?_
      · simp [Unfinished.feed, htok]
      · rw [OperandSite.behind_negated]
        exact ⟨rfl, fun _ _ => rfl⟩
  · rw [if_neg hk]
    refine (ih.primary_succ site ht).congr (Nat.le_refl 1) rfl fun tok htok _ => ?_
    simp [Unfinished.feed, OperandSite.entry, htok]

/-! ## Expressions -/

theorem PaceBelow.operators_succ (ih : PaceBelow n) {least : Nat} {site : OperandSite} (lhs : Expr)
    (hsite : site.Joins least) (ht : t.ahead.length < n + 1) :
    KeepsPace 0 site.done (site.behind lhs) (Procedure.operators least lhs).call site.closed t := by
  rw [Procedure.call]
  refine .peek 0 ?_
  split
  case h_1 hop => exact .pure (hsite.meets (by simp [hop]) lhs)
  case h_2 op hop =>
    by_cases hlow : op.precedence < least
    · rw [if_pos hlow]
      refine .pure (hsite.meets (fun op' hop' => ?_) lhs)
      obtain rfl : op = op' := Option.some.inj (hop.symm.trans hop')
      exact hlow
    · rw [if_neg hlow]
      refine .advance (.operand (.rightOf (t.peek 0).pos op lhs site)) (fun hk => ?_) ?_
        fun h₁ => ?_
      · simp [hk, TokenKind.operator?] at hop
      · simp [OperandSite.behind, Unfinished.feed, OperandSite.after, hop,
          hsite.reduce (Nat.not_lt.1 hlow)]
      · exact .bind (Nat.zero_le 1) (ih.binary .rightOf (by omega))
          fun rhs t₁ h₂ => ih.operators _ hsite (by omega)

theorem PaceBelow.binary_succ (ih : PaceBelow n) {least : Nat} {site : OperandSite}
    (hsite : site.Joins least) (ht : t.ahead.length < n + 1) :
    KeepsPace 1 site.done (Unfinished.operand site).stance (Procedure.binary least).call
      site.closed t := by
  rw [Procedure.call]
  exact .bind (Nat.le_refl 1) (ih.unary_succ site ht)
    fun lhs t₁ h₁ => ih.operators lhs hsite (by omega)

/-- A name in front of an expression is the first operand, if no equals sign follows it. -/
theorem KeepsPace.start_of_first {site : ExprSite} {p : Descent Expr} {mid : Expr → Stance}
    (h : KeepsPace 1 site.done (Unfinished.operand (.first site)).stance p mid t)
    (hk : ¬((t.peek 0).kind = .identifier ∧ (t.peek 1).kind = .assign)) :
    KeepsPace 1 site.done (Unfinished.expr site).stance p mid t := by
  by_cases hname : (t.peek 0).kind = .identifier
  · have hne : (t.peek 0).kind ≠ .eof := by simp [hname]
    refine h.restart (Nat.le_refl 1) (fun ha => absurd (Tape.ahead_eq_nil_iff.1 ha) hne)
      fun tok rest eof ws ha hws => ?_
    have htok : tok.kind = .identifier := by rw [← Tape.peek_of_cons ha, hname]
    have hexpr : (Unfinished.expr site).stance.read tok =
        .ok (.leadingName tok.pos tok.text site) := by
      simp [Unfinished.feed, ExprSite.start, htok]
    have hoperand : (Unfinished.operand (.first site)).stance.read tok =
        .ok (.namedOperand tok.pos tok.text (.first site)) := by
      simp [Unfinished.feed, OperandSite.start, htok]
    rw [Stance.readAll_cons hexpr, Stance.readAll_cons hoperand]
    refine Stance.readAll_congr rfl ?_
    have hnext : (t.advance.peek 0).kind ≠ .assign := by
      rw [← Tape.peek_one hne]
      exact fun h => hk ⟨hname, h⟩
    have hrest : rest = t.advance.ahead := by
      have hahead := (Tape.Passes.advance hne).ahead
      rw [ha] at hahead
      exact (List.cons.inj hahead).2
    have hassign : (upcoming eof ws).kind ≠ .assign := by
      rcases hws.kind_upcoming eof with h | h
      · rwa [h, hrest, Tape.kind_upcoming]
      · simp [h]
    simp [Unfinished.feed]
  · refine h.congr (Nat.le_refl 1) rfl fun tok htok _ => ?_
    rw [← htok] at hname
    simp [Unfinished.feed, ExprSite.start]

theorem PaceBelow.expr_succ (ih : PaceBelow n) (site : ExprSite) (ht : t.ahead.length < n + 1) :
    KeepsPace 1 site.done (Unfinished.expr site).stance Procedure.expr.call site.behind t := by
  rw [Procedure.call]
  refine .peek 0 (.peek 1 ?_)
  by_cases hk : (t.peek 0).kind = .identifier ∧ (t.peek 1).kind = .assign
  · rw [if_pos hk]
    obtain ⟨hname, hsign⟩ := hk
    have hne : (t.peek 0).kind ≠ .eof := by simp [hname]
    rw [Tape.peek_one hne] at hsign
    refine .advance (.leadingName (t.peek 0).pos (t.peek 0).text site) hne
      (by simp [Unfinished.feed, ExprSite.start, hname]) fun h₁ => ?_
    refine .advance (.expr (.assigned (t.peek 0).pos (t.peek 0).text site)) (by simp [hsign])
      (by simp [Unfinished.feed, hsign]) fun h₂ => ?_
    refine .bind (Nat.zero_le 1)
      (ih.expr (.assigned (t.peek 0).pos (t.peek 0).text site) (by omega))
      fun e t₁ _ => .pure ⟨?_, fun _ _ => rfl⟩
    exact (OperandSite.doneBehind_of_not_branch rfl (.first site)).symm
  · rw [if_neg hk]
    exact (ih.binary_succ .first ht).start_of_first hk

theorem PaceBelow.moreArgs_succ (ih : PaceBelow n) (pos : Pos) (callee : Text) (earlier : List Expr)
    (site : OperandSite) (ht : t.ahead.length < n + 1) :
    KeepsPace 1 site.done (Unfinished.expr (.argument pos callee earlier site)).stance
      (Procedure.moreArgs earlier).call (fun es => site.behind (.call pos callee es)) t := by
  rw [Procedure.call]
  refine .bind (Nat.le_refl 1) (ih.expr_succ (.argument pos callee earlier site) ht)
    fun e t₁ h₁ => ?_
  refine .accept (by decide)
    (fun h => ⟨.expr (.argument pos callee (earlier ++ [e]) site), by simp [ExprSite.finish, h],
      fun h₂ => ?_⟩) fun hcomma => ?_
  · rw [if_pos rfl]
    exact (ih.moreArgs pos callee (earlier ++ [e]) site (by omega)).weaken (Nat.zero_le 1)
  · rw [if_neg Bool.false_ne_true]
    refine .accept (by decide)
      (fun h => ⟨.operandDone (.call pos callee (earlier ++ [e])) site,
        by simp [ExprSite.finish, h], fun h₂ => ?_⟩) fun hclose => ?_
    · rw [if_pos rfl]
      exact .pure ⟨rfl, fun _ _ => rfl⟩
    · rw [if_neg Bool.false_ne_true]
      refine .peek 0 (.fail rfl rfl fun tok htok => ?_)
      rw [← htok] at hcomma hclose
      simp [ExprSite.finish]

/-! ## Lines -/

theorem PaceBelow.block_succ (ih : PaceBelow n) (site : BlockSite) (ht : t.ahead.length < n + 1) :
    KeepsPace 1 site.done (Unfinished.block site).stance Procedure.block.call site.behind t := by
  rw [Procedure.call_block]
  refine .expect (.line (.inside [] site)) (by decide) rfl rfl
    (fun tok h => by simp [Unfinished.feed, BlockSite.start, h])
    (fun tok h => by simp [Unfinished.feed, BlockSite.start]) fun h₁ => ?_
  exact (ih.lines [] site (by omega)).weaken (Nat.zero_le 1)

/-- A semicolon behind a block is taken, but it need not be there. -/
theorem KeepsPace.optionalSemicolon {β : Type} {kept : List Statement} {s : Stance} {b : β}
    {f : Bool → Descent β} {mid : β → Stance} (site : LineSite) (hf : ∀ found, f found = pure b)
    (hmid : mid b = (Unfinished.line site).stance) (hd : s.done = site.done)
    (hs : ∀ tok, s.read tok = (Unfinished.lineClosed site).feed tok) :
    KeepsPace 0 kept s (Descent.accept .semicolon >>= f) mid t := by
  refine .accept (by decide)
    (fun h => ⟨.line site, by simp [hs, Unfinished.feed, h], fun _ => ?_⟩) fun h => ?_
  · rw [hf]
    refine .pure ?_
    rw [hmid]
    exact ⟨rfl, fun _ _ => rfl⟩
  · rw [hf]
    refine .pure ?_
    rw [hmid]
    refine ⟨hd, fun tok htok => ?_⟩
    have hne : tok.kind ≠ .semicolon := by rcases htok with htok | htok <;> simp [htok, h]
    rw [hs]
    simp [Unfinished.feed]

theorem PaceBelow.line_succ (ih : PaceBelow n) (site : LineSite) (ht : t.ahead.length < n + 1) :
    KeepsPace 1 site.done site.entry Procedure.line.call site.behind t := by
  rw [Procedure.call]
  refine .peek 0 ?_
  by_cases hfn : (t.peek 0).kind = .kwFn
  · rw [if_pos hfn]
    exact .fail rfl rfl fun tok htok => by simp [LineSite.entry, htok, hfn]
  rw [if_neg hfn]
  refine .accept (by decide) (fun hloop => ⟨.block (.loop (t.peek 0).pos site),
    by simp [LineSite.entry, hloop], fun h₁ => ?_⟩) fun hloop => ?_
  · rw [if_pos rfl]
    exact .bind (Nat.zero_le 1) (ih.block (.loop (t.peek 0).pos site) (by omega))
      fun body t₁ _ => .optionalSemicolon (site.add _) (fun _ => rfl) rfl rfl fun _ => rfl
  rw [if_neg Bool.false_ne_true]
  refine .accept (by decide) (fun hbreak => ⟨.breakOpen (t.peek 0).pos site,
    by simp [LineSite.entry, hbreak], fun h₁ => ?_⟩) fun hbreak => ?_
  · rw [if_pos rfl]
    refine .expect (.line (site.add (.brk (t.peek 0).pos))) (by decide) rfl rfl
      (fun tok h => by simp [Unfinished.feed, h]) (fun tok h => by simp [Unfinished.feed])
      fun h₂ => ?_
    exact .pure ⟨rfl, fun _ _ => rfl⟩
  rw [if_neg Bool.false_ne_true]
  have hexpr := ih.expr_succ (.line (t.peek 0).pos site) ht
  refine .bind (Nat.le_refl 1) (hexpr.congr (Nat.le_refl 1) rfl fun tok htok hpos => ?_)
    fun e t₁ h₁ => ?_
  · rw [← htok] at hfn hloop hbreak
    simp [LineSite.entry, hpos, Unfinished.feed]
  by_cases he : e.isBranch = true
  · rw [if_pos he]
    refine .optionalSemicolon (site.add _) (fun _ => rfl) rfl (if_pos he) fun tok => ?_
    simp [ExprSite.finish, Unfinished.feed, he]
  · rw [if_neg he]
    have hdone := OperandSite.doneBehind_of_not_branch (Bool.eq_false_iff.2 he)
      (.first (.line (t.peek 0).pos site))
    refine .expect (.line (site.add (.expr (t.peek 0).pos e))) (by decide) hdone rfl
      (fun tok h => by simp [ExprSite.finish, h]) (fun tok h => by simp [ExprSite.finish, he])
      fun h₂ => ?_
    exact .pure ⟨rfl, fun _ _ => rfl⟩

theorem PaceBelow.lines_succ (ih : PaceBelow n) (earlier : List Line) (site : BlockSite)
    (ht : t.ahead.length < n + 1) :
    KeepsPace 1 site.done (Unfinished.line (.inside earlier site)).stance
      (Procedure.lines earlier).call site.behind t := by
  rw [Procedure.call]
  refine .accept (by decide) (fun h => ⟨site.fill earlier, ?_, fun _ => ?_⟩) fun hbrace => ?_
  · simp [Unfinished.feed, LineSite.start, h]
  · rw [if_pos rfl]
    exact .pure ⟨rfl, fun _ _ => rfl⟩
  rw [if_neg Bool.false_ne_true]
  refine .peek 0 ?_
  by_cases hk : (t.peek 0).kind = .eof
  · rw [if_pos hk]
    exact .fail rfl rfl fun tok htok => by simp [Unfinished.feed, LineSite.start, htok, hk]
  · rw [if_neg hk]
    have hline := ih.line_succ (.inside earlier site) ht
    refine .bind (Nat.le_refl 1) (hline.congr (Nat.le_refl 1) rfl fun tok htok _ => ?_)
      fun l t₁ h₁ => ?_
    · exact LineSite.start_inside (htok ▸ hk) (htok ▸ hbrace)
    · exact (ih.lines (earlier ++ [l]) site (by omega)).weaken (Nat.zero_le 1)

end Steps

/-- On every tape the procedures keep pace with the reader. -/
theorem keepPace (n : Nat) : PaceBelow n := by
  induction n with
  | zero => constructor <;> intros <;> exact absurd ‹_ < 0› (Nat.not_lt_zero _)
  | succ n ih =>
    exact ⟨ih.block_succ, ih.lines_succ, ih.expr_succ, ih.binary_succ, ih.operators_succ,
      ih.unary_succ, ih.branch_succ, ih.moreArgs_succ⟩

theorem block_keepsPace (site : BlockSite) (t : Tape) :
    KeepsPace 1 site.done (Unfinished.block site).stance Procedure.block.call site.behind t :=
  (keepPace t.ahead.length).block_succ site (Nat.lt_succ_self _)

theorem line_keepsPace (site : LineSite) (t : Tape) :
    KeepsPace 1 site.done site.entry Procedure.line.call site.behind t :=
  (keepPace t.ahead.length).line_succ site (Nat.lt_succ_self _)

/-! ## Statements -/

/-- In front of a function definition, at a token that is taken for its first one. -/
def functionEntry (done : List Statement) : Stance :=
  ⟨done, fun tok =>
    match tok.kind with
    | .eof => tok.reject .functionName
    | _ => .ok (.fnOpen tok.pos done)⟩

/-- In front of a statement, at a token that does not end the program. -/
def statementEntry (done : List Statement) : Stance :=
  ⟨done, fun tok =>
    match tok.kind with
    | .kwFn => .ok (.fnOpen tok.pos done)
    | _ => (LineSite.top done).entry.read tok⟩

/-- Behind the statements `done`. -/
def statementsBehind (done : List Statement) : Stance :=
  (Unfinished.line (.top done)).stance

section Statements

variable {t : Tape}

theorem moreParams_keepsPace (pos : Pos) (name : Text) (done : List Statement)
    (earlier : List Text) (t : Tape) :
    KeepsPace 1 done (Unfinished.param pos name earlier done).stance
      (Procedure.moreParams earlier).call
      (fun params => (Unfinished.block (.function pos name params done)).stance) t := by
  induction h : t.ahead.length using Nat.strongRecOn generalizing t earlier with
  | _ n ih =>
    subst h
    rw [Procedure.call]
    refine .peek 0 ?_
    by_cases hk : (t.peek 0).kind = .identifier
    · rw [if_pos hk]
      refine .advance (.paramDone pos name (earlier ++ [(t.peek 0).text]) done) (by simp [hk])
        (by simp [Unfinished.feed, hk]) fun h₁ => ?_
      refine .accept (by decide)
        (fun h => ⟨.param pos name (earlier ++ [(t.peek 0).text]) done,
          by simp [Unfinished.feed, h], fun h₂ => ?_⟩) fun hcomma => ?_
      · rw [if_pos rfl]
        exact (ih _ (by omega) _ _ rfl).weaken (Nat.zero_le 1)
      rw [if_neg Bool.false_ne_true]
      refine .accept (by decide)
        (fun h => ⟨.block (.function pos name (earlier ++ [(t.peek 0).text]) done),
          by simp [Unfinished.feed, h], fun _ => ?_⟩) fun hclose => ?_
      · rw [if_pos rfl]
        exact .pure ⟨rfl, fun _ _ => rfl⟩
      · rw [if_neg Bool.false_ne_true]
        refine .peek 0 (.fail rfl rfl fun tok htok => ?_)
        rw [← htok] at hcomma hclose
        simp [Unfinished.feed]
    · rw [if_neg hk]
      exact .fail rfl rfl fun tok htok => by simp [Unfinished.feed, htok]

theorem params_keepsPace (pos : Pos) (name : Text) (done : List Statement) (t : Tape) :
    KeepsPace 1 done (Unfinished.paramsOpen pos name done).stance Descent.params
      (fun params => (Unfinished.block (.function pos name params done)).stance) t := by
  rw [Descent.params]
  refine .accept (by decide) (fun h => ⟨.block (.function pos name [] done),
    by simp [Unfinished.feed, h], fun _ => ?_⟩) fun h => ?_
  · rw [if_pos rfl]
    exact .pure ⟨rfl, fun _ _ => rfl⟩
  · rw [if_neg Bool.false_ne_true]
    refine (moreParams_keepsPace pos name done [] t).congr (Nat.le_refl 1) rfl fun tok htok _ => ?_
    rw [← htok] at h
    by_cases hk : tok.kind = .identifier
    · simp [Unfinished.feed, hk]
    · simp [Unfinished.feed]

theorem fnDef_keepsPace (done : List Statement) (t : Tape) :
    KeepsPace 1 done (functionEntry done) Descent.fnDef
      (fun f => statementsBehind (done ++ [.fn f])) t := by
  rw [Descent.fnDef]
  by_cases hk : (t.peek 0).kind = .eof
  · refine .advance_eof hk (.peek 0 ?_)
    rw [if_neg (by simp [hk])]
    exact .fail rfl rfl fun tok htok => by simp [functionEntry, htok, hk]
  refine .advance (.fnOpen (t.peek 0).pos done) hk (by grind [functionEntry]) fun h₁ => ?_
  refine .peek 0 ?_
  by_cases hname : (t.advance.peek 0).kind = .identifier
  · rw [if_pos hname]
    refine .advance (.fnNamed (t.peek 0).pos (t.advance.peek 0).text done) (by simp [hname])
      (by simp [Unfinished.feed, hname]) fun h₂ => ?_
    refine .expect (.paramsOpen (t.peek 0).pos (t.advance.peek 0).text done) (by decide) rfl rfl
      (fun tok h => by simp [Unfinished.feed, h]) (fun tok h => by simp [Unfinished.feed])
      fun h₃ => ?_
    refine .bind (Nat.zero_le 1) (params_keepsPace _ _ done _) fun names t₁ h₄ => ?_
    refine .bind (Nat.zero_le 1) (block_keepsPace (.function _ _ names done) t₁)
      fun lines t₂ _ => ?_
    exact .optionalSemicolon (.top _) (fun _ => rfl) rfl rfl fun _ => rfl
  · rw [if_neg hname]
    exact .fail rfl rfl fun tok htok => by simp [Unfinished.feed, htok]

theorem statement_keepsPace (done : List Statement) (t : Tape) :
    KeepsPace 1 done (statementEntry done) Descent.statement
      (fun s => statementsBehind (done ++ [s])) t := by
  rw [Descent.statement]
  refine .peek 0 ?_
  by_cases hk : (t.peek 0).kind = .kwFn
  · rw [if_pos hk]
    refine .bind (Nat.le_refl 1)
      ((fnDef_keepsPace done t).congr (Nat.le_refl 1) rfl fun tok htok _ => ?_)
      fun f t₁ _ => .pure ⟨rfl, fun _ _ => rfl⟩
    simp [statementEntry, functionEntry, htok, hk]
  · rw [if_neg hk]
    refine .bind (Nat.le_refl 1)
      ((line_keepsPace (.top done) t).congr (Nat.le_refl 1) rfl fun tok htok _ => ?_)
      fun l t₁ _ => .pure ⟨rfl, fun _ _ => rfl⟩
    rw [← htok] at hk
    simp [statementEntry]

end Statements

end FrameLang
