import FrameLang.Program.Source
import FrameLang.Proofs.Syntax.Acceptance
import FrameLang.Proofs.Syntax.Rescanning
import FrameLang.Proofs.Syntax.Unplaced

/-!
# Printed programs are read back

Parsing a printed program gives the program again, up to positions. As in the proof that programs of
the grammar are read, each construct is read where it is due, if what follows it is read by what
stands behind it then; but here that is a particular tree, and what follows is printed as well.

Operands carry the argument about parentheses. An operand without parentheses that has no operator
of a precedence below `p` is read as a whole if the operators to its left are of precedences below
`p`, and the one to its right is of precedence `p` at most.

## Main definitions

* `ReadsChunks` — chunks are read to the end, wherever they are placed.
* `Expr.Readable`, `Line.Readable`, `Statement.Readable` — what is printed is read back.
-/

namespace FrameLang

/-- The tokens of the chunks are read to the end of the input, wherever they are placed. -/
def ReadsChunks (eof : Pos) (Q : Program → Prop) (read : Reader) (chunks : List Chunk) : Prop :=
  ∀ ts : List Token, ts.map Token.lexeme = chunks.flatMap Chunk.lexemes → Reads eof Q read ts

/-- No sign and no operator of precedence `p` or higher is open in front of the site. -/
def OperandSite.Holds (p : Nat) (site : OperandSite) : Prop :=
  ∀ q e, p ≤ q → site.reduce q e = (e, site)

/-- What follows an operand is no operator of a precedence higher than `p`. -/
def TokenKind.Follows (p : Nat) (kind : TokenKind) : Prop :=
  ∀ op, kind.operator? = some op → op.precedence ≤ p

section

variable (eof : Pos) (Q : Program → Prop)

/-- The expression is read back where an expression is due. -/
def Expr.ReadBack (e : Expr) : Prop :=
  ∀ (site : ExprSite) (kind : TokenKind) (cs : List Chunk), kind.operator? = none →
    (∀ e', e'.unplaced = e.unplaced →
      ReadsChunks eof Q (fun tok => site.finish e' tok) (.symbol kind :: cs)) →
    ReadsChunks eof Q site.start (e.chunks ++ .symbol kind :: cs)

/-- The expression is read back where an operand is due that is printed as `chunks`. -/
def Expr.ReadBackAs (p : Nat) (chunks : List Chunk) (e : Expr) : Prop :=
  ∀ (site : OperandSite) (kind : TokenKind) (cs : List Chunk), site.Holds p → kind.Follows p →
    (∀ e', e'.unplaced = e.unplaced →
      ReadsChunks eof Q (site.after e') (.symbol kind :: cs)) →
    ReadsChunks eof Q site.start (chunks ++ .symbol kind :: cs)

/-- The expression is read back as a whole and, if it needs no parentheses, as an operand. -/
structure Expr.Readable (e : Expr) : Prop where
  whole : e.ReadBack eof Q
  operand (p : Nat) : e.isLooser p = false → e.ReadBackAs eof Q p e.chunks

/-- The line is read back where a line is due. -/
def Line.Readable (l : Line) : Prop :=
  ∀ (site : LineSite) (cs : List Chunk),
    (∀ l', l'.unplaced = l.unplaced → ReadsChunks eof Q (site.add l').start cs) →
    ReadsChunks eof Q site.start (l.chunks ++ cs)

/-- The statement is read back at the top level. -/
def Statement.Readable (s : Statement) : Prop :=
  ∀ (done : List Statement) (cs : List Chunk),
    (∀ s', s'.unplaced = s.unplaced → ReadsChunks eof Q (LineSite.top (done ++ [s'])).start cs) →
    ReadsChunks eof Q (LineSite.top done).start (s.chunks ++ cs)

end

/-! ## Chunks -/

section Chunks

variable {eof : Pos} {Q : Program → Prop} {read read' : Reader} {cs : List Chunk}

/-- Tokens are known by their contents up to their positions. -/
theorem Token.exists_cons_of_map_lexeme {ts : List Token} {kind : TokenKind} {text : Text}
    {lexemes : List (TokenKind × Text)} (h : ts.map Token.lexeme = (kind, text) :: lexemes) :
    ∃ pos rest, ts = ⟨kind, text, pos⟩ :: rest ∧ rest.map Token.lexeme = lexemes := by
  obtain ⟨⟨kind', text', pos⟩, rest, rfl, htok, hrest⟩ := List.map_eq_cons_iff.1 h
  obtain ⟨rfl, rfl⟩ : kind' = kind ∧ text' = text := by simpa [Token.lexeme] using htok
  exact ⟨pos, rest, rfl, hrest⟩

/-- A chunk of one token is read, and the rest from the unfinished program behind it. -/
theorem ReadsChunks.cons {chunk : Chunk} {kind : TokenKind} {text : Text}
    (hc : chunk.lexemes = [(kind, text)]) (s : Pos → Unfinished)
    (hs : ∀ pos, read ⟨kind, text, pos⟩ = .ok (s pos))
    (h : ∀ pos, ReadsChunks eof Q (fun tok => (s pos).feed tok) cs) :
    ReadsChunks eof Q read (chunk :: cs) := by
  intro ts hts
  rw [List.flatMap_cons, hc] at hts
  obtain ⟨pos, rest, rfl, hrest⟩ := Token.exists_cons_of_map_lexeme hts
  exact .cons (s pos) (hs pos) (h pos rest hrest)

/-- Readers that treat the next symbol alike read the same chunks. -/
theorem ReadsChunks.congr {kind : TokenKind} (h : ReadsChunks eof Q read (.symbol kind :: cs))
    (hr : ∀ pos, read ⟨kind, kind.name, pos⟩ = read' ⟨kind, kind.name, pos⟩) :
    ReadsChunks eof Q read' (.symbol kind :: cs) := by
  intro ts hts
  have hreads := h ts hts
  obtain ⟨pos, rest, rfl, -⟩ := Token.exists_cons_of_map_lexeme hts
  exact hreads.congr (hr pos)

/-- Every word is the value of its numeral. -/
theorem readLiteral_ofNat (value : Int32) :
    readLiteral (decide (value.toInt < 0)) (Text.ofNat value.toInt.natAbs) = some value := by
  have hlo := value.le_toInt
  have hhi := value.toInt_lt
  rw [readLiteral_of_digits fun c => Text.isDigit_of_mem_ofNat, Text.decimal_ofNat]
  by_cases h : value.toInt < 0
  · have hle : value.toInt.natAbs ≤ literalLimit true := by simp [literalLimit]; omega
    have hneg : -(value.toInt.natAbs : Int) = value.toInt := by omega
    simp only [h, decide_true, hle, if_true, hneg, Int32.ofInt_toInt]
  · have hle : value.toInt.natAbs ≤ literalLimit false := by simp [literalLimit]; omega
    have hpos : (value.toInt.natAbs : Int) = value.toInt := by omega
    simp only [h, decide_false, hle, if_true, Bool.false_eq_true, if_false, hpos, Int32.ofInt_toInt]

/-- A numeral is one operand, though its sign is a token of its own. -/
theorem ReadsChunks.numeral {value : Int32} {site : OperandSite}
    (h : ∀ pos, ReadsChunks eof Q (site.after (.int pos value)) cs) :
    ReadsChunks eof Q site.start (.numeral value :: cs) := by
  have hvalue := readLiteral_ofNat value
  by_cases hneg : value.toInt < 0
  · simp only [hneg, decide_true] at hvalue
    intro ts hts
    simp only [List.flatMap_cons, Chunk.lexemes, hneg, if_true] at hts
    obtain ⟨pos, us, rfl, hus⟩ := Token.exists_cons_of_map_lexeme hts
    obtain ⟨pos', vs, rfl, hvs⟩ := Token.exists_cons_of_map_lexeme hus
    refine .cons (.sign pos site) rfl ?_
    refine .cons (.operandDone (.int pos value) site) ?_ (h pos vs hvs)
    simp only [Unfinished.feed, Token.literal, hvalue]
  · simp only [hneg, decide_false] at hvalue
    have hc : (Chunk.numeral value).lexemes = [(.integer, Text.ofNat value.toInt.natAbs)] := by
      simp only [Chunk.lexemes, hneg, if_false]
    refine .cons hc (fun pos => .operandDone (.int pos value) site) (fun pos => ?_) h
    simp only [OperandSite.start, Token.literal, hvalue]

end Chunks

/-! ## Expressions -/

section Operands

variable {eof : Pos} {Q : Program → Prop} {e : Expr}

/-- An expression that is read back as an operand is read back as a whole, because no operator is
open around it. -/
theorem Expr.Readable.of_operand (h0 : e.isLooser 0 = false)
    (h : ∀ p, e.isLooser p = false → e.ReadBackAs eof Q p e.chunks) : e.Readable eof Q := by
  refine ⟨fun site kind cs hkind hfinish ts hts => ?_, h⟩
  have hfollows : kind.Follows 0 := by
    intro op hop
    rw [hkind] at hop
    cases hop
  refine Reads.start_of_first
    (h 0 h0 (.first site) kind cs (fun _ _ _ => rfl) hfollows (fun e' he' => ?_) ts hts)
  refine (hfinish e' he').congr fun pos => ?_
  simp only [OperandSite.after, hkind, OperandSite.finish]

/-- Parentheses are printed where the operand would be taken apart. -/
theorem Expr.Readable.enclosed (h : e.Readable eof Q) (p : Nat) :
    e.ReadBackAs eof Q p (enclose (e.isLooser p) e.chunks) := by
  cases hp : e.isLooser p with
  | false => exact h.operand p hp
  | true =>
    intro site kind cs _ _ hafter
    simp only [enclose, if_true, List.cons_append, List.append_assoc, List.nil_append]
    refine .cons rfl (fun _ => .expr (.grouped site)) (fun _ => rfl) fun _ => ?_
    refine h.whole (.grouped site) .rparen _ rfl fun e' he' => ?_
    exact .cons rfl (fun _ => .operandDone e' site) (fun _ => rfl) fun _ => hafter e' he'

theorem Operator.operator?_kind (op : Operator) : op.kind.operator? = some op := by
  cases op <;> rfl

/-- Operands that are read back make a binary expression that is. -/
theorem Expr.readable_binary {pos : Pos} {op : Operator} {lhs rhs : Expr}
    (hl : lhs.Readable eof Q) (hr : rhs.Readable eof Q) :
    (Expr.binary pos op lhs rhs).Readable eof Q := by
  refine .of_operand (by simp [Expr.isLooser]) fun p hp site kind cs hsite hkind hafter => ?_
  simp only [Expr.isLooser, decide_eq_false_iff_not, Nat.not_lt] at hp
  rw [Expr.chunks, List.append_assoc]
  have hfollows : op.kind.Follows op.precedence := by
    intro op' hop'
    rw [op.operator?_kind] at hop'
    cases hop'
    exact Nat.le_refl _
  refine hl.enclosed op.precedence site op.kind _ (fun q x hq => hsite q x (Nat.le_trans hp hq))
    hfollows fun lhs' hlhs' => ?_
  -- The operators in front bind more weakly, so the left operand stays as it is.
  have hopen (pos : Pos) : site.after lhs' ⟨op.kind, op.kind.name, pos⟩ =
      .ok (.operand (.rightOf pos op lhs' site)) := by
    rw [OperandSite.after_of_operator op.operator?_kind, hsite op.precedence lhs' hp]
  refine .cons rfl (fun pos => .operand (.rightOf pos op lhs' site)) hopen fun pos' => ?_
  have hright : (OperandSite.rightOf pos' op lhs' site).Holds (op.precedence + 1) := by
    intro q x hq
    rw [OperandSite.reduce, if_neg (by omega)]
  have hnext (op' : Operator) (hop' : kind.operator? = some op') :
      op'.precedence ≤ op.precedence := Nat.le_trans (hkind op' hop') hp
  refine hr.enclosed (op.precedence + 1) (.rightOf pos' op lhs' site) kind cs hright
    (fun op' hop' => Nat.le_succ_of_le (hnext op' hop')) fun rhs' hrhs' => ?_
  have hdone := hafter (.binary pos' op lhs' rhs') (by simp only [Expr.unplaced, hlhs', hrhs'])
  refine hdone.congr fun pos => ?_
  -- What follows binds no more strongly, so it closes the operator.
  cases hop : kind.operator? with
  | none => simp only [OperandSite.after, hop, OperandSite.finish]
  | some op' => simp only [OperandSite.after, hop, OperandSite.reduce, if_pos (hnext op' hop)]

/-- An expression that never needs parentheses is read back if it is whatever stands around it. -/
theorem Expr.Readable.of_primary (hp : ∀ p, e.isLooser p = false)
    (h : ∀ (site : OperandSite) (cs : List Chunk),
      (∀ e', e'.unplaced = e.unplaced → ReadsChunks eof Q (site.after e') cs) →
        ReadsChunks eof Q site.start (e.chunks ++ cs)) : e.Readable eof Q :=
  .of_operand (hp 0) fun _ _ site _ _ _ _ hafter => h site _ hafter

theorem Expr.readable_int {pos : Pos} {value : Int32} : (Expr.int pos value).Readable eof Q :=
  .of_primary (fun _ => rfl) fun _ _ hafter => .numeral fun _ => hafter _ rfl

theorem Expr.readable_str {pos : Pos} {text : Text} : (Expr.str pos text).Readable eof Q :=
  .of_primary (fun _ => rfl) fun site _ hafter =>
    .cons rfl (fun pos => .operandDone (.str pos text) site) (fun _ => rfl) fun _ => hafter _ rfl

theorem Expr.readable_bool {pos : Pos} {value : Bool} : (Expr.bool pos value).Readable eof Q := by
  refine .of_primary (fun _ => rfl) fun site _ hafter =>
    .cons rfl (fun pos => .operandDone (.bool pos value) site) (fun _ => ?_) fun _ => hafter _ rfl
  cases value <;> rfl

theorem Expr.readable_name {pos : Pos} {name : Text} : (Expr.name pos name).Readable eof Q :=
  .of_primary (fun _ => rfl) fun site _ hafter =>
    .cons rfl (fun pos => .namedOperand pos name site) (fun _ => rfl) fun pos' ts hts =>
      (hafter (.name pos' name) rfl ts hts).namedOperand_of_after

theorem Expr.readable_assign {pos : Pos} {target : Text} {value : Expr}
    (hv : value.Readable eof Q) : (Expr.assign pos target value).Readable eof Q := by
  refine ⟨fun site kind cs hkind hfinish => ?_, fun p hp => nomatch hp⟩
  refine .cons rfl (fun pos => .leadingName pos target site) (fun _ => rfl) fun pos' => ?_
  refine .cons rfl (fun _ => .expr (.assigned pos' target site)) (fun _ => rfl) fun _ => ?_
  refine hv.whole (.assigned pos' target site) kind cs hkind fun value' hvalue' => ?_
  exact hfinish (.assign pos' target value') (by simp only [Expr.unplaced, hvalue'])

/-- Arguments are read back behind earlier ones. -/
theorem readsChunks_args {args : List Expr} (h : ∀ e ∈ args, e.Readable eof Q) (hne : args ≠ [])
    {pos : Pos} {callee : Text} {earlier : List Expr} {site : OperandSite} {cs : List Chunk}
    (hafter : ∀ args', Expr.unplacedAll args' = Expr.unplacedAll (earlier ++ args) →
      ReadsChunks eof Q (site.after (.call pos callee args')) cs) :
    ReadsChunks eof Q (ExprSite.argument pos callee earlier site).start
      (Expr.argChunks args ++ .symbol .rparen :: cs) := by
  induction args generalizing earlier with
  | nil => exact absurd rfl hne
  | cons e rest ih =>
    have he := (h e (.head _)).whole (.argument pos callee earlier site)
    cases rest with
    | nil =>
      simp only [Expr.argChunks, List.isEmpty_nil, if_true, List.append_nil]
      refine he .rparen cs rfl fun e' he' => ?_
      refine .cons rfl (fun _ => .operandDone (.call pos callee (earlier ++ [e'])) site)
        (fun _ => rfl) fun _ => hafter _ ?_
      simp [Expr.unplacedAll, he']
    | cons f rest =>
      rw [Expr.argChunks]
      simp only [List.isEmpty_cons, Bool.false_eq_true, if_false, List.append_assoc,
        List.cons_append]
      refine he .comma _ rfl fun e' he' => ?_
      refine .cons rfl (fun _ => .expr (.argument pos callee (earlier ++ [e']) site)) (fun _ => rfl)
        fun _ => ?_
      refine ih (fun e he => h e (.tail _ he)) nofun fun args' hargs' => hafter args' ?_
      simpa [Expr.unplacedAll, he'] using hargs'

theorem Expr.readable_call {pos : Pos} {callee : Text} {args : List Expr}
    (h : ∀ e ∈ args, e.Readable eof Q) : (Expr.call pos callee args).Readable eof Q := by
  refine .of_primary (fun _ => rfl) fun site cs hafter => ?_
  simp only [Expr.chunks, List.cons_append, List.append_assoc, List.nil_append]
  refine .cons rfl (fun pos => .namedOperand pos callee site) (fun _ => rfl) fun pos' => ?_
  refine .cons rfl (fun _ => .callOpen pos' callee site) (fun _ => rfl) fun _ => ?_
  cases args with
  | nil =>
    exact .cons rfl (fun _ => .operandDone (.call pos' callee []) site) (fun _ => rfl) fun _ =>
      hafter _ rfl
  | cons e rest =>
    intro ts hts
    refine (readsChunks_args h nofun (fun args' hargs' => hafter _ ?_) ts hts).callOpen_of_argument
    simp only [Expr.unplaced, hargs', List.nil_append]

end Operands

/-! ## Blocks -/

section Blocks

variable {eof : Pos} {Q : Program → Prop} {cs : List Chunk}

/-- Lines are read back behind earlier ones, up to the end of their block. -/
theorem readsChunks_lines {lines : List Line} (h : ∀ l ∈ lines, l.Readable eof Q)
    {earlier : List Line} {site : BlockSite}
    (hfill : ∀ lines', Line.unplacedAll lines' = Line.unplacedAll (earlier ++ lines) →
      ReadsChunks eof Q (fun tok => (site.fill lines').feed tok) cs) :
    ReadsChunks eof Q (LineSite.inside earlier site).start
      (Line.allChunks lines ++ .symbol .rbrace :: cs) := by
  induction lines generalizing earlier with
  | nil =>
    exact .cons rfl (fun _ => site.fill earlier) (fun _ => rfl) fun _ => hfill earlier (by simp)
  | cons l rest ih =>
    rw [Line.allChunks, List.append_assoc]
    refine h l (.head _) (.inside earlier site) _ fun l' hl' => ?_
    refine ih (fun l hl => h l (.tail _ hl)) fun lines' hlines' => hfill lines' ?_
    simpa [Line.unplacedAll, hl'] using hlines'

/-- A block is read back. -/
theorem readsChunks_block {lines : List Line} (h : ∀ l ∈ lines, l.Readable eof Q)
    {site : BlockSite}
    (hfill : ∀ lines', Line.unplacedAll lines' = Line.unplacedAll lines →
      ReadsChunks eof Q (fun tok => (site.fill lines').feed tok) cs) :
    ReadsChunks eof Q site.start
      (.symbol .lbrace :: (Line.allChunks lines ++ .symbol .rbrace :: cs)) :=
  .cons rfl (fun _ => .line (.inside [] site)) (fun _ => rfl) fun _ => readsChunks_lines h hfill

theorem Expr.readable_branch {pos : Pos} {test : Expr} {thenBlock : List Line}
    {elseBlock : Option (List Line)} (ht : test.Readable eof Q)
    (hthen : ∀ l ∈ thenBlock, l.Readable eof Q)
    (helse : ∀ block ∈ elseBlock, ∀ l ∈ block, l.Readable eof Q) :
    (Expr.branch pos test thenBlock elseBlock).Readable eof Q := by
  refine .of_primary (fun _ => rfl) fun site cs hafter => ?_
  simp only [Expr.chunks, List.cons_append, List.append_assoc]
  refine .cons rfl (fun pos => .ifOpen pos (.operand site)) (fun _ => rfl) fun pos' => ?_
  refine .cons rfl (fun _ => .expr (.test pos' (.operand site))) (fun _ => rfl) fun _ => ?_
  refine ht.whole (.test pos' (.operand site)) .rparen _ rfl fun test' htest' => ?_
  refine .cons rfl (fun _ => .block (.thenOf pos' test' (.operand site))) (fun _ => rfl) fun _ => ?_
  refine readsChunks_block hthen fun lines' hlines' => ?_
  cases elseBlock with
  | none =>
    intro ts hts
    refine (hafter (.branch pos' test' lines' none) ?_ ts hts).thenDone_of_after
    simp only [Expr.unplaced, htest', hlines']
  | some block =>
    simp only [Line.elseChunks, List.cons_append, List.append_assoc, List.nil_append]
    refine .cons rfl (fun _ => .elseOpen pos' test' lines' (.operand site)) (fun _ => rfl)
      fun _ ts hts => ?_
    refine Reads.elseOpen_of_block
      (readsChunks_block (helse block rfl) (fun block' hblock' => ?_) ts hts)
    refine hafter (.branch pos' test' lines' (some block')) ?_
    simp only [Expr.unplaced, htest', hlines', Line.unplacedElse, hblock']

theorem Line.readable_expr {pos : Pos} {e : Expr} (he : e.Readable eof Q) :
    (Line.expr pos e).Readable eof Q := by
  intro site cs hadd ts hts
  rw [Line.chunks, List.append_assoc] at hts
  refine Reads.start_of_expr (he.whole (.line _ site) .semicolon cs rfl (fun e' he' => ?_) ts hts)
  refine .cons rfl (fun _ => .line (site.add (.expr _ e'))) (fun _ => rfl) fun _ => hadd _ ?_
  simp only [Line.unplaced, he']

theorem Line.readable_loop {pos : Pos} {body : List Line} (h : ∀ l ∈ body, l.Readable eof Q) :
    (Line.loop pos body).Readable eof Q := by
  intro site cs hadd
  simp only [Line.chunks, List.cons_append, List.append_assoc, List.nil_append]
  refine .cons rfl (fun pos => .block (.loop pos site)) (fun _ => by cases site <;> rfl)
    fun pos' => ?_
  refine readsChunks_block h fun body' hbody' ts hts => ?_
  refine (hadd (.loop pos' body') ?_ ts hts).lineClosed_of_line
  simp only [Line.unplaced, hbody']

theorem Line.readable_brk {pos : Pos} : (Line.brk pos).Readable eof Q := by
  intro site cs hadd
  refine .cons rfl (fun pos => .breakOpen pos site) (fun _ => by cases site <;> rfl) fun pos' => ?_
  exact .cons rfl (fun _ => .line (site.add (.brk pos'))) (fun _ => rfl) fun _ => hadd _ rfl

end Blocks

/-! ## Statements -/

section Statements

variable {eof : Pos} {Q : Program → Prop} {cs : List Chunk}

/-- Parameters are read back behind earlier ones. -/
theorem readsChunks_params {params : List Text} (hne : params ≠ []) {pos : Pos} {name : Text}
    {earlier : List Text} {done : List Statement}
    (h : ReadsChunks eof Q (BlockSite.function pos name (earlier ++ params) done).start cs) :
    ReadsChunks eof Q (fun tok => (Unfinished.param pos name earlier done).feed tok)
      (paramChunks params ++ .symbol .rparen :: cs) := by
  fun_induction paramChunks params generalizing earlier with
  | case1 => exact absurd rfl hne
  | case2 x =>
    refine .cons rfl (fun _ => .paramDone pos name (earlier ++ [x]) done) (fun _ => rfl) fun _ => ?_
    exact .cons rfl (fun _ => .block (.function pos name (earlier ++ [x]) done)) (fun _ => rfl)
      fun _ => h
  | case3 x rest hrest ih =>
    refine .cons rfl (fun _ => .paramDone pos name (earlier ++ [x]) done) (fun _ => rfl) fun _ => ?_
    refine .cons rfl (fun _ => .param pos name (earlier ++ [x]) done) (fun _ => rfl) fun _ => ?_
    exact ih hrest (by simpa using h)

theorem Statement.readable_fn {f : FnDef} (h : ∀ l ∈ f.block, l.Readable eof Q) :
    (Statement.fn f).Readable eof Q := by
  intro done cs hdone
  simp only [Statement.chunks, List.cons_append, List.append_assoc, List.nil_append]
  refine .cons rfl (fun pos => .fnOpen pos done) (fun _ => rfl) fun pos => ?_
  refine .cons rfl (fun _ => .fnNamed pos f.name done) (fun _ => rfl) fun _ => ?_
  refine .cons rfl (fun _ => .paramsOpen pos f.name done) (fun _ => rfl) fun _ => ?_
  have hblock : ReadsChunks eof Q (BlockSite.function pos f.name f.params done).start
      (.symbol .lbrace :: (Line.allChunks f.block ++ .symbol .rbrace :: cs)) := by
    refine readsChunks_block h fun block' hblock' ts hts => ?_
    refine (hdone (.fn ⟨pos, f.name, f.params, block'⟩) ?_ ts hts).lineClosed_of_line
    simp only [Statement.unplaced, FnDef.unplaced, hblock']
  cases hp : f.params with
  | nil =>
    rw [hp] at hblock
    exact .cons rfl (fun _ => .block (.function pos f.name [] done)) (fun _ => rfl) fun _ => hblock
  | cons x rest =>
    rw [hp] at hblock
    exact fun ts hts =>
      (readsChunks_params (List.cons_ne_nil x rest) hblock ts hts).paramsOpen_of_param

theorem Statement.readable_line {l : Line} (h : l.Readable eof Q) :
    (Statement.line l).Readable eof Q := by
  intro done cs hdone
  refine h (.top done) cs fun l' hl' => hdone (.line l') ?_
  simp only [Statement.unplaced, hl']

end Statements

/-! ## Programs -/

section Programs

variable (eof : Pos) (Q : Program → Prop)

mutual

/-- Proper expressions are read back, by induction on the tree. -/
theorem Expr.readable : (e : Expr) → e.isProper = true → e.Readable eof Q
  | .int .., _ => Expr.readable_int
  | .str .., _ => Expr.readable_str
  | .bool .., _ => Expr.readable_bool
  | .name .., _ => Expr.readable_name
  | .assign _ _ value, h => by
    simp only [Expr.isProper, Bool.and_eq_true] at h
    exact Expr.readable_assign (value.readable h.2)
  | .binary _ _ lhs rhs, h => by
    simp only [Expr.isProper, Bool.and_eq_true] at h
    exact Expr.readable_binary (lhs.readable h.1) (rhs.readable h.2)
  | .call _ _ args, h => by
    simp only [Expr.isProper, Bool.and_eq_true] at h
    exact Expr.readable_call (Expr.readable_of_mem args h.2)
  | .branch _ test thenBlock elseBlock, h => by
    simp only [Expr.isProper, Bool.and_eq_true] at h
    exact Expr.readable_branch (test.readable h.1.1) (Line.readable_of_mem thenBlock h.1.2)
      (Line.readable_of_mem_else elseBlock h.2)

theorem Expr.readable_of_mem :
    (es : List Expr) → Expr.allProper es = true → ∀ e ∈ es, e.Readable eof Q
  | [], _ => nofun
  | e :: rest, h => by
    simp only [Expr.allProper, Bool.and_eq_true] at h
    have he := e.readable h.1
    have hrest := Expr.readable_of_mem rest h.2
    exact List.forall_mem_cons.2 ⟨he, hrest⟩

theorem Line.readable : (l : Line) → l.isProper = true → l.Readable eof Q
  | .expr _ e, h => Line.readable_expr (e.readable h)
  | .loop _ body, h => Line.readable_loop (Line.readable_of_mem body h)
  | .brk _, _ => Line.readable_brk

theorem Line.readable_of_mem :
    (ls : List Line) → Line.allProper ls = true → ∀ l ∈ ls, l.Readable eof Q
  | [], _ => nofun
  | l :: rest, h => by
    simp only [Line.allProper, Bool.and_eq_true] at h
    have hl := l.readable h.1
    have hrest := Line.readable_of_mem rest h.2
    exact List.forall_mem_cons.2 ⟨hl, hrest⟩

theorem Line.readable_of_mem_else :
    (elseBlock : Option (List Line)) → Line.elseProper elseBlock = true →
      ∀ block ∈ elseBlock, ∀ l ∈ block, l.Readable eof Q
  | none, _ => nofun
  | some block, h => by
    have hblock := Line.readable_of_mem block h
    rintro _ ⟨⟩
    exact hblock

end

theorem Statement.readable (s : Statement) (h : s.isProper = true) : s.Readable eof Q := by
  cases s with
  | fn f =>
    simp only [Statement.isProper, Bool.and_eq_true] at h
    exact Statement.readable_fn (Line.readable_of_mem eof Q f.block h.2)
  | line l => exact Statement.readable_line (l.readable eof Q h)

/-- A printed program is read back behind the statements that are done. -/
theorem Program.readsChunks (p : Program) (h : p.isProper = true) (done : List Statement)
    (hq : ∀ q : Program, q.unplaced = Program.unplaced (done ++ p) → Q q) :
    ReadsChunks eof Q (LineSite.top done).start p.chunks := by
  induction p generalizing done with
  | nil =>
    intro ts hts
    obtain rfl : ts = [] := List.map_eq_nil_iff.1 hts
    exact ⟨.line (.top done), rfl, hq done (by simp)⟩
  | cons s rest ih =>
    simp only [Program.isProper, List.all_cons, Bool.and_eq_true] at h
    refine s.readable eof Q h.1 done (Program.chunks rest) fun s' hs' => ?_
    refine ih h.2 (done ++ [s']) fun q hq' => hq q ?_
    simpa [Program.unplaced, hs'] using hq'

end Programs

/-- A printed program is parsed, and the result differs from it in positions only. -/
theorem Program.parse_render (p : Program) (h : p.isProper = true) :
    ∃ q, parse p.render = .ok q ∧ q.unplaced = p.unplaced := by
  obtain ⟨ts, pos, hok, hts, hk⟩ := Program.tokenize_render h
  have hreads : Reads pos (fun q => Program.unplaced q = p.unplaced)
      (fun tok => (Unfinished.line (.top [])).feed tok) ts :=
    p.readsChunks pos _ h [] (fun _ hq => hq) ts hts
  obtain ⟨herror, hprogram⟩ := Unfinished.reads_feedAll.1 hreads
  refine ⟨_, ?_, hprogram⟩
  simp only [parse, hok, parseTokens, TokenStream.ofTokens_eof hk, TokenStream.parse, herror]

theorem Program.parse_render_parentheses : ∃ p : Program,
    p.render = "x = ( -1 + y ) * \"\\n\" ;".toList ∧
    ∃ q, parse p.render = .ok q ∧ q.unplaced = p.unplaced :=
  ⟨[.line (.expr .nowhere (.assign .nowhere ['x'] (.binary .nowhere .mul
      (.binary .nowhere .add (.int .nowhere (-1)) (.name .nowhere ['y']))
      (.str .nowhere ['\n']))))],
    by decide +kernel, Program.parse_render _ (by decide)⟩

end FrameLang
