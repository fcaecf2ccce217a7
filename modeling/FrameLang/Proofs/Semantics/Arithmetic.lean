import FrameLang.Proofs.Semantics.Rearrangement
import FrameLang.Proofs.Syntax.Spacing

/-!
# Arithmetic from text to result

A line that is an arithmetic expression, made of literals and operators only, is followed through
the whole program: from a text that spells it, with any blanks, over its tokens, its tree and its
code to the run of the machine. Every literal and every operator has a register of its own, so an
expression with more of them than there are registers is not built. All others give exactly their
value, unless one of their divisions has none.

## Main definitions

* `Arith` — arithmetic expressions, with their number of nodes `Arith.size`.
* `Arith.value?`, `Arith.Faults` — their value, and whether they have a division without one.
* `Arith.code` — their code.
* `Operand` — chunks that need no blanks between them and what is around them.
* `Listing.HaltsWith`, `Listing.TrapsWith` — how the run of a listing ends.
-/

namespace FrameLang

/-- An expression of 32-bit literals and operators. -/
inductive Arith where
  | literal (value : Int32)
  | apply (op : Operator) (lhs rhs : Arith)

namespace Arith

/-- The number of literals and operators. -/
def size : Arith → Nat
  | literal _ => 1
  | apply _ lhs rhs => lhs.size + rhs.size + 1

/-- The expression as a tree that stands nowhere. -/
def toExpr : Arith → Expr
  | literal value => .int .nowhere value
  | apply op lhs rhs => .binary .nowhere op lhs.toExpr rhs.toExpr

/-- The program of one line that is the expression. -/
def program (t : Arith) : Program :=
  [.line (.expr .nowhere t.toExpr)]

/-- The value of the expression, if all of its operators have one. -/
def value? : Arith → Option Int32
  | literal value => some value
  | apply op lhs rhs =>
    match lhs.value?, rhs.value? with
    | some a, some b => op.value? a b
    | _, _ => none

/-- A quotient or a remainder is taken whose divisor is zero, or of the least word by minus one. -/
inductive Faults : Arith → Prop where
  | here {op : Operator} {lhs rhs : Arith} {a b : Int32} : op = .div ∨ op = .mod →
      lhs.value? = some a → rhs.value? = some b → b = 0 ∨ a = Int32.minValue ∧ b = -1 →
      Faults (.apply op lhs rhs)
  | left {op : Operator} {lhs rhs : Arith} : lhs.Faults → Faults (.apply op lhs rhs)
  | right {op : Operator} {lhs rhs : Arith} : rhs.Faults → Faults (.apply op lhs rhs)

end Arith

/-! ## Values -/

/-- Only quotients and remainders may have no value. -/
theorem Operator.value?_eq_none {op : Operator} {a b : Int32} :
    op.value? a b = none ↔
      (op = .div ∨ op = .mod) ∧ (b = 0 ∨ a = Int32.minValue ∧ b = -1) := by
  have hdefined : ¬ Operator.value?.Defined a b = true ↔ b = 0 ∨ a = Int32.minValue ∧ b = -1 := by
    rw [Operator.value?.defined_iff]
    tauto
  cases op <;> simp [Operator.value?, ← hdefined]

/-- Where there is a quotient, it is the exact one, and so is the remainder. -/
theorem Operator.div_mul_add_mod {a b q r : Int32} (hq : Operator.div.value? a b = some q)
    (hr : Operator.mod.value? a b = some r) : q.toInt * b.toInt + r.toInt = a.toInt := by
  simp only [Operator.value?, Option.ite_none_right_eq_some, Option.some.injEq] at hq hr
  obtain ⟨hd, rfl⟩ := hq
  obtain ⟨-, rfl⟩ := hr
  simp only [Operator.value?.Defined, decide_eq_true_eq] at hd
  have ha := a.le_toInt
  have ha' := a.toInt_lt
  have hb := b.le_toInt
  have hb' := b.toInt_lt
  -- Neither of the two is larger than what was divided, so neither wraps around.
  have hquotient : (a.toInt.tdiv b.toInt).natAbs ≤ a.toInt.natAbs := by
    rw [Int.natAbs_tdiv]
    exact Nat.div_le_self _ _
  have hremainder : (a.toInt.tmod b.toInt).natAbs < b.toInt.natAbs := by
    rw [Int.natAbs_tmod]
    exact Nat.mod_lt _ (by omega)
  rw [Int32.toInt_ofInt_of_le (by omega) hd.2, Int32.toInt_ofInt_of_le (by omega) (by omega)]
  exact Int.tdiv_mul_add_tmod a.toInt b.toInt

namespace Arith

theorem value?_eq_none {t : Arith} : t.value? = none ↔ t.Faults := by
  induction t with
  | literal value => exact ⟨nofun, nofun⟩
  | apply op lhs rhs ihl ihr =>
    rw [value?]
    split
    case h_1 a b ha hb =>
      rw [Operator.value?_eq_none]
      constructor
      · rintro ⟨hop, hbad⟩
        exact .here hop ha hb hbad
      · intro h
        cases h with
        | here hop ha' hb' hbad =>
          cases ha.symm.trans ha'
          cases hb.symm.trans hb'
          exact ⟨hop, hbad⟩
        | left hl => simp [ihl.2 hl] at ha
        | right hr => simp [ihr.2 hr] at hb
    case h_2 hnone =>
      refine ⟨fun _ => ?_, fun _ => rfl⟩
      cases ha : lhs.value? with
      | none => exact .left (ihl.1 ha)
      | some a =>
        cases hb : rhs.value? with
        | none => exact .right (ihr.1 hb)
        | some b => exact absurd hb (hnone a b ha)

/-- An expression is evaluated to its value, or fails. -/
theorem eval_toExpr (t : Arith) (invoke : Text → Exec Unit) (rounds : Nat) (w : World) :
    t.toExpr.eval invoke rounds w =
      match t.value? with
      | some v => .done (.temporary v) w
      | none => .faulted .arithmetic := by
  induction t generalizing w with
  | literal value => rfl
  | apply op lhs rhs ihl ihr =>
    simp only [toExpr, Expr.eval, value?, bind, Exec.bind, ihl]
    cases lhs.value? with
    | none => rfl
    | some a =>
      simp only [ihr]
      cases rhs.value? with
      | none => rfl
      | some b =>
        simp only [Exec.read, Expr.Place.value, Exec.compute]
        cases op.value? a b <;> rfl

/-! ## Code -/

/-- The code of an expression whose first value gets the register with number `n`. -/
def code (owner : Owner) (n : Nat) : Arith → List Instr
  | literal value => [.loadI value (owner.register n)]
  | apply op lhs rhs => lhs.code owner n ++ rhs.code owner (n + lhs.size) ++
      [.binary op (owner.register (n + lhs.size - 1))
        (owner.register (n + lhs.size + rhs.size - 1)) (owner.register (n + lhs.size + rhs.size))]

section Code

variable {t : Arith} {s : Surroundings} {a : Allocation}

/-- Each node gets the next register, and nothing else is asked for. -/
theorem lower_of_le (h : a.registers + t.size ≤ registerFileSize) :
    t.toExpr.lower s a =
      .ok ((t.code s.owner a.registers, s.owner.register (a.registers + t.size - 1)),
        { a with registers := a.registers + t.size }) := by
  induction t generalizing a with
  | literal value => exact Lower.bind_eq_ok.2 ⟨_, _, Lower.register_eq_ok.2 ⟨h, rfl, rfl⟩, rfl⟩
  | apply op lhs rhs ihl ihr =>
    rw [size] at h
    have hl := ihl (a := a) (by omega)
    have hr := ihr (a := { a with registers := a.registers + lhs.size }) (by dsimp only; omega)
    refine Lower.bind_eq_ok.2 ⟨_, _, hl, Lower.bind_eq_ok.2 ⟨_, _, hr, Lower.bind_eq_ok.2
      ⟨_, _, Lower.register_eq_ok.2 ⟨by dsimp only; omega, rfl, rfl⟩, Lower.pure_eq_ok.2 ?_⟩⟩⟩
    simp [code, size, ← Nat.add_assoc]

theorem lower_of_lt (h : registerFileSize < a.registers + t.size)
    (ha : a.registers ≤ registerFileSize) : t.toExpr.lower s a = .error (.exhausted s.owner) := by
  induction t generalizing a with
  | literal value =>
    refine Lower.bind_eq_error.2 (.inl ?_)
    rw [Lower.register, if_neg (Nat.not_lt.2 (Nat.le_of_lt_succ h))]
  | apply op lhs rhs ihl ihr =>
    rw [size] at h
    by_cases hl : a.registers + lhs.size ≤ registerFileSize
    · refine Lower.bind_eq_error.2 (.inr ⟨_, _, lower_of_le hl, ?_⟩)
      by_cases hr : a.registers + lhs.size + rhs.size ≤ registerFileSize
      · refine Lower.bind_eq_error.2 (.inr ⟨_, _, lower_of_le hr, ?_⟩)
        refine Lower.bind_eq_error.2 (.inl ?_)
        rw [Lower.register, if_neg (by dsimp only; omega)]
      · exact Lower.bind_eq_error.2 (.inl (ihr (Nat.lt_of_not_le hr) hl))
    · exact Lower.bind_eq_error.2 (.inl (ihl (Nat.lt_of_not_le hl) ha))

end Code

theorem shadowed_eq_zero {code : List Instr} (h : ∀ l, .label l ∉ code) : shadowed code = 0 := by
  induction code with
  | nil => rfl
  | cons i rest ih =>
    have hrest := ih fun l hl => h l (.tail _ hl)
    cases i
    case label l => exact absurd (.head _) (h l)
    all_goals exact hrest

section Build

variable {t : Arith} (checkArity : Bool)

theorem label_notMem_code (t : Arith) (owner : Owner) (n : Nat) (l : Label) :
    .label l ∉ t.code owner n := by
  induction t generalizing n with
  | literal value => simp [code]
  | apply op lhs rhs ihl ihr => simp [code, ihl, ihr]

theorem callSites_toExpr (t : Arith) : t.toExpr.callSites = [] := by
  induction t with
  | literal value => rfl
  | apply op lhs rhs ihl ihr => simp [toExpr, Expr.callSites, ihl, ihr]

theorem callError?_program (t : Arith) : t.program.callError? = none := by
  have hsites : t.program.callSites = [] := by
    simp [Program.callSites, program, Statement.callSites, Line.callSites, t.callSites_toExpr]
  rw [Program.callError?, hsites]
  rfl

/-- An expression is built if there are registers for all of its nodes, and draws no label. -/
theorem build_of_le (h : t.size ≤ registerFileSize) :
    (∃ listing, t.program.build checkArity = .ok listing) ∧ t.program.labelsDrawn = 0 := by
  have hexpr : t.toExpr.lower ⟨.topLevel, none⟩ {} =
      .ok ((t.code .topLevel 0, Owner.topLevel.register (0 + t.size - 1)),
        { registers := 0 + t.size }) := lower_of_le (by simpa using h)
  have hlower : (Program.lower none t.program).run {} =
      .ok ((t.code .topLevel 0 ++ [], some (Owner.topLevel.register (0 + t.size - 1))),
        { registers := 0 + t.size }) :=
    Lower.bind_eq_ok.2 ⟨_, _, Lower.bind_eq_ok.2 ⟨_, _, hexpr, rfl⟩, rfl⟩
  constructor
  · refine Program.exists_listing ?_
    simp [Program.build, hlower, t.callError?_program, bind, Except.bind, Except.isOk,
      Except.toBool]
  · simp [Program.labelsDrawn, hlower, shadowed_eq_zero (t.label_notMem_code .topLevel 0)]

/-- An expression is not built if there are more nodes than registers. -/
theorem build_of_lt (h : registerFileSize < t.size) :
    t.program.build checkArity = .error (.exhausted .topLevel) := by
  have hexpr : t.toExpr.lower ⟨.topLevel, none⟩ {} = .error (.exhausted .topLevel) :=
    lower_of_lt (by simpa using h) (by decide)
  have hlower : (Program.lower none t.program).run {} = .error (.exhausted .topLevel) :=
    Lower.bind_eq_error.2 (.inl (Lower.bind_eq_error.2 (.inl hexpr)))
  simp [Program.build, hlower, bind, Except.bind]

end Build

end Arith

/-! ## Text -/

/-- The chunks that an operand starts with. -/
inductive Chunk.Opens : Chunk → Prop where
  | numeral (value : Int32) : Opens (.numeral value)
  | paren : Opens (.symbol .lparen)

/-- The chunks that an operand ends with. -/
inductive Chunk.Closes : Chunk → Prop where
  | numeral (value : Int32) : Closes (.numeral value)
  | paren : Closes (.symbol .rparen)

/-- No blanks are needed between the chunks of an operand, nor between it and what is around it. -/
structure Operand (chunks : List Chunk) : Prop where
  chain : chunks.IsChain Chunk.Adjoins
  opens : ∃ chunk ∈ chunks.head?, chunk.Opens
  closes : ∃ chunk ∈ chunks.getLast?, chunk.Closes

section Text

variable {chunk next : Chunk} {chunks rest : List Chunk}

/-- An operand starts with a digit, a sign or a parenthesis. -/
theorem Chunk.Opens.exists_cons (h : chunk.Opens) :
    ∃ c text, chunk.spelling = c :: text ∧ c ∉ ['=', '/', '*'] := by
  cases h with
  | numeral value =>
    obtain ⟨d, digits, hdigits, hd⟩ := Text.exists_ofNat_eq_cons value.toInt.natAbs
    simp only [Chunk.spelling, Text.ofInt, hdigits]
    split
    · exact ⟨'-', _, rfl, by decide⟩
    · refine ⟨d, digits, rfl, fun hmem => ?_⟩
      simp only [List.mem_cons, List.not_mem_nil, or_false] at hmem
      rcases hmem with rfl | rfl | rfl <;> exact absurd hd (by decide)
  | paren => exact ⟨'(', [], rfl, by decide⟩

/-- No operator runs into the operand behind it. -/
theorem Chunk.operator_adjoins (op : Operator) (h : next.Opens) :
    (Chunk.symbol op.kind).Adjoins next := by
  obtain ⟨c, text, hspelling, hc⟩ := h.exists_cons
  simp only [List.mem_cons, List.not_mem_nil, or_false, not_or] at hc
  intro rest
  rw [hspelling]
  refine ⟨fun hword => ?_, fun _ => by simpa using hc.1, fun _ => by simpa using hc.2⟩
  cases op <;> exact absurd hword (by decide)

/-- A parenthesis ends anywhere. -/
theorem TokenKind.endsAt_of_paren {kind : TokenKind} (h : kind = .lparen ∨ kind = .rparen)
    (rest : Text) : kind.EndsAt rest := by
  rcases h with rfl | rfl <;> constructor <;> intro h <;> exact absurd h (by decide)

/-- No operand runs into a symbol behind it. -/
theorem Chunk.Closes.adjoins {kind : TokenKind} (h : chunk.Closes)
    (hk : kind.name.head?.any (! isNamePart ·) = true) : chunk.Adjoins (.symbol kind) := by
  obtain ⟨c, hhead, hc⟩ := (Option.any_eq_true _ _).1 hk
  obtain ⟨text, hname⟩ := List.head?_eq_some_iff.1 hhead
  intro rest
  rw [Chunk.spelling, hname]
  cases h with
  | numeral value => exact TokenKind.endsAt_of_word (by simp [Chunk.lastKind]) (by simpa using hc)
  | paren => exact TokenKind.endsAt_of_paren (.inr rfl) _

theorem Operand.numeral (value : Int32) : Operand [.numeral value] where
  chain := .singleton _
  opens := ⟨_, rfl, .numeral value⟩
  closes := ⟨_, rfl, .numeral value⟩

/-- What a chunk that is no operand adjoins behind an operand. -/
theorem Operand.append (h : Operand chunks) {kind : TokenKind}
    (hk : kind.name.head?.any (! isNamePart ·) = true)
    (hrest : (.symbol kind :: rest).IsChain Chunk.Adjoins) :
    (chunks ++ .symbol kind :: rest).IsChain Chunk.Adjoins := by
  obtain ⟨last, hlast, hcloses⟩ := h.closes
  refine List.isChain_append.2 ⟨h.chain, hrest, fun x hx y hy => ?_⟩
  cases hlast.symm.trans hx
  cases hy
  exact hcloses.adjoins hk

theorem Operand.enclose (h : Operand chunks) (needed : Bool) : Operand (enclose needed chunks) := by
  cases needed with
  | false => exact h
  | true =>
    obtain ⟨first, hfirst, -⟩ := h.opens
    obtain ⟨tail, rfl⟩ := List.head?_eq_some_iff.1 hfirst
    have hchain : (first :: tail ++ [Chunk.symbol .rparen]).IsChain Chunk.Adjoins :=
      h.append (by decide) (.singleton _)
    have hparen : (Chunk.symbol .lparen).Adjoins first := fun _ =>
      TokenKind.endsAt_of_paren (.inl rfl) _
    refine ⟨hchain.cons_cons hparen, ⟨_, rfl, .paren⟩, ?_⟩
    exact ⟨.symbol .rparen, List.getLast?_concat, .paren⟩

theorem Operand.binary (hl : Operand chunks) (op : Operator) (hr : Operand rest) :
    Operand (chunks ++ .symbol op.kind :: rest) := by
  obtain ⟨first, hfirst, hopens⟩ := hr.opens
  obtain ⟨tail, rfl⟩ := List.head?_eq_some_iff.1 hfirst
  have hrest := hr.chain.cons_cons (Chunk.operator_adjoins op hopens)
  refine ⟨hl.append (by cases op <;> decide) hrest, ?_, ?_⟩
  · obtain ⟨first, hfirst, hopens⟩ := hl.opens
    exact ⟨first, by simp_all, hopens⟩
  · obtain ⟨last, hlast, hcloses⟩ := hr.closes
    exact ⟨last, by simp_all, hcloses⟩

end Text

namespace Arith

theorem isProper_toExpr (t : Arith) : t.toExpr.isProper = true := by
  induction t with
  | literal value => rfl
  | apply op lhs rhs ihl ihr => simp [toExpr, Expr.isProper, ihl, ihr]

theorem operand_chunks (t : Arith) : Operand t.toExpr.chunks := by
  induction t with
  | literal value => exact .numeral value
  | apply op lhs rhs ihl ihr => exact (ihl.enclose _).binary op (ihr.enclose _)

/-- An expression is read back from any text that spells it. -/
theorem parse_spaced (t : Arith) {source : Text} (h : Spaced t.program.chunks source) :
    ∃ p, parse source = .ok p ∧ p.unplaced = t.program.unplaced := by
  have hproper : t.program.isProper = true := by
    simp [Program.isProper, program, Statement.isProper, Line.isProper, t.isProper_toExpr]
  have hchunks : t.program.chunks = t.toExpr.chunks ++ [.symbol .semicolon] := by
    simp [Program.chunks, program, Statement.chunks, Line.chunks]
  refine Program.parse_spaced hproper ?_ h
  rw [hchunks]
  exact t.operand_chunks.append (by decide) (.singleton _)

end Arith

/-! ## Runs -/

namespace Listing

/-- A run of the listing halts with a value, or with none. -/
def HaltsWith (listing : Listing) (value : Option Int32) : Prop :=
  ∃ fuel ip steps, listing.execute fuel = some (.halted ip value steps)

/-- A run of the listing ends with a fault of a kind. -/
def TrapsWith (listing : Listing) (kind : FaultKind) : Prop :=
  ∃ fuel ip i fault, listing.execute fuel = some (.trapped ip i fault) ∧ fault.kind = kind

variable {listing : Listing} {m : Machine}

/-- A listing is executed by any machine that can load it. -/
theorem execute_eq_run (h : (m.load listing).1 = none) (fuel : Nat) :
    listing.execute fuel = ((m.load listing).2.run fuel).map Prod.fst := by
  unfold Machine.load at h ⊢
  unfold Listing.execute
  cases hload : listing.load with
  | error e => simp [hload] at h
  | ok image => cases hrun : image.run fuel <;> simp [Machine.run, hrun]

theorem haltsWith_iff (h : (m.load listing).1 = none) (value : Option Int32) :
    listing.HaltsWith value ↔ (m.load listing).2.HaltsWith value := by
  simp [HaltsWith, Machine.HaltsWith, execute_eq_run h]

theorem trapsWith_iff (h : (m.load listing).1 = none) (kind : FaultKind) :
    listing.TrapsWith kind ↔ (m.load listing).2.TrapsWith kind := by
  simp [TrapsWith, Machine.TrapsWith, execute_eq_run h]

end Listing

namespace Arith

theorem interpret_program (t : Arith) (rounds : Nat) :
    t.program.interpret rounds =
      match t.value? with
      | some v => .done (some v) ⟨fun _ => 0, #[]⟩
      | none => .faulted .arithmetic := by
  simp only [Program.interpret, program, Program.evalFrom, Line.eval, bind, Exec.bind, eval_toExpr]
  cases t.value? <;> rfl

/-- An expression that is built halts with its value, or fails if it has none. -/
theorem run_program {t : Arith} {checkArity : Bool} {listing : Listing}
    (h : t.program.build checkArity = .ok listing) (hl : t.program.labelsDrawn < 2 ^ 32) :
    (∀ value, listing.HaltsWith value ↔ ∃ v, t.value? = some v ∧ value = some v) ∧
      ∀ kind, listing.TrapsWith kind ↔ t.Faults ∧ kind = .arithmetic := by
  obtain ⟨hload, -, hagrees⟩ := Program.build_loaded h hl {}
  refine ⟨fun value => ?_, fun kind => ?_⟩
  · rw [Listing.haltsWith_iff hload, hagrees.haltsWith_iff]
    simp only [interpret_program]
    cases t.value? <;> simp [eq_comm]
  · rw [Listing.trapsWith_iff hload, Machine.TrapsWith, hagrees.traps, ← value?_eq_none]
    simp only [interpret_program]
    cases t.value? <;> simp [eq_comm]

/-- An arithmetic expression is exact from its text to its result: whatever blanks are around its
chunks, it is read, and built unless it has more nodes than there are registers. Then it halts with
its value or, if a division in it has none, fails. Quotients and remainders fit together. -/
theorem execute_spaced (t : Arith) {source : Text} (h : Spaced t.program.chunks source) :
    (∃ p, parse source = .ok p ∧ ∀ checkArity,
      (registerFileSize < t.size → p.build checkArity = .error (.exhausted .topLevel)) ∧
      (t.size ≤ registerFileSize → ∃ listing, p.build checkArity = .ok listing ∧
        (∀ value, listing.HaltsWith value ↔ ∃ v, t.value? = some v ∧ value = some v) ∧
        (∀ kind, listing.TrapsWith kind ↔ t.Faults ∧ kind = .arithmetic) ∧
        (t.value? = none ↔ t.Faults))) ∧
      ∀ a b q r, Operator.div.value? a b = some q → Operator.mod.value? a b = some r →
        q.toInt * b.toInt + r.toInt = a.toInt := by
  obtain ⟨p, hp, hsame⟩ := t.parse_spaced h
  refine ⟨⟨p, hp, fun checkArity => ⟨fun hlt => ?_, fun hle => ?_⟩⟩,
    fun a b q r => Operator.div_mul_add_mod⟩
  · exact Program.build_exhausted_congr hsame (build_of_lt checkArity hlt)
  · obtain ⟨⟨listing, hbuild⟩, hlabels⟩ := build_of_le checkArity hle
    obtain ⟨hhalts, htraps⟩ := run_program hbuild (by omega)
    exact ⟨listing, Program.build_congr hsame hbuild, hhalts, htraps, value?_eq_none⟩

/-- The least word is divided by minus one, with a sign behind an operator and no blanks. -/
theorem execute_spaced_overflow :
    let t : Arith := .apply .div (.literal Int32.minValue)
      (.apply .sub (.apply .sub (.literal 0) (.literal (-1))) (.literal 2))
    let source : Text := "-2147483648/(0--1-2);".toList
    Spaced t.program.chunks source ∧ ∃ p, parse source = .ok p ∧
      ∃ listing, p.build true = .ok listing ∧ listing.TrapsWith .arithmetic ∧
        ∀ value, ¬ listing.HaltsWith value := by
  intro t source
  have hspaced : Spaced t.program.chunks source := by
    have hsource : source = t.program.chunks.flatMap Chunk.spelling := by decide +kernel
    rw [hsource]
    exact spaced_flatMap _
  obtain ⟨⟨p, hp, hrun⟩, -⟩ := t.execute_spaced hspaced
  obtain ⟨listing, hbuild, hhalts, htraps, hnone⟩ := (hrun true).2 (by decide)
  have hvalue : t.value? = none := by decide +kernel
  have hfails : listing.TrapsWith .arithmetic := (htraps _).2 ⟨hnone.1 hvalue, rfl⟩
  exact ⟨hspaced, p, hp, listing, hbuild, hfails, by simp [hhalts, hvalue]⟩

end Arith

end FrameLang
