import FrameLang.Program.Source
import FrameLang.Proofs.Syntax.Completion
import FrameLang.Proofs.Syntax.Placement

/-!
# What programs are made of

A program that was read from tokens has nothing in it that the tokens did not bring: every position
is that of a token, every name is the text of an identifier, and no node lacks a part that its form
asks for. The same is true at every moment of the reading of everything that is still open.

## Main definitions

* `Program.ReadFrom` — positions and names of a program come from tokens, and no part is missing.
* `Unfinished.ReadFrom` — the same of an unfinished program.
-/

namespace FrameLang

/-- The position of one of the tokens. -/
def Pos.ReadFrom (T : Token → Prop) (pos : Pos) : Prop :=
  ∃ tok, T tok ∧ tok.pos = pos

/-- The text of one of the tokens, which is an identifier. -/
def NameFrom (T : Token → Prop) (x : Text) : Prop :=
  ∃ tok, T tok ∧ tok.kind = .identifier ∧ tok.text = x

/-! ## Programs -/

mutual

/-- The positions and the names of an expression come from tokens, and no part is missing. -/
def Expr.ReadFrom (T : Token → Prop) : Expr → Prop
  | .int pos _ | .str pos _ | .bool pos _ => pos.ReadFrom T
  | .name pos x => pos.ReadFrom T ∧ NameFrom T x
  | .assign pos x value => pos.ReadFrom T ∧ NameFrom T x ∧ value.ReadFrom T
  | .binary pos _ lhs rhs => pos.ReadFrom T ∧ lhs.ReadFrom T ∧ rhs.ReadFrom T
  | .call pos callee args => pos.ReadFrom T ∧ NameFrom T callee ∧ Expr.AllReadFrom T args
  | .branch pos test thenBlock elseBlock =>
    pos.ReadFrom T ∧ test.ReadFrom T ∧ Line.AllReadFrom T thenBlock ∧ Line.ElseReadFrom T elseBlock
  | .malformed .. => False

/-- The same of several expressions. -/
def Expr.AllReadFrom (T : Token → Prop) : List Expr → Prop
  | [] => True
  | e :: rest => e.ReadFrom T ∧ Expr.AllReadFrom T rest

/-- The same of a line. -/
def Line.ReadFrom (T : Token → Prop) : Line → Prop
  | .expr pos e => pos.ReadFrom T ∧ e.ReadFrom T
  | .loop pos body => pos.ReadFrom T ∧ Line.AllReadFrom T body
  | .brk pos => pos.ReadFrom T
  | .other _ => False

/-- The same of a block. -/
def Line.AllReadFrom (T : Token → Prop) : List Line → Prop
  | [] => True
  | l :: rest => l.ReadFrom T ∧ Line.AllReadFrom T rest

/-- The same of an else branch. -/
def Line.ElseReadFrom (T : Token → Prop) : Option (List Line) → Prop
  | none => True
  | some block => Line.AllReadFrom T block

end

/-- The same of a function. -/
def FnDef.ReadFrom (T : Token → Prop) (f : FnDef) : Prop :=
  f.pos.ReadFrom T ∧ NameFrom T f.name ∧ (∀ x ∈ f.params, NameFrom T x) ∧
    Line.AllReadFrom T f.block

/-- The same of a statement. -/
def Statement.ReadFrom (T : Token → Prop) : Statement → Prop
  | .fn f => f.ReadFrom T
  | .line l => l.ReadFrom T

/-- The positions and the names of a program come from tokens, and no part is missing. -/
def Program.ReadFrom (T : Token → Prop) (p : Program) : Prop :=
  ∀ st ∈ p, st.ReadFrom T

/-! ## Unfinished programs -/

mutual

/-- What is open around an operand comes from tokens. -/
def OperandSite.ReadFrom (T : Token → Prop) : OperandSite → Prop
  | .first site => site.ReadFrom T
  | .negated pos site => pos.ReadFrom T ∧ site.ReadFrom T
  | .rightOf pos _ lhs site => pos.ReadFrom T ∧ lhs.ReadFrom T ∧ site.ReadFrom T

/-- What is open around an expression comes from tokens. -/
def ExprSite.ReadFrom (T : Token → Prop) : ExprSite → Prop
  | .assigned pos target site => pos.ReadFrom T ∧ NameFrom T target ∧ site.ReadFrom T
  | .grouped site => site.ReadFrom T
  | .argument pos callee earlier site =>
    pos.ReadFrom T ∧ NameFrom T callee ∧ Expr.AllReadFrom T earlier ∧ site.ReadFrom T
  | .test pos site => pos.ReadFrom T ∧ site.ReadFrom T
  | .line pos site => pos.ReadFrom T ∧ site.ReadFrom T

/-- What is open around an if expression comes from tokens. -/
def IfSite.ReadFrom (T : Token → Prop) : IfSite → Prop
  | .operand site => site.ReadFrom T
  | .elseOf pos test thenBlock site =>
    pos.ReadFrom T ∧ test.ReadFrom T ∧ Line.AllReadFrom T thenBlock ∧ site.ReadFrom T

/-- What is open around a line comes from tokens. -/
def LineSite.ReadFrom (T : Token → Prop) : LineSite → Prop
  | .top done => Program.ReadFrom T done
  | .inside lines site => Line.AllReadFrom T lines ∧ site.ReadFrom T

/-- What is open around a block comes from tokens. -/
def BlockSite.ReadFrom (T : Token → Prop) : BlockSite → Prop
  | .function pos name params done =>
    pos.ReadFrom T ∧ NameFrom T name ∧ (∀ x ∈ params, NameFrom T x) ∧ Program.ReadFrom T done
  | .loop pos site => pos.ReadFrom T ∧ site.ReadFrom T
  | .thenOf pos test site => pos.ReadFrom T ∧ test.ReadFrom T ∧ site.ReadFrom T
  | .elseOf pos test thenBlock site =>
    pos.ReadFrom T ∧ test.ReadFrom T ∧ Line.AllReadFrom T thenBlock ∧ site.ReadFrom T

end

/-- All that has been read of an unfinished program comes from tokens. -/
def Unfinished.ReadFrom (T : Token → Prop) : Unfinished → Prop
  | .line site | .lineClosed site => site.ReadFrom T
  | .breakOpen pos site => pos.ReadFrom T ∧ site.ReadFrom T
  | .expr site => site.ReadFrom T
  | .leadingName pos name site => pos.ReadFrom T ∧ NameFrom T name ∧ site.ReadFrom T
  | .operand site => site.ReadFrom T
  | .sign pos site => pos.ReadFrom T ∧ site.ReadFrom T
  | .namedOperand pos name site | .callOpen pos name site =>
    pos.ReadFrom T ∧ NameFrom T name ∧ site.ReadFrom T
  | .operandDone e site => e.ReadFrom T ∧ site.ReadFrom T
  | .ifOpen pos site => pos.ReadFrom T ∧ site.ReadFrom T
  | .thenDone pos test thenBlock site | .elseOpen pos test thenBlock site =>
    pos.ReadFrom T ∧ test.ReadFrom T ∧ Line.AllReadFrom T thenBlock ∧ site.ReadFrom T
  | .block site => site.ReadFrom T
  | .fnOpen pos done => pos.ReadFrom T ∧ Program.ReadFrom T done
  | .fnNamed pos name done | .paramsOpen pos name done =>
    pos.ReadFrom T ∧ NameFrom T name ∧ Program.ReadFrom T done
  | .param pos name params done | .paramDone pos name params done =>
    pos.ReadFrom T ∧ NameFrom T name ∧ (∀ x ∈ params, NameFrom T x) ∧ Program.ReadFrom T done

attribute [grind =] Expr.ReadFrom Expr.AllReadFrom Line.ReadFrom Line.AllReadFrom
  Line.ElseReadFrom FnDef.ReadFrom Statement.ReadFrom OperandSite.ReadFrom ExprSite.ReadFrom
  IfSite.ReadFrom LineSite.ReadFrom BlockSite.ReadFrom Unfinished.ReadFrom

section Reading

variable {T : Token → Prop} {e : Expr} {l : Line} {tok : Token} {s : Unfinished}

@[grind =] theorem Expr.allReadFrom_append {es fs : List Expr} :
    Expr.AllReadFrom T (es ++ fs) ↔ Expr.AllReadFrom T es ∧ Expr.AllReadFrom T fs := by
  induction es with
  | nil => grind
  | cons e rest ih => grind

@[grind =] theorem Line.allReadFrom_append {ls ms : List Line} :
    Line.AllReadFrom T (ls ++ ms) ↔ Line.AllReadFrom T ls ∧ Line.AllReadFrom T ms := by
  induction ls with
  | nil => grind
  | cons l rest ih => grind

@[grind =] theorem Program.readFrom_append {p q : Program} :
    Program.ReadFrom T (p ++ q) ↔ Program.ReadFrom T p ∧ Program.ReadFrom T q := by
  grind [Program.ReadFrom]

@[grind =] theorem Program.readFrom_singleton {st : Statement} :
    Program.ReadFrom T [st] ↔ st.ReadFrom T := by
  grind [Program.ReadFrom]

theorem Expr.ReadFrom.pos : (e : Expr) → e.ReadFrom T → e.pos.ReadFrom T := by
  intro e h
  cases e <;> grind [Expr.pos]

/-! ## Filling a site -/

theorem LineSite.ReadFrom.add {site : LineSite} (h : site.ReadFrom T) (hl : l.ReadFrom T) :
    (site.add l).ReadFrom T := by
  cases site <;> grind [LineSite.add]

theorem Expr.ReadFrom.negate {pos : Pos} (h : e.ReadFrom T) (hp : pos.ReadFrom T) :
    (Expr.negate pos e).ReadFrom T := by
  grind [Expr.negate]

theorem IfSite.ReadFrom.operandOf : (site : IfSite) → (e : Expr) → site.ReadFrom T →
    e.ReadFrom T → (site.operandOf e).1.ReadFrom T ∧ (site.operandOf e).2.ReadFrom T
  | .operand site, e, h, he => by grind [IfSite.operandOf]
  | .elseOf pos test thenBlock site, e, h, he => by
    rw [IfSite.operandOf]
    apply IfSite.ReadFrom.operandOf site
    · grind
    · have hpos := Expr.ReadFrom.pos e he
      grind

theorem BlockSite.ReadFrom.fill {site : BlockSite} {lines : List Line} (h : site.ReadFrom T)
    (hl : Line.AllReadFrom T lines) : (site.fill lines).ReadFrom T := by
  cases site with
  | function pos name params done =>
    simp only [BlockSite.fill, Unfinished.ReadFrom, LineSite.ReadFrom]
    grind
  | loop pos site =>
    obtain ⟨hpos, hsite⟩ : pos.ReadFrom T ∧ site.ReadFrom T := by grind
    exact hsite.add (by grind)
  | thenOf pos test site => grind [BlockSite.fill]
  | elseOf pos test thenBlock site =>
    have hsite : site.ReadFrom T := by grind
    exact IfSite.ReadFrom.operandOf site (.branch pos test thenBlock (some lines)) hsite (by grind)

theorem OperandSite.ReadFrom.reduce (precedence : Nat) : (site : OperandSite) → (e : Expr) →
    site.ReadFrom T → e.ReadFrom T →
    (site.reduce precedence e).1.ReadFrom T ∧ (site.reduce precedence e).2.ReadFrom T
  | .first site, e, h, he => ⟨he, h⟩
  | .negated pos site, e, h, he => by
    rw [OperandSite.reduce]
    exact reduce precedence site _ (by grind) (he.negate (by grind))
  | .rightOf pos op lhs site, e, h, he => by
    rw [OperandSite.reduce]
    split
    · exact reduce precedence site _ (by grind) (by grind)
    · exact ⟨he, h⟩

theorem OperandSite.ReadFrom.close : (site : OperandSite) → (e : Expr) → site.ReadFrom T →
    e.ReadFrom T → (site.close e).ReadFrom T ∧ site.base.ReadFrom T
  | .first site, e, h, he => ⟨he, by grind [OperandSite.base]⟩
  | .negated pos site, e, h, he => close site _ (by grind) (he.negate (by grind))
  | .rightOf pos op lhs site, e, h, he => close site _ (by grind) (by grind)

/-! ## Reading one token -/

theorem BlockSite.ReadFrom.start {site : BlockSite} (h : site.ReadFrom T)
    (hs : site.start tok = .ok s) : s.ReadFrom T := by
  unfold BlockSite.start at hs
  grind [Token.reject]

section Tokens

variable (htok : tok.kind ≠ .eof → T tok)

include htok

theorem Token.pos_readFrom (hk : tok.kind ≠ .eof) : tok.pos.ReadFrom T :=
  ⟨tok, htok hk, rfl⟩

theorem Token.nameFrom (hk : tok.kind = .identifier) : NameFrom T tok.text :=
  ⟨tok, htok (by simp [hk]), hk, rfl⟩

theorem OperandSite.ReadFrom.start {site : OperandSite} (h : site.ReadFrom T)
    (hs : site.start tok = .ok s) : s.ReadFrom T := by
  have hpos := Token.pos_readFrom htok
  have hname := Token.nameFrom htok
  unfold OperandSite.start Token.literal at hs
  grind [Token.reject]

theorem ExprSite.ReadFrom.start {site : ExprSite} (h : site.ReadFrom T)
    (hs : site.start tok = .ok s) : s.ReadFrom T := by
  have hpos := Token.pos_readFrom htok
  have hname := Token.nameFrom htok
  have hfirst : (OperandSite.first site).ReadFrom T := by grind
  unfold ExprSite.start at hs
  grind [hfirst.start htok]

theorem LineSite.ReadFrom.start {site : LineSite} (h : site.ReadFrom T)
    (hs : site.start tok = .ok s) : s.ReadFrom T := by
  have hpos := Token.pos_readFrom htok
  by_cases hk : tok.kind = .eof
  · cases site <;> grind [LineSite.start, Token.reject]
  · have hline : (ExprSite.line tok.pos site).ReadFrom T := by grind
    unfold LineSite.start at hs
    split at hs
    case h_3 lines site _ =>
      cases hs
      exact BlockSite.ReadFrom.fill (by grind) (by grind)
    all_goals grind [Token.reject, hline.start htok]

theorem ExprSite.ReadFrom.finish : (site : ExprSite) → (e : Expr) → site.ReadFrom T →
    e.ReadFrom T → site.finish e tok = .ok s → s.ReadFrom T
  | .assigned pos target site, e, h, he, hs =>
    finish site (.assign pos target e) (by grind) (by grind) hs
  | .grouped _, e, h, he, hs | .test .., e, h, he, hs => by
    unfold ExprSite.finish at hs
    grind [Token.reject]
  | .argument pos callee earlier site, e, h, he, hs => by
    have hargs : Expr.AllReadFrom T (earlier ++ [e]) := by grind
    unfold ExprSite.finish at hs
    grind [Token.reject]
  | .line pos site, e, h, he, hs => by
    have hadd : (site.add (.expr pos e)).ReadFrom T :=
      LineSite.ReadFrom.add (by grind) (by grind)
    unfold ExprSite.finish at hs
    grind [Token.reject, hadd.start htok]

theorem OperandSite.ReadFrom.after {site : OperandSite} (h : site.ReadFrom T) (he : e.ReadFrom T)
    (hs : site.after e tok = .ok s) : s.ReadFrom T := by
  cases hop : tok.kind.operator? with
  | some op =>
    rw [OperandSite.after_of_operator hop] at hs
    have hk : tok.kind ≠ .eof := by
      intro hk
      rw [hk] at hop
      cases hop
    obtain ⟨hlhs, hsite⟩ := OperandSite.ReadFrom.reduce op.precedence site e h he
    cases hs
    exact ⟨Token.pos_readFrom htok hk, hlhs, hsite⟩
  | none =>
    rw [OperandSite.after_of_not_operator hop] at hs
    obtain ⟨hclose, hbase⟩ := OperandSite.ReadFrom.close site e h he
    exact ExprSite.ReadFrom.finish htok site.base _ hbase hclose hs

theorem OperandSite.ReadFrom.afterName {site : OperandSite} {pos : Pos} {name : Text}
    (h : site.ReadFrom T) (hp : pos.ReadFrom T) (hn : NameFrom T name)
    (hs : site.afterName pos name tok = .ok s) : s.ReadFrom T := by
  have he : (Expr.name pos name).ReadFrom T := by grind
  unfold OperandSite.afterName at hs
  grind [h.after htok he]

/-- Reading a token keeps everything read from tokens. -/
theorem Unfinished.ReadFrom.feed {u : Unfinished} (h : u.ReadFrom T)
    (hs : u.feed tok = .ok s) : s.ReadFrom T := by
  have hpos := Token.pos_readFrom htok
  have hname := Token.nameFrom htok
  cases u with
  | line site => exact LineSite.ReadFrom.start htok h hs
  | lineClosed site =>
    have hsite : site.ReadFrom T := h
    simp only [Unfinished.feed] at hs
    grind [hsite.start htok]
  | breakOpen pos site =>
    have hadd : (site.add (.brk pos)).ReadFrom T := LineSite.ReadFrom.add h.2 h.1
    simp only [Unfinished.feed] at hs
    grind [Token.reject]
  | expr site => exact ExprSite.ReadFrom.start htok h hs
  | leadingName pos name site =>
    obtain ⟨hp, hn, hsite⟩ := h
    have hfirst : (OperandSite.first site).ReadFrom T := by grind
    simp only [Unfinished.feed] at hs
    grind [hfirst.afterName htok hp hn]
  | operand site => exact OperandSite.ReadFrom.start htok h hs
  | sign pos site =>
    have hnegated : (OperandSite.negated pos site).ReadFrom T := by grind
    simp only [Unfinished.feed, Token.literal] at hs
    grind [Token.reject, hnegated.start htok]
  | namedOperand pos name site =>
    exact OperandSite.ReadFrom.afterName htok h.2.2 h.1 h.2.1 hs
  | callOpen pos callee site =>
    have hargument : (ExprSite.argument pos callee [] site).ReadFrom T := by grind
    simp only [Unfinished.feed] at hs
    grind [hargument.start htok]
  | operandDone e site => exact OperandSite.ReadFrom.after htok h.2 h.1 hs
  | ifOpen pos site =>
    simp only [Unfinished.feed] at hs
    grind [Token.reject]
  | thenDone pos test thenBlock site =>
    have hbranch : (Expr.branch pos test thenBlock none).ReadFrom T := by grind
    obtain ⟨he, hsite⟩ := IfSite.ReadFrom.operandOf site _ h.2.2.2 hbranch
    simp only [Unfinished.feed] at hs
    grind [hsite.after htok he]
  | elseOpen pos test thenBlock site =>
    have hblock : (BlockSite.elseOf pos test thenBlock site).ReadFrom T := by grind
    simp only [Unfinished.feed] at hs
    grind [hblock.start]
  | block site => exact BlockSite.ReadFrom.start h hs
  | fnOpen | fnNamed | paramsOpen | param | paramDone =>
    simp only [Unfinished.feed] at hs
    grind [Token.reject]

end Tokens

/-! ## Reading all tokens -/

mutual

theorem OperandSite.ReadFrom.done : (site : OperandSite) → site.ReadFrom T →
    Program.ReadFrom T site.done
  | .first site, h => ExprSite.ReadFrom.done site h
  | .negated _ site, h => OperandSite.ReadFrom.done site h.2
  | .rightOf _ _ _ site, h => OperandSite.ReadFrom.done site h.2.2

theorem ExprSite.ReadFrom.done : (site : ExprSite) → site.ReadFrom T →
    Program.ReadFrom T site.done
  | .assigned _ _ site, h => ExprSite.ReadFrom.done site h.2.2
  | .grouped site, h => OperandSite.ReadFrom.done site h
  | .argument _ _ _ site, h => OperandSite.ReadFrom.done site h.2.2.2
  | .test _ site, h => IfSite.ReadFrom.done site h.2
  | .line _ site, h => LineSite.ReadFrom.done site h.2

theorem IfSite.ReadFrom.done : (site : IfSite) → site.ReadFrom T → Program.ReadFrom T site.done
  | .operand site, h => OperandSite.ReadFrom.done site h
  | .elseOf _ _ _ site, h => IfSite.ReadFrom.done site h.2.2.2

theorem LineSite.ReadFrom.done : (site : LineSite) → site.ReadFrom T →
    Program.ReadFrom T site.done
  | .top _, h => h
  | .inside _ site, h => BlockSite.ReadFrom.done site h.2

theorem BlockSite.ReadFrom.done : (site : BlockSite) → site.ReadFrom T →
    Program.ReadFrom T site.done
  | .function .., h => h.2.2.2
  | .loop _ site, h => LineSite.ReadFrom.done site h.2
  | .thenOf _ _ site, h => IfSite.ReadFrom.done site h.2.2
  | .elseOf _ _ _ site, h => IfSite.ReadFrom.done site h.2.2.2

end

theorem OperandSite.ReadFrom.doneBehind {site : OperandSite} (h : site.ReadFrom T)
    (he : e.ReadFrom T) : Program.ReadFrom T (site.doneBehind e) := by
  unfold OperandSite.doneBehind
  split
  case h_1 pos site =>
    obtain ⟨hp, hsite⟩ : pos.ReadFrom T ∧ site.ReadFrom T := h
    split
    · exact LineSite.ReadFrom.done _ (hsite.add ⟨hp, he⟩)
    · exact LineSite.ReadFrom.done _ hsite
  case h_2 => exact OperandSite.ReadFrom.done _ h

/-- The statements that are complete come from tokens. -/
theorem Unfinished.ReadFrom.done (h : s.ReadFrom T) : Program.ReadFrom T s.done := by
  cases s with
  | line site | lineClosed site => exact LineSite.ReadFrom.done site h
  | breakOpen _ site => exact LineSite.ReadFrom.done site h.2
  | expr site => exact ExprSite.ReadFrom.done site h
  | leadingName _ _ site => exact ExprSite.ReadFrom.done site h.2.2
  | operand site => exact OperandSite.ReadFrom.done site h
  | sign _ site => exact OperandSite.ReadFrom.done site h.2
  | namedOperand _ _ site | callOpen _ _ site => exact OperandSite.ReadFrom.done site h.2.2
  | operandDone e site => exact OperandSite.ReadFrom.doneBehind h.2 h.1
  | thenDone pos test thenBlock site =>
    obtain ⟨hp, ht, hb, hsite⟩ := h
    obtain ⟨he, hoperand⟩ := IfSite.ReadFrom.operandOf site (.branch pos test thenBlock none) hsite
      ⟨hp, ht, hb, trivial⟩
    exact OperandSite.ReadFrom.doneBehind hoperand he
  | ifOpen _ site => exact IfSite.ReadFrom.done site h.2
  | elseOpen _ _ _ site => exact IfSite.ReadFrom.done site h.2.2.2
  | block site => exact BlockSite.ReadFrom.done site h
  | fnOpen => exact h.2
  | fnNamed | paramsOpen => exact h.2.2
  | param | paramDone => exact h.2.2.2

/-- What is complete when reading ends comes from the tokens that were read. -/
theorem Unfinished.ReadFrom.feedAll {eof : Pos} {ts : List Token} (h : s.ReadFrom T)
    (hts : ∀ tok ∈ ts, T tok) : Program.ReadFrom T (s.feedAll eof ts).program := by
  induction ts generalizing s with
  | nil =>
    rw [Unfinished.feedAll]
    cases hs : s.feed ⟨.eof, [], eof⟩ with
    | ok s' => exact (h.feed (absurd rfl) hs).done
    | error error => exact h.done
  | cons tok rest ih =>
    rw [Unfinished.feedAll]
    cases hs : s.feed tok with
    | ok s' =>
      exact ih (h.feed (fun _ => hts tok List.mem_cons_self) hs)
        fun t ht => hts t (List.mem_cons_of_mem _ ht)
    | error error => exact h.done

end Reading

/-- A program comes from the tokens of its source text. -/
theorem parse_readFrom {source : Text} {p : Program} (h : parse source = .ok p) :
    p.ReadFrom (Token.StandsIn source) := by
  unfold parse at h
  cases hlex : tokenize source with
  | error e => simp [hlex] at h
  | ok tokens =>
    obtain ⟨ts, rfl, hts⟩ := standsIn_of_tokenize hlex
    simp only [hlex] at h
    split at h
    · cases h
    · cases h
      rw [parseTokens, TokenStream.ofTokens_eof (fun tok htok => (hts tok htok).kind_ne) rfl]
      have hstart : (Unfinished.line (.top [])).ReadFrom (Token.StandsIn source) :=
        List.forall_mem_nil _
      exact hstart.feedAll hts

end FrameLang
