import FrameLang.Program.Outline
import FrameLang.Proofs.Lowering.BuiltCode
import FrameLang.Proofs.Lowering.Positions
import FrameLang.Proofs.Lowering.Success
import FrameLang.Proofs.Outline.Trees

/-!
# Outlines determine programs

The outline of a program that was read is the text of a tree, in which every construct has a node of
its own and `Then` and `Else` head the blocks of an if expression. The tree has all that the program
has, except for positions, and if the program can be built then its headings are legible: the names
in it are identifiers, and there are no string literals. So such programs with the same outline are
equal up to positions, and they are built alike.

## Main definitions

* `Expr.node`, `Line.node`, `Statement.node`, `Program.node` — the tree of a part of a program.
-/

namespace FrameLang

/-! ## The trees of programs -/

mutual

/-- The tree of an expression. No text is read as a malformed expression; it has a heading that no
expression has. -/
def Expr.node : Expr → OutlineNode
  | .int _ value => .node (.int value) []
  | .str _ text => .node (.str text) []
  | .bool _ value => .node (.bool value) []
  | .name _ x => .node (.name x) []
  | .assign _ x value => .node (.assign x) [value.node]
  | .binary _ op lhs rhs => .node (.binary op) [lhs.node, rhs.node]
  | .call _ callee args => .node (.call callee) (Expr.nodes args)
  | .branch _ test thenBlock elseBlock =>
    .node .branch
      (test.node :: .node .thenBlock (Line.nodes thenBlock) :: Line.elseNodes elseBlock)
  | .malformed .. => .node .program []

/-- The trees of several expressions. -/
def Expr.nodes : List Expr → List OutlineNode
  | [] => []
  | e :: rest => e.node :: Expr.nodes rest

/-- The tree of a line. One of no known form has a heading that no line has. -/
def Line.node : Line → OutlineNode
  | .expr _ e => e.node
  | .loop _ body => .node .loop (Line.nodes body)
  | .brk _ => .node .brk []
  | .other _ => .node .program []

/-- The trees of a block. -/
def Line.nodes : List Line → List OutlineNode
  | [] => []
  | l :: rest => l.node :: Line.nodes rest

/-- The tree of an else branch, if there is one. -/
def Line.elseNodes : Option (List Line) → List OutlineNode
  | none => []
  | some block => [.node .elseBlock (Line.nodes block)]

end

/-- The tree of a statement. -/
def Statement.node : Statement → OutlineNode
  | .fn f => .node (.function f.name f.params) (Line.nodes f.block)
  | .line l => l.node

/-- The tree of a program. -/
def Program.node (p : Program) : OutlineNode :=
  .node .program (p.map Statement.node)

/-! ## The outline shows the tree -/

section Entries

variable {T : Token → Prop}

/-- The entries of a node. -/
def OutlineNode.entries (depth : Nat) (x : OutlineNode) : List Entry :=
  (x.rows depth).map Row.entry

/-- The entries of several nodes. -/
def OutlineNode.allEntries (depth : Nat) (xs : List OutlineNode) : List Entry :=
  (OutlineNode.allRows depth xs).map Row.entry

theorem OutlineNode.entries_node (depth : Nat) (h : Heading) (below : List OutlineNode) :
    (OutlineNode.node h below).entries depth =
      heading depth h.text :: OutlineNode.allEntries (depth + 1) below := rfl

theorem OutlineNode.allEntries_nil (depth : Nat) : OutlineNode.allEntries depth [] = [] := rfl

theorem OutlineNode.allEntries_cons (depth : Nat) (x : OutlineNode) (xs : List OutlineNode) :
    OutlineNode.allEntries depth (x :: xs) =
      x.entries depth ++ OutlineNode.allEntries depth xs :=
  List.map_append

mutual

theorem Expr.entries_eq (depth : Nat) :
    (e : Expr) → e.ReadFrom T → e.entries depth = e.node.entries depth
  | .int .., _ | .str .., _ | .bool .., _ | .name .., _ => rfl
  | .assign _ x value, h => by
    rw [Expr.entries, value.entries_eq (depth + 1) h.2.2, Expr.node, OutlineNode.entries_node,
      OutlineNode.allEntries_cons, OutlineNode.allEntries_nil, List.append_nil]
    rfl
  | .binary _ op lhs rhs, h => by
    rw [Expr.entries, lhs.entries_eq (depth + 1) h.2.1, rhs.entries_eq (depth + 1) h.2.2,
      Expr.node, OutlineNode.entries_node, OutlineNode.allEntries_cons,
      OutlineNode.allEntries_cons, OutlineNode.allEntries_nil, List.append_nil]
    rfl
  | .call _ callee args, h => by
    rw [Expr.entries, Expr.listEntries_eq (depth + 1) args h.2.2, Expr.node,
      OutlineNode.entries_node]
    rfl
  | .branch _ test thenBlock elseBlock, h => by
    rw [Expr.entries, test.entries_eq (depth + 1) h.2.1,
      Line.blockEntries_eq (depth + 2) thenBlock h.2.2.1,
      Line.elseEntries_eq (depth + 1) elseBlock h.2.2.2, Expr.node, OutlineNode.entries_node,
      OutlineNode.allEntries_cons, OutlineNode.allEntries_cons, OutlineNode.entries_node]
    rfl
  | .malformed .., h => h.elim

theorem Expr.listEntries_eq (depth : Nat) : (es : List Expr) → Expr.AllReadFrom T es →
    Expr.listEntries depth es = OutlineNode.allEntries depth (Expr.nodes es)
  | [], _ => rfl
  | e :: rest, h => by
    rw [Expr.listEntries, e.entries_eq depth h.1, Expr.listEntries_eq depth rest h.2, Expr.nodes,
      OutlineNode.allEntries_cons]

theorem Line.entries_eq (depth : Nat) :
    (l : Line) → l.ReadFrom T → l.entries depth = l.node.entries depth
  | .expr _ e, h => e.entries_eq depth h.2
  | .loop _ body, h => by
    rw [Line.entries, Line.blockEntries_eq (depth + 1) body h.2]
    rfl
  | .brk _, _ => rfl
  | .other _, h => h.elim

theorem Line.blockEntries_eq (depth : Nat) : (ls : List Line) → Line.AllReadFrom T ls →
    Line.blockEntries depth ls = OutlineNode.allEntries depth (Line.nodes ls)
  | [], _ => rfl
  | l :: rest, h => by
    rw [Line.blockEntries, l.entries_eq depth h.1, Line.blockEntries_eq depth rest h.2,
      Line.nodes, OutlineNode.allEntries_cons]

theorem Line.elseEntries_eq (depth : Nat) : (block : Option (List Line)) →
    Line.ElseReadFrom T block →
    Line.elseEntries depth block = OutlineNode.allEntries depth (Line.elseNodes block)
  | none, _ => rfl
  | some block, h => by
    rw [Line.elseEntries, Line.blockEntries_eq (depth + 1) block h, Line.elseNodes,
      OutlineNode.allEntries_cons, OutlineNode.allEntries_nil, List.append_nil]
    rfl

end

theorem Statement.entries_eq (st : Statement) (h : st.ReadFrom T) :
    st.entries = st.node.entries 1 := by
  cases st with
  | fn f =>
    rw [Statement.entries, Line.blockEntries_eq 2 f.block h.2.2.2]
    rfl
  | line l => exact l.entries_eq 1 h

/-- The entries of a program that was read are those of its tree. -/
theorem Program.entries_eq {p : Program} (h : p.ReadFrom T) : p.entries = p.node.entries 0 := by
  have hstatements : p.flatMap Statement.entries =
      OutlineNode.allEntries 1 (p.map Statement.node) := by
    induction p with
    | nil => rfl
    | cons st rest ih =>
      obtain ⟨hst, hrest⟩ := List.forall_mem_cons.1 h
      rw [List.flatMap_cons, st.entries_eq hst, ih hrest, List.map_cons,
        OutlineNode.allEntries_cons]
  rw [Program.entries, hstatements]
  rfl

end Entries

/-! ## The tree has all but positions -/

section Positions

variable {T U : Token → Prop}

mutual

theorem Expr.unplaced_of_node : (e f : Expr) → e.ReadFrom T → f.ReadFrom U →
    e.node = f.node → e.unplaced = f.unplaced
  | .int .., f, _, hf, h | .str .., f, _, hf, h | .bool .., f, _, hf, h
  | .name .., f, _, hf, h => by
    cases f <;> cases h
    rfl
  | .assign _ x value, f, he, hf, h => by
    cases f with
    | assign _ y value' =>
      simp only [Expr.node, OutlineNode.node.injEq, Heading.assign.injEq, List.cons.injEq,
        and_true] at h
      rw [Expr.unplaced, Expr.unplaced, h.1, value.unplaced_of_node value' he.2.2 hf.2.2 h.2]
    | _ => cases h
  | .binary _ op lhs rhs, f, he, hf, h => by
    cases f with
    | binary _ op' lhs' rhs' =>
      simp only [Expr.node, OutlineNode.node.injEq, Heading.binary.injEq, List.cons.injEq,
        and_true] at h
      rw [Expr.unplaced, Expr.unplaced, h.1, lhs.unplaced_of_node lhs' he.2.1 hf.2.1 h.2.1,
        rhs.unplaced_of_node rhs' he.2.2 hf.2.2 h.2.2]
    | _ => cases h
  | .call _ callee args, f, he, hf, h => by
    cases f with
    | call _ callee' args' =>
      simp only [Expr.node, OutlineNode.node.injEq, Heading.call.injEq] at h
      rw [Expr.unplaced, Expr.unplaced, h.1, Expr.unplacedAll_of_nodes args args' he.2.2 hf.2.2 h.2]
    | _ => cases h
  | .branch _ test thenBlock elseBlock, f, he, hf, h => by
    cases f with
    | branch _ test' thenBlock' elseBlock' =>
      simp only [Expr.node, OutlineNode.node.injEq, List.cons.injEq, true_and] at h
      rw [Expr.unplaced, Expr.unplaced, test.unplaced_of_node test' he.2.1 hf.2.1 h.1,
        Line.unplacedAll_of_nodes thenBlock thenBlock' he.2.2.1 hf.2.2.1 h.2.1,
        Line.unplacedElse_of_nodes elseBlock elseBlock' he.2.2.2 hf.2.2.2 h.2.2]
    | _ => cases h
  | .malformed .., _, he, _, _ => he.elim

theorem Expr.unplacedAll_of_nodes : (es fs : List Expr) → Expr.AllReadFrom T es →
    Expr.AllReadFrom U fs → Expr.nodes es = Expr.nodes fs →
    Expr.unplacedAll es = Expr.unplacedAll fs
  | [], [], _, _, _ => rfl
  | e :: es, f :: fs, he, hf, h => by
    obtain ⟨hhead, htail⟩ := List.cons.inj h
    rw [Expr.unplacedAll, Expr.unplacedAll, e.unplaced_of_node f he.1 hf.1 hhead,
      Expr.unplacedAll_of_nodes es fs he.2 hf.2 htail]

theorem Line.unplaced_of_node : (l m : Line) → l.ReadFrom T → m.ReadFrom U →
    l.node = m.node → l.unplaced = m.unplaced
  | .expr _ e, m, hl, hm, h => by
    cases m with
    | expr _ f => rw [Line.unplaced, Line.unplaced, e.unplaced_of_node f hl.2 hm.2 h]
    | loop | brk => cases e <;> cases h
    | other => exact hm.elim
  | .loop _ body, m, hl, hm, h => by
    cases m with
    | expr _ f => cases f <;> cases h
    | loop _ body' =>
      simp only [Line.node, OutlineNode.node.injEq, true_and] at h
      rw [Line.unplaced, Line.unplaced, Line.unplacedAll_of_nodes body body' hl.2 hm.2 h]
    | brk | other => cases h
  | .brk _, m, _, _, h => by
    cases m with
    | expr _ f => cases f <;> cases h
    | brk => rfl
    | loop | other => cases h
  | .other _, _, hl, _, _ => hl.elim

theorem Line.unplacedAll_of_nodes : (ls ms : List Line) → Line.AllReadFrom T ls →
    Line.AllReadFrom U ms → Line.nodes ls = Line.nodes ms →
    Line.unplacedAll ls = Line.unplacedAll ms
  | [], [], _, _, _ => rfl
  | l :: ls, m :: ms, hl, hm, h => by
    obtain ⟨hhead, htail⟩ := List.cons.inj h
    rw [Line.unplacedAll, Line.unplacedAll, l.unplaced_of_node m hl.1 hm.1 hhead,
      Line.unplacedAll_of_nodes ls ms hl.2 hm.2 htail]

theorem Line.unplacedElse_of_nodes : (b c : Option (List Line)) → Line.ElseReadFrom T b →
    Line.ElseReadFrom U c → Line.elseNodes b = Line.elseNodes c →
    Line.unplacedElse b = Line.unplacedElse c
  | none, none, _, _, _ => rfl
  | some b, some c, hb, hc, h => by
    simp only [Line.elseNodes, List.cons.injEq, OutlineNode.node.injEq, true_and, and_true] at h
    rw [Line.unplacedElse, Line.unplacedElse, Line.unplacedAll_of_nodes b c hb hc h]

end

theorem Statement.unplaced_of_node {st st' : Statement} (hst : st.ReadFrom T)
    (hst' : st'.ReadFrom U) (h : st.node = st'.node) : st.unplaced = st'.unplaced := by
  -- The heading of a line is never that of a function.
  have hline {f : FnDef} {l : Line} (hl : l.node = (Statement.fn f).node) : False := by
    cases l with
    | expr _ e => cases e <;> cases hl
    | _ => cases hl
  cases st with
  | fn f =>
    cases st' with
    | fn g =>
      simp only [Statement.node, OutlineNode.node.injEq, Heading.function.injEq] at h
      rw [Statement.unplaced, Statement.unplaced, FnDef.unplaced, FnDef.unplaced, h.1.1, h.1.2,
        Line.unplacedAll_of_nodes f.block g.block hst.2.2.2 hst'.2.2.2 h.2]
    | line m => exact (hline h.symm).elim
  | line l =>
    cases st' with
    | fn g => exact (hline h).elim
    | line m => rw [Statement.unplaced, Statement.unplaced, l.unplaced_of_node m hst hst' h]

/-- Programs that were read and have the same tree differ in positions only. -/
theorem Program.unplaced_of_node {p q : Program} (hp : p.ReadFrom T) (hq : q.ReadFrom U)
    (h : p.node = q.node) : p.unplaced = q.unplaced := by
  have hstatements : p.map Statement.node = q.map Statement.node := by
    simpa only [Program.node, OutlineNode.node.injEq, true_and] using h
  clear h
  induction p generalizing q with
  | nil =>
    cases q with
    | nil => rfl
    | cons st' rest' => cases hstatements
  | cons st rest ih =>
    cases q with
    | nil => cases hstatements
    | cons st' rest' =>
      obtain ⟨⟨hst, hrest⟩, hst', hrest'⟩ :=
        And.intro (List.forall_mem_cons.1 hp) (List.forall_mem_cons.1 hq)
      obtain ⟨hhead, htail⟩ := List.cons.inj hstatements
      exact congrArg₂ List.cons (Statement.unplaced_of_node hst hst' hhead)
        (ih hrest hrest' htail)

end Positions

/-! ## What can be built is legible -/

section Legible

variable {T : Token → Prop} {depth : Nat}

/-- All headings of the rows are legible. -/
def AllLegible (rows : List Row) : Prop :=
  ∀ row ∈ rows, row.heading.IsLegible

theorem AllLegible.nil : AllLegible [] :=
  List.forall_mem_nil _

theorem AllLegible.cons {row : Row} {rows : List Row} (h : row.heading.IsLegible)
    (hrows : AllLegible rows) : AllLegible (row :: rows) :=
  List.forall_mem_cons.2 ⟨h, hrows⟩

theorem AllLegible.append {rows rows' : List Row} (h : AllLegible rows) (h' : AllLegible rows') :
    AllLegible (rows ++ rows') :=
  List.forall_mem_append.2 ⟨h, h'⟩

mutual

theorem Expr.allLegible_rows (hT : ∀ x, NameFrom T x → isName x = true) : (e : Expr) →
    (depth : Nat) → e.ReadFrom T → e.contents.strings = [] → AllLegible (e.node.rows depth)
  | .int .., _, _, _ | .bool .., _, _, _ => .cons trivial .nil
  | .str .., _, _, hs => by cases hs
  | .name _ x, _, h, _ => .cons (hT x h.2) .nil
  | .assign _ x value, depth, h, hs => by
    simp only [Expr.contents, Contents.strings_append, List.append_eq_nil_iff] at hs
    exact .cons (hT x h.2.1) ((value.allLegible_rows hT (depth + 1) h.2.2 hs.1).append .nil)
  | .binary _ _ lhs rhs, depth, h, hs => by
    simp only [Expr.contents, Contents.strings_append, List.append_eq_nil_iff] at hs
    exact .cons trivial ((lhs.allLegible_rows hT (depth + 1) h.2.1 hs.1.1).append
      ((rhs.allLegible_rows hT (depth + 1) h.2.2 hs.1.2).append .nil))
  | .call _ callee args, depth, h, hs => by
    simp only [Expr.contents, Contents.strings_append, List.append_eq_nil_iff] at hs
    exact .cons (hT callee h.2.1) (Expr.allLegible_allRows hT args (depth + 1) h.2.2 hs.1)
  | .branch _ test thenBlock elseBlock, depth, h, hs => by
    simp only [Expr.contents, Contents.strings_append, List.append_eq_nil_iff] at hs
    exact .cons trivial ((test.allLegible_rows hT (depth + 1) h.2.1 hs.1.1.2).append
      (.append (.cons trivial (Line.allLegible_allRows hT thenBlock (depth + 2) h.2.2.1 hs.1.2))
        (Line.allLegible_elseRows hT elseBlock (depth + 1) h.2.2.2 hs.2)))
  | .malformed .., _, h, _ => h.elim

theorem Expr.allLegible_allRows (hT : ∀ x, NameFrom T x → isName x = true) :
    (es : List Expr) → (depth : Nat) → Expr.AllReadFrom T es →
    (Expr.allContents es).strings = [] → AllLegible (OutlineNode.allRows depth (Expr.nodes es))
  | [], _, _, _ => .nil
  | e :: rest, depth, h, hs => by
    simp only [Expr.allContents, Contents.strings_append, List.append_eq_nil_iff] at hs
    exact (e.allLegible_rows hT depth h.1 hs.1).append
      (Expr.allLegible_allRows hT rest depth h.2 hs.2)

theorem Line.allLegible_rows (hT : ∀ x, NameFrom T x → isName x = true) : (l : Line) →
    (depth : Nat) → l.ReadFrom T → l.contents.strings = [] → AllLegible (l.node.rows depth)
  | .expr _ e, depth, h, hs => e.allLegible_rows hT depth h.2 hs
  | .loop _ body, depth, h, hs =>
    .cons trivial (Line.allLegible_allRows hT body (depth + 1) h.2 hs)
  | .brk _, _, _, _ => .cons trivial .nil
  | .other _, _, h, _ => h.elim

theorem Line.allLegible_allRows (hT : ∀ x, NameFrom T x → isName x = true) :
    (ls : List Line) → (depth : Nat) → Line.AllReadFrom T ls →
    (Line.allContents ls).strings = [] → AllLegible (OutlineNode.allRows depth (Line.nodes ls))
  | [], _, _, _ => .nil
  | l :: rest, depth, h, hs => by
    simp only [Line.allContents, Contents.strings_append, List.append_eq_nil_iff] at hs
    exact (l.allLegible_rows hT depth h.1 hs.1).append
      (Line.allLegible_allRows hT rest depth h.2 hs.2)

theorem Line.allLegible_elseRows (hT : ∀ x, NameFrom T x → isName x = true) :
    (block : Option (List Line)) → (depth : Nat) → Line.ElseReadFrom T block →
    (Line.elseContents block).strings = [] →
    AllLegible (OutlineNode.allRows depth (Line.elseNodes block))
  | none, _, _, _ => .nil
  | some block, depth, h, hs =>
    .append (.cons trivial (Line.allLegible_allRows hT block (depth + 1) h hs)) .nil

end

/-- The rows of a program that can be built are legible. -/
theorem Program.allLegible_rows (hT : ∀ x, NameFrom T x → isName x = true)
    {p : Program} (hp : p.ReadFrom T) (h : p.IsBuildable) : AllLegible (p.node.rows 0) := by
  obtain ⟨htop, hfunctions⟩ := h
  have hstatements {p : Program} (hp : p.ReadFrom T)
      (htop : (Line.allContents p.lines).strings = [])
      (hfunctions : ∀ f ∈ p.functions, f.contents.strings = []) :
      AllLegible (OutlineNode.allRows 1 (p.map Statement.node)) := by
    induction p with
    | nil => exact .nil
    | cons st rest ih =>
      obtain ⟨hst, hrest⟩ := List.forall_mem_cons.1 hp
      cases st with
      | fn f =>
        obtain ⟨hf, hmore⟩ := List.forall_mem_cons.1 hfunctions
        refine .append (.cons ⟨hT _ hst.2.1, fun x hx => hT x (hst.2.2.1 x hx)⟩ ?_)
          (ih hrest htop hmore)
        exact Line.allLegible_allRows hT f.block 2 hst.2.2.2 hf
      | line l =>
        obtain ⟨hl, hmore⟩ := List.append_eq_nil_iff.1 htop
        exact .append (l.allLegible_rows hT 1 hst hl) (ih hrest hmore hfunctions)
  exact .cons trivial
    (hstatements hp htop.strings fun f hf => (hfunctions f hf).contents.strings)

end Legible

/-! ## Outlines -/

/-- A build that succeeds has the same listing whether calls are checked or not. -/
theorem Program.listing_unique {p : Program} {checkArity checkArity' : Bool} {a b : Listing}
    (ha : p.build checkArity = .ok a) (hb : p.build checkArity' = .ok b) : a = b := by
  obtain ⟨code, result, allocation, hlower, -, -, rfl⟩ := Program.build_eq_ok ha
  obtain ⟨code', result', allocation', hlower', -, -, rfl⟩ := Program.build_eq_ok hb
  rw [hlower] at hlower'
  cases hlower'
  rfl

/-- The outline of a program that was read and can be built is that of legible rows. -/
theorem Program.outline_eq {source : Text} {p : Program} {checkArity : Bool} {listing : Listing}
    (hp : parse source = .ok p) (h : p.build checkArity = .ok listing) :
    p.outline = ((p.node.rows 0).map Row.entry).flatMap Entry.render ∧
      AllLegible (p.node.rows 0) := by
  have hread := parse_readFrom hp
  have hnames (x : Text) (hx : NameFrom (Token.StandsIn source) x) : isName x = true := by
    obtain ⟨tok, htok, hkind, rfl⟩ := hx
    exact htok.lexed.name hkind
  have hbuildable := ((hread.build_isOk_iff checkArity).1 ⟨listing, h⟩).1
  refine ⟨?_, Program.allLegible_rows hnames hread hbuildable⟩
  rw [Program.outline, Program.entries_eq hread, OutlineNode.entries]

/-- Two programs that were read, can be built and have the same outline are equal up to positions,
and are built as the same listing. -/
theorem Program.eq_of_outline {source source' : Text} {p q : Program}
    {checkArity checkArity' : Bool} {a b : Listing} (hp : parse source = .ok p)
    (hq : parse source' = .ok q) (ha : p.build checkArity = .ok a)
    (hb : q.build checkArity' = .ok b) (h : p.outline = q.outline) :
    p.unplaced = q.unplaced ∧ a = b := by
  obtain ⟨hptext, hprows⟩ := Program.outline_eq hp ha
  obtain ⟨hqtext, hqrows⟩ := Program.outline_eq hq hb
  have hrows : p.node.rows 0 = q.node.rows 0 :=
    Row.eq_of_render hprows hqrows (by rw [← hptext, ← hqtext, h])
  have hsame : p.unplaced = q.unplaced :=
    Program.unplaced_of_node (parse_readFrom hp) (parse_readFrom hq)
      (OutlineNode.rows_injective 0 hrows)
  exact ⟨hsame, Program.listing_unique (Program.build_congr hsame.symm ha) hb⟩

/-- A source text with few blanks. -/
def denseSource : Text :=
  "fn f(a,b)\x7ba;\x7dloop\x7bif(x<3)\x7bx=-x;\x7delse if(0)\x7bbreak;\x7d\x7df(2,1);".toList

/-- The same program with more blanks, and with the second if expression in a block. -/
def airySource : Text :=
  "fn f(a, b) \x7b a; \x7d loop \x7b if (x < 3) \x7b x = 0 - x; \x7d
    else \x7b if (0) \x7b break; \x7d \x7d \x7d f(2, 1);".toList

theorem Program.eq_of_outline_spaced : ∃ p q a b, parse denseSource = .ok p ∧
    parse airySource = .ok q ∧ p.build true = .ok a ∧ q.build false = .ok b ∧
    p.outline = q.outline ∧ p.unplaced = q.unplaced ∧ a = b := by
  have hrun : (match parse denseSource, parse airySource with
      | .ok p, .ok q =>
        (p.build true).isOk && (q.build false).isOk && decide (p.outline = q.outline)
      | _, _ => false) = true := by
    decide +kernel
  cases hp : parse denseSource with
  | error e => simp [hp] at hrun
  | ok p =>
    cases hq : parse airySource with
    | error e => simp [hp, hq] at hrun
    | ok q =>
      simp only [hp, hq, Bool.and_eq_true, decide_eq_true_eq] at hrun
      obtain ⟨a, ha⟩ := Program.exists_listing hrun.1.1
      obtain ⟨b, hb⟩ := Program.exists_listing hrun.1.2
      obtain ⟨hsame, heq⟩ := Program.eq_of_outline hp hq ha hb hrun.2
      exact ⟨p, q, a, b, rfl, rfl, ha, hb, hrun.2, hsame, heq⟩

end FrameLang
