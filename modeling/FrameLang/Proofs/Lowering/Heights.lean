import FrameLang.Proofs.Lowering.Places

/-!
# The height of the operand stack

If callers and functions agree on the number of arguments, the number of operands at a place of the
code depends on the place alone. Arguments are computed before the first of them is put on the
stack, so the stack is empty except between the first argument of a call and its result.

## Main definitions

* `Expr.heights`, `Line.heights`, `Program.heights` — the number of operands in front of each
  instruction, and `Program.heightAt` the number at a place.
* `Instr.Fits`, `Fits` — code changes the number of operands as the heights say.
* `LineAt`, `Program.LineAt` — the places where lines start.
-/

namespace FrameLang

/-! ## Heights -/

mutual

/-- The number of operands in front of each instruction of an expression. -/
def Expr.heights : Expr → List Nat
  | .int .. | .bool .. => [0]
  | .str .. | .name .. | .malformed .. => []
  | .assign _ _ value => value.heights ++ [0]
  | .binary _ _ lhs rhs => lhs.heights ++ rhs.heights ++ [0]
  | .call _ _ args => Expr.heightsAll args ++ List.range' 0 args.length ++ [args.length, 1]
  | .branch _ test thenBlock elseBlock =>
    test.heights ++ [0] ++ (0 :: Line.heightsAll thenBlock ++ [0, 0]) ++
      (0 :: Line.heightsElse elseBlock ++ [0, 0]) ++ [0]

/-- The number of operands in front of each instruction of several expressions. -/
def Expr.heightsAll : List Expr → List Nat
  | [] => []
  | e :: rest => e.heights ++ Expr.heightsAll rest

/-- The number of operands in front of each instruction of a line. -/
def Line.heights : Line → List Nat
  | .expr _ e => e.heights
  | .loop _ body => 0 :: Line.heightsAll body ++ [0, 0]
  | .brk _ => [0]
  | .other _ => []

/-- The number of operands in front of each instruction of a block. -/
def Line.heightsAll : List Line → List Nat
  | [] => []
  | l :: rest => l.heights ++ Line.heightsAll rest

/-- The number of operands in front of each instruction of an else branch. -/
def Line.heightsElse : Option (List Line) → List Nat
  | none => []
  | some block => Line.heightsAll block

end

/-- The numbers from `n` down to one. -/
def countdown : Nat → List Nat
  | 0 => []
  | n + 1 => (n + 1) :: countdown n

/-- The number of operands in front of each instruction of a definition. The arguments are on the
stack from the entry on, and the result is there at the return. -/
def FnDef.heights (f : FnDef) : List Nat :=
  0 :: f.params.length :: (countdown f.params.length ++ (Line.heightsAll f.block ++ [0, 1, 0]))

/-- The number of operands in front of each instruction of a statement. -/
def Statement.heights : Statement → List Nat
  | .fn f => f.heights
  | .line l => l.heights

/-- The number of operands in front of each instruction of a program. -/
def Program.heights (p : Program) : List Nat :=
  p.flatMap Statement.heights

/-- The number of operands in front of each instruction of a construct. -/
def Construct.heights : Construct → List Nat
  | .expr e => e.heights
  | .args es => Expr.heightsAll es
  | .line l => l.heights
  | .block _ ls => Line.heightsAll ls
  | .params xs => countdown xs.length

/-- The number of operands at a place, which is none behind the code. -/
def Program.heightAt (p : Program) (i : Nat) : Nat :=
  p.heights[i]?.getD 0

theorem Line.heightsElse_eq (block : Option (List Line)) :
    Line.heightsElse block = Line.heightsAll (block.getD []) := by
  cases block <;> simp [Line.heightsElse, Line.heightsAll]

theorem headD_append (xs ys : List Nat) (d : Nat) :
    (xs ++ ys).headD d = xs.headD (ys.headD d) := by
  cases xs <;> rfl

@[simp] theorem length_countdown (n : Nat) : (countdown n).length = n := by
  induction n with
  | zero => rfl
  | succ n ih => simp [countdown, ih]

mutual

theorem Expr.length_heights (e : Expr) : e.heights.length = e.codeLength := by
  cases e with
  | int | str | bool | name | malformed => simp [Expr.heights, Expr.codeLength]
  | assign _ _ value => simp [Expr.heights, Expr.codeLength, value.length_heights]
  | binary _ _ lhs rhs =>
    simp [Expr.heights, Expr.codeLength, lhs.length_heights, rhs.length_heights, Nat.add_assoc]
  | call _ _ args =>
    simp [Expr.heights, Expr.codeLength, Expr.length_heightsAll args, Nat.add_assoc]
  | branch _ test thenBlock elseBlock =>
    have helse : (Line.heightsElse elseBlock).length = Line.codeLengthElse elseBlock := by
      cases elseBlock with
      | none => rfl
      | some block => exact Line.length_heightsAll block
    simp only [Expr.heights, Expr.codeLength, List.length_append, List.length_cons, List.length_nil,
      test.length_heights, Line.length_heightsAll thenBlock, helse]
    omega

theorem Expr.length_heightsAll (es : List Expr) :
    (Expr.heightsAll es).length = Expr.codeLengthAll es := by
  cases es with
  | nil => rfl
  | cons e rest =>
    simp [Expr.heightsAll, Expr.codeLengthAll, e.length_heights, Expr.length_heightsAll rest]

theorem Line.length_heights (l : Line) : l.heights.length = l.codeLength := by
  cases l with
  | expr _ e => exact e.length_heights
  | loop _ body => simp [Line.heights, Line.codeLength, Line.length_heightsAll body]
  | brk | other => rfl

theorem Line.length_heightsAll (ls : List Line) :
    (Line.heightsAll ls).length = Line.codeLengthAll ls := by
  cases ls with
  | nil => rfl
  | cons l rest =>
    simp [Line.heightsAll, Line.codeLengthAll, l.length_heights, Line.length_heightsAll rest]

end

mutual

/-- The stack is empty where an expression starts. -/
theorem Expr.headD_heights (e : Expr) : e.heights.headD 0 = 0 := by
  cases e with
  | int | str | bool | name | malformed => rfl
  | assign _ _ value => simp only [Expr.heights, headD_append, List.headD_cons, value.headD_heights]
  | binary _ _ lhs rhs =>
    simp only [Expr.heights, headD_append, List.headD_cons, lhs.headD_heights, rhs.headD_heights]
  | call _ _ args =>
    have hargs := Expr.headD_heightsAll args
    cases args with
    | nil => rfl
    | cons e rest =>
      simp only [Expr.heights, headD_append, List.length_cons, List.range'_succ, List.headD_cons,
        hargs]
  | branch _ test _ _ => simp only [Expr.heights, headD_append, List.headD_cons, test.headD_heights]

theorem Expr.headD_heightsAll (es : List Expr) : (Expr.heightsAll es).headD 0 = 0 := by
  cases es with
  | nil => rfl
  | cons e rest =>
    simp only [Expr.heightsAll, headD_append, e.headD_heights, Expr.headD_heightsAll rest]

end

theorem Construct.length_heights (c : Construct) : c.heights.length = c.codeLength := by
  cases c with
  | expr e => exact e.length_heights
  | args es => exact Expr.length_heightsAll es
  | line l => exact l.length_heights
  | block _ ls => exact Line.length_heightsAll ls
  | params xs => exact length_countdown xs.length

/-- The stack is empty where a line starts. -/
theorem Line.headD_heights (l : Line) : l.heights.headD 0 = 0 := by
  cases l with
  | expr _ e => exact e.headD_heights
  | loop | brk | other => rfl

theorem Line.headD_heightsAll (ls : List Line) : (Line.heightsAll ls).headD 0 = 0 := by
  induction ls with
  | nil => rfl
  | cons l rest ih => simp only [Line.heightsAll, headD_append, l.headD_heights, ih]

theorem Program.headD_heights (p : Program) : p.heights.headD 0 = 0 := by
  induction p with
  | nil => rfl
  | cons st rest ih =>
    have hst : st.heights.headD 0 = 0 := by
      cases st with
      | fn f => rfl
      | line l => exact l.headD_heights
    simp only [Program.heights] at ih ⊢
    simp only [List.flatMap_cons, headD_append, ih, hst]

theorem Statement.length_heights (st : Statement) : st.heights.length = st.codeLength := by
  cases st with
  | fn f =>
    simp only [Statement.heights, FnDef.heights, Statement.codeLength, FnDef.codeLength,
      List.length_cons, List.length_append, length_countdown, Line.length_heightsAll,
      List.length_nil]
    omega
  | line l => exact l.length_heights

theorem Program.length_heights (p : Program) : p.heights.length = p.codeLength := by
  induction p with
  | nil => rfl
  | cons st rest ih =>
    simp only [Program.heights, Program.codeLength_cons] at ih ⊢
    simp [ih, st.length_heights]

/-! ## Code that fits its heights -/

/-- The largest number of arguments of a call, and at least one. -/
def Program.operandBound (p : Program) : Nat :=
  (p.callSites.map CallSite.args).foldr max 1

theorem Program.le_operandBound {p : Program} {site : CallSite} (h : site ∈ p.callSites) :
    site.args ≤ p.operandBound := by
  have hle (xs : List Nat) {n : Nat} (hn : n ∈ xs) : n ≤ xs.foldr max 1 := by
    induction xs with
    | nil => cases hn
    | cons x xs ih =>
      rw [List.foldr_cons]
      rcases List.mem_cons.1 hn with rfl | hn
      · exact Nat.le_max_left _ _
      · exact Nat.le_trans (ih hn) (Nat.le_max_right _ _)
  exact hle _ (List.mem_map_of_mem h)

theorem Program.one_le_operandBound (p : Program) : 1 ≤ p.operandBound := by
  unfold Program.operandBound
  induction p.callSites.map CallSite.args with
  | nil => exact Nat.le_refl 1
  | cons x xs ih => exact Nat.le_trans ih (Nat.le_max_right _ _)

/-- An instruction with `h` operands in front of it leads on with `h'` operands, where it leads on
to the next one. A call finds the arguments that the function takes. -/
def Instr.Fits (p : Program) (h h' : Nat) : Instr → Prop
  | .push _ | .pushI _ => h' = h + 1 ∧ h' ≤ p.operandBound
  | .pop _ => h = h' + 1
  | .call (.named x) => (∃ f, p.function? x = some f ∧ f.params.length = h) ∧ h' = 1
  | .call (.numbered _) => False
  | .ret => h = 1
  | .jump _ | .branch .. => h = 0
  | .label _ => h = 0 ∧ h' = 0
  | .binary .. | .binaryI .. | .loadI .. | .move .. | .unassigned => h' = h

/-- Every instruction of the code fits the heights around it, where `last` operands follow. -/
def Fits (p : Program) : List Instr → List Nat → Nat → Prop
  | [], [], _ => True
  | i :: code, h :: hs, last => i.Fits p h (hs.headD last) ∧ Fits p code hs last
  | _, _, _ => False

section Fits

variable {p : Program} {code rest : List Instr} {hs ks : List Nat} {last : Nat}

@[simp] theorem fits_nil : Fits p [] [] last := trivial

@[simp] theorem fits_cons {i : Instr} {h : Nat} :
    Fits p (i :: code) (h :: hs) last ↔ i.Fits p h (hs.headD last) ∧ Fits p code hs last :=
  Iff.rfl

theorem Fits.append (h : Fits p code hs (ks.headD last)) (h' : Fits p rest ks last) :
    Fits p (code ++ rest) (hs ++ ks) last := by
  induction code generalizing hs with
  | nil =>
    cases hs with
    | nil => exact h'
    | cons k hs => exact h.elim
  | cons i code ih =>
    cases hs with
    | nil => exact h.elim
    | cons k hs =>
      obtain ⟨hi, hr⟩ := h
      rw [← headD_append] at hi
      exact ⟨hi, ih hr⟩

/-- Code that leaves `n` operands goes in front of code that starts with as many. -/
theorem Fits.append_of_headD {n : Nat} (h : Fits p code hs n) (hn : ks.headD last = n)
    (h' : Fits p rest ks last) : Fits p (code ++ rest) (hs ++ ks) last := by
  subst hn
  exact h.append h'

/-- What an instruction of the code does to the number of operands. -/
theorem Fits.getElem? (h : Fits p code hs last) {k : Nat} {i : Instr} (hi : code[k]? = some i) :
    i.Fits p (hs[k]?.getD last) (hs[k + 1]?.getD last) := by
  induction code generalizing hs k with
  | nil => cases hi
  | cons j code ih =>
    cases hs with
    | nil => exact h.elim
    | cons n hs =>
      obtain ⟨hj, hr⟩ := h
      cases k with
      | zero =>
        cases Option.some.inj hi
        cases hs <;> exact hj
      | succ k => exact ih hr hi

theorem fits_pushes (rs : List Register) (k : Nat) (hb : k + rs.length ≤ p.operandBound) :
    Fits p (rs.map .push) (List.range' k rs.length) (k + rs.length) := by
  induction rs generalizing k with
  | nil => trivial
  | cons r rs ih =>
    simp only [List.length_cons] at hb
    have hrest := ih (k + 1) (by omega)
    rw [List.map_cons, List.length_cons, List.range'_succ, Nat.add_comm rs.length 1,
      ← Nat.add_assoc]
    refine ⟨?_, hrest⟩
    cases rs with
    | nil => exact ⟨rfl, by simpa using hb⟩
    | cons r' rs => exact ⟨by simp [List.range'_succ], by simp [List.range'_succ]; omega⟩

/-- A label and a block, with two instructions behind it. -/
theorem Fits.block {l : Label} {i j : Instr} (h : Fits p code hs 0) (hhead : hs.headD 0 = 0)
    (hi : i.Fits p 0 0) (hj : j.Fits p 0 last) :
    Fits p (.label l :: code ++ [i, j]) (0 :: hs ++ [0, 0]) last := by
  have hnext : (hs ++ [0, 0]).headD last = 0 := by
    rw [headD_append]
    exact hhead
  exact ⟨⟨rfl, hnext⟩, Fits.append h ⟨hi, hj, trivial⟩⟩

end Fits

theorem Line.elseCallSites_eq (block : Option (List Line)) :
    Line.elseCallSites block = Line.allCallSites (block.getD []) := by
  cases block <;> simp [Line.elseCallSites, Line.allCallSites]

/-- The calls in a construct. -/
def Construct.callSites : Construct → List CallSite
  | .expr e => e.callSites
  | .args es => Expr.allCallSites es
  | .line l => l.callSites
  | .block _ ls => Line.allCallSites ls
  | .params _ => []

/-- The calls of a construct are calls of the program that pass what the functions take. -/
def Construct.Agrees (p : Program) (c : Construct) : Prop :=
  ∀ site ∈ c.callSites, site ∈ p.callSites ∧ site.error? p = none

theorem CallSite.error?_eq_none {p : Program} {site : CallSite} :
    site.error? p = none ↔
      ∃ f, p.function? site.callee = some f ∧ f.params.length = site.args := by
  unfold CallSite.error?
  cases hf : p.function? site.callee with
  | none => simp
  | some f => simp

theorem fits_deliver (p : Program) (value : Option Register) (out : Register) (h : Nat) :
    (deliver value out).Fits p h h := by
  cases value <;> rfl

/-- Code fits the heights of its construct if its calls pass what the functions take. -/
theorem Emits.fits {s : Surroundings} {c : Construct} {a b : Allocation} {code : List Instr}
    {v : c.Value} {p : Program} (h : Emits s c a code v b) (hc : c.Agrees p) :
    Fits p code c.heights 0 := by
  induction h with
  | int | bool => exact ⟨rfl, trivial⟩
  | name | noArgs | noLines | noParams => trivial
  | brk => exact ⟨rfl, trivial⟩
  | assign _ _ _ _ ih => exact Fits.append (ih hc) ⟨rfl, trivial⟩
  | @binary _ _ _ _ _ lhs rhs _ _ _ _ _ _ _ _ _ _ ihl ihr =>
    obtain ⟨hl, hr⟩ := List.forall_mem_append.1 hc
    have hboth := (ihl hl).append_of_headD rhs.headD_heights (ihr hr)
    exact Fits.append hboth ⟨rfl, trivial⟩
  | @call _ _ _ _ args code places _ pos callee ha _ ih =>
    obtain ⟨hargs, hsite⟩ := List.forall_mem_append.1 hc
    obtain ⟨hmem, herr⟩ := hsite _ (List.mem_singleton.2 rfl)
    have hn : places.reverse.length = args.length := by
      rw [List.length_reverse, ha.length_places]
    have hpush := fits_pushes (p := p) places.reverse 0 (by
      rw [hn, Nat.zero_add]
      exact Program.le_operandBound hmem)
    rw [hn, Nat.zero_add] at hpush
    have hhead : (List.range' 0 args.length).headD args.length = 0 := by
      cases args <;> rfl
    have hpushed := (ih hargs).append_of_headD hhead hpush
    exact Fits.append hpushed ⟨⟨CallSite.error?_eq_none.1 herr, rfl⟩, rfl, trivial⟩
  | @branch _ _ _ _ _ _ _ thenBlock elseBlock _ _ _ _ _ thenValue elseValue _ _ _ _ _ iht ihth
      ihe =>
    simp only [Construct.Agrees, Construct.callSites, Expr.callSites, Line.elseCallSites_eq,
      List.forall_mem_append] at hc
    obtain ⟨⟨ht, hth⟩, he⟩ := hc
    have hthen := Line.headD_heightsAll thenBlock
    have helse := Line.headD_heightsAll (elseBlock.getD [])
    simp only [Construct.heights, Expr.heights, Line.heightsElse_eq]
    refine Fits.append (Fits.append (Fits.append (Fits.append (iht ht) ⟨rfl, trivial⟩) ?_) ?_)
      ⟨⟨rfl, rfl⟩, trivial⟩
    · exact (ihth hth).block hthen (fits_deliver p thenValue _ 0) rfl
    · exact (ihe he).block helse (fits_deliver p elseValue _ 0) rfl
  | @moreArgs _ _ _ _ e es _ _ _ _ _ _ ih₁ ih₂ =>
    obtain ⟨h₁, h₂⟩ := List.forall_mem_append.1 hc
    exact (ih₁ h₁).append_of_headD (Expr.headD_heightsAll es) (ih₂ h₂)
  | exprLine _ _ ih => exact ih hc
  | @loop _ _ _ body _ _ _ _ ih =>
    exact (ih hc).block (Line.headD_heightsAll body) rfl ⟨rfl, rfl⟩
  | @moreLines _ _ _ _ l ls _ _ _ _ _ _ _ ih₁ ih₂ =>
    obtain ⟨h₁, h₂⟩ := List.forall_mem_append.1 hc
    exact (ih₁ h₁).append_of_headD (Line.headD_heightsAll ls) (ih₂ h₂)
  | @moreParams _ _ _ _ x xs _ _ _ _ ih =>
    refine ⟨?_, ih hc⟩
    cases xs <;> rfl

/-! ## Heights at places -/

theorem getD_append (xs ys : List Nat) {k : Nat} (d : Nat) (hk : k ≤ xs.length) :
    (xs ++ ys)[k]?.getD d = xs[k]?.getD (ys.headD d) := by
  induction xs generalizing k with
  | nil =>
    obtain rfl : k = 0 := Nat.le_zero.1 hk
    cases ys <;> rfl
  | cons x xs ih =>
    cases k with
    | zero => rfl
    | succ k =>
      simp only [List.cons_append, List.getElem?_cons_succ]
      exact ih (Nat.le_of_succ_le_succ hk)

theorem getElem?_countdown {n k : Nat} (h : k ≤ n) : (countdown n)[k]?.getD 0 = n - k := by
  induction n generalizing k with
  | zero =>
    obtain rfl : k = 0 := Nat.le_zero.1 h
    rfl
  | succ n ih =>
    cases k with
    | zero => rfl
    | succ k =>
      simp only [countdown, List.getElem?_cons_succ]
      rw [ih (Nat.le_of_succ_le_succ h), Nat.succ_sub_succ]

namespace Program

variable {p before after : Program} {st : Statement} {f : FnDef} {start k : Nat} {c : Construct}

/-- The heights of a statement stand at its place, and behind them the stack is empty. -/
theorem heightAt_statement (hp : p = before ++ st :: after) (hk : k ≤ st.codeLength) :
    p.heightAt (before.codeLength + k) = st.heights[k]?.getD 0 := by
  have hlen := before.length_heights
  have hhead := after.headD_heights
  rw [← st.length_heights] at hk
  subst hp
  simp only [Program.heightAt, Program.heights, List.flatMap_append, List.flatMap_cons] at *
  rw [List.getElem?_append_right (by omega), ← hlen, Nat.add_sub_cancel_left, getD_append _ _ _ hk,
    hhead]

/-- The heights behind the entry of a definition. -/
theorem heightAt_fn (hp : p = before ++ .fn f :: after) (hk : k + 2 ≤ f.codeLength) :
    p.heightAt (before.codeLength + 2 + k) =
      (countdown f.params.length ++ (Line.heightsAll f.block ++ [0, 1, 0]))[k]?.getD 0 := by
  rw [Nat.add_assoc, Nat.add_comm 2 k, heightAt_statement hp hk]
  rfl

/-- The parameters are taken from the stack one by one. -/
theorem heightAt_param (hp : p = before ++ .fn f :: after) (hk : k ≤ f.params.length) :
    p.heightAt (before.codeLength + 2 + k) = f.params.length - k := by
  have hhead : (Line.heightsAll f.block ++ [0, 1, 0]).headD 0 = 0 := by
    rw [headD_append]
    exact Line.headD_heightsAll f.block
  rw [heightAt_fn hp (by simp only [FnDef.codeLength]; omega),
    getD_append _ _ _ (by rwa [length_countdown]), hhead, getElem?_countdown hk]

/-- The heights from the body of a function on. -/
theorem heightAt_body (hp : p = before ++ .fn f :: after)
    (hk : k ≤ Line.codeLengthAll f.block + 3) :
    p.heightAt (before.codeLength + 2 + f.params.length + k) =
      (Line.heightsAll f.block ++ [0, 1, 0])[k]?.getD 0 := by
  rw [Nat.add_assoc, heightAt_fn hp (by simp only [FnDef.codeLength]; omega),
    List.getElem?_append_right (by simp)]
  simp

/-- Behind the body of a function the stack is empty, but for the value at the return. -/
theorem heightAt_behindBody (hp : p = before ++ .fn f :: after) (hk : k ≤ 3) {i : Nat}
    (hi : i + 3 = before.codeLength + f.codeLength + k) :
    p.heightAt i = [0, 1, 0][k]?.getD 0 := by
  have hplace : i =
      before.codeLength + 2 + f.params.length + (Line.codeLengthAll f.block + k) := by
    simp only [FnDef.codeLength] at hi
    omega
  rw [hplace, heightAt_body hp (by omega), ← Line.length_heightsAll,
    List.getElem?_append_right (Nat.le_add_right _ _), Nat.add_sub_cancel_left]

/-- The heights of a piece stand at its place, and behind them the stack is empty. -/
theorem heightAt_piece (hp : p.Piece start c) (hk : k ≤ c.codeLength) :
    p.heightAt (start + k) = c.heights[k]?.getD 0 := by
  cases hp with
  | line hp => exact heightAt_statement hp hk
  | body hp =>
    simp only [Construct.codeLength] at hk
    rw [heightAt_body hp (by omega), getD_append _ _ _ (by rwa [Line.length_heightsAll])]
    rfl

/-- The calls of a piece pass what the functions take if all calls of the program do. -/
theorem Piece.agrees (hp : p.Piece start c) (hc : p.callError? = none) : c.Agrees p := by
  have hall {site : CallSite} (hs : site ∈ p.callSites) : site.error? p = none :=
    List.findSome?_eq_none_iff.1 hc site hs
  intro site hsite
  have hmem : site ∈ p.callSites := by
    cases hp with
    | line hp | body hp =>
      subst hp
      simp only [Program.callSites, List.flatMap_append, List.flatMap_cons, List.mem_append]
      exact .inr (.inl hsite)
  exact ⟨hmem, hall hmem⟩

end Program

namespace Linked

variable {p : Program} {code : List Instr} {start i k : Nat} {c : Construct} {instr : Instr}

theorem fits_piece (h : Linked p code) (hc : p.callError? = none) (hp : p.Piece start c)
    (hk : k < c.codeLength) (hi : code[start + k]? = some instr) :
    instr.Fits p (p.heightAt (start + k)) (p.heightAt (start + k + 1)) := by
  obtain ⟨s, a, part, v, b, -, hem, hcode⟩ := h.piece hp
  have hfits := hem.fits (hp.agrees hc)
  rw [hcode.getElem? (Nat.le_add_right _ _) (by rw [hem.length_eq]; omega),
    Nat.add_sub_cancel_left] at hi
  rw [Nat.add_assoc, Program.heightAt_piece hp (Nat.le_of_lt hk), Program.heightAt_piece hp hk]
  exact hfits.getElem? hi

/-- Every instruction fits the heights around it, but for the entries of functions. -/
theorem fits (h : Linked p code) (hc : p.callError? = none) (hi : code[i]? = some instr)
    (hentry : ∀ (before : Program) (f : FnDef) (after : Program), p = before ++ .fn f :: after →
      i ≠ before.codeLength + 1) : instr.Fits p (p.heightAt i) (p.heightAt (i + 1)) := by
  have hlt : i < p.codeLength := by
    rw [← h.length]
    exact (List.getElem?_eq_some_iff.1 hi).1
  obtain ⟨before, st, after, hp, hs, he⟩ := Program.exists_statement hlt
  cases st with
  | line l =>
    obtain ⟨k, rfl⟩ := Nat.le.dest hs
    exact h.fits_piece hc (.line hp) (Nat.lt_of_add_lt_add_left he) hi
  | fn f =>
    have hlen : f.codeLength = f.params.length + Line.codeLengthAll f.block + 5 := rfl
    cases h.fn_at hp hs he with
    | skip hj _ =>
      cases Option.some.inj (hi.symm.trans hj)
      exact Program.heightAt_statement hp (Nat.zero_le _)
    | entry => exact absurd rfl (hentry before f after hp)
    | param hs' he' hj =>
      obtain ⟨k, rfl⟩ := Nat.le.dest hs'
      cases Option.some.inj (hi.symm.trans hj)
      rw [Nat.add_assoc _ k, Program.heightAt_param hp (by omega),
        Program.heightAt_param hp (by omega)]
      simp only [Instr.Fits]
      omega
    | body hs' he' =>
      obtain ⟨k, rfl⟩ := Nat.le.dest hs'
      exact h.fits_piece hc (.body hp) (Nat.lt_of_add_lt_add_left he') hi
    | result hj =>
      cases Option.some.inj (hi.symm.trans hj)
      have hvalue : p.heightAt (before.codeLength + f.codeLength - 3) = 0 :=
        Program.heightAt_behindBody hp (k := 0) (by decide) (by omega)
      have hret : p.heightAt (before.codeLength + f.codeLength - 3 + 1) = 1 :=
        Program.heightAt_behindBody hp (k := 1) (by decide) (by omega)
      rw [hvalue, hret]
      exact ⟨rfl, p.one_le_operandBound⟩
    | ret hj =>
      cases Option.some.inj (hi.symm.trans hj)
      exact Program.heightAt_behindBody hp (k := 1) (by decide) (by omega)
    | behind hj =>
      cases Option.some.inj (hi.symm.trans hj)
      exact ⟨Program.heightAt_behindBody hp (k := 2) (by decide) (by omega),
        Program.heightAt_behindBody hp (k := 3) (by decide) (by omega)⟩

end Linked

/-! ## Places of lines -/

/-- A line of the construct starts behind `k` of its instructions. -/
inductive LineAt : Construct → Nat → Prop where
  | line (l : Line) : LineAt (.line l) 0
  | exprLine {e : Expr} {k : Nat} (pos : Pos) : LineAt (.expr e) k → LineAt (.line (.expr pos e)) k
  | loop {body : List Line} {k : Nat} (pos : Pos) : LineAt (.block none body) k →
      LineAt (.line (.loop pos body)) (1 + k)
  | head {l : Line} {k : Nat} (value : Option Register) (ls : List Line) : LineAt (.line l) k →
      LineAt (.block value (l :: ls)) k
  | tail {ls : List Line} {k : Nat} (value v : Option Register) (l : Line) :
      LineAt (.block v ls) k → LineAt (.block value (l :: ls)) (l.codeLength + k)
  | assign {value : Expr} {k : Nat} (pos : Pos) (x : Text) : LineAt (.expr value) k →
      LineAt (.expr (.assign pos x value)) k
  | lhs {lhs : Expr} {k : Nat} (pos : Pos) (op : Operator) (rhs : Expr) : LineAt (.expr lhs) k →
      LineAt (.expr (.binary pos op lhs rhs)) k
  | rhs {rhs : Expr} {k : Nat} (pos : Pos) (op : Operator) (lhs : Expr) : LineAt (.expr rhs) k →
      LineAt (.expr (.binary pos op lhs rhs)) (lhs.codeLength + k)
  | call {args : List Expr} {k : Nat} (pos : Pos) (callee : Text) : LineAt (.args args) k →
      LineAt (.expr (.call pos callee args)) k
  | firstArg {e : Expr} {k : Nat} (es : List Expr) : LineAt (.expr e) k →
      LineAt (.args (e :: es)) k
  | moreArgs {es : List Expr} {k : Nat} (e : Expr) : LineAt (.args es) k →
      LineAt (.args (e :: es)) (e.codeLength + k)
  | test {test : Expr} {k : Nat} (pos : Pos) (thenBlock : List Line)
      (elseBlock : Option (List Line)) : LineAt (.expr test) k →
      LineAt (.expr (.branch pos test thenBlock elseBlock)) k
  | ifOne {thenBlock : List Line} {k : Nat} (pos : Pos) (test : Expr)
      (elseBlock : Option (List Line)) : LineAt (.block none thenBlock) k →
      LineAt (.expr (.branch pos test thenBlock elseBlock)) (test.codeLength + 2 + k)
  | ifOther {elseBlock : List Line} {k : Nat} (pos : Pos) (test : Expr)
      (thenBlock : List Line) : LineAt (.block none elseBlock) k →
      LineAt (.expr (.branch pos test thenBlock (some elseBlock)))
        (test.codeLength + Line.codeLengthAll thenBlock + 5 + k)

/-- A line of the program starts at the place `i`: at the top level, in a function, or in a block
inside one of these. -/
def Program.LineAt (p : Program) (i : Nat) : Prop :=
  ∃ start c k, p.Piece start c ∧ FrameLang.LineAt c k ∧ i = start + k

/-- No operands are on the stack at the place `k` of code with the given heights. -/
def EmptyAt (hs : List Nat) (k : Nat) : Prop :=
  k ≤ hs.length ∧ hs[k]?.getD 0 = 0

theorem emptyAt_zero {hs : List Nat} (h : hs.headD 0 = 0) : EmptyAt hs 0 := by
  refine ⟨Nat.zero_le _, ?_⟩
  cases hs <;> exact h

theorem EmptyAt.left {hs ks : List Nat} {k : Nat} (h : EmptyAt hs k) (hhead : ks.headD 0 = 0) :
    EmptyAt (hs ++ ks) k := by
  refine ⟨by rw [List.length_append]; exact Nat.le_add_right_of_le h.1, ?_⟩
  rw [getD_append _ _ _ h.1, hhead]
  exact h.2

theorem EmptyAt.right {ks : List Nat} {k : Nat} (h : EmptyAt ks k) {n : Nat} (hs : List Nat)
    (hn : hs.length = n) : EmptyAt (hs ++ ks) (n + k) := by
  subst hn
  refine ⟨by rw [List.length_append]; exact Nat.add_le_add_left h.1 _, ?_⟩
  rw [List.getElem?_append_right (Nat.le_add_right _ _), Nat.add_sub_cancel_left]
  exact h.2

/-- The stack is empty where a line starts. -/
theorem LineAt.emptyAt {c : Construct} {k : Nat} (h : LineAt c k) : EmptyAt c.heights k := by
  induction h with
  | line l => exact emptyAt_zero l.headD_heights
  | exprLine _ _ ih => exact ih
  | assign _ _ _ ih => exact ih.left rfl
  | loop _ _ ih => exact (ih.left rfl).right [0] rfl
  | head _ ls _ ih => exact ih.left (Line.headD_heightsAll ls)
  | tail _ _ l _ ih => exact ih.right _ l.length_heights
  | lhs _ _ rhs _ ih =>
    refine EmptyAt.left (ih.left ?_) rfl
    exact rhs.headD_heights
  | rhs _ _ lhs _ ih => exact (ih.right _ lhs.length_heights).left rfl
  | @call args _ _ _ _ ih =>
    rw [Construct.heights, Expr.heights, List.append_assoc]
    refine ih.left ?_
    cases args <;> rfl
  | firstArg es _ ih => exact ih.left (Expr.headD_heightsAll es)
  | moreArgs e _ ih => exact ih.right _ e.length_heights
  | test _ _ _ _ ih => exact (((ih.left rfl).left rfl).left rfl).left rfl
  | @ifOne thenBlock k _ test _ _ ih =>
    have hlabel : EmptyAt (0 :: Line.heightsAll thenBlock ++ [0, 0]) (1 + k) :=
      (ih.left rfl).right [0] rfl
    have hlen : (test.heights ++ [0]).length = test.codeLength + 1 := by
      simp [test.length_heights]
    rw [show test.codeLength + 2 + k = test.codeLength + 1 + (1 + k) by omega]
    exact ((hlabel.right _ hlen).left rfl).left rfl
  | @ifOther elseBlock k _ test thenBlock _ ih =>
    have hlabel : EmptyAt (0 :: Line.heightsAll elseBlock ++ [0, 0]) (1 + k) :=
      (ih.left rfl).right [0] rfl
    have hlen : (test.heights ++ [0] ++ (0 :: Line.heightsAll thenBlock ++ [0, 0])).length =
        test.codeLength + Line.codeLengthAll thenBlock + 4 := by
      simp only [List.length_append, List.length_cons, List.length_nil, test.length_heights,
        Line.length_heightsAll]
      omega
    rw [show test.codeLength + Line.codeLengthAll thenBlock + 5 + k =
      test.codeLength + Line.codeLengthAll thenBlock + 4 + (1 + k) by omega]
    exact (hlabel.right _ hlen).left rfl

theorem Program.LineAt.heightAt {p : Program} {i : Nat} (h : p.LineAt i) : p.heightAt i = 0 := by
  obtain ⟨start, c, k, hp, hk, rfl⟩ := h
  obtain ⟨hle, hzero⟩ := hk.emptyAt
  rw [Program.heightAt_piece hp (by rwa [← c.length_heights]), hzero]

end FrameLang
