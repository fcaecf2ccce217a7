import FrameLang.Lowering.Build
import FrameLang.Proofs.Lowering.Layout

/-!
# Labels in code

Labels are numbered in the order in which they are drawn, and every label that is drawn is also
placed, exactly once. Jumps and branches stay inside the construct they belong to, except for a
`break`, which goes to the end of the loop around it.
-/

namespace FrameLang

/-- The program defines a function of the given name. -/
def Program.Defines (p : Program) (x : Text) : Prop :=
  ∃ f, .fn f ∈ p ∧ f.name = x

@[simp] theorem Program.not_defines_nil (x : Text) : ¬ Program.Defines [] x := by
  simp [Program.Defines]

theorem Program.defines_cons {st : Statement} {p : Program} {x : Text} :
    Program.Defines (st :: p) x ↔ (∃ f, st = .fn f ∧ f.name = x) ∨ p.Defines x := by
  simp only [Program.Defines, List.mem_cons, or_and_right, exists_or]
  simp only [eq_comm]

/-- The labels that jumps and branches go to. -/
@[simp] def Instr.targets : Instr → List Label
  | .jump target => [target]
  | .branch _ ifOne ifOther => [ifOne, ifOther]
  | _ => []

/-- How often a label is placed. -/
def placed (l : Label) (code : List Instr) : Nat :=
  code.countP (Instr.defines l)

theorem Label.ofNumber_inj {m n : Nat} (hm : m < 2 ^ 32) (hn : n < 2 ^ 32) :
    Label.ofNumber m = Label.ofNumber n ↔ m = n := by
  refine ⟨fun h => ?_, fun h => h ▸ rfl⟩
  have h' := congrArg UInt32.toNat (Label.numbered.inj h)
  rwa [UInt32.toNat_ofNat_of_lt' hm, UInt32.toNat_ofNat_of_lt' hn] at h'

@[simp] theorem Label.named_ne_ofNumber (x : Text) (n : Nat) : Label.named x ≠ .ofNumber n :=
  Label.noConfusion

section Placed

variable (l : Label)

@[simp] theorem placed_nil : placed l [] = 0 := rfl

@[simp] theorem placed_append (c d : List Instr) : placed l (c ++ d) = placed l c + placed l d :=
  List.countP_append

theorem placed_cons (i : Instr) (c : List Instr) :
    placed l (i :: c) = placed l c + if i = .label l then 1 else 0 := by
  unfold placed
  rw [List.countP_cons]
  cases i <;> simp [Instr.defines]

@[simp] theorem placed_pushes (rs : List Register) : placed l (rs.map .push).reverse = 0 := by
  simp [placed, Instr.defines]

@[simp] theorem deliver_ne_label (value : Option Register) (out : Register) :
    deliver value out ≠ .label l := by
  cases value <;> simp [deliver]


theorem placed_pos {c : List Instr} : 0 < placed l c ↔ .label l ∈ c := by
  induction c with
  | nil => simp
  | cons i rest ih =>
    rw [placed_cons, List.mem_cons, ← ih]
    by_cases h : i = .label l
    · simp [h]
    · simp [h, Ne.symm h]

end Placed

/-- Places of a label that is placed once are equal. -/
theorem placed_unique {l : Label} {code : List Instr} (h : placed l code ≤ 1) {i j : Nat}
    (hi : code[i]? = some (.label l)) (hj : code[j]? = some (.label l)) : i = j := by
  induction code generalizing i j with
  | nil => simp at hi
  | cons x rest ih =>
    rw [placed_cons] at h
    have hrest {k : Nat} (hk : rest[k]? = some (.label l)) : 0 < placed l rest :=
      (placed_pos l).2 (List.mem_of_getElem? hk)
    match i, j with
    | 0, 0 => rfl
    | 0, j + 1 =>
      have hx : x = .label l := by simpa using hi
      have := hrest (k := j) (by simpa using hj)
      simp only [hx, if_true] at h
      omega
    | i + 1, 0 =>
      have hx : x = .label l := by simpa using hj
      have := hrest (k := i) (by simpa using hi)
      simp only [hx, if_true] at h
      omega
    | i + 1, j + 1 =>
      have := ih (by omega) (i := i) (j := j) (by simpa using hi) (by simpa using hj)
      omega

/-- One if `k` is among the numbers from `m` up to `n`, and zero otherwise. -/
def drawn (m n k : Nat) : Nat := if m ≤ k ∧ k < n then 1 else 0

theorem drawn_self (m k : Nat) : drawn m m k = 0 := by
  unfold drawn
  split <;> omega

theorem drawn_split {m n o : Nat} (k : Nat) (h : m ≤ n) (h' : n ≤ o) :
    drawn m o k = drawn m n k + drawn n o k := by
  unfold drawn
  split <;> split <;> split <;> omega

theorem drawn_add_two (m k : Nat) :
    drawn m (m + 2) k = drawn m (m + 1) k + drawn (m + 1) (m + 1 + 1) k :=
  drawn_split k (Nat.le_succ _) (Nat.le_succ _)

theorem drawn_add_three (m k : Nat) : drawn m (m + 3) k =
    drawn m (m + 1) k + drawn (m + 1) (m + 1 + 1) k + drawn (m + 2) (m + 2 + 1) k := by
  rw [← drawn_add_two]
  exact drawn_split k (Nat.le_add_right _ _) (Nat.le_succ _)

theorem placed_label {m k : Nat} (hm : m < 2 ^ 32) (hk : k < 2 ^ 32) (c : List Instr) :
    placed (.ofNumber k) (.label (.ofNumber m) :: c) =
      placed (.ofNumber k) c + drawn m (m + 1) k := by
  simp only [placed_cons, Instr.label.injEq, Label.ofNumber_inj hm hk, drawn]
  split <;> split <;> omega

/-- Jumps and branches of `part` go to labels of `code`, or to the end of the loop around it. -/
def Closed (loopEnd : Option Label) (part code : List Instr) : Prop :=
  ∀ i ∈ part, ∀ l ∈ i.targets, .label l ∈ code ∨ loopEnd = some l

section Closed

variable {loopEnd : Option Label} {part code : List Instr}

@[simp] theorem closed_nil : Closed loopEnd [] code := by
  simp [Closed]

@[simp] theorem closed_cons {i : Instr} : Closed loopEnd (i :: part) code ↔
    (∀ l ∈ i.targets, .label l ∈ code ∨ loopEnd = some l) ∧ Closed loopEnd part code := by
  simp [Closed]

@[simp] theorem closed_append {rest : List Instr} : Closed loopEnd (part ++ rest) code ↔
    Closed loopEnd part code ∧ Closed loopEnd rest code := by
  simp [Closed, or_imp, forall_and]

@[simp] theorem closed_pushes (rs : List Register) :
    Closed loopEnd (rs.map .push).reverse code := by
  simp [Closed]

/-- The end of a loop closes the jumps of its body. -/
theorem Closed.close {l : Label} (h : Closed (some l) part code) (hl : .label l ∈ code) :
    Closed loopEnd part code := by
  intro i hi m hm
  rcases h i hi m hm with hm' | hm'
  · exact .inl hm'
  · cases hm'
    exact .inl hl

end Closed

/-! ## Constructs -/

namespace Emits

variable {s : Surroundings} {c : Construct} {a b : Allocation} {code : List Instr} {v : c.Value}

/-- A label is placed once if it was drawn for this code, and not at all otherwise. -/
theorem placed_ofNumber (h : Emits s c a code v b) (hb : b.labels ≤ 2 ^ 32) {k : Nat}
    (hk : k < 2 ^ 32) : placed (.ofNumber k) code = drawn a.labels b.labels k := by
  induction h with
  | int _ _ hr | bool _ _ hr => simp [placed_cons, Lower.register_labels hr, drawn_self]
  | name _ _ hn => simp [Lower.named_labels hn, drawn_self]
  | assign _ _ _ hn ih =>
    rw [Lower.named_labels hn] at hb ⊢
    simp [placed_cons, ih hb]
  | binary _ _ hl hr ho ihl ihr =>
    rw [Lower.register_labels ho] at hb ⊢
    have hg := hr.growsTo.labels
    rw [drawn_split k hl.growsTo.labels hg, ← ihl (by omega), ← ihr hb]
    simp [placed_cons]
  | call _ _ _ ho ih =>
    rw [Lower.register_labels ho] at hb ⊢
    simp [placed_cons, ih hb]
  | @branch _ _ _ a₂ a₃ b _ _ _ _ _ _ _ _ _ _ _ ho ht hth he iht ihth ihe =>
    have hg₂ := ht.growsTo.labels
    have hg₃ := hth.growsTo.labels
    have hg := he.growsTo.labels
    rw [Lower.register_labels ho] at hg₂ iht
    simp only [] at hg₃ ihth
    -- The labels in the order in which they are drawn: test, the three of this branch, blocks.
    rw [drawn_split k hg₂ (by omega : a₂.labels ≤ b.labels),
      drawn_split k (by omega : a₂.labels ≤ a₂.labels + 3) (Nat.le_trans hg₃ hg),
      drawn_split k hg₃ hg, drawn_add_three]
    simp only [placed_append, List.cons_append, placed_label (by omega : a₂.labels < 2 ^ 32) hk,
      placed_label (by omega : a₂.labels + 1 < 2 ^ 32) hk,
      placed_label (by omega : a₂.labels + 2 < 2 ^ 32) hk,
      placed_cons, placed_nil, reduceCtorEq, if_false, deliver_ne_label]
    rw [iht (by omega), ihth (by omega), ihe hb]
    omega
  | noArgs | brk | noLines | noParams => simp [placed_cons, drawn_self]
  | moreArgs h₁ h₂ ih₁ ih₂ | moreLines _ h₁ h₂ ih₁ ih₂ =>
    have hg := h₂.growsTo.labels
    rw [placed_append, drawn_split k h₁.growsTo.labels hg, ih₁ (by omega), ih₂ hb]
  | exprLine _ _ ih => exact ih hb
  | @loop _ a b _ _ _ _ hl ih =>
    have hg := hl.growsTo.labels
    simp only [] at hg ih
    rw [drawn_split k (by omega : a.labels ≤ a.labels + 2) hg, drawn_add_two]
    simp only [placed_append, List.cons_append, placed_label (by omega : a.labels < 2 ^ 32) hk,
      placed_label (by omega : a.labels + 1 < 2 ^ 32) hk, placed_cons, placed_nil, reduceCtorEq,
      if_false]
    rw [ih hb]
    omega
  | moreParams hn _ ih =>
    rw [placed_cons, ih hb, Lower.named_labels hn]
    simp

/-- No entry and no return stands inside a body, and calls go to names. -/
theorem notMem (h : Emits s c a code v b) (x : Text) (n : UInt32) :
    .ret ∉ code ∧ .label (.named x) ∉ code ∧ .call (.numbered n) ∉ code := by
  induction h with
  | int | bool | name | noArgs | brk | noLines | noParams => simp
  | assign _ _ _ _ ih | call _ _ _ _ ih | moreParams _ _ ih => simp [ih]
  | binary _ _ _ _ _ ih₁ ih₂ | moreArgs _ _ ih₁ ih₂ | moreLines _ _ _ ih₁ ih₂ => simp [ih₁, ih₂]
  | @branch _ _ _ _ _ _ _ _ _ _ _ _ _ _ thenValue elseValue _ _ _ _ _ iht ihth ihe =>
    cases thenValue <;> cases elseValue <;> simp [deliver, iht, ihth, ihe]
  | exprLine _ _ ih => exact ih
  | loop _ _ ih => simp [ih]

/-- Jumps and branches stay inside the code, or go to the end of the loop around it. -/
theorem closed (h : Emits s c a code v b) {whole : List Instr} (hw : code ⊆ whole) :
    Closed s.loopEnd code whole := by
  induction h with
  | int | bool | name | noArgs | noLines | noParams => simp
  | brk _ ht => simp [ht]
  | assign _ _ _ _ ih =>
    simp only [List.append_subset] at hw
    simpa using ih hw.1
  | binary _ _ _ _ _ ihl ihr =>
    simp only [List.append_subset] at hw
    simpa using ⟨ihl hw.1.1, ihr hw.1.2⟩
  | call _ _ _ _ ih =>
    simp only [List.append_subset] at hw
    simpa using ih hw.1.1
  | @branch _ _ _ a₂ _ _ _ _ _ _ _ _ _ _ thenValue elseValue _ _ _ _ _ iht ihth ihe =>
    simp only [List.append_subset, List.cons_append, List.cons_subset] at hw
    obtain ⟨⟨⟨⟨ht, -⟩, hl, hth, -⟩, hl', he, -⟩, hl'', -⟩ := hw
    cases thenValue <;> cases elseValue <;>
      simpa [deliver, hl, hl', hl''] using ⟨iht ht, ihth hth, ihe he⟩
  | moreArgs _ _ ih₁ ih₂ | moreLines _ _ _ ih₁ ih₂ =>
    simp only [List.append_subset] at hw
    simpa using ⟨ih₁ hw.1, ih₂ hw.2⟩
  | exprLine _ _ ih => exact ih hw
  | loop _ _ ih =>
    simp only [List.append_subset, List.cons_subset, List.cons_append] at hw
    obtain ⟨hl, hb, -, hl', -⟩ := hw
    simpa [hl] using (ih hb).close hl'
  | moreParams _ _ ih =>
    simp only [List.cons_subset] at hw
    simpa using ih hw.2

end Emits

/-! ## Statements and programs -/

namespace Statement.Emits

variable {st : Statement} {a b : Allocation} {code : List Instr} {v : Option Register}

theorem placed_ofNumber (h : st.Emits a code v b) (hb : b.labels ≤ 2 ^ 32) {k : Nat}
    (hk : k < 2 ^ 32) : placed (.ofNumber k) code = drawn a.labels b.labels k := by
  cases h with
  | line hl => exact hl.placed_ofNumber hb hk
  | fn hp hbody =>
    have hgp := hp.growsTo.labels
    have hgb := hbody.growsTo.labels
    simp only [] at hgp hb ⊢
    rw [drawn_split k (Nat.le_add_right a.labels 1) (Nat.le_trans hgp hgb), drawn_split k hgp hgb,
      ← hp.placed_ofNumber (Nat.le_trans hgb hb) hk, ← hbody.placed_ofNumber hb hk]
    simp only [placed_append, placed_label (by omega : a.labels < 2 ^ 32) hk, placed_cons,
      placed_nil, reduceCtorEq, if_false, Instr.label.injEq, Label.named_ne_ofNumber]
    omega

/-- A name is placed by its definitions only. -/
theorem named_mem (h : st.Emits a code v b) (x : Text) :
    .label (.named x) ∈ code ↔ ∃ f, st = .fn f ∧ f.name = x := by
  cases h with
  | line hl => simp [(hl.notMem x 0).2.1]
  | fn hp hbody => simp [(hp.notMem x 0).2.1, (hbody.notMem x 0).2.1, eq_comm]

theorem call_numbered_notMem (h : st.Emits a code v b) (n : UInt32) :
    .call (.numbered n) ∉ code := by
  cases h with
  | line hl => exact (hl.notMem [] n).2.2
  | fn hp hbody => simp [(hp.notMem [] n).2.2, (hbody.notMem [] n).2.2]

theorem closed (h : st.Emits a code v b) {whole : List Instr} (hw : code ⊆ whole) :
    Closed none code whole := by
  cases h with
  | line hl => exact hl.closed hw
  | fn hp hbody =>
    simp only [List.append_subset, List.cons_subset] at hw
    obtain ⟨⟨-, ⟨hpw, hbw⟩, -⟩, hl, -⟩ := hw
    have hpc := hp.closed hpw
    have hbc := hbody.closed hbw
    simp only [FnDef.surroundings] at hpc hbc
    simp [hl, hpc, hbc]

end Statement.Emits

namespace Program.Emits

variable {p : Program} {a b : Allocation} {code : List Instr} {result final : Option Register}

theorem placed_ofNumber (h : Program.Emits result p a code final b) (hb : b.labels ≤ 2 ^ 32)
    {k : Nat} (hk : k < 2 ^ 32) : placed (.ofNumber k) code = drawn a.labels b.labels k := by
  induction h with
  | nil => simp [drawn_self]
  | cons hs hr ih =>
    have hg := hr.growsTo.labels
    rw [placed_append, drawn_split k hs.growsTo.labels hg, ih hb,
      hs.placed_ofNumber (Nat.le_trans hg hb) hk]

theorem named_mem (h : Program.Emits result p a code final b) (x : Text) :
    .label (.named x) ∈ code ↔ p.Defines x := by
  induction h with
  | nil => simp
  | cons hs hr ih =>
    rw [List.mem_append, hs.named_mem, ih, Program.defines_cons]

theorem call_numbered_notMem (h : Program.Emits result p a code final b) (n : UInt32) :
    .call (.numbered n) ∉ code := by
  induction h with
  | nil => simp
  | cons hs hr ih => simp [hs.call_numbered_notMem n, ih]

theorem closed (h : Program.Emits result p a code final b) {whole : List Instr}
    (hw : code ⊆ whole) : Closed none code whole := by
  induction h with
  | nil => simp
  | cons hs _ ih =>
    rw [List.append_subset] at hw
    exact closed_append.2 ⟨hs.closed hw.1, ih hw.2⟩

end Program.Emits

end FrameLang
