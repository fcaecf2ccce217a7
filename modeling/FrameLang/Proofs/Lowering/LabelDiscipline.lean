import FrameLang.Proofs.Lowering.Places

/-!
# The label discipline of built programs

In the listing of a program no label stands twice and every jump has somewhere to go. A name that is
defined several times is the label of its last definition alone; the entries of the others become
numbered labels that nothing goes to. So every listing that a build gives can be loaded and run.

## Main definitions

* `LabelDiscipline` — what the labels of a listing satisfy.
-/

namespace FrameLang

/-- What the labels of a listing of `p` satisfy. A definition that follows `before` starts at the
place `before.codeLength`. -/
structure LabelDiscipline (p : Program) (listing : Listing) : Prop where
  /-- No label is placed twice. -/
  distinct {i j : Nat} {l : Label} : listing.code[i]? = some (.label l) →
    listing.code[j]? = some (.label l) → i = j
  /-- Jumps and branches go to labels that are placed. -/
  defined {i : Instr} {l : Label} : i ∈ listing.code → l ∈ i.targets → .label l ∈ listing.code
  /-- The code of every definition stands at its place. -/
  laidOut {before after : Program} {f : FnDef} : p = before ++ .fn f :: after →
    f.PlacedAt listing.code before.codeLength
  /-- A definition starts with a jump to the label directly behind its return. -/
  skipped {before after : Program} {f : FnDef} : p = before ++ .fn f :: after →
    ∃ l, listing.code[before.codeLength]? = some (.jump l) ∧
      listing.code[before.codeLength + f.codeLength - 2]? = some .ret ∧
      listing.code[before.codeLength + f.codeLength - 1]? = some (.label l)
  /-- A name is placed directly behind the jump of its last definition, and nowhere else. -/
  entry {before after : Program} {f : FnDef} : p = before ++ .fn f :: after →
    ¬ after.Defines f.name →
    ∀ i, listing.code[i]? = some (.label (.named f.name)) ↔ i = before.codeLength + 1
  /-- The entry of any other definition is a numbered label that nothing goes to. -/
  renamed {before after : Program} {f : FnDef} : p = before ++ .fn f :: after →
    after.Defines f.name →
    ∃ n, listing.code[before.codeLength + 1]? = some (.label (.numbered n)) ∧
      ∀ i ∈ listing.code, .numbered n ∉ i.targets ∧ i ≠ .call (.numbered n)
  /-- The names that are placed are those that are defined. -/
  names (x : Text) : .label (.named x) ∈ listing.code ↔ p.Defines x
  /-- Every register exists, in use or not. -/
  registers : ∀ op ∈ listing.operations, op.inRange = true
  /-- The listing can be loaded. -/
  loads : listing.load = .ok ⟨listing.code.toArray, listing.result⟩
  /-- A run of the listing is never refused. -/
  runs (fuel : Nat) (message : Text) : listing.execute fuel ≠ some (.refused message)

/-- A run ends behind the code or at a fault. -/
theorem Image.runFrom_ne_refused (image : Image) (fuel steps : Nat) (s : State) (message : Text) :
    (image.runFrom fuel steps s).map Prod.fst ≠ some (.refused message) := by
  fun_induction Image.runFrom image fuel steps s with
  | case1 => simp
  | case2 | case4 => simp
  | case3 _ _ _ _ _ _ _ ih => exact ih

namespace Program.Emits

variable {p : Program} {a : Allocation} {code : List Instr} {result final : Option Register}

/-- Jumps and branches of relabelled code go to labels that the code had before. -/
theorem target_mem (h : Program.Emits result p {} code final a) {i : Instr} {l : Label}
    (hi : i ∈ relabelShadowed a.labels code) (hl : l ∈ i.targets) : .label l ∈ code := by
  rcases mem_relabelShadowed hi with hi | ⟨m, rfl⟩
  · rcases h.closed (List.Subset.refl _) i hi l hl with hmem | hnone
    · exact hmem
    · cases hnone
  · cases hl

/-- A shadowed entry gets a label that nothing goes to. -/
theorem renamed_relabelShadowed {before after : Program} {f : FnDef}
    (h : Program.Emits result (before ++ .fn f :: after) {} code final a)
    (hl : a.labels + shadowed code < 2 ^ 32) (hf : after.Defines f.name) :
    ∃ n, (relabelShadowed a.labels code)[before.codeLength + 1]? = some (.label (.numbered n)) ∧
      ∀ i ∈ relabelShadowed a.labels code, .numbered n ∉ i.targets ∧ i ≠ .call (.numbered n) := by
  obtain ⟨hentry, hdrop⟩ := h.entry_at
  rcases getElem?_relabelShadowed a.labels hentry with
    ⟨hno, -⟩ | ⟨x, m, hx, hmem, hm, hm', hi⟩
  · exact absurd (hdrop.2 hf) (hno f.name rfl)
  · have hnew : .label (.ofNumber m) ∉ code := by
      rw [← placed_pos, h.placed_ofNumber (by omega) (by omega : m < 2 ^ 32)]
      simp only [drawn]
      split <;> omega
    refine ⟨UInt32.ofNat m, hi, fun i hi => ⟨fun ht => hnew (h.target_mem hi ht), ?_⟩⟩
    rintro rfl
    rcases mem_relabelShadowed hi with hi | ⟨_, hi⟩
    · exact h.call_numbered_notMem _ hi
    · cases hi

end Program.Emits

/-- Every listing that a build gives keeps the label discipline, as long as the label numbers fit
their words. -/
theorem Program.build_labelDiscipline {p : Program} {checkArity : Bool} {listing : Listing}
    (h : p.build checkArity = .ok listing) (hl : p.labelsDrawn < 2 ^ 32) :
    LabelDiscipline p listing := by
  have hlinked := Program.build_linked h hl
  have hload := Program.build_load h hl
  obtain ⟨code, result, a, hlower, hd, -, rfl⟩ := Program.build_eq_ok h
  have he := Program.lower_emits hlower
  rw [hd] at hl
  refine
    { distinct := placed_unique (hlinked.placed_le _)
      defined := fun hi hl => ?_
      laidOut := hlinked.fn
      skipped := fun hp => (hlinked.fn hp).skipped
      entry := fun hp hf i => ?_
      renamed := fun hp hf => ?_
      names := fun x => ⟨hlinked.named, fun hx => ?_⟩
      registers := (Program.build_inRange h).1
      loads := hload
      runs := fun fuel message => ?_ }
  · rw [Listing.code_ofInstrs] at hi ⊢
    exact label_mem_relabelShadowed (he.target_mem hi hl)
  · exact ⟨fun hi => placed_unique (hlinked.placed_le _) hi (hlinked.kept hp hf),
      fun hi => hi ▸ hlinked.kept hp hf⟩
  · subst hp
    rw [Listing.code_ofInstrs]
    exact he.renamed_relabelShadowed hl hf
  · rw [Listing.code_ofInstrs]
    exact label_mem_relabelShadowed ((he.named_mem x).2 hx)
  · simp only [Listing.execute, hload]
    exact Image.runFrom_ne_refused _ fuel 0 .initial message

theorem Program.sample_labelDiscipline : ∃ listing, Program.sample.build true = .ok listing ∧
    Program.sample.labelsDrawn < 2 ^ 32 ∧ LabelDiscipline Program.sample listing := by
  obtain ⟨listing, h⟩ : ∃ listing, Program.sample.build true = .ok listing :=
    Program.exists_listing (by decide +kernel)
  have hl : Program.sample.labelsDrawn < 2 ^ 32 := by decide +kernel
  exact ⟨listing, h, hl, Program.build_labelDiscipline h hl⟩

end FrameLang
