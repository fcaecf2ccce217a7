import FrameLang.Proofs.Lowering.BuiltCode

/-!
# Places in built code

What stands at a place of built code, read off the statement that the place belongs to, and where
control goes from there. Code is divided into pieces, which are the lines at the top level and the
bodies of functions; a jump stays in its piece or goes over a whole definition.

## Main definitions

* `Program.Piece` — the pieces of a program and their places.
* `FnDef.HasAt` — what stands at a place of a definition.
-/

namespace FrameLang

/-! ## Definitions -/

theorem Emits.mem_params {s : Surroundings} {xs : List Text} {a b : Allocation}
    {code : List Instr} {i : Instr} (h : Emits s (.params xs) a code () b) (hi : i ∈ code) :
    ∃ r, i = .pop r := by
  induction xs generalizing a code with
  | nil =>
    cases h
    cases hi
  | cons x xs ih =>
    cases h with
    | moreParams _ hr =>
      rcases List.mem_cons.1 hi with rfl | hi
      · exact ⟨_, rfl⟩
      · exact ih hr hi

namespace FnDef.PlacedAt

variable {f : FnDef} {code : List Instr} {start i : Nat}

/-- The parts of a definition behind its entry, each at its place. -/
theorem parts (h : f.PlacedAt code start) :
    ∃ skip mid inner params body place,
      Emits f.surroundings (.params f.params) { labels := skip + 1 } params () mid ∧
      Emits f.surroundings (.block none f.block) mid body (some place) inner ∧
      code[start]? = some (.jump (.ofNumber skip)) ∧ CodeAt code (start + 2) params ∧
      CodeAt code (start + 2 + f.params.length) body ∧
      code[start + f.codeLength - 3]? = some (.push place) ∧
      code[start + f.codeLength - 2]? = some .ret ∧
      code[start + f.codeLength - 1]? = some (.label (.ofNumber skip)) := by
  obtain @⟨skip, mid, inner, params, body, place, hp, hb, hj, hc⟩ := h
  have hlp : params.length = f.params.length := hp.length_eq
  have hlb : body.length = Line.codeLengthAll f.block := hb.length_eq
  simp only [codeAt_append, codeAt_cons, List.length_append, hlp, hlb] at hc
  obtain ⟨⟨hcp, hcb⟩, hpush, hret, hlabel, -⟩ := hc
  have hlen : f.codeLength = f.params.length + Line.codeLengthAll f.block + 5 := rfl
  refine ⟨skip, mid, inner, params, body, place, hp, hb, hj, hcp, hcb, ?_, ?_, ?_⟩
  · rw [hlen, ← hpush]
    congr 1
    omega
  · rw [hlen, ← hret]
    congr 1
    omega
  · rw [hlen, ← hlabel]
    congr 1
    omega

/-- A definition starts with a jump to the label behind its return. -/
theorem skipped (h : f.PlacedAt code start) : ∃ l, code[start]? = some (.jump l) ∧
    code[start + f.codeLength - 2]? = some .ret ∧
    code[start + f.codeLength - 1]? = some (.label l) := by
  obtain ⟨skip, _, _, _, _, _, -, -, hj, -, -, -, hr, hl⟩ := h.parts
  exact ⟨.ofNumber skip, hj, hr, hl⟩

end FnDef.PlacedAt

/-! ## Pieces -/

/-- The lines at the top level and the bodies of functions, with the places they start at. -/
inductive Program.Piece (p : Program) : Nat → Construct → Prop where
  | line {before after : Program} {l : Line} : p = before ++ .line l :: after →
      p.Piece before.codeLength (.line l)
  | body {before after : Program} {f : FnDef} : p = before ++ .fn f :: after →
      p.Piece (before.codeLength + 2 + f.params.length) (.block none f.block)

/-- What stands at a place of a definition that starts at `start`. -/
inductive FnDef.HasAt (f : FnDef) (code : List Instr) (start : Nat) : Nat → Prop where
  | skip {l : Label} : code[start]? = some (.jump l) →
      code[start + f.codeLength - 1]? = some (.label l) → f.HasAt code start start
  | entry {l : Label} : code[start + 1]? = some (.label l) → f.HasAt code start (start + 1)
  | param {i : Nat} {r : Register} : start + 2 ≤ i → i < start + 2 + f.params.length →
      code[i]? = some (.pop r) → f.HasAt code start i
  | body {i : Nat} : start + 2 + f.params.length ≤ i →
      i < start + 2 + f.params.length + Line.codeLengthAll f.block → f.HasAt code start i
  | result {r : Register} : code[start + f.codeLength - 3]? = some (.push r) →
      f.HasAt code start (start + f.codeLength - 3)
  | ret : code[start + f.codeLength - 2]? = some .ret →
      f.HasAt code start (start + f.codeLength - 2)
  | behind {l : Label} : code[start + f.codeLength - 1]? = some (.label l) →
      f.HasAt code start (start + f.codeLength - 1)

namespace Linked

variable {p before after : Program} {code : List Instr} {f : FnDef} {start i : Nat}
  {c : Construct} {instr : Instr} {l : Label}

/-- The code of a piece stands at its place. -/
theorem piece (h : Linked p code) (hp : p.Piece start c) :
    ∃ s a part v b, s.loopEnd = none ∧ Emits s c a part v b ∧ CodeAt code start part := by
  cases hp with
  | line hp =>
    obtain ⟨he, hc⟩ := h.line hp
    exact ⟨_, _, _, _, _, rfl, he, hc⟩
  | body hp =>
    obtain ⟨_, mid, inner, _, body, place, -, hb, -, -, hc, -⟩ := (h.fn hp).parts
    exact ⟨_, _, _, _, _, rfl, hb, hc⟩

/-- A jump inside a piece goes to a label of the piece. -/
theorem target_in_piece (h : Linked p code) (hp : p.Piece start c) (hi : code[i]? = some instr)
    (hs : start ≤ i) (he : i < start + c.codeLength) (hl : l ∈ instr.targets) :
    ∃ k < c.codeLength, code[start + k]? = some (.label l) := by
  obtain ⟨s, a, part, v, b, hend, hem, hc⟩ := h.piece hp
  rw [← hem.length_eq] at he ⊢
  rw [hc.getElem? hs he] at hi
  rcases hem.closed (List.Subset.refl _) _ (List.mem_of_getElem? hi) l hl with hmem | hloop
  · obtain ⟨k, hk⟩ := List.getElem?_of_mem hmem
    exact ⟨k, (List.getElem?_eq_some_iff.1 hk).1, hc k _ hk⟩
  · cases hend.symm.trans hloop

/-- What stands at a place of a definition. -/
theorem fn_at (h : Linked p code) (hp : p = before ++ .fn f :: after)
    (hs : before.codeLength ≤ i) (he : i < before.codeLength + f.codeLength) :
    f.HasAt code before.codeLength i := by
  obtain ⟨skip, _, _, params, _, place, hparams, -, hj, hc, -, hpush, hret, hlabel⟩ :=
    (h.fn hp).parts
  obtain ⟨l, hentry⟩ := h.entry hp
  have hlen : f.codeLength = f.params.length + Line.codeLengthAll f.block + 5 := rfl
  have hlp : params.length = f.params.length := hparams.length_eq
  rcases Nat.lt_or_ge i (before.codeLength + 2) with h₁ | h₁
  · rcases Nat.lt_or_ge i (before.codeLength + 1) with h₀ | h₀
    · obtain rfl : i = before.codeLength := by omega
      exact .skip hj hlabel
    · obtain rfl : i = before.codeLength + 1 := by omega
      exact .entry hentry
  · rcases Nat.lt_or_ge i (before.codeLength + 2 + f.params.length) with h₂ | h₂
    · have hlt : i - (before.codeLength + 2) < params.length := by omega
      have hget := List.getElem?_eq_getElem hlt
      obtain ⟨r, hr⟩ := hparams.mem_params (List.mem_of_getElem? hget)
      refine .param h₁ h₂ (r := r) ?_
      rw [hc.getElem? h₁ (by omega), hget, hr]
    · rcases Nat.lt_or_ge i (before.codeLength + f.codeLength - 3) with h₃ | h₃
      · exact .body h₂ (by omega)
      · rcases (by omega : i = before.codeLength + f.codeLength - 3 ∨
          i = before.codeLength + f.codeLength - 2 ∨
          i = before.codeLength + f.codeLength - 1) with rfl | rfl | rfl
        · exact .result hpush
        · exact .ret hret
        · exact .behind hlabel

/-- A jump goes over the definition that it starts, or stays in its piece. -/
theorem target_cases (h : Linked p code) (hi : code[i]? = some instr) (hl : l ∈ instr.targets) :
    (∃ (before : Program) (f : FnDef) (after : Program), p = before ++ .fn f :: after ∧
      i = before.codeLength ∧ code[before.codeLength + f.codeLength - 1]? = some (.label l)) ∨
    ∃ start c k, p.Piece start c ∧ start ≤ i ∧ i < start + c.codeLength ∧ k < c.codeLength ∧
      code[start + k]? = some (.label l) := by
  have hlt : i < p.codeLength := by
    rw [← h.length]
    exact (List.getElem?_eq_some_iff.1 hi).1
  obtain ⟨before, st, after, hp, hs, he⟩ := Program.exists_statement hlt
  cases st with
  | line l' =>
    obtain ⟨k, hk, hlabel⟩ := h.target_in_piece (.line hp) hi hs he hl
    exact .inr ⟨_, _, k, .line hp, hs, he, hk, hlabel⟩
  | fn f =>
    have htarget {j : Instr} (hj : code[i]? = some j) : l ∈ j.targets := by
      rwa [Option.some.inj (hj.symm.trans hi)]
    cases h.fn_at hp hs he with
    | skip hj hm =>
      rw [← List.mem_singleton.1 (htarget hj)] at hm
      exact .inl ⟨before, f, after, hp, rfl, hm⟩
    | body hs' he' =>
      obtain ⟨k, hk, hlabel⟩ := h.target_in_piece (.body hp) hi hs' he' hl
      exact .inr ⟨_, _, k, .body hp, hs', he', hk, hlabel⟩
    | entry hj | param _ _ hj | result hj | ret hj | behind hj => cases htarget hj

end Linked

end FrameLang
