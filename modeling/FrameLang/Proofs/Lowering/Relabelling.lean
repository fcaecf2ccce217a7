import FrameLang.Proofs.Lowering.Labels

/-!
# Relabelling shadowed definitions

Of several definitions of a name only the last keeps the name as its label; the others get numbered
labels that were never drawn before. Nothing else in the code changes.

## Main definitions

* `shadowed` — how many entries lose their names.
* `CodeAt` — a piece of code stands at a place.
-/

namespace FrameLang

/-- The number of entries that lose their names. -/
def shadowed : List Instr → Nat
  | [] => 0
  | .label (.named x) :: rest => (if .label (.named x) ∈ rest then 1 else 0) + shadowed rest
  | _ :: rest => shadowed rest

/-- The code `part` stands in `code` from the place `start` on. -/
def CodeAt (code : List Instr) (start : Nat) (part : List Instr) : Prop :=
  ∀ k i, part[k]? = some i → code[start + k]? = some i

section CodeAt

variable {code part rest : List Instr} {start : Nat}

@[simp] theorem codeAt_nil : CodeAt code start [] := by
  simp [CodeAt]

@[simp] theorem codeAt_cons {i : Instr} :
    CodeAt code start (i :: part) ↔ code[start]? = some i ∧ CodeAt code (start + 1) part := by
  refine ⟨fun h => ⟨h 0 i rfl, fun k j hj => ?_⟩, fun ⟨hi, h⟩ k j hj => ?_⟩
  · rw [Nat.add_right_comm, Nat.add_assoc]
    exact h (k + 1) j (by simpa using hj)
  · cases k with
    | zero => simpa [← Option.some.inj hj] using hi
    | succ k =>
      have := h k j (by simpa using hj)
      rwa [Nat.add_right_comm, Nat.add_assoc] at this

@[simp] theorem codeAt_append : CodeAt code start (part ++ rest) ↔
    CodeAt code start part ∧ CodeAt code (start + part.length) rest := by
  induction part generalizing start with
  | nil => simp
  | cons i part ih => simp [ih, and_assoc, Nat.add_assoc, Nat.add_comm 1]

theorem codeAt_self (before part after : List Instr) :
    CodeAt (before ++ part ++ after) before.length part := by
  intro k i hk
  rw [List.append_assoc, List.getElem?_append_right (Nat.le_add_right _ _), Nat.add_sub_cancel_left]
  rw [List.getElem?_append_left (List.getElem?_eq_some_iff.1 hk).1, hk]

theorem CodeAt.getElem? (h : CodeAt code start part) {i : Nat} (hl : start ≤ i)
    (hr : i < start + part.length) : code[i]? = part[i - start]? := by
  have hlt : i - start < part.length := by omega
  have hi := h (i - start) _ (List.getElem?_eq_getElem hlt)
  rw [Nat.add_sub_of_le hl] at hi
  rw [hi, List.getElem?_eq_getElem hlt]

end CodeAt

section Relabel

variable {code : List Instr} {next : Nat}

@[simp] theorem length_relabelShadowed (next : Nat) :
    (relabelShadowed next code).length = code.length := by
  fun_induction relabelShadowed next code <;> simp [*]

/-- An instruction stays as it is, unless it is an entry whose name is placed again behind it. Such
an entry gets a label that is new. -/
theorem getElem?_relabelShadowed (next : Nat) {i : Nat} {instr : Instr}
    (h : code[i]? = some instr) :
    ((∀ x, instr = .label (.named x) → .label (.named x) ∉ code.drop (i + 1)) ∧
      (relabelShadowed next code)[i]? = some instr) ∨
    ∃ x m, instr = .label (.named x) ∧ .label (.named x) ∈ code.drop (i + 1) ∧
      next ≤ m ∧ m < next + shadowed code ∧
      (relabelShadowed next code)[i]? = some (.label (.ofNumber m)) := by
  fun_induction relabelShadowed next code generalizing i with
  | case1 => simp at h
  | case2 next x rest hx ih =>
    cases i with
    | zero =>
      refine .inr ⟨x, next, by simpa using h.symm, by simpa using hx, Nat.le_refl _, ?_, rfl⟩
      simp only [shadowed, hx, if_true]
      omega
    | succ i =>
      rcases ih (i := i) (by simpa using h) with ih | ⟨y, m, rfl, hy, hm, hm', hi⟩
      · exact .inl (by simpa using ih)
      · refine .inr ⟨y, m, rfl, by simpa using hy, Nat.le_of_succ_le hm, ?_, by simpa using hi⟩
        simp only [shadowed, hx, if_true]
        omega
  | case3 next x rest hx ih =>
    cases i with
    | zero =>
      refine .inl ⟨fun y hy => ?_, by simpa using h⟩
      have hxy : x = y := by simp_all
      simpa [← hxy] using hx
    | succ i =>
      rcases ih (i := i) (by simpa using h) with ih | ⟨y, m, rfl, hy, hm, hm', hi⟩
      · exact .inl (by simpa using ih)
      · exact .inr ⟨y, m, rfl, by simpa using hy, hm, by simpa [shadowed, hx] using hm',
          by simpa using hi⟩
  | case4 next j rest hj ih =>
    cases i with
    | zero =>
      have hj' : j = instr := by simpa using h
      exact .inl ⟨fun x hx => absurd (hj'.trans hx) (hj x), by simpa using h⟩
    | succ i =>
      rcases ih (i := i) (by simpa using h) with ih | ⟨y, m, rfl, hy, hm, hm', hi⟩
      · exact .inl (by simpa using ih)
      · refine .inr ⟨y, m, rfl, by simpa using hy, hm, ?_, by simpa using hi⟩
        simpa [shadowed.eq_3 _ _ hj] using hm'

/-- Relabelling adds nothing but labels that are new. -/
theorem mem_relabelShadowed {i : Instr} (h : i ∈ relabelShadowed next code) :
    i ∈ code ∨ ∃ m, i = .label (.ofNumber m) := by
  obtain ⟨k, hk⟩ := List.getElem?_of_mem h
  have hlt : k < code.length := by
    rw [← length_relabelShadowed next]
    exact (List.getElem?_eq_some_iff.1 hk).1
  have hc : code[k]? = some code[k] := List.getElem?_eq_getElem hlt
  rcases getElem?_relabelShadowed next hc with ⟨-, hi⟩ | ⟨_, m, -, -, -, -, hi⟩
  · rw [Option.some.inj (hk.symm.trans hi)]
    exact .inl (List.getElem_mem hlt)
  · exact .inr ⟨m, Option.some.inj (hk.symm.trans hi)⟩

/-- Every name that is placed is placed once after relabelling. -/
theorem placed_named_relabelShadowed (x : Text) :
    placed (.named x) (relabelShadowed next code) = if .label (.named x) ∈ code then 1 else 0 := by
  fun_induction relabelShadowed next code with
  | case1 => simp
  | case2 next y rest hy ih =>
    rw [placed_cons, ih]
    by_cases hxy : x = y <;> simp_all
  | case3 next y rest hy ih =>
    rw [placed_cons, ih]
    by_cases hxy : x = y
    · subst hxy
      simp [hy]
    · simp [hxy, Ne.symm hxy]
  | case4 next j rest hj ih =>
    have hne : j ≠ .label (.named x) := hj x
    rw [placed_cons, ih]
    simp [hne, hne.symm]

/-- No label is lost. -/
theorem label_mem_relabelShadowed {l : Label} (h : .label l ∈ code) :
    .label l ∈ relabelShadowed next code := by
  cases l with
  | named x =>
    rw [← placed_pos, placed_named_relabelShadowed, if_pos h]
    exact Nat.one_pos
  | numbered n =>
    obtain ⟨k, hk⟩ := List.getElem?_of_mem h
    rcases getElem?_relabelShadowed next hk with ⟨-, hi⟩ | ⟨_, _, hi, -⟩
    · exact List.mem_of_getElem? hi
    · cases hi

/-- Relabelling places the new labels once each and leaves the others alone. -/
theorem placed_ofNumber_relabelShadowed {k : Nat} (hk : k < 2 ^ 32)
    (hn : next + shadowed code ≤ 2 ^ 32) :
    placed (.ofNumber k) (relabelShadowed next code) =
      placed (.ofNumber k) code + drawn next (next + shadowed code) k := by
  fun_induction relabelShadowed next code with
  | case1 => simp [shadowed, drawn_self]
  | case2 next y rest hy ih =>
    simp only [shadowed, hy, if_true, ← Nat.add_assoc] at hn ⊢
    rw [drawn_split k (Nat.le_add_right next 1) (Nat.le_add_right (next + 1) (shadowed rest)),
      ← Label.ofNumber, placed_label (by omega) hk, ih hn, placed_cons]
    simp only [Instr.label.injEq, Label.named_ne_ofNumber, if_false]
    omega
  | case3 next y rest hy ih =>
    simp only [shadowed, hy, if_false, Nat.zero_add] at hn ⊢
    rw [placed_cons, placed_cons, ih hn]
    omega
  | case4 next j rest hj ih =>
    simp only [shadowed.eq_3 _ _ hj] at hn ⊢
    rw [placed_cons, placed_cons, ih hn]
    omega

end Relabel

end FrameLang
