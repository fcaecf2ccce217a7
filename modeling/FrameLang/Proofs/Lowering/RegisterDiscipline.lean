import FrameLang.Proofs.Lowering.BuiltCode
import FrameLang.Proofs.Lowering.Scopes
import FrameLang.Proofs.Semantics.Rearrangement

/-!
# The register discipline of built programs

In the listing of a program the registers between the entry of a function and its return are
relative to the activation record, and all others are global. The code of every function, and the
code outside of all functions, has one register for each of its names and of its nodes with a value.

## Main definitions

* `Program.topCode`, `FnDef.bodyCode` — the code outside of all definitions, and that of a body.
* `Program.InBody` — the places between the entries of functions and their returns.
* `RegisterDiscipline` — what the registers of a listing satisfy.
-/

namespace FrameLang

/-! ## Relabelling -/

/-- The instructions are the same, or both are labels. -/
def Instr.SameButLabel (i j : Instr) : Prop :=
  i = j ∨ ∃ l m, i = .label l ∧ j = .label m

section Relabelling

variable {i j : Instr} {code code' : List Instr}

theorem Instr.SameButLabel.registers_eq (h : i.SameButLabel j) : i.registers = j.registers := by
  rcases h with rfl | ⟨l, m, rfl, rfl⟩ <;> rfl

theorem SketchStep.Describes.sameButLabel {place : Holder → Register} {step : SketchStep}
    (h : step.Describes place i) (hij : i.SameButLabel j) : step.Describes place j := by
  rcases hij with rfl | ⟨l, m, rfl, rfl⟩
  · exact h
  · cases step with
    | plain => rfl
    | test =>
      obtain ⟨_, _, h⟩ := h
      cases h
    | deliver src =>
      cases src <;> cases h
    | _ => cases h

theorem forall₂_relabelShadowed (next : Nat) (code : List Instr) :
    List.Forall₂ Instr.SameButLabel code (relabelShadowed next code) := by
  fun_induction relabelShadowed next code with
  | case1 => exact .nil
  | case2 _ _ _ _ ih => exact .cons (.inr ⟨_, _, rfl, rfl⟩) ih
  | case3 _ _ _ _ ih | case4 _ _ _ _ ih => exact .cons (.inl rfl) ih

/-- Other labels make no difference to a description. -/
theorem describes_sameButLabel {place : Holder → Register} {steps : List SketchStep}
    (h : List.Forall₂ (SketchStep.Describes place) steps code)
    (hcode : List.Forall₂ Instr.SameButLabel code code') :
    List.Forall₂ (SketchStep.Describes place) steps code' := by
  induction h generalizing code' with
  | nil =>
    cases hcode
    exact .nil
  | cons hstep _ ih =>
    cases hcode with
    | cons hij hrest => exact .cons (hstep.sameButLabel hij) (ih hrest)

theorem Fulfils.sameButLabel {o : Owner} {H : List Holder} {k : Sketch} {b : Allocation}
    {found : (Holder → Register) → Prop} (h : Fulfils o H k code b found)
    (hcode : List.Forall₂ Instr.SameButLabel code code') : Fulfils o H k code' b found :=
  ⟨h.holds, fun hF => describes_sameButLabel (h.described hF) hcode, h.found⟩

end Relabelling

/-! ## Programs -/

/-- The code outside of all definitions. -/
def Program.topCode : Program → List Instr → List Instr
  | [], _ => []
  | .fn f :: rest, code => Program.topCode rest (code.drop f.codeLength)
  | .line l :: rest, code =>
    code.take l.codeLength ++ Program.topCode rest (code.drop l.codeLength)

theorem Program.topCode_fn {f : FnDef} {p : Program} {part code : List Instr}
    (h : part.length = f.codeLength) :
    Program.topCode (.fn f :: p) (part ++ code) = p.topCode code := by
  rw [Program.topCode, ← h, List.drop_left]

theorem Program.topCode_line {l : Line} {p : Program} {part code : List Instr}
    (h : part.length = l.codeLength) :
    Program.topCode (.line l :: p) (part ++ code) = part ++ p.topCode code := by
  rw [Program.topCode, ← h, List.take_left, List.drop_left]

theorem Program.topCode_sameButLabel {p : Program} {code code' : List Instr}
    (h : List.Forall₂ Instr.SameButLabel code code') :
    List.Forall₂ Instr.SameButLabel (p.topCode code) (p.topCode code') := by
  induction p generalizing code code' with
  | nil => exact .nil
  | cons st rest ih =>
    cases st with
    | fn f => exact ih (List.forall₂_drop _ h)
    | line l => exact List.rel_append (List.forall₂_take _ h) (ih (List.forall₂_drop _ h))

/-- The code of the body of a definition, from behind its entry to its return. -/
def FnDef.bodyCode (f : FnDef) (start : Nat) (code : List Instr) : List Instr :=
  (code.drop (start + 2)).take (f.codeLength - 3)

theorem FnDef.bodyCode_eq {f : FnDef} {start : Nat} {pre head body tail post : List Instr}
    (hhead : pre.length + head.length = start + 2) (hbody : body.length = f.codeLength - 3) :
    f.bodyCode start (pre ++ (head ++ body ++ tail) ++ post) = body := by
  have hsplit : pre ++ (head ++ body ++ tail) ++ post =
      (pre ++ head) ++ (body ++ (tail ++ post)) := by
    simp only [List.append_assoc]
  rw [bodyCode, hsplit, ← hhead, ← List.length_append, List.drop_left, ← hbody, List.take_left]

namespace Program.Emits

variable {p before after : Program} {a b : Allocation} {code : List Instr}
  {result final : Option Register} {f : FnDef}

/-- The code outside of all definitions fulfils the sketch of the lines. -/
theorem fulfils_top (h : Program.Emits result p a code final b) {path : List Nat}
    {H : List Holder} (ha : a.Holds H) (hpath : Fresh path H) :
    Fulfils .topLevel H (Line.sketchAll path p.lines) (p.topCode code) b fun _ => True := by
  induction h generalizing path H with
  | nil => exact Fulfils.empty ha
  | cons hs _ ih =>
    have hlength := hs.length_eq
    cases hs with
    | fn =>
      rw [Program.topCode_fn hlength]
      exact ih (ha.withLabels _) hpath
    | @line l _ _ _ _ hl =>
      have hfirst := hl.fulfils ha (hpath.child 0)
      have hrest := ih hfirst.holds
        ((hpath.child 1).claimAll ((l.under_sketch (0 :: path)).fresh_sibling (by decide)))
      rw [Program.topCode_line hlength]
      exact (hfirst.append hrest).imp fun _ _ => trivial

/-- The code of a body fulfils the sketch of the function. -/
theorem fulfils_body (h : Program.Emits result (before ++ .fn f :: after) a code final b) :
    ∃ inner, inner.Valid ∧ Fulfils (.function f.name) [] f.sketch
      (f.bodyCode before.codeLength code) inner fun _ => True := by
  obtain ⟨pre, part, post, _, _, mid, _, rfl, -, hb, hs, -⟩ := h.split
  cases hs with
  | @fn _ _ env inner params body place hp hbody =>
    have hparams : params.length = f.params.length := hp.length_eq
    have hblock : body.length = Line.codeLengthAll f.block := hbody.length_eq
    have hlength : (params ++ body ++ [Instr.push place, .ret]).length = f.codeLength - 3 := by
      simp only [FnDef.codeLength, List.length_append, List.length_cons, List.length_nil]
      omega
    have hargs := hp.fulfils (Allocation.holds_empty _) (fresh_nil [])
    have hboth := hargs.append (hbody.fulfils hargs.holds
      ((fresh_nil []).claimAll (fresh_names [] f.params)))
    have hvalid := hbody.valid (hp.valid (Allocation.valid_empty _))
    refine ⟨inner, hvalid, ?_⟩
    rw [FnDef.bodyCode_eq (by rw [hb.length_eq]; rfl) hlength]
    refine (hboth.more fun f' hfound => ?_).imp fun _ _ => trivial
    have hplace := Line.lastHolder?_eq hfound.2
    cases hlast : Line.lastHolder? [] f.block with
    | none => simp [hlast] at hplace
    | some src =>
      rw [hlast] at hplace
      exact .cons (congrArg Instr.push (Option.some.inj hplace)) (describes_plain rfl .nil)

end Program.Emits

/-! ## Where registers are global -/

/-- The place lies between the entry of a function and its return. -/
def Program.InBody (p : Program) (j : Nat) : Prop :=
  ∃ (before : Program) (f : FnDef) (after : Program), p = before ++ .fn f :: after ∧
    f.Spans before.codeLength j

section Registers

variable {p : Program} {a b : Allocation} {code : List Instr} {i : Instr} {r : Register} {j : Nat}
  {v result final : Option Register}

/-- Code has the registers of its scope, and so has its value. -/
theorem Emits.registers_owned {s : Surroundings} {c : Construct} {v : c.Value}
    (h : Emits s c a code v b) (ha : a.Valid) (hg : c.given = []) :
    (∀ i ∈ code, ∀ r ∈ i.registers, ∃ n, r = s.owner.register n) ∧
      ∀ r ∈ c.registers v, ∃ n, r = s.owner.register n := by
  obtain ⟨hcode, hvalue⟩ := h.usesBelow ha (Nat.le_refl _) (by simp [hg])
  exact ⟨fun i hi r hr => (hcode i hi r hr).imp fun _ hn => hn.2.symm,
    fun r hr => (hvalue r hr).imp fun _ hn => hn.2.symm⟩

/-- The registers of a line are global, and so is that of its value. -/
theorem Statement.Emits.line_global {l : Line} (h : Statement.Emits (.line l) a code v b)
    (ha : a.Valid) : (∀ i ∈ code, ∀ r ∈ i.registers, ∃ n, r = .global n) ∧
      ∀ r ∈ v, ∃ n, r = .global n := by
  cases h with
  | line hl =>
    obtain ⟨hcode, hvalue⟩ := hl.registers_owned ha rfl
    refine ⟨fun i hi r hr => ?_, fun r hr => ?_⟩
    · obtain ⟨n, rfl⟩ := hcode i hi r hr
      exact ⟨_, rfl⟩
    · obtain ⟨n, rfl⟩ := hvalue r (Option.mem_toList.2 hr)
      exact ⟨_, rfl⟩

/-- The registers of a definition are relative, and at its ends there are none. -/
theorem Statement.Emits.fn_arp {f : FnDef} (h : Statement.Emits (.fn f) a code v b)
    (hi : code[j]? = some i) (hr : r ∈ i.registers) :
    (∃ n, r = .arp n) ∧ f.Spans 0 j := by
  have hlength := h.length_eq
  cases h with
  | @fn _ _ mid inner params body place hp hb =>
    obtain ⟨hparams, -⟩ := hp.registers_owned (Allocation.valid_empty _) rfl
    obtain ⟨hbody, hvalue⟩ := hb.registers_owned (hp.valid (Allocation.valid_empty _)) rfl
    have hinner : ∀ i ∈ params ++ body ++ [.push place, .ret], ∀ r ∈ i.registers,
        ∃ n, r = f.surroundings.owner.register n := by
      simp only [List.forall_mem_append, List.forall_mem_cons]
      refine ⟨⟨hparams, hbody⟩, ?_, nofun, nofun⟩
      exact fun r hr => hvalue r hr
    simp only [List.length_append, List.length_cons, List.length_nil, Statement.codeLength]
      at hlength
    rw [List.append_assoc, List.getElem?_append] at hi
    split at hi
    · -- A jump and a label have no registers.
      rename_i hj
      have hends : j = 0 ∨ j = 1 := by
        simp only [List.length_cons, List.length_nil] at hj
        omega
      rcases hends with rfl | rfl
      all_goals
        cases hi
        cases hr
    · rw [List.getElem?_append] at hi
      split at hi
      · obtain ⟨n, rfl⟩ := hinner i (List.mem_of_getElem? hi) r hr
        simp only [List.length_append, List.length_cons, List.length_nil] at *
        exact ⟨⟨_, rfl⟩, by unfold FnDef.Spans; omega⟩
      · rw [List.mem_singleton.1 (List.mem_of_getElem? hi)] at hr
        cases hr

/-- The registers of a program are relative in bodies and global elsewhere. -/
theorem Program.Emits.registers_at (h : Program.Emits result p a code final b) (ha : a.Valid)
    (hi : code[j]? = some i) (hr : r ∈ i.registers) :
    (p.InBody j ∧ ∃ n, r = .arp n) ∨ (¬ p.InBody j ∧ ∃ n, r = .global n) := by
  have hj : j < p.codeLength := by
    rw [← h.length_eq]
    exact (List.getElem?_eq_some_iff.1 hi).1
  obtain ⟨before, st, after, rfl, hstart, hend⟩ := Program.exists_statement hj
  obtain ⟨pre, part, post, middle, v, mid, mid', -, hpart, hb, hs, -⟩ := h.split
  rw [hpart.getElem? hstart (by rw [hs.length_eq]; exact hend)] at hi
  cases st with
  | fn f =>
    obtain ⟨harp, hspan⟩ := hs.fn_arp hi hr
    refine .inl ⟨⟨before, f, after, rfl, ?_⟩, harp⟩
    unfold FnDef.Spans at hspan ⊢
    omega
  | line l =>
    refine .inr ⟨?_, (hs.line_global (hb.valid ha)).1 i (List.mem_of_getElem? hi) r hr⟩
    rintro ⟨before', f, after', heq, hspan⟩
    simp only [FnDef.Spans, Statement.codeLength] at hspan hend
    rcases Program.split_cases heq with ⟨-, hst, -⟩ | hle | hle
    · cases hst
    · simp only [Statement.codeLength] at hle
      omega
    · simp only [Statement.codeLength] at hle
      omega

/-- The value of a program is found in a global register. -/
theorem Program.Emits.result_global (h : Program.Emits result p a code final b) (ha : a.Valid)
    (hresult : ∀ r ∈ result, ∃ n, r = .global n) : ∀ r ∈ final, ∃ n, r = .global n := by
  induction h with
  | nil => exact hresult
  | @cons _ _ v st _ _ _ _ _ _ hs _ ih =>
    refine ih (hs.valid ha) ?_
    cases v with
    | none => exact hresult
    | some r =>
      cases st with
      | fn f => cases hs
      | line l => exact (hs.line_global ha).2

end Registers

/-! ## Built programs -/

/-- What the registers of a listing of `p` satisfy. A definition that follows `before` starts at the
place `before.codeLength`. -/
structure RegisterDiscipline (p : Program) (listing : Listing) : Prop where
  /-- The registers of a function are relative to the activation record. -/
  relative {j : Nat} {i : Instr} {r : Register} : p.InBody j → listing.code[j]? = some i →
    r ∈ i.registers → ∃ n, r = .arp n
  /-- All other registers are global. -/
  global {j : Nat} {i : Instr} {r : Register} : ¬ p.InBody j → listing.code[j]? = some i →
    r ∈ i.registers → ∃ n, r = .global n
  result {r : Register} : listing.result = some r → ∃ n, r = .global n
  /-- A function has its entry and its return at the ends of its body. -/
  ends {before after : Program} {f : FnDef} : p = before ++ .fn f :: after →
    (∃ l, listing.code[before.codeLength + 1]? = some (.label l)) ∧
      listing.code[before.codeLength + f.codeLength - 2]? = some .ret
  topLevel : ∃ slot,
    Allotted .topLevel (Line.sketchAll [] p.lines) (p.topCode listing.code) slot
  functions {before after : Program} {f : FnDef} : p = before ++ .fn f :: after → ∃ slot,
    Allotted (.function f.name) f.sketch (f.bodyCode before.codeLength listing.code) slot

/-- Every listing that a build gives keeps the register discipline. -/
theorem Program.build_registerDiscipline {p : Program} {checkArity : Bool} {listing : Listing}
    (h : p.build checkArity = .ok listing) : RegisterDiscipline p listing := by
  obtain ⟨code, final, a, hlower, -, -, rfl⟩ := Program.build_eq_ok h
  have he := Program.lower_emits hlower
  have hsame := forall₂_relabelShadowed a.labels code
  have hempty : ({} : Allocation).Valid := Allocation.valid_empty 0
  have hregisters {j : Nat} {i : Instr} {r : Register}
      (hi : (relabelShadowed a.labels code)[j]? = some i) (hr : r ∈ i.registers) :
      (p.InBody j ∧ ∃ n, r = .arp n) ∨ (¬ p.InBody j ∧ ∃ n, r = .global n) := by
    obtain ⟨i₀, hi₀, hsame⟩ := exists_of_forall₂ hsame hi
    rw [← hsame.registers_eq] at hr
    exact he.registers_at hempty hi₀ hr
  refine
    { relative := fun hbody hi hr => ?_
      global := fun hbody hi hr => ?_
      result := fun {r} hr => he.result_global hempty nofun r hr
      ends := fun {before after f} hp => ?_
      topLevel := ?_
      functions := fun {before after f} hp => ?_ }
  all_goals simp only [Listing.code_ofInstrs] at *
  · exact (hregisters hi hr).elim And.right fun h => absurd hbody h.1
  · exact (hregisters hi hr).elim (fun h => absurd h.1 hbody) And.right
  · subst hp
    obtain ⟨_, -, hret, -⟩ := (he.fn_placedAt a.labels).skipped
    refine ⟨?_, hret⟩
    rcases getElem?_relabelShadowed a.labels he.entry_at.1 with ⟨-, hi⟩ | ⟨_, _, -, -, -, -, hi⟩
    · exact ⟨_, hi⟩
    · exact ⟨_, hi⟩
  · have htop := he.fulfils_top (Allocation.holds_empty 0) (fresh_nil [])
    exact (htop.sameButLabel (Program.topCode_sameButLabel hsame)).allotted (he.valid hempty)
      (Line.orderly_sketchAll [] p.lines)
  · subst hp
    obtain ⟨inner, hinner, hbody⟩ := he.fulfils_body
    exact (hbody.sameButLabel (List.forall₂_take _ (List.forall₂_drop _ hsame))).allotted hinner
      f.orderly_sketch

theorem Program.sample_registerDiscipline : ∃ listing, Program.sample.build true = .ok listing ∧
    RegisterDiscipline Program.sample listing := by
  obtain ⟨listing, h⟩ : ∃ listing, Program.sample.build true = .ok listing :=
    Program.exists_listing (by decide +kernel)
  exact ⟨listing, h, Program.build_registerDiscipline h⟩

end FrameLang
