import FrameLang.Instr.Operation
import FrameLang.Proofs.Lowering.Emission

/-!
# Registers in code

Code uses only registers of its own scope, and only ones that have been handed out. There are never
more of them than a register file has slots, so every register of built code exists.
-/

namespace FrameLang

/-- The registers that an instruction reads or writes. -/
@[simp] def Instr.registers : Instr → List Register
  | .push r | .pop r => [r]
  | .binary _ lhs rhs out => [lhs, rhs, out]
  | .binaryI _ lhs _ out => [lhs, out]
  | .loadI _ out => [out]
  | .move src dst => [src, dst]
  | .branch test _ _ => [test]
  | _ => []

/-- A register of the scope among the first `n`. -/
def Owner.Owns (o : Owner) (n : Nat) (r : Register) : Prop :=
  ∃ k < n, o.register k = r

theorem Owner.Owns.mono {o : Owner} {m n : Nat} {r : Register} (h : o.Owns m r) (hn : m ≤ n) :
    o.Owns n r :=
  h.imp fun _ hk => ⟨Nat.lt_of_lt_of_le hk.1 hn, hk.2⟩

theorem Owner.register_addr (o : Owner) (k : Nat) : (o.register k).addr = UInt32.ofNat k := by
  cases o <;> rfl

theorem Owner.Owns.inRange {o : Owner} {n : Nat} {r : Register} (h : o.Owns n r)
    (hn : n ≤ registerFileSize) : r.inRange = true := by
  obtain ⟨k, hk, rfl⟩ := h
  have hlt : k < 2 ^ 32 := by unfold registerFileSize at hn; omega
  simp only [Register.inRange, Owner.register_addr, UInt32.toNat_ofNat_of_lt' hlt,
    decide_eq_true_eq]
  omega

/-- An instruction whose registers exist has an operation whose registers all exist. -/
theorem Instr.encode_inRange {i : Instr} (h : ∀ r ∈ i.registers, r.inRange = true) :
    i.encode.inRange = true := by
  cases i <;> simp_all [Instr.encode, Operation.inRange, Operation.ofRegisters,
    Operation.ofImmediate] <;> decide

/-- The registers that a value is found in. -/
def Construct.registers : (c : Construct) → c.Value → List Register
  | .expr _, r => [r]
  | .args _, rs => rs
  | .line _, v | .block _ _, v => v.toList
  | .params _, _ => []

/-- The registers that a construct comes with. -/
def Construct.given : Construct → List Register
  | .block value _ => value.toList
  | _ => []

theorem Lower.register_owns {owner : Owner} {a b : Allocation} {r : Register}
    (h : Lower.register owner a = .ok (r, b)) : owner.Owns b.registers r := by
  obtain ⟨-, rfl, rfl⟩ := Lower.register_eq_ok.1 h
  exact ⟨a.registers, Nat.lt_succ_self _, rfl⟩

theorem Lower.named_owns {owner : Owner} {x : Text} {a b : Allocation} {r : Register}
    (h : Lower.named owner x a = .ok (r, b)) (ha : a.Valid) : owner.Owns b.registers r := by
  obtain ⟨n, hn, hr⟩ := Lower.named_lookup h
  exact ⟨n, (Lower.named_valid h ha).below hn, hr⟩

/-- The code uses only the first `n` registers of the scope. -/
def UsesBelow (o : Owner) (n : Nat) (code : List Instr) : Prop :=
  ∀ i ∈ code, ∀ r ∈ i.registers, o.Owns n r

section UsesBelow

variable {o : Owner} {n : Nat}

@[simp] theorem usesBelow_nil : UsesBelow o n [] := by
  simp [UsesBelow]

@[simp] theorem usesBelow_cons {i : Instr} {code : List Instr} :
    UsesBelow o n (i :: code) ↔ (∀ r ∈ i.registers, o.Owns n r) ∧ UsesBelow o n code := by
  simp [UsesBelow]

@[simp] theorem usesBelow_append {code rest : List Instr} :
    UsesBelow o n (code ++ rest) ↔ UsesBelow o n code ∧ UsesBelow o n rest := by
  simp [UsesBelow, or_imp, forall_and]

@[simp] theorem usesBelow_pushes {rs : List Register} :
    UsesBelow o n (rs.map .push).reverse ↔ ∀ r ∈ rs, o.Owns n r := by
  simp [UsesBelow]

end UsesBelow

/-- Instructions and values use registers that have been handed out in their scope. -/
theorem Emits.usesBelow {s : Surroundings} {c : Construct} {a b : Allocation} {code : List Instr}
    {v : c.Value} (h : Emits s c a code v b) (ha : a.Valid) {n : Nat} (hn : b.registers ≤ n)
    (hg : ∀ r ∈ c.given, s.owner.Owns n r) :
    UsesBelow s.owner n code ∧ ∀ r ∈ c.registers v, s.owner.Owns n r := by
  induction h with
  | int _ _ hr | bool _ _ hr =>
    simpa [Construct.registers] using (Lower.register_owns hr).mono hn
  | name _ _ hx => simpa [Construct.registers] using (Lower.named_owns hx ha).mono hn
  | assign _ _ he hx ih =>
    have hv := ih ha (Nat.le_trans (Lower.named_growsTo hx).registers hn) nofun
    have hout := (Lower.named_owns hx (he.valid ha)).mono hn
    simp_all [Construct.registers]
  | binary _ _ hl hr hx ihl ihr =>
    have hn₂ := Nat.le_trans (Lower.register_growsTo hx).registers hn
    have hvl := ihl ha (Nat.le_trans hr.growsTo.registers hn₂) nofun
    have hvr := ihr (hl.valid ha) hn₂ nofun
    have hout := (Lower.register_owns hx).mono hn
    simp_all [Construct.registers]
  | call _ _ _ hx ih =>
    have hv := ih ha (Nat.le_trans (Lower.register_growsTo hx).registers hn) nofun
    have hout := (Lower.register_owns hx).mono hn
    simp_all [Construct.registers]
  | @branch _ _ _ a₂ _ _ _ _ _ _ _ _ _ _ thenValue elseValue _ hx ht hth he iht ihth ihe =>
    have ha₁ := Lower.register_valid hx ha
    have ha₂ := (ht.valid ha₁).withLabels (a₂.labels + 3)
    have hn₃ := Nat.le_trans he.growsTo.registers hn
    have hn₂ := Nat.le_trans hth.growsTo.registers hn₃
    have hvt := iht ha₁ hn₂ nofun
    have hvth := ihth ha₂ hn₃ nofun
    have hve := ihe (hth.valid ha₂) hn nofun
    have hout := (Lower.register_owns hx).mono (Nat.le_trans ht.growsTo.registers hn₂)
    cases thenValue <;> cases elseValue <;>
      simp_all [Construct.registers, deliver]
  | noArgs | brk | noParams => simp [Construct.registers]
  | noLines => exact ⟨usesBelow_nil, hg⟩
  | moreArgs h₁ h₂ ih₁ ih₂ =>
    have hv := ih₁ ha (Nat.le_trans h₂.growsTo.registers hn) nofun
    have hvs := ih₂ (h₁.valid ha) hn nofun
    simp_all [Construct.registers]
  | moreLines _ h₁ h₂ ih₁ ih₂ =>
    have hv := ih₁ ha (Nat.le_trans h₂.growsTo.registers hn) nofun
    have hvs := ih₂ (h₁.valid ha) hn hv.2
    exact ⟨usesBelow_append.2 ⟨hv.1, hvs.1⟩, hvs.2⟩
  | exprLine _ _ ih =>
    have hv := ih ha hn nofun
    simpa [Construct.registers] using hv
  | @loop _ a _ _ _ _ _ _ ih =>
    have hv := ih (ha.withLabels (a.labels + 2)) hn nofun
    simpa [Construct.registers] using hv.1
  | moreParams hx hr ih =>
    have hout := (Lower.named_owns hx ha).mono (Nat.le_trans hr.growsTo.registers hn)
    have hv := ih (Lower.named_valid hx ha) hn nofun
    simpa [Construct.registers, hout] using hv.1

/-- Every register of a statement exists. -/
theorem Statement.Emits.inRange {st : Statement} {a b : Allocation} {code : List Instr}
    {v : Option Register} (h : st.Emits a code v b) (ha : a.Valid) :
    (∀ i ∈ code, ∀ r ∈ i.registers, r.inRange = true) ∧ ∀ r ∈ v.toList, r.inRange = true := by
  cases h with
  | line hl =>
    obtain ⟨hc, hv⟩ := hl.usesBelow ha (hl.valid ha).bounded nofun
    exact ⟨fun i hi r hr => (hc i hi r hr).inRange (Nat.le_refl _),
      fun r hr => (hv r hr).inRange (Nat.le_refl _)⟩
  | fn hp hb =>
    have hv := hp.valid (Allocation.valid_empty _)
    have hbound := (hb.valid hv).bounded
    obtain ⟨hpc, -⟩ := hp.usesBelow (Allocation.valid_empty _)
      (Nat.le_trans hb.growsTo.registers hbound) nofun
    obtain ⟨hbc, hbv⟩ := hb.usesBelow hv hbound nofun
    simp only [Construct.registers, Option.toList_some, List.forall_mem_singleton] at hbv
    refine ⟨fun i hi r hr => ?_, by simp⟩
    simp only [List.mem_append, List.mem_cons, List.not_mem_nil, or_false] at hi
    rcases hi with ((rfl | rfl) | (hi | hi) | rfl | rfl) | rfl
    · cases hr
    · cases hr
    · exact (hpc i hi r hr).inRange (Nat.le_refl _)
    · exact (hbc i hi r hr).inRange (Nat.le_refl _)
    · cases List.mem_singleton.1 hr
      exact hbv.inRange (Nat.le_refl _)
    · cases hr
    · cases hr

/-- Every register of a program exists. -/
theorem Program.Emits.inRange {p : Program} {result final : Option Register} {a b : Allocation}
    {code : List Instr} (h : Program.Emits result p a code final b) (ha : a.Valid)
    (hr : ∀ r ∈ result.toList, r.inRange = true) :
    (∀ i ∈ code, ∀ r ∈ i.registers, r.inRange = true) ∧ ∀ r ∈ final.toList, r.inRange = true := by
  induction h with
  | nil => exact ⟨nofun, hr⟩
  | @cons result _ v _ _ _ _ _ _ _ hs _ ih =>
    obtain ⟨hc, hv⟩ := hs.inRange ha
    have hor : ∀ r ∈ (v.or result).toList, r.inRange = true := by
      cases v <;> simp_all
    obtain ⟨hrc, hf⟩ := ih (hs.valid ha) hor
    refine ⟨fun i hi => ?_, hf⟩
    rcases List.mem_append.1 hi with hi | hi
    · exact hc i hi
    · exact hrc i hi

end FrameLang
