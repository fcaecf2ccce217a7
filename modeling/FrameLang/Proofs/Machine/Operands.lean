import FrameLang.Proofs.Lowering.Heights
import FrameLang.Proofs.Machine.Control

/-!
# The operand stack of programs with checked calls

If every call passes what its function takes, the operand stack has at every place the height that
the code says, in every state of every run. So nothing is ever taken from an empty stack, lines
start with an empty one, and the stack never holds more than the arguments of one call.

## Main definitions

* `Balanced` — the operand stack has the height that the place says.
* `OperandSafety` — what holds of every run.
-/

namespace FrameLang

/-- The operand stack has the height that the place says, and no more entries than the largest call
has arguments. -/
def Balanced (p : Program) (s : State) : Prop :=
  s.operands.size = p.heightAt s.ip ∧ s.operands.size ≤ p.operandBound

section Steps

variable {p : Program} {code : List Instr} {result : Option Register} {s t : State} {i j : Nat}
  {instr : Instr} {l : Label} {x : Text}

/-- Control is never at the entry of a function itself. -/
theorem Controlled.ne_entry {callers : List Nat} (h : Controlled p code callers i)
    (before : Program) (f : FnDef) (after : Program) (hp : p = before ++ .fn f :: after) :
    i ≠ before.codeLength + 1 := by
  rintro rfl
  have hspans : f.Spans before.codeLength (before.codeLength + 1) :=
    ⟨Nat.le_refl _, by simp only [FnDef.codeLength]; omega⟩
  cases callers with
  | nil => exact h.2 before f after hp hspans
  | cons caller callers =>
    obtain ⟨⟨x, -, before', f', after', hp', -, -, hf, hne⟩, -⟩ := h
    obtain ⟨rfl, -, -⟩ := Program.eq_of_spans hp (Nat.le_succ _)
      (by simp only [Statement.codeLength, FnDef.codeLength]; omega) hp' hf
    exact hne rfl

namespace Linked

/-- The stack is empty where a jump goes. -/
theorem heightAt_target (h : Linked p code) (hc : p.callError? = none)
    (hi : code[i]? = some instr) (hl : l ∈ instr.targets) (hj : code[j]? = some (.label l)) :
    p.heightAt (j + 1) = 0 := by
  rcases h.target_cases hi hl with
    ⟨before, f, after, hp, -, hk⟩ | ⟨start, c, k, hp, -, -, hk, hlabel⟩
  · obtain rfl := placed_unique (h.placed_le l) hj hk
    have hlen : f.codeLength = f.params.length + Line.codeLengthAll f.block + 5 := rfl
    exact Program.heightAt_behindBody hp (k := 3) (by decide) (by omega)
  · obtain rfl := placed_unique (h.placed_le l) hj hlabel
    exact (h.fits_piece hc hp hk hlabel).2

/-- The arguments are on the stack behind the entry of a function. -/
theorem heightAt_entry {f : FnDef} (h : Linked p code) (hf : p.function? x = some f)
    (hj : code[j]? = some (.label (.named x))) : p.heightAt (j + 1) = f.params.length := by
  obtain ⟨before, after, hp, rfl, hlast⟩ := Program.function?_eq_some.1 hf
  obtain rfl := placed_unique (h.placed_le _) hj (h.kept hp hlast)
  exact Program.heightAt_param hp (k := 0) (Nat.zero_le _)

/-- The result is on the stack behind a call. -/
theorem heightAt_call (h : Linked p code) (hc : p.callError? = none)
    (hi : code[i]? = some (.call (.named x))) : p.heightAt (i + 1) = 1 := by
  have hfits := h.fits hc hi fun before f after hp hentry => by
    obtain ⟨m, hm⟩ := h.entry hp
    rw [← hentry, hi] at hm
    cases hm
  exact hfits.2

end Linked

/-- Every step keeps the stack at the height that the place says. -/
theorem Balanced.step (hl : Linked p code) (hc : p.callError? = none)
    (hs : Controlled p code s.callers s.ip) (h : Balanced p s)
    (hn : Image.Next ⟨code.toArray, result⟩ s t) : Balanced p t := by
  obtain ⟨instr, hi, ha⟩ := hn
  obtain ⟨hsize, hbound⟩ := h
  simp only [List.getElem?_toArray] at hi
  have hfits := hl.fits hc hi hs.ne_entry
  unfold Balanced
  cases Image.execute_eq_ok.1 ha with
  | label => exact ⟨by rw [State.next_operands, State.next_ip, hfits.2, hsize, hfits.1], hbound⟩
  | unassigned => exact ⟨by rw [State.next_operands, State.next_ip, hfits, hsize], hbound⟩
  | push | pushI =>
    obtain ⟨hnext, hle⟩ := hfits
    simp only [State.next_operands, State.next_ip, Array.size_push]
    omega
  | @pop value dst hback =>
    simp only [Instr.Fits] at hfits
    simp only [State.next_operands, State.next_ip, State.write_operands, State.write_ip,
      Array.size_pop]
    omega
  | binary | binaryI | loadI | move =>
    simp only [Instr.Fits] at hfits
    simp only [State.next_operands, State.next_ip, State.write_operands, State.write_ip]
    omega
  | call hr hd =>
    obtain ⟨x, rfl⟩ := hl.calls (List.mem_of_getElem? hi)
    obtain ⟨⟨f, hf, hparams⟩, -⟩ := hfits
    have hentry := (Image.resolve_eq_some (hl.placed_le _)).1 hr
    refine ⟨?_, hbound⟩
    rw [hl.heightAt_entry hf hentry, hparams, hsize]
  | ret hcalls =>
    simp only [State.callers, hcalls, List.map_cons] at hs
    obtain ⟨⟨x, hx, -⟩, -⟩ := hs
    refine ⟨?_, hbound⟩
    rw [hl.heightAt_call hc hx, hsize]
    exact hfits
  | jump hr =>
    have hlabel := (Image.resolve_eq_some (hl.placed_le _)).1 hr
    refine ⟨?_, hbound⟩
    rw [hl.heightAt_target hc hi (List.mem_singleton.2 rfl) hlabel, hsize]
    exact hfits
  | branch hr =>
    have hlabel := (Image.resolve_eq_some (hl.placed_le _)).1 hr
    refine ⟨?_, hbound⟩
    rw [hl.heightAt_target hc hi ?_ hlabel, hsize]
    · exact hfits
    · simp only [Instr.targets]
      split <;> simp

/-- The stack has the height that the place says in every state of every run. -/
theorem Linked.balanced (hl : Linked p code) (hc : p.callError? = none)
    (h : Image.Reachable ⟨code.toArray, result⟩ s) : Balanced p s := by
  have hboth : Controlled p code s.callers s.ip ∧ Balanced p s := by
    refine h.invariant (P := fun s => Controlled p code s.callers s.ip ∧ Balanced p s) ?_ ?_
    · refine ⟨Controlled.initial, ?_, Nat.zero_le _⟩
      have hhead := p.headD_heights
      unfold Program.heightAt
      revert hhead
      cases p.heights <;> exact fun h => h.symm
    · rintro s t ⟨hs, hb⟩ hn
      exact ⟨hs.step hl hn, hb.step hl hc hs hn⟩
  exact hboth.2

end Steps

/-! ## Runs -/

/-- What holds of every run of an image of `p` if calls pass what functions take. -/
structure OperandSafety (p : Program) (image : Image) : Prop where
  /-- Only computations and limits can fail. -/
  faults {s : State} {i : Instr} {f : Fault} : image.Reachable s → image.Stuck s i f →
    f.kind = .arithmetic ∨ f.kind = .resourceExhausted
  /-- The operand stack is empty where a line starts. -/
  lines {s : State} : image.Reachable s → p.LineAt s.ip → s.operands = #[]
  /-- The operand stack never has more entries than the largest call has arguments. -/
  bounded {s : State} : image.Reachable s → s.operands.size ≤ p.operandBound
  /-- The limit of the operand stack is met only by calls with more arguments than that. -/
  limit {s : State} {i : Instr} : image.Reachable s → image.Stuck s i .operandLimit →
    ∃ site ∈ p.callSites, maxOperands < site.args
  /-- A run that halts leaves no operands and no active calls. -/
  halts {m₁ m₂ : Machine} {fuel ip steps : Nat} {value : Option Int32} :
    m₁.image = some image → m₁.run fuel = some (.halted ip value steps, m₂) →
    m₂.operands = #[] ∧ m₂.callDepth = 0

/-- A bound above one is the number of arguments of some call. -/
theorem Program.exists_callSite {p : Program} {n : Nat} (h : n < p.operandBound) (hn : 1 ≤ n) :
    ∃ site ∈ p.callSites, n < site.args := by
  have hex (xs : List Nat) (hx : n < xs.foldr max 1) : ∃ x ∈ xs, n < x := by
    induction xs with
    | nil => exact absurd hx (Nat.not_lt.2 hn)
    | cons x xs ih =>
      rw [List.foldr_cons] at hx
      rcases Nat.lt_or_ge n x with hlt | hge
      · exact ⟨x, List.mem_cons_self, hlt⟩
      · obtain ⟨y, hy, hlt⟩ := ih (by omega)
        exact ⟨y, List.mem_cons_of_mem x hy, hlt⟩
  obtain ⟨x, hx, hlt⟩ := hex _ h
  obtain ⟨site, hsite, rfl⟩ := List.mem_map.1 hx
  exact ⟨site, hsite, hlt⟩

namespace Linked

variable {p : Program} {code : List Instr} {result : Option Register} {s : State} {i : Instr}
  {f : Fault}

/-- Only computations and limits can fail if calls pass what functions take. -/
theorem kind_of_stuck (h : Linked p code) (hc : p.callError? = none)
    (hr : Image.Reachable ⟨code.toArray, result⟩ s)
    (hs : Image.Stuck ⟨code.toArray, result⟩ s i f) :
    f.kind = .arithmetic ∨ f.kind = .resourceExhausted := by
  have htargets := h.targets_of_stuck hs
  have hret := h.ne_ret_of_stuck hr hs
  obtain ⟨hi, hf⟩ := hs
  simp only [List.getElem?_toArray] at hi
  have hfits := h.fits hc hi (h.controlled hr).ne_entry
  cases (Image.execute_eq_error.1 hf).1 with
  | undefinedCall hn =>
    obtain ⟨x, rfl⟩ := h.calls (List.mem_of_getElem? hi)
    obtain ⟨⟨g, hg, -⟩, -⟩ := hfits
    rw [Program.function?_eq_none.2 (h.resolve_named_eq_none.1 hn)] at hg
    cases hg
  | pop _ hempty =>
    have hsize := (h.balanced hc hr).1
    simp only [Instr.Fits] at hfits
    simp only [hempty, List.size_toArray, List.length_nil] at hsize
    omega
  | noActiveCall => exact absurd rfl hret
  | jump | branch => cases htargets
  | callDepth | push | pushI => exact .inr rfl
  | binary _ he | binaryI _ he => exact .inl (Operator.eval_error_kind he)

/-- A full stack means a call with more arguments than the stack takes. -/
theorem exists_callSite_of_operandLimit (h : Linked p code) (hc : p.callError? = none)
    (hr : Image.Reachable ⟨code.toArray, result⟩ s)
    (hs : Image.Stuck ⟨code.toArray, result⟩ s i .operandLimit) :
    ∃ site ∈ p.callSites, maxOperands < site.args := by
  obtain ⟨hi, hf⟩ := hs
  simp only [List.getElem?_toArray] at hi
  have hsize := (h.balanced hc hr).1
  have hfits := h.fits hc hi (h.controlled hr).ne_entry
  refine Program.exists_callSite ?_ (by decide)
  cases (Image.execute_eq_error.1 hf).1 with
  | push _ hfull | pushI _ hfull =>
    obtain ⟨hnext, hle⟩ := hfits
    omega
  | binary _ he | binaryI _ he => cases Operator.eval_error_kind he

end Linked

/-- Programs that are built with checked calls use the operand stack safely. -/
theorem Program.build_operandSafety {p : Program} {listing : Listing}
    (h : p.build true = .ok listing) (hl : p.labelsDrawn < 2 ^ 32) :
    ∃ image, listing.load = .ok image ∧ OperandSafety p image := by
  have hlinked := Program.build_linked h hl
  obtain ⟨_, _, _, -, -, hcheck, -⟩ := Program.build_eq_ok h
  have hc := hcheck rfl
  refine ⟨_, Program.build_load h hl, ?_⟩
  refine { faults := ?_, lines := ?_, bounded := ?_, limit := ?_, halts := ?_ }
  · intro s i f hr hs
    exact hlinked.kind_of_stuck hc hr hs
  · intro s hr hline
    have hsize := (hlinked.balanced hc hr).1
    rw [hline.heightAt] at hsize
    exact Array.eq_empty_of_size_eq_zero hsize
  · intro s hr
    exact (hlinked.balanced hc hr).2
  · intro s i hr hs
    exact hlinked.exists_callSite_of_operandLimit hc hr hs
  · intro m₁ m₂ fuel ip steps value hm hrun
    obtain ⟨s, hs, rfl⟩ := (Machine.run_eq_some hm).1 hrun
    obtain ⟨hsteps, hend, rfl, -⟩ := Image.exists_run_eq_halted.1 ⟨fuel, hs⟩
    simp only [List.getElem?_toArray] at hend
    obtain ⟨hcalls, hip⟩ := hlinked.calls_eq_nil ⟨steps, hsteps⟩ hend
    have hsize := (hlinked.balanced hc ⟨steps, hsteps⟩).1
    have hlen : p.heights.length = s.ip := by rw [p.length_heights, hip, hlinked.length]
    have hzero : p.heightAt s.ip = 0 := by
      rw [Program.heightAt, List.getElem?_eq_none (Nat.le_of_eq hlen), Option.getD_none]
    rw [hzero] at hsize
    simp [Machine.operands, Machine.callDepth, hcalls, Array.eq_empty_of_size_eq_zero hsize]

theorem Program.sample_operandSafety : ∃ listing, Program.sample.build true = .ok listing ∧
    Program.sample.labelsDrawn < 2 ^ 32 ∧
    ∃ image, listing.load = .ok image ∧ OperandSafety Program.sample image := by
  obtain ⟨listing, h⟩ : ∃ listing, Program.sample.build true = .ok listing :=
    Program.exists_listing (by decide +kernel)
  have hl : Program.sample.labelsDrawn < 2 ^ 32 := by decide +kernel
  exact ⟨listing, h, hl, Program.build_operandSafety h hl⟩

end FrameLang
