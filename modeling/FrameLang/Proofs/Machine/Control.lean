import FrameLang.Proofs.Lowering.Places
import FrameLang.Proofs.Machine.Runs

/-!
# Where control can be

Code at the top level and the bodies of functions are interleaved in built code, but control never
slips from one into the other: it enters a body by a call and leaves it by a return. This holds
whether or not callers and functions agree on the number of arguments.

The invariant `Controlled` follows the active calls. Each of them was made by a call instruction,
and control is inside the body of the function that this instruction names; the instruction itself
lies where control was before, and so on down to the top level.

## Main definitions

* `Program.AtTop`, `Program.InBodyOf` — places at the top level and in bodies.
* `Controlled` — where control is while calls are active.
* `ControlIntegrity` — what holds of every run.
-/

namespace FrameLang

/-- The place is at the top level, or behind the code: no definition has it between its entry and
its return. -/
def Program.AtTop (p : Program) (i : Nat) : Prop :=
  i ≤ p.codeLength ∧ ∀ (before : Program) (f : FnDef) (after : Program),
    p = before ++ .fn f :: after → ¬ f.Spans before.codeLength i

/-- The place is behind the entry of the function that `x` means, and not behind its return. -/
def Program.InBodyOf (p : Program) (x : Text) (i : Nat) : Prop :=
  ∃ (before : Program) (f : FnDef) (after : Program), p = before ++ .fn f :: after ∧
    f.name = x ∧ ¬ after.Defines x ∧ f.Spans before.codeLength i ∧ before.codeLength + 1 ≠ i

/-- Control can be at the place `i` while the calls made at the given places are active. -/
def Controlled (p : Program) (code : List Instr) : List Nat → Nat → Prop
  | [], i => p.AtTop i
  | caller :: callers, i =>
    (∃ x, code[caller]? = some (.call (.named x)) ∧ p.InBodyOf x i) ∧
      Controlled p code callers caller

/-! ## Places -/

/-- A place of a statement, its end included, lies in no other definition. -/
theorem Program.eq_of_spans {p before before' after after' : Program} {st : Statement} {f : FnDef}
    {i : Nat} (hp : p = before ++ st :: after) (hs : before.codeLength ≤ i)
    (he : i ≤ before.codeLength + st.codeLength) (hp' : p = before' ++ .fn f :: after')
    (hf : f.Spans before'.codeLength i) : before = before' ∧ st = .fn f ∧ after = after' := by
  obtain ⟨hf₁, hf₂⟩ := hf
  rcases Program.split_cases (hp.symm.trans hp') with heq | hlt | hlt
  · exact heq
  · omega
  · simp only [Statement.codeLength] at hlt
    omega

/-- The end of a statement is at the top level. -/
theorem Program.atTop_end {p before after : Program} {st : Statement}
    (hp : p = before ++ st :: after) : p.AtTop (before.codeLength + st.codeLength) := by
  refine ⟨?_, fun before' f after' hp' hf => ?_⟩
  · rw [hp, Program.codeLength_append, Program.codeLength_cons]
    omega
  · obtain ⟨rfl, rfl, rfl⟩ := Program.eq_of_spans hp (Nat.le_add_right _ _) (Nat.le_refl _) hp' hf
    have hend := hf.2
    simp only [Statement.codeLength] at hend
    omega

namespace Linked

variable {p : Program} {code : List Instr} {i j : Nat} {instr : Instr} {l : Label} {x : Text}

/-- Control stays at the top level from one instruction to the next. -/
theorem atTop_succ (h : Linked p code) (hi : code[i]? = some instr) (hj : instr.targets = [])
    (ht : p.AtTop i) : p.AtTop (i + 1) := by
  have hlt : i < p.codeLength := by
    rw [← h.length]
    exact (List.getElem?_eq_some_iff.1 hi).1
  refine ⟨hlt, fun before f after hp hf => ?_⟩
  obtain ⟨hf₁, hf₂⟩ := hf
  -- Only the first instruction of a definition has the entry behind it, and that one is a jump.
  rcases Nat.lt_or_ge before.codeLength i with hi' | hi'
  · exact ht.2 before f after hp ⟨hi', by omega⟩
  · obtain rfl : i = before.codeLength := by omega
    obtain ⟨m, hm, -⟩ := (h.fn hp).skipped
    cases Option.some.inj (hm.symm.trans hi)
    cases hj

/-- Control stays in a body from one instruction to the next, up to the return. -/
theorem inBodyOf_succ (h : Linked p code) (hi : code[i]? = some instr) (hr : instr ≠ .ret)
    (hb : p.InBodyOf x i) : p.InBodyOf x (i + 1) := by
  obtain ⟨before, f, after, hp, hx, hlast, ⟨hf₁, hf₂⟩, hne⟩ := hb
  refine ⟨before, f, after, hp, hx, hlast, ⟨by omega, ?_⟩, by omega⟩
  rcases Nat.lt_or_ge (i + 2) (before.codeLength + f.codeLength) with hlt | hge
  · omega
  · obtain ⟨_, -, hret, -⟩ := (h.fn hp).skipped
    rw [show before.codeLength + f.codeLength - 2 = i by omega] at hret
    exact absurd (Option.some.inj (hi.symm.trans hret)) hr

/-- A jump at the top level stays there. -/
theorem atTop_target (h : Linked p code) (hi : code[i]? = some instr) (hl : l ∈ instr.targets)
    (hj : code[j]? = some (.label l)) (ht : p.AtTop i) : p.AtTop (j + 1) := by
  rcases h.target_cases hi hl with
    ⟨before, f, after, hp, rfl, hk⟩ | ⟨start, c, k, hc, hs, he, hk, hlabel⟩
  · obtain rfl := placed_unique (h.placed_le l) hj hk
    have hlen : f.codeLength = f.params.length + Line.codeLengthAll f.block + 5 := rfl
    rw [show before.codeLength + f.codeLength - 1 + 1 = before.codeLength + f.codeLength by omega]
    exact Program.atTop_end hp
  · obtain rfl := placed_unique (h.placed_le l) hj hlabel
    cases hc with
    | @line before after l' hp =>
      simp only [Construct.codeLength] at hk
      refine ⟨?_, fun before' f after' hp' hf => ?_⟩
      · have hend := (Program.atTop_end hp).1
        simp only [Statement.codeLength] at hend
        omega
      · obtain ⟨-, hst, -⟩ := Program.eq_of_spans hp (by omega)
          (by simp only [Statement.codeLength]; omega) hp' hf
        cases hst
    | @body before after f hp =>
      simp only [Construct.codeLength] at he
      exact absurd ⟨by omega, by simp only [FnDef.codeLength]; omega⟩ (ht.2 before f after hp)

/-- A jump in a body stays there. -/
theorem inBodyOf_target (h : Linked p code) (hi : code[i]? = some instr) (hl : l ∈ instr.targets)
    (hj : code[j]? = some (.label l)) (hb : p.InBodyOf x i) : p.InBodyOf x (j + 1) := by
  obtain ⟨before, f, after, hp, hx, hlast, hf, hne⟩ := hb
  rcases h.target_cases hi hl with
    ⟨before', f', after', hp', rfl, -⟩ | ⟨start, c, k, hc, hs, he, hk, hlabel⟩
  · obtain ⟨rfl, -, -⟩ := Program.eq_of_spans hp' (Nat.le_refl _) (Nat.le_add_right _ _) hp hf
    exact absurd hf.1 (by omega)
  · obtain rfl := placed_unique (h.placed_le l) hj hlabel
    cases hc with
    | @line before' after' l' hp' =>
      obtain ⟨-, hst, -⟩ := Program.eq_of_spans hp' hs (Nat.le_of_lt he) hp hf
      cases hst
    | @body before' after' f' hp' =>
      simp only [Construct.codeLength] at he hk
      obtain ⟨rfl, hst, rfl⟩ := Program.eq_of_spans hp' (by omega)
        (by simp only [Statement.codeLength, FnDef.codeLength]; omega) hp hf
      cases hst
      exact ⟨before', f, after', hp, hx, hlast,
        ⟨by omega, by simp only [FnDef.codeLength]; omega⟩, by omega⟩

/-- A call goes to the body of the function that is named. -/
theorem inBodyOf_entry (h : Linked p code) (hj : code[j]? = some (.label (.named x))) :
    p.InBodyOf x (j + 1) := by
  have hd := h.named (List.mem_of_getElem? hj)
  obtain ⟨before, f, after, hp, rfl, hlast⟩ := hd.exists_last
  obtain rfl := placed_unique (h.placed_le _) hj (h.kept hp hlast)
  exact ⟨before, f, after, hp, rfl, hlast,
    ⟨by omega, by simp only [FnDef.codeLength]; omega⟩, by omega⟩

end Linked

/-! ## Steps -/

section Steps

variable {p : Program} {code : List Instr} {result : Option Register} {s t : State}

/-- Control that moves inside the top level and inside bodies stays where it can be. -/
theorem Controlled.move {callers : List Nat} {i j : Nat} (h : Controlled p code callers i)
    (htop : p.AtTop i → p.AtTop j) (hbody : ∀ x, p.InBodyOf x i → p.InBodyOf x j) :
    Controlled p code callers j := by
  cases callers with
  | nil => exact htop h
  | cons caller callers =>
    obtain ⟨⟨x, hx, hi⟩, hrest⟩ := h
    exact ⟨⟨x, hx, hbody x hi⟩, hrest⟩

theorem Controlled.succ {callers : List Nat} {i : Nat} {instr : Instr} (hl : Linked p code)
    (h : Controlled p code callers i) (hi : code[i]? = some instr) (hj : instr.targets = [])
    (hr : instr ≠ .ret) : Controlled p code callers (i + 1) :=
  h.move (hl.atTop_succ hi hj) fun _ => hl.inBodyOf_succ hi hr

theorem Controlled.target {callers : List Nat} {i j : Nat} {instr : Instr} {l : Label}
    (hl : Linked p code) (h : Controlled p code callers i) (hi : code[i]? = some instr)
    (ht : l ∈ instr.targets) (hj : code[j]? = some (.label l)) :
    Controlled p code callers (j + 1) :=
  h.move (hl.atTop_target hi ht hj) fun _ => hl.inBodyOf_target hi ht hj

/-- Every step keeps control where it can be. -/
theorem Controlled.step (hl : Linked p code) (h : Controlled p code s.callers s.ip)
    (hn : Image.Next ⟨code.toArray, result⟩ s t) : Controlled p code t.callers t.ip := by
  obtain ⟨instr, hi, ha⟩ := hn
  simp only [List.getElem?_toArray] at hi
  cases Image.execute_eq_ok.1 ha with
  | label | unassigned | push | pushI => exact h.succ hl hi rfl nofun
  | pop | binary | binaryI | loadI | move =>
    rw [State.callers_next, State.callers_write, State.next_ip, State.write_ip]
    exact h.succ hl hi rfl nofun
  | call hr hd =>
    obtain ⟨x, rfl⟩ := hl.calls (List.mem_of_getElem? hi)
    have hentry := (Image.resolve_eq_some (hl.placed_le _)).1 hr
    exact ⟨⟨x, hi, hl.inBodyOf_entry hentry⟩, h⟩
  | ret hc =>
    simp only [State.callers, hc, List.map_cons] at h
    obtain ⟨⟨x, hx, -⟩, hrest⟩ := h
    exact hrest.succ hl hx rfl nofun
  | jump hr =>
    exact h.target hl hi (List.mem_singleton.2 rfl) ((Image.resolve_eq_some (hl.placed_le _)).1 hr)
  | branch hr =>
    refine h.target hl hi ?_ ((Image.resolve_eq_some (hl.placed_le _)).1 hr)
    simp only [Instr.targets]
    split <;> simp

theorem Controlled.initial : Controlled p code State.initial.callers State.initial.ip := by
  refine ⟨Nat.zero_le _, fun before f after hp hf => ?_⟩
  exact absurd hf.1 (Nat.not_succ_le_zero _)

/-- Control is where it can be in every state of every run. -/
theorem Linked.controlled (hl : Linked p code)
    (h : Image.Reachable ⟨code.toArray, result⟩ s) : Controlled p code s.callers s.ip := by
  refine h.invariant (P := fun s => Controlled p code s.callers s.ip) Controlled.initial ?_
  intro s t hs hn
  exact Controlled.step hl hs hn

end Steps

/-! ## Faults -/

theorem Operator.eval_error_kind {op : Operator} {a b : Int32} {f : Fault}
    (h : op.eval a b = .error f) : f.kind = .arithmetic := by
  cases op with
  | div | mod =>
    simp only [Operator.eval, divide] at h
    split at h
    · cases h
      rfl
    · split at h
      · cases h
        rfl
      · cases h
  | _ => cases h

namespace Linked

variable {p : Program} {code : List Instr} {result : Option Register} {s : State} {i : Nat}
  {instr : Instr} {l : Label} {x : Text}

/-- Returns stand in bodies only. -/
theorem not_atTop_of_ret (h : Linked p code) (hi : code[i]? = some .ret) : ¬ p.AtTop i := by
  intro ht
  have hlt : i < p.codeLength := by
    rw [← h.length]
    exact (List.getElem?_eq_some_iff.1 hi).1
  obtain ⟨before, st, after, hp, hs, he⟩ := Program.exists_statement hlt
  cases st with
  | line l =>
    obtain ⟨hem, hc⟩ := h.line hp
    rw [hc.getElem? hs (by rw [hem.length_eq]; exact he)] at hi
    exact absurd (List.mem_of_getElem? hi) (hem.notMem [] 0).1
  | fn f =>
    have hlen : f.codeLength = f.params.length + Line.codeLengthAll f.block + 5 := rfl
    -- All places of the definition but its first and its last lie between entry and return.
    rcases Nat.lt_or_ge before.codeLength i with hs' | hs'
    · rcases Nat.lt_or_ge (i + 1) (before.codeLength + f.codeLength) with he' | he'
      · exact ht.2 before f after hp ⟨hs', he'⟩
      · obtain ⟨_, -, -, hlabel⟩ := (h.fn hp).skipped
        simp only [Statement.codeLength] at he
        rw [show before.codeLength + f.codeLength - 1 = i by omega, hi] at hlabel
        cases hlabel
    · obtain ⟨_, hjump, -⟩ := (h.fn hp).skipped
      rw [show before.codeLength = i by omega, hi] at hjump
      cases hjump

/-- A call is active wherever a return is executed. -/
theorem calls_ne_nil (h : Linked p code) (hr : Image.Reachable ⟨code.toArray, result⟩ s)
    (hi : code[s.ip]? = some .ret) : s.calls ≠ [] := by
  intro hc
  have hs := h.controlled hr
  rw [State.callers, hc] at hs
  exact h.not_atTop_of_ret hi hs

/-- Every jump has somewhere to go. -/
theorem resolve_target_ne_none (h : Linked p code) (hi : code[i]? = some instr)
    (hl : l ∈ instr.targets) : Image.resolve ⟨code.toArray, result⟩ l ≠ none := by
  rw [ne_eq, Image.resolve_eq_none, Classical.not_not]
  rcases h.target_cases hi hl with ⟨_, _, _, -, -, hlabel⟩ | ⟨_, _, _, -, -, -, -, hlabel⟩
  · exact List.mem_of_getElem? hlabel
  · exact List.mem_of_getElem? hlabel

/-- A call has nowhere to go exactly if its function is not defined. -/
theorem resolve_named_eq_none (h : Linked p code) :
    Image.resolve ⟨code.toArray, result⟩ (.named x) = none ↔ ¬ p.Defines x := by
  rw [Image.resolve_eq_none]
  refine not_congr ⟨h.named, fun hd => ?_⟩
  obtain ⟨before, f, after, hp, rfl, hlast⟩ := hd.exists_last
  exact List.mem_of_getElem? (h.kept hp hlast)

/-- What fails is neither a jump nor a branch. -/
theorem targets_of_stuck {f : Fault} (h : Linked p code)
    (hs : Image.Stuck ⟨code.toArray, result⟩ s instr f) : instr.targets = [] := by
  obtain ⟨hi, hf⟩ := hs
  simp only [List.getElem?_toArray] at hi
  cases (Image.execute_eq_error.1 hf).1 with
  | jump hn => exact absurd hn (h.resolve_target_ne_none hi (List.mem_singleton.2 rfl))
  | branch hl hn =>
    refine absurd hn (h.resolve_target_ne_none hi ?_)
    rw [← hl, Instr.targets]
    split <;> simp
  | _ => rfl

/-- What fails in a run is not a return. -/
theorem ne_ret_of_stuck {f : Fault} (h : Linked p code)
    (hr : Image.Reachable ⟨code.toArray, result⟩ s)
    (hs : Image.Stuck ⟨code.toArray, result⟩ s instr f) : instr ≠ .ret := by
  rintro rfl
  obtain ⟨hi, hf⟩ := hs
  simp only [List.getElem?_toArray] at hi
  cases (Image.execute_eq_error.1 hf).1 with
  | noActiveCall hc => exact h.calls_ne_nil hr hi hc

/-- A label is missing exactly where a call names a function that is not defined. -/
theorem labelResolution_iff {f : Fault} (h : Linked p code)
    (hs : Image.Stuck ⟨code.toArray, result⟩ s instr f) :
    f.kind = .labelResolution ↔ ∃ x, instr = .call (.named x) ∧ ¬ p.Defines x := by
  have htargets := h.targets_of_stuck hs
  obtain ⟨hi, hf⟩ := hs
  simp only [List.getElem?_toArray] at hi
  cases (Image.execute_eq_error.1 hf).1 with
  | undefinedCall hn =>
    obtain ⟨x, rfl⟩ := h.calls (List.mem_of_getElem? hi)
    simpa [Fault.kind] using h.resolve_named_eq_none.1 hn
  | callDepth hl hd =>
    obtain ⟨x, rfl⟩ := h.calls (List.mem_of_getElem? hi)
    have hx : p.Defines x := by
      refine Classical.not_not.1 fun hx => ?_
      cases hl.symm.trans (h.resolve_named_eq_none.2 hx)
    simp [Fault.kind, hx]
  | jump | branch => cases htargets
  | binary _ he | binaryI _ he => simp [Operator.eval_error_kind he]
  | _ => simp [Fault.kind]

end Linked

/-! ## Runs -/

/-- What holds of every run of an image of `p`. -/
structure ControlIntegrity (p : Program) (image : Image) : Prop where
  /-- While no call is active, control is at the top level. -/
  top {s : State} : image.Reachable s → s.calls = [] → p.AtTop s.ip
  /-- While calls are active, control is in the body of the function that the innermost names. -/
  body {s : State} {call : Activation} {rest : List Activation} : image.Reachable s →
    s.calls = call :: rest →
    ∃ x, image.code[call.caller]? = some (.call (.named x)) ∧ p.InBodyOf x s.ip
  /-- Neither returns nor jumps nor branches fail. -/
  faults {s : State} {i : Instr} {f : Fault} : image.Reachable s → image.Stuck s i f →
    i ≠ .ret ∧ i.targets = [] ∧ f.kind ≠ .frameUnderflow
  /-- A label is missing exactly where a call names a function that is not defined. -/
  resolution {s : State} {i : Instr} {f : Fault} : image.Reachable s → image.Stuck s i f →
    (f.kind = .labelResolution ↔ ∃ x, i = .call (.named x) ∧ ¬ p.Defines x)
  /-- A run that halts leaves no call active and control directly behind the code. -/
  halts {m₁ m₂ : Machine} {fuel ip steps : Nat} {value : Option Int32} :
    m₁.image = some image → m₁.run fuel = some (.halted ip value steps, m₂) →
    m₂.state.map State.calls = some [] ∧ m₂.callDepth = 0 ∧ ip = image.code.size

/-- Control has left all calls where it has left the code. -/
theorem Linked.calls_eq_nil {p : Program} {code : List Instr} {result : Option Register} {s : State}
    (h : Linked p code) (hr : Image.Reachable ⟨code.toArray, result⟩ s)
    (hend : code[s.ip]? = none) : s.calls = [] ∧ s.ip = code.length := by
  have hs := h.controlled hr
  rw [List.getElem?_eq_none_iff, h.length] at hend
  cases hc : s.calls with
  | nil =>
    rw [State.callers, hc] at hs
    have hle := hs.1
    exact ⟨rfl, by rw [h.length]; omega⟩
  | cons call rest =>
    rw [State.callers, hc] at hs
    obtain ⟨⟨x, -, before, f, after, rfl, -, -, hf, -⟩, -⟩ := hs
    have hlast := hf.2
    simp only [Program.codeLength_append, Program.codeLength_cons, Statement.codeLength] at hend
    omega

/-- Built programs keep control where it belongs, whatever the options of the build. -/
theorem Program.build_controlIntegrity {p : Program} {checkArity : Bool} {listing : Listing}
    (h : p.build checkArity = .ok listing) (hl : p.labelsDrawn < 2 ^ 32) :
    ∃ image, listing.load = .ok image ∧ ControlIntegrity p image := by
  have hlinked := Program.build_linked h hl
  refine ⟨_, Program.build_load h hl, ?_⟩
  refine { top := ?_, body := ?_, faults := ?_, resolution := ?_, halts := ?_ }
  · intro s hr hc
    have hs := hlinked.controlled hr
    rw [State.callers, hc] at hs
    exact hs
  · intro s call rest hr hc
    have hs := hlinked.controlled hr
    rw [State.callers, hc] at hs
    simpa using hs.1
  · intro s i f hr hs
    have hret := hlinked.ne_ret_of_stuck hr hs
    refine ⟨hret, hlinked.targets_of_stuck hs, ?_⟩
    cases (Image.execute_eq_error.1 hs.2).1 with
    | noActiveCall => exact absurd rfl hret
    | binary _ he | binaryI _ he => simp [Operator.eval_error_kind he]
    | _ => simp [Fault.kind]
  · intro s i f _ hs
    exact hlinked.labelResolution_iff hs
  · intro m₁ m₂ fuel ip steps value hm hrun
    obtain ⟨s, hs, rfl⟩ := (Machine.run_eq_some hm).1 hrun
    obtain ⟨hsteps, hend, rfl, -⟩ := Image.exists_run_eq_halted.1 ⟨fuel, hs⟩
    obtain ⟨hc, hip⟩ := hlinked.calls_eq_nil ⟨steps, hsteps⟩ (by simpa using hend)
    simp [hc, hip, Machine.callDepth]

theorem Program.sample_controlIntegrity : ∃ listing, Program.sample.build false = .ok listing ∧
    Program.sample.labelsDrawn < 2 ^ 32 ∧
    ∃ image, listing.load = .ok image ∧ ControlIntegrity Program.sample image := by
  obtain ⟨listing, h⟩ : ∃ listing, Program.sample.build false = .ok listing :=
    Program.exists_listing (by decide +kernel)
  have hl : Program.sample.labelsDrawn < 2 ^ 32 := by decide +kernel
  exact ⟨listing, h, hl, Program.build_controlIntegrity h hl⟩

end FrameLang
