import FrameLang.Machine
import FrameLang.Proofs.Lowering.Labels

/-!
# Runs as sequences of steps

A run is a sequence of steps from the initial state that ends behind the code or at a fault. What a
step does, and why it fails, is said once for each instruction: `Image.Acts` and `Image.Fails` are
what later proofs split, and not the definitions of the machine.

## Main definitions

* `Image.Acts`, `Image.Fails` — what an instruction does, and why it cannot be executed.
* `Image.Next`, `Image.Steps` — a step and a number of steps.
* `Image.Reachable` — the states of a run.
-/

namespace FrameLang

/-! ## What an instruction does -/

/-- What becomes of the state `s` when an instruction is executed. -/
inductive Image.Acts (image : Image) (s : State) : Instr → State → Prop where
  | label (l : Label) : image.Acts s (.label l) s.next
  | unassigned : image.Acts s .unassigned s.next
  | call {l : Label} {entry : Nat} : image.resolve l = some entry →
      s.calls.length < maxCallDepth →
      image.Acts s (.call l) { s with ip := entry + 1, calls := ⟨s.ip, .zero⟩ :: s.calls }
  | ret {call : Activation} {rest : List Activation} : s.calls = call :: rest →
      image.Acts s .ret { s with ip := call.caller + 1, calls := rest }
  | push (src : Register) : s.operands.size < maxOperands →
      image.Acts s (.push src) { s with operands := s.operands.push (s.read src) }.next
  | pushI (value : Int32) : s.operands.size < maxOperands →
      image.Acts s (.pushI value) { s with operands := s.operands.push value }.next
  | pop {value : Int32} (dst : Register) : s.operands.back? = some value →
      image.Acts s (.pop dst) ({ s with operands := s.operands.pop }.write dst value).next
  | binary {op : Operator} {lhs rhs : Register} {value : Int32} (out : Register) :
      op.eval (s.read lhs) (s.read rhs) = .ok value →
      image.Acts s (.binary op lhs rhs out) (s.write out value).next
  | binaryI {op : ImmOperator} {lhs : Register} {imm value : Int32} (out : Register) :
      op.operator.eval (s.read lhs) imm = .ok value →
      image.Acts s (.binaryI op lhs imm out) (s.write out value).next
  | loadI (value : Int32) (out : Register) :
      image.Acts s (.loadI value out) (s.write out value).next
  | move (src dst : Register) : image.Acts s (.move src dst) (s.write dst (s.read src)).next
  | jump {l : Label} {place : Nat} : image.resolve l = some place →
      image.Acts s (.jump l) { s with ip := place + 1 }
  | branch {test : Register} {ifOne ifOther : Label} {place : Nat} :
      image.resolve (if s.read test = 1 then ifOne else ifOther) = some place →
      image.Acts s (.branch test ifOne ifOther) { s with ip := place + 1 }

/-- Why an instruction cannot be executed in the state `s`. -/
inductive Image.Fails (image : Image) (s : State) : Instr → Fault → Prop where
  | undefinedCall {l : Label} : image.resolve l = none → image.Fails s (.call l) (.undefinedCall l)
  | callDepth {l : Label} {entry : Nat} : image.resolve l = some entry →
      maxCallDepth ≤ s.calls.length → image.Fails s (.call l) .callDepth
  | noActiveCall : s.calls = [] → image.Fails s .ret .noActiveCall
  | push (src : Register) : maxOperands ≤ s.operands.size → image.Fails s (.push src) .operandLimit
  | pushI (value : Int32) : maxOperands ≤ s.operands.size →
      image.Fails s (.pushI value) .operandLimit
  | pop (dst : Register) : s.operands = #[] → image.Fails s (.pop dst) .emptyOperands
  | binary {op : Operator} {lhs rhs : Register} {f : Fault} (out : Register) :
      op.eval (s.read lhs) (s.read rhs) = .error f → image.Fails s (.binary op lhs rhs out) f
  | binaryI {op : ImmOperator} {lhs : Register} {imm : Int32} {f : Fault} (out : Register) :
      op.operator.eval (s.read lhs) imm = .error f → image.Fails s (.binaryI op lhs imm out) f
  | jump {l : Label} : image.resolve l = none → image.Fails s (.jump l) (.undefinedJump l)
  | branch {test : Register} {ifOne ifOther l : Label} :
      (if s.read test = 1 then ifOne else ifOther) = l → image.resolve l = none →
      image.Fails s (.branch test ifOne ifOther) (.undefinedBranch l)

namespace Image

variable {image : Image} {s t : State} {i : Instr} {f : Fault}

theorem Acts.execute (h : image.Acts s i t) : image.execute s i = .ok t := by
  cases h <;> simp_all [Image.execute, Image.perform, Except.map, State.enter, State.leave,
    State.push, State.pop, State.store, State.goTo, State.next]

theorem Fails.execute (h : image.Fails s i f) : image.execute s i = .error (f, s) := by
  cases h with
  | callDepth hl hd =>
    simp [Image.execute, Image.perform, Except.map, State.enter, State.fault, hl, Nat.not_lt.2 hd]
  | push _ ho | pushI _ ho =>
    simp [Image.execute, Image.perform, Except.map, State.push, State.fault, Nat.not_lt.2 ho]
  | _ =>
    simp_all [Image.execute, Image.perform, Except.map, State.leave, State.pop, State.store,
      State.goTo, State.fault]

/-- Every instruction either does something or fails. -/
theorem acts_or_fails (image : Image) (s : State) (i : Instr) :
    (∃ t, image.Acts s i t) ∨ ∃ f, image.Fails s i f := by
  cases i with
  | label l => exact .inl ⟨_, .label l⟩
  | unassigned => exact .inl ⟨_, .unassigned⟩
  | loadI value out => exact .inl ⟨_, .loadI value out⟩
  | move src dst => exact .inl ⟨_, .move src dst⟩
  | call l =>
    cases hl : image.resolve l with
    | none => exact .inr ⟨_, .undefinedCall hl⟩
    | some entry =>
      rcases Nat.lt_or_ge s.calls.length maxCallDepth with hd | hd
      · exact .inl ⟨_, .call hl hd⟩
      · exact .inr ⟨_, .callDepth hl hd⟩
  | ret =>
    cases hc : s.calls with
    | nil => exact .inr ⟨_, .noActiveCall hc⟩
    | cons call rest => exact .inl ⟨_, .ret hc⟩
  | push src =>
    rcases Nat.lt_or_ge s.operands.size maxOperands with ho | ho
    · exact .inl ⟨_, .push src ho⟩
    · exact .inr ⟨_, .push src ho⟩
  | pushI value =>
    rcases Nat.lt_or_ge s.operands.size maxOperands with ho | ho
    · exact .inl ⟨_, .pushI value ho⟩
    · exact .inr ⟨_, .pushI value ho⟩
  | pop dst =>
    cases ho : s.operands.back? with
    | none => exact .inr ⟨_, .pop dst (Array.back?_eq_none_iff.1 ho)⟩
    | some value => exact .inl ⟨_, .pop dst ho⟩
  | binary op lhs rhs out =>
    cases hv : op.eval (s.read lhs) (s.read rhs) with
    | error f => exact .inr ⟨_, .binary out hv⟩
    | ok value => exact .inl ⟨_, .binary out hv⟩
  | binaryI op lhs imm out =>
    cases hv : op.operator.eval (s.read lhs) imm with
    | error f => exact .inr ⟨_, .binaryI out hv⟩
    | ok value => exact .inl ⟨_, .binaryI out hv⟩
  | jump l =>
    cases hl : image.resolve l with
    | none => exact .inr ⟨_, .jump hl⟩
    | some place => exact .inl ⟨_, .jump hl⟩
  | branch test ifOne ifOther =>
    cases hl : image.resolve (if s.read test = 1 then ifOne else ifOther) with
    | none => exact .inr ⟨_, .branch rfl hl⟩
    | some place => exact .inl ⟨_, .branch hl⟩

theorem execute_eq_ok : image.execute s i = .ok t ↔ image.Acts s i t := by
  refine ⟨fun h => ?_, Acts.execute⟩
  rcases acts_or_fails image s i with ⟨u, hu⟩ | ⟨f, hf⟩
  · obtain rfl : u = t := Except.ok.inj (hu.execute.symm.trans h)
    exact hu
  · cases hf.execute.symm.trans h

/-- A step that fails leaves the state as it is. -/
theorem execute_eq_error : image.execute s i = .error (f, t) ↔ image.Fails s i f ∧ s = t := by
  refine ⟨fun h => ?_, fun ⟨hf, ht⟩ => ht ▸ hf.execute⟩
  rcases acts_or_fails image s i with ⟨u, hu⟩ | ⟨g, hg⟩
  · cases hu.execute.symm.trans h
  · cases hg.execute.symm.trans h
    exact ⟨hg, rfl⟩

end Image

/-! ## Parts of states -/

namespace State

variable (s : State) (r : Register) (value : Int32)

/-- The places of the call instructions whose calls are active, the innermost first. -/
def callers : List Nat :=
  s.calls.map Activation.caller

@[simp] theorem next_ip : s.next.ip = s.ip + 1 := rfl

@[simp] theorem next_calls : s.next.calls = s.calls := rfl

@[simp] theorem next_operands : s.next.operands = s.operands := rfl

@[simp] theorem write_ip : (s.write r value).ip = s.ip := by
  obtain ⟨ip, globals, _ | _, operands⟩ := s <;> cases r <;> rfl

@[simp] theorem write_operands : (s.write r value).operands = s.operands := by
  obtain ⟨ip, globals, _ | _, operands⟩ := s <;> cases r <;> rfl

@[simp] theorem callers_next : s.next.callers = s.callers := rfl

@[simp] theorem callers_write : (s.write r value).callers = s.callers := by
  obtain ⟨ip, globals, _ | _, operands⟩ := s <;> cases r <;> rfl

end State

/-! ## Steps -/

/-- A step from `s` leads to `t`. -/
def Image.Next (image : Image) (s t : State) : Prop :=
  ∃ i, image.code[s.ip]? = some i ∧ image.execute s i = .ok t

/-- A run stops at the state `s` with a fault of its next instruction. -/
def Image.Stuck (image : Image) (s : State) (i : Instr) (f : Fault) : Prop :=
  image.code[s.ip]? = some i ∧ image.execute s i = .error (f, s)

/-- A number of steps from `s` lead to `t`. -/
inductive Image.Steps (image : Image) : Nat → State → State → Prop where
  | refl (s : State) : image.Steps 0 s s
  | cons {n : Nat} {s t u : State} : image.Next s t → image.Steps n t u → image.Steps (n + 1) s u

/-- The states of a run from the initial state. -/
def Image.Reachable (image : Image) (s : State) : Prop :=
  ∃ n, image.Steps n .initial s

namespace Image

variable {image : Image} {s t u : State} {i j : Instr} {f g : Fault} {m n : Nat}

theorem Next.unique (h : image.Next s t) (h' : image.Next s u) : t = u := by
  obtain ⟨i, hi, ht⟩ := h
  obtain ⟨j, hj, hu⟩ := h'
  obtain rfl : i = j := Option.some.inj (hi.symm.trans hj)
  exact Except.ok.inj (ht.symm.trans hu)

theorem Next.not_stuck (h : image.Next s t) : ¬ image.Stuck s i f := by
  rintro ⟨hi, hf⟩
  obtain ⟨j, hj, ht⟩ := h
  obtain rfl : i = j := Option.some.inj (hi.symm.trans hj)
  cases ht.symm.trans hf

theorem Stuck.unique (h : image.Stuck s i f) (h' : image.Stuck s j g) : f = g := by
  obtain rfl : i = j := Option.some.inj (h.1.symm.trans h'.1)
  cases h.2.symm.trans h'.2
  rfl

theorem Next.getElem?_ne_none (h : image.Next s t) : image.code[s.ip]? ≠ none := by
  obtain ⟨i, hi, -⟩ := h
  simp [hi]

theorem Steps.one (h : image.Next s t) : image.Steps 1 s t :=
  .cons h (.refl t)

theorem Steps.trans (h : image.Steps m s t) (h' : image.Steps n t u) :
    image.Steps (n + m) s u := by
  induction h with
  | refl => exact h'
  | cons hs _ ih => exact .cons hs (ih h')

/-- What every step preserves holds at the end of every sequence of steps. -/
theorem Steps.invariant {P : State → Prop} (hstep : ∀ s t, P s → image.Next s t → P t)
    (h : image.Steps n s t) (hs : P s) : P t := by
  induction h with
  | refl => exact hs
  | cons hst _ ih => exact ih (hstep _ _ hs hst)

/-- What holds at the start and is preserved by every step holds of every reachable state. -/
theorem Reachable.invariant {P : State → Prop} (h : image.Reachable s) (hinit : P .initial)
    (hstep : ∀ s t, P s → image.Next s t → P t) : P s := by
  obtain ⟨n, hn⟩ := h
  exact hn.invariant hstep hinit

/-- Steps are a part of any sequence of steps that is longer. -/
theorem Steps.split (h : image.Steps m s t) (h' : image.Steps n s u) (hmn : m ≤ n) :
    image.Steps (n - m) t u := by
  induction h generalizing n with
  | refl => exact h'
  | cons hs _ ih =>
    cases h' with
    | refl => omega
    | cons hs' hr =>
      obtain rfl := hs.unique hs'
      rw [Nat.add_sub_add_right]
      exact ih hr (by omega)

/-- A state from which no step leads on is the last of any sequence of steps. -/
theorem Steps.le_of_final (h : image.Steps m s t) (hfinal : ∀ v, ¬ image.Next t v)
    (h' : image.Steps n s u) : n ≤ m := by
  rcases Nat.lt_or_ge m n with hlt | hge
  · have hr := h.split h' (Nat.le_of_lt hlt)
    obtain ⟨k, hk⟩ : ∃ k, n - m = k + 1 := ⟨n - m - 1, by omega⟩
    rw [hk] at hr
    cases hr with
    | cons hs _ => exact absurd hs (hfinal _)
  · exact hge

/-- All sequences of steps to a state from which no step leads on are the same. -/
theorem Steps.final_unique (h : image.Steps m s t) (hfinal : ∀ v, ¬ image.Next t v)
    (h' : image.Steps n s u) (hfinal' : ∀ v, ¬ image.Next u v) : m = n ∧ t = u := by
  obtain rfl : m = n := Nat.le_antisymm (h'.le_of_final hfinal' h) (h.le_of_final hfinal h')
  have hr := h.split h' (Nat.le_refl m)
  rw [Nat.sub_self] at hr
  cases hr
  exact ⟨rfl, rfl⟩

theorem Steps.shorter (h : image.Steps n s t) (hmn : m ≤ n) : ∃ u, image.Steps m s u := by
  induction h generalizing m with
  | refl s =>
    obtain rfl := Nat.le_zero.1 hmn
    exact ⟨s, .refl s⟩
  | @cons n s t u hs _ ih =>
    cases m with
    | zero => exact ⟨s, .refl s⟩
    | succ m =>
      obtain ⟨v, hv⟩ := ih (Nat.le_of_succ_le_succ hmn)
      exact ⟨v, .cons hs hv⟩

/-! ## Runs -/

/-- Steps are taken from the bound. -/
theorem Steps.runFrom (h : image.Steps n s t) (fuel k : Nat) :
    image.runFrom (fuel + n) k s = image.runFrom fuel (k + n) t := by
  induction h generalizing k with
  | refl => rfl
  | cons hs _ ih =>
    obtain ⟨i, hi, ha⟩ := hs
    rw [← Nat.add_assoc, Image.runFrom, hi]
    simp only [ha, ih]
    rw [Nat.add_right_comm, Nat.add_assoc k]

theorem runFrom_halted (h : image.code[t.ip]? = none) (fuel k : Nat) :
    image.runFrom (fuel + 1) k t = some (.halted t.ip (image.result.map t.read) k, t) := by
  simp only [Image.runFrom, h]

theorem Stuck.runFrom (h : image.Stuck t i f) (fuel k : Nat) :
    image.runFrom (fuel + 1) k t = some (.trapped t.ip i f, t) := by
  simp only [Image.runFrom, h.1, h.2]

/-- There are as many steps as asked for, or the run ends before that, behind the code or at a
fault. -/
theorem steps_cases (image : Image) (fuel : Nat) (s : State) :
    (∃ t, image.Steps fuel s t) ∨ ∃ n < fuel, ∃ t, image.Steps n s t ∧
      (image.code[t.ip]? = none ∨ ∃ i f, image.Stuck t i f) := by
  induction fuel generalizing s with
  | zero => exact .inl ⟨s, .refl s⟩
  | succ fuel ih =>
    cases hi : image.code[s.ip]? with
    | none => exact .inr ⟨0, Nat.succ_pos _, s, .refl s, .inl hi⟩
    | some i =>
      rcases acts_or_fails image s i with ⟨u, hu⟩ | ⟨f, hf⟩
      · rcases ih u with ⟨t, ht⟩ | ⟨n, hn, t, ht, hend⟩
        · exact .inl ⟨t, .cons ⟨i, hi, hu.execute⟩ ht⟩
        · exact .inr ⟨n + 1, Nat.succ_lt_succ hn, t, .cons ⟨i, hi, hu.execute⟩ ht, hend⟩
      · exact .inr ⟨0, Nat.succ_pos _, s, .refl s, .inr ⟨i, f, hi, hf.execute⟩⟩

/-- How a run answers is read off the steps that it makes. -/
theorem runFrom_cases (image : Image) (fuel k : Nat) (s : State) :
    (image.runFrom fuel k s = none ∧ ∃ t, image.Steps fuel s t) ∨
    (∃ n t, image.runFrom fuel k s = some (.halted t.ip (image.result.map t.read) (k + n), t) ∧
      image.Steps n s t ∧ image.code[t.ip]? = none) ∨
    ∃ n t i f, image.runFrom fuel k s = some (.trapped t.ip i f, t) ∧ image.Steps n s t ∧
      image.Stuck t i f := by
  rcases steps_cases image fuel s with ⟨t, ht⟩ | ⟨n, hn, t, ht, hend⟩
  · have hr := ht.runFrom 0 k
    rw [Nat.zero_add] at hr
    exact .inl ⟨hr, t, ht⟩
  · obtain ⟨rest, rfl⟩ : ∃ rest, fuel = rest + 1 + n := ⟨fuel - n - 1, by omega⟩
    rw [ht.runFrom (rest + 1) k]
    rcases hend with hend | ⟨i, f, hend⟩
    · exact .inr (.inl ⟨n, t, runFrom_halted hend _ _, ht, hend⟩)
    · exact .inr (.inr ⟨n, t, i, f, hend.runFrom _ _, ht, hend⟩)

/-- A run halts after the steps that lead behind the code. -/
theorem exists_run_eq_halted {ip steps : Nat} {value : Option Int32} :
    (∃ fuel, image.run fuel = some (.halted ip value steps, t)) ↔
      image.Steps steps .initial t ∧ image.code[t.ip]? = none ∧ ip = t.ip ∧
        value = image.result.map t.read := by
  constructor
  · rintro ⟨fuel, h⟩
    rcases runFrom_cases image fuel 0 .initial with
      ⟨hr, -⟩ | ⟨n, u, hr, hn, hu⟩ | ⟨n, u, i, f, hr, -, -⟩
    · cases hr.symm.trans h
    · rw [Nat.zero_add] at hr
      cases hr.symm.trans h
      exact ⟨hn, hu, rfl, rfl⟩
    · cases hr.symm.trans h
  · rintro ⟨hn, ht, rfl, rfl⟩
    refine ⟨0 + 1 + steps, ?_⟩
    rw [Image.run, hn.runFrom, runFrom_halted ht, Nat.zero_add]

/-- A run traps where the next instruction fails. -/
theorem exists_run_eq_trapped {ip : Nat} :
    (∃ fuel, image.run fuel = some (.trapped ip i f, t)) ↔
      image.Reachable t ∧ image.Stuck t i f ∧ ip = t.ip := by
  constructor
  · rintro ⟨fuel, h⟩
    rcases runFrom_cases image fuel 0 .initial with
      ⟨hr, -⟩ | ⟨n, u, hr, -, -⟩ | ⟨n, u, j, g, hr, hn, hu⟩
    · cases hr.symm.trans h
    · cases hr.symm.trans h
    · cases hr.symm.trans h
      exact ⟨⟨n, hn⟩, hu, rfl⟩
  · rintro ⟨⟨n, hn⟩, ht, rfl⟩
    refine ⟨0 + 1 + n, ?_⟩
    rw [Image.run, hn.runFrom, ht.runFrom]

/-- A run never answers if there are always more steps. -/
theorem run_eq_none_iff : (∀ fuel, image.run fuel = none) ↔
    ∀ n, ∃ t, image.Steps n .initial t := by
  constructor
  · intro h n
    rcases runFrom_cases image n 0 .initial with ⟨-, ht⟩ | ⟨_, _, hr, -⟩ | ⟨_, _, _, _, hr, -⟩
    · exact ht
    · cases (h n).symm.trans hr
    · cases (h n).symm.trans hr
  · intro h fuel
    obtain ⟨t, ht⟩ := h fuel
    rw [Image.run, ← Nat.zero_add fuel, ht.runFrom, Image.runFrom]

/-- A larger bound never changes the answer of a run. -/
theorem runFrom_mono {fuel more k : Nat} {r : Outcome × State}
    (h : image.runFrom fuel k s = some r) (hle : fuel ≤ more) :
    image.runFrom more k s = some r := by
  induction fuel generalizing more k s with
  | zero => cases h
  | succ fuel ih =>
    cases more with
    | zero => exact absurd hle (Nat.not_succ_le_zero fuel)
    | succ more =>
      simp only [Image.runFrom] at h ⊢
      cases hi : image.code[s.ip]? with
      | none => simpa only [hi] using h
      | some i =>
        simp only [hi] at h ⊢
        cases hx : image.execute s i with
        | error e => simpa only [hx] using h
        | ok next =>
          simp only [hx] at h ⊢
          exact ih h (Nat.le_of_succ_le_succ hle)

/-! ## Labels -/

theorem resolve_eq_none {code : List Instr} {result : Option Register} {l : Label} :
    Image.resolve ⟨code.toArray, result⟩ l = none ↔ .label l ∉ code := by
  rw [← placed_pos, placed, List.countP_pos_iff]
  simp [Image.resolve, List.findIdx?_eq_none_iff]

/-- A label that is placed once is found where it is placed. -/
theorem resolve_eq_some {code : List Instr} {result : Option Register} {l : Label} {place : Nat}
    (h : placed l code ≤ 1) :
    Image.resolve ⟨code.toArray, result⟩ l = some place ↔ code[place]? = some (.label l) := by
  have hfound {k : Nat} (hk : Image.resolve ⟨code.toArray, result⟩ l = some k) :
      code[k]? = some (.label l) := by
    simp only [Image.resolve, List.findIdx?_toArray] at hk
    obtain ⟨hlt, hd, -⟩ := List.findIdx?_eq_some_iff_getElem.1 hk
    rw [List.getElem?_eq_getElem hlt, Option.some_inj]
    revert hd
    cases code[k] <;> simp [Instr.defines]
  refine ⟨hfound, fun hp => ?_⟩
  cases hr : Image.resolve ⟨code.toArray, result⟩ l with
  | none => exact absurd (List.mem_of_getElem? hp) (resolve_eq_none.1 hr)
  | some k => rw [placed_unique h hp (hfound hr)]

end Image

/-! ## Machines -/

namespace Machine

variable {m m' : Machine} {image : Image} {fuel : Nat} {outcome : Outcome}

/-- A run of a machine is a run of its image and keeps the last state. -/
theorem run_eq_some (hm : m.image = some image) : m.run fuel = some (outcome, m') ↔
    ∃ s, image.run fuel = some (outcome, s) ∧ m' = { m with state := some s } := by
  simp only [Machine.run, hm, Option.map_eq_some_iff, Prod.mk.injEq]
  constructor
  · rintro ⟨⟨outcome, s⟩, hr, rfl, rfl⟩
    exact ⟨s, hr, rfl⟩
  · rintro ⟨s, hr, rfl⟩
    exact ⟨(outcome, s), hr, rfl, rfl⟩

theorem run_eq_none (hm : m.image = some image) : m.run fuel = none ↔ image.run fuel = none := by
  simp only [Machine.run, hm, Option.map_eq_none_iff]

end Machine

theorem Listing.execute_mono {listing : Listing} {fuel more : Nat} {outcome : Outcome}
    (h : listing.execute fuel = some outcome) (hle : fuel ≤ more) :
    listing.execute more = some outcome := by
  unfold Listing.execute at h ⊢
  cases hload : listing.load with
  | error e => simpa only [hload] using h
  | ok image =>
    simp only [hload] at h ⊢
    obtain ⟨r, hr, rfl⟩ := Option.map_eq_some_iff.1 h
    rw [Image.run, Image.runFrom_mono hr hle, Option.map_some]

end FrameLang
