import FrameLang.Proofs.Machine.Control
import FrameLang.Proofs.Semantics.Simulation

/-!
# Built programs mean what the interpreter says

A machine that runs a built program ends as the interpreter does: it halts with the same value and
the same variables, it faults with the same kind, or it goes on forever. Calls follow the functions
that they mean by induction on the number of calls that may still become active, and a program
follows its statements from the first to the last.

## Main definitions

* `Program.register?` — the register of a variable at the top level.
* `Machine.Agrees` — the runs of a machine end as the interpreter says.
-/

namespace FrameLang

/-! ## Calls -/

section Calls

variable {p : Program} {code : List Instr} {result : Option Register} {rounds : Nat}

/-- The code of a function, from behind its entry to its return, follows an activation of it. -/
theorem FnDef.PlacedAt.follows {f : FnDef} {start : Nat} (h : f.PlacedAt code start)
    (hl : ∀ l, placed l code ≤ 1) :
    ∃ (final : Allocation) (back : Nat), final.Valid ∧ code[back]? = some .ret ∧
      ∀ (S : Scope) (invoke : Text → Exec Unit) (operands : Array Int32), S.final = final →
        S.owner = .function f.name → S.Calls code result rounds invoke →
        Follows ⟨code.toArray, result⟩ rounds (S.state (start + 2) .zero operands)
          (fun _ => S.Stands back fun _ => True) (fun _ _ => False)
          (f.eval invoke rounds ⟨fun _ => 0, operands⟩) := by
  obtain @⟨skip, mid, inner, params, body, place, hparams, hbody, -, hc⟩ := h
  simp only [codeAt_append, codeAt_cons, List.length_append, ← Nat.add_assoc] at hc
  obtain ⟨⟨hcp, hcb⟩, hpush, hret, -⟩ := hc
  have hempty := Allocation.valid_empty (skip + 1)
  have hmid := hparams.valid hempty
  refine ⟨inner, _, hbody.valid hmid, hret, ?_⟩
  rintro S invoke operands rfl howner hcalls
  have hsim := hparams.simulates hl hcalls howner.symm hempty hbody.growsTo
  have hsim' := hbody.simulates hl hcalls howner.symm hmid (.refl _)
  have hend : ∀ l, (none : Option Label) = some l → .label l ∈ code := fun _ hl => by cases hl
  rw [← Scope.world_zero]
  refine Follows.imp (hsim.bind none hcp hend trivial .refl (Nat.le_refl _) ?_)
    (fun _ _ _ ht => ht) fun _ _ hb => Scope.not_breaks_none hb
  intro _ g operands₁ hu _ _
  refine hsim'.bind none hcb hend .none hu hparams.growsTo.registers ?_
  intro denoted g' operands₂ _ _ hheld
  cases hheld with
  | some hheld =>
    exact (Scope.follows_push hpush hheld).imp
      (fun _ _ _ ht => ht.imp fun _ _ => trivial) fun _ _ hb => hb

/-- What a name means is found at its entry. -/
theorem Linked.placedAt_of_function? (h : Linked p code) {x : Text} {f : FnDef}
    (hf : p.function? x = some f) :
    ∃ start, f.PlacedAt code start ∧ code[start + 1]? = some (.label (.named x)) := by
  obtain ⟨before, after, hp, rfl, hlast⟩ := Program.function?_eq_some.1 hf
  exact ⟨_, h.fn hp, h.kept hp hlast⟩

theorem Program.invoke_of_none {x : Text} {depth : Nat} (hf : p.function? x = none) :
    p.invoke rounds depth x = Exec.fault .labelResolution := by
  cases depth <;> simp only [Program.invoke, hf]

theorem Program.invoke_zero {x : Text} {f : FnDef} (hf : p.function? x = some f) :
    p.invoke rounds 0 x = Exec.fault .resourceExhausted := by
  simp only [Program.invoke, hf]

theorem Program.invoke_succ {x : Text} {f : FnDef} {depth : Nat} (hf : p.function? x = some f) :
    p.invoke rounds (depth + 1) x =
      Exec.inNewActivation (f.eval (p.invoke rounds depth) rounds) := by
  simp only [Program.invoke, hf]

/-- A call to a name without a definition fails. -/
theorem Linked.follows_undefined (h : Linked p code) {x : Text} (hf : p.function? x = none)
    {S : Scope} {ip depth : Nat} {f : Frame} {operands : Array Int32}
    {P : Unit → World → State → Prop} {B : World → State → Prop}
    (hi : code[ip]? = some (.call (.named x))) :
    Follows ⟨code.toArray, result⟩ rounds (S.state ip f operands) P B
      (p.invoke rounds depth x (S.world f operands)) := by
  rw [Program.invoke_of_none hf]
  refine Scope.follows_fault hi (.undefinedCall ?_) rfl
  exact h.resolve_named_eq_none.2 (Program.function?_eq_none.1 hf)

/-- Calls follow what the interpreter does, if as many more of them may become active. -/
theorem Linked.follows_invoke (h : Linked p code) (depth : Nat) (S : Scope)
    (hd : S.seat.depth + depth = maxCallDepth) :
    S.Calls code result rounds (p.invoke rounds depth) := by
  -- The frame that a call opens is one deeper, so what it calls has one call less to go.
  induction depth generalizing S with
  | zero =>
    intro x ip f operands hi
    cases hf : p.function? x with
    | none => exact h.follows_undefined hf hi
    | some g =>
      obtain ⟨start, -, hentry⟩ := h.placedAt_of_function? hf
      have hfull : maxCallDepth ≤ (S.state ip f operands).calls.length := by
        rw [Seat.state_calls_length]
        exact Nat.le_of_eq hd.symm
      rw [Program.invoke_zero hf]
      exact Scope.follows_fault hi
        (.callDepth ((Image.resolve_eq_some (h.placed_le _)).2 hentry) hfull) rfl
  | succ depth ih =>
    intro x ip f operands hi
    cases hf : p.function? x with
    | none => exact h.follows_undefined hf hi
    | some g =>
      obtain ⟨start, hg, hentry⟩ := h.placedAt_of_function? hf
      obtain ⟨final, back, hvalid, hret, hfollows⟩ := hg.follows h.placed_le
      have hroom : S.seat.depth < maxCallDepth := by omega
      have hcalls := ih ⟨final, .function g.name, S.seat.inner f ip, hvalid,
        Seat.inner_suits _ _ _ _⟩ (by simp only [Seat.depth_inner]; omega)
      rw [Program.invoke_succ hf]
      refine Follows.next (Scope.next_call (h.placed_le _) hi hentry hroom)
        (Follows.inNewActivation (Follows.andThen (hfollows _ _ _ rfl rfl hcalls) ?_))
      rintro _ _ _ (@⟨g', operands', -⟩)
      exact ⟨_, Scope.next_ret hret, .intro rfl⟩

end Calls

/-! ## Programs -/

section Results

variable {S : Scope} {lo lo' : Nat} {f g : Frame} {v v' : Option Register}
  {place place' : Option Expr.Place}

theorem Scope.holds_later (h : Option.Rel (S.Holds lo f) v place)
    (hu : Untouched S.final lo f g) (hlo : lo ≤ lo') : Option.Rel (S.Holds lo' g) v place := by
  cases h with
  | none => exact .none
  | some h => exact .some ((h.untouched hu).mono hlo)

theorem Scope.holds_or (h : Option.Rel (S.Holds lo f) v place)
    (h' : Option.Rel (S.Holds lo f) v' place') :
    Option.Rel (S.Holds lo f) (v.or v') (place.or place') := by
  cases h with
  | none => exact h'
  | some h => exact .some h

end Results

section Programs

variable {S : Scope} {raw : List Instr} {result : Option Register} {rounds next start : Nat}
  {invoke : Text → Exec Unit} {f : Frame} {operands : Array Int32}

/-- Control goes over a definition. -/
theorem Statement.Emits.next_fn {g : FnDef} {a b : Allocation} {part : List Instr}
    {v : Option Register} (h : (Statement.fn g).Emits a part v b) (hc : CodeAt raw start part)
    (hl : ∀ l, placed l (relabelShadowed next raw) ≤ 1) :
    Image.Next ⟨(relabelShadowed next raw).toArray, result⟩ (S.state start f operands)
      (S.state (start + part.length) f operands) := by
  cases h with
  | @fn _ _ _ _ params body place hp hb =>
    obtain ⟨hc, hlast⟩ := codeAt_append.1 hc
    have hjump : CodeAt raw start [.jump (.ofNumber a.labels)] := by
      simpa using (codeAt_cons.1 (codeAt_append.1 hc).1).1
    rw [List.length_append, ← Nat.add_assoc]
    exact Scope.next_jump (hl _) (codeAt_cons.1 (hjump.relabelShadowed (by simp) next)).1
      (codeAt_cons.1 (hlast.relabelShadowed (by simp) next)).1

/-- The code of a program follows its statements. -/
theorem Program.Emits.follows {p : Program} {a b : Allocation} {part : List Instr}
    {value last : Option Register} (h : Program.Emits value p a part last b)
    (hl : ∀ l, placed l (relabelShadowed next raw) ≤ 1)
    (hcalls : S.Calls (relabelShadowed next raw) result rounds invoke)
    (howner : S.owner = .topLevel) (ha : a.Valid) (hN : b.GrowsTo S.final)
    {given : Option Expr.Place} (hc : CodeAt raw start part)
    (hgiven : Option.Rel (S.Holds a.registers f) value given) :
    Follows ⟨(relabelShadowed next raw).toArray, result⟩ rounds (S.state start f operands)
      (fun place => S.Stands (start + part.length) fun g =>
        Option.Rel (S.Holds b.registers g) last place)
      (fun _ _ => False) (Program.evalFrom invoke rounds given p (S.world f operands)) := by
  induction h generalizing start f operands given with
  | nil => exact .done (.intro hgiven)
  | @cons _ _ v st rest _ _ _ part restCode hs hrest ih =>
    obtain ⟨hc₁, hc₂⟩ := codeAt_append.1 hc
    rw [List.length_append, ← Nat.add_assoc]
    cases st with
    | fn g =>
      refine Follows.next (hs.next_fn hc₁ hl) ?_
      cases hs with
      | fn _ _ => exact ih (ha.withLabels _) hN hc₂ hgiven
    | line l =>
      cases hs with
      | line hline =>
        have hgrow := hline.growsTo
        have hsim := hline.simulates hl hcalls howner.symm ha (hrest.growsTo.trans hN)
        have hc₁' := hc₁.relabelShadowed (fun x => (hline.notMem x 0).2.1) next
        refine Follows.bind ((hsim start f operands none hc₁' nofun trivial).imp
          (fun _ _ _ ht => ht) fun _ _ hb => Scope.not_breaks_none hb) ?_
        rintro place _ _ (@⟨g, operands', hu, hplace⟩)
        exact ih (hline.valid ha) hN hc₂
          (Scope.holds_or hplace (Scope.holds_later hgiven hu hgrow.registers))

end Programs

/-! ## Runs of built programs -/

/-- The register of a variable at the top level, if it has one. -/
def Program.register? (p : Program) (x : Text) : Option Register :=
  match (Program.lower none p).run {} with
  | .ok (_, a) => (a.names.lookup x).map Owner.topLevel.register
  | .error _ => none

/-- The state is behind the code, its result is the given value, its registers hold the variables,
and its operands are those of the world. -/
structure Program.Finished (p : Program) (image : Image) (value : Option Int32) (w : World)
    (t : State) : Prop where
  behind : image.code[t.ip]? = none
  value : image.result.map t.read = value
  env (x : Text) : w.env x = ((p.register? x).map t.read).getD 0
  operands : t.operands = w.operands

/-- The variables at the top level are found in their registers. -/
theorem Scope.env_eq {S : Scope} {p : Program} {code : List Instr} {result : Option Register}
    (hlower : (Program.lower none p).run {} = .ok ((code, result), S.final))
    (howner : S.owner = .topLevel) (ip : Nat) (f : Frame) (operands : Array Int32) (x : Text) :
    (S.world f operands).env x = ((p.register? x).map (S.state ip f operands).read).getD 0 := by
  simp only [Scope.world, Allocation.view, Program.register?, hlower, ← howner]
  cases hx : S.final.names.lookup x with
  | none => rfl
  | some n => exact (Seat.read_state ip f operands n S.suits).symm

/-- A built program follows the interpreter. -/
theorem Program.build_follows {p : Program} {checkArity : Bool} {listing : Listing}
    (h : p.build checkArity = .ok listing) (hl : p.labelsDrawn < 2 ^ 32) (rounds : Nat) :
    Follows ⟨listing.code.toArray, listing.result⟩ rounds .initial
      (p.Finished ⟨listing.code.toArray, listing.result⟩) (fun _ _ => False)
      (p.interpret rounds) := by
  have hlinked := Program.build_linked h hl
  obtain ⟨code, result, a, hlower, -, -, rfl⟩ := Program.build_eq_ok h
  rw [Listing.code_ofInstrs] at hlinked ⊢
  have hemits := Program.lower_emits hlower
  have hempty := Allocation.valid_empty 0
  obtain ⟨S, rfl, howner, hseat⟩ :
      ∃ S : Scope, S.final = a ∧ S.owner = .topLevel ∧ S.seat = .bottom :=
    ⟨⟨a, .topLevel, .bottom, hemits.valid hempty, trivial⟩, rfl, rfl, rfl⟩
  have hinitial : State.initial = S.state 0 .zero #[] := by
    rw [Scope.state, hseat]
    rfl
  have hcode : CodeAt code 0 code := by
    simpa using codeAt_self [] code []
  have hdepth : S.seat.depth + maxCallDepth = maxCallDepth := by
    rw [hseat]
    exact Nat.zero_add _
  rw [hinitial, Program.interpret, ← Scope.world_zero]
  refine Follows.bind (hemits.follows hlinked.placed_le (hlinked.follows_invoke _ S hdepth) howner
    hempty (.refl _) hcode .none) ?_
  rintro place _ _ (@⟨g, operands, hheld⟩)
  have henv := Scope.env_eq hlower howner (0 + code.length) g operands
  cases hheld with
  | none => exact .done ⟨by simp, rfl, henv, Seat.state_operands _ _ _ _⟩
  | some hheld =>
    have hr := Scope.read_held (0 + code.length) operands hheld
    exact .done ⟨by simp, congrArg some hr, henv, Seat.state_operands _ _ _ _⟩

/-- The runs of a machine end as the interpreter says: with its value and its variables, with a
fault of its kind, or never. -/
structure Machine.Agrees (m : Machine) (p : Program) : Prop where
  halts : (∃ fuel ip value steps m', m.run fuel = some (.halted ip value steps, m')) ↔
    ∃ rounds value w, p.interpret rounds = .done value w
  /-- A variable without a register is zero. -/
  values {fuel ip steps rounds : Nat} {value value' : Option Int32} {m' : Machine} {w : World} :
    m.run fuel = some (.halted ip value steps, m') → p.interpret rounds = .done value' w →
      value = value' ∧ (∀ x, w.env x = ((p.register? x).map m'.read).getD 0) ∧
        m'.operands = w.operands
  traps (kind : FaultKind) :
    (∃ fuel ip i fault m', m.run fuel = some (.trapped ip i fault, m') ∧ fault.kind = kind) ↔
      ∃ rounds, p.interpret rounds = .faulted kind
  diverges : (∀ fuel, m.run fuel = none) ↔ ∀ rounds, p.interpret rounds = .unfinished

section Agreement

variable {p : Program} {m m' : Machine} {image : Image}

theorem Program.Finished.not_next {value : Option Int32} {w : World} {t : State}
    (h : p.Finished image value w t) (u : State) : ¬ image.Next t u :=
  fun hu => hu.getElem?_ne_none h.behind

variable (hm : m.image = some image)
  (h : ∀ rounds, Follows image rounds .initial (p.Finished image) (fun _ _ => False)
    (p.interpret rounds))

include hm h

theorem Machine.halts_iff :
    (∃ fuel ip value steps m', m.run fuel = some (.halted ip value steps, m')) ↔
      ∃ rounds value w, p.interpret rounds = .done value w := by
  constructor
  · rintro ⟨fuel, ip, value, steps, m', hrun⟩
    obtain ⟨t, hr, -⟩ := (Machine.run_eq_some hm).1 hrun
    obtain ⟨hn, ht, -, -⟩ := Image.exists_run_eq_halted.1 ⟨fuel, hr⟩
    rcases (h (steps + 1)).of_final (fun _ _ _ hp => hp.not_next) hn
      (fun v hv => hv.getElem?_ne_none ht) with ⟨value, w, he, -⟩ | ⟨i, f, hs, -⟩
    · exact ⟨_, value, w, he⟩
    · cases ht.symm.trans hs.1
  · rintro ⟨rounds, value, w, he⟩
    have hr := h rounds
    rw [he] at hr
    obtain ⟨n, t, hn, ht⟩ := hr
    obtain ⟨fuel, hrun⟩ := Image.exists_run_eq_halted.2 ⟨hn, ht.behind, rfl, rfl⟩
    exact ⟨fuel, _, _, _, _, (Machine.run_eq_some hm).2 ⟨t, hrun, rfl⟩⟩

theorem Machine.finished_of_halted {fuel ip steps rounds : Nat} {value value' : Option Int32}
    {w : World} (hrun : m.run fuel = some (.halted ip value steps, m'))
    (he : p.interpret rounds = .done value' w) :
    ∃ t, m' = { m with state := some t } ∧ value = image.result.map t.read ∧
      p.Finished image value' w t := by
  obtain ⟨t, hr, rfl⟩ := (Machine.run_eq_some hm).1 hrun
  obtain ⟨hn, ht, -, rfl⟩ := Image.exists_run_eq_halted.1 ⟨fuel, hr⟩
  have hf := h rounds
  rw [he] at hf
  obtain ⟨n, u, hu, hp⟩ := hf
  obtain ⟨-, rfl⟩ := hn.final_unique (fun v hv => hv.getElem?_ne_none ht) hu hp.not_next
  exact ⟨t, rfl, rfl, hp⟩

theorem Machine.traps_iff (kind : FaultKind) :
    (∃ fuel ip i fault m', m.run fuel = some (.trapped ip i fault, m') ∧ fault.kind = kind) ↔
      ∃ rounds, p.interpret rounds = .faulted kind := by
  constructor
  · rintro ⟨fuel, ip, i, f, m', hrun, rfl⟩
    obtain ⟨t, hr, -⟩ := (Machine.run_eq_some hm).1 hrun
    obtain ⟨⟨n, hn⟩, hs, -⟩ := Image.exists_run_eq_trapped.1 ⟨fuel, hr⟩
    rcases (h (n + 1)).of_final (fun _ _ _ hp => hp.not_next) hn
      (fun v hv => hv.not_stuck hs) with ⟨value, w, -, hp⟩ | ⟨j, g, hs', he⟩
    · cases hp.behind.symm.trans hs.1
    · obtain rfl := hs.unique hs'
      exact ⟨_, he⟩
  · rintro ⟨rounds, he⟩
    have hr := h rounds
    rw [he] at hr
    obtain ⟨n, t, i, f, hn, hs, rfl⟩ := hr
    obtain ⟨fuel, hrun⟩ := Image.exists_run_eq_trapped.2 ⟨⟨n, hn⟩, hs, rfl⟩
    exact ⟨fuel, _, _, _, _, (Machine.run_eq_some hm).2 ⟨t, hrun, rfl⟩, rfl⟩

theorem Machine.diverges_iff :
    (∀ fuel, m.run fuel = none) ↔ ∀ rounds, p.interpret rounds = .unfinished := by
  simp only [Machine.run_eq_none hm, Image.run_eq_none_iff]
  constructor
  · intro hs rounds
    exact (h rounds).of_endless (fun _ _ _ hp => hp.not_next) hs
  · intro he n
    have hr := h n
    rw [he n] at hr
    obtain ⟨k, t, hle, hk⟩ := hr
    exact hk.shorter hle

/-- A machine whose image follows the interpreter agrees with it. -/
theorem Machine.agrees_of_follows : m.Agrees p where
  halts := Machine.halts_iff hm h
  values := by
    intro fuel ip steps rounds value value' m' w hrun he
    obtain ⟨t, rfl, rfl, hp⟩ := Machine.finished_of_halted hm h hrun he
    exact ⟨hp.value, hp.env, hp.operands⟩
  traps := Machine.traps_iff hm h
  diverges := Machine.diverges_iff hm h

end Agreement

/-- Lowering preserves meaning: a machine that has loaded a built program agrees with the
interpreter. -/
theorem Program.build_agrees {p : Program} {checkArity : Bool} {listing : Listing}
    (h : p.build checkArity = .ok listing) (hl : p.labelsDrawn < 2 ^ 32) (m : Machine) :
    (m.load listing).1 = none ∧ (m.load listing).2.Agrees p := by
  have hload := Program.build_load h hl
  have hagrees : (m.load listing).2.Agrees p := by
    refine Machine.agrees_of_follows ?_ (Program.build_follows h hl)
    simp only [Machine.load, hload]
  exact ⟨by simp only [Machine.load, hload], hagrees⟩

theorem Program.sample_agrees : ∃ listing, Program.sample.build true = .ok listing ∧
    Program.sample.labelsDrawn < 2 ^ 32 ∧
    (({} : Machine).load listing).1 = none ∧
    (({} : Machine).load listing).2.Agrees Program.sample := by
  obtain ⟨listing, h⟩ : ∃ listing, Program.sample.build true = .ok listing :=
    Program.exists_listing (by decide +kernel)
  have hl : Program.sample.labelsDrawn < 2 ^ 32 := by decide +kernel
  exact ⟨listing, h, hl, Program.build_agrees h hl {}⟩

example : (match Program.sample.interpret 10 with
    | .done value _ => value
    | _ => none) = some 9 := by decide +kernel

end FrameLang
