import FrameLang.Proofs.Semantics.Frames

/-!
# Code that follows a computation

A run of code *follows* a computation of the interpreter if it ends the same way: at a state that
stands for the result, at the end of the loop, or at a fault of the same kind. A computation that is
unfinished within some number of rounds is followed by at least as many steps.

## Main definitions

* `Follows` — the run from a state ends as a computation does.
* `Scope` — the registers of an activation and the seat of its states.
* `Scope.Stands` — a state stands for a world.
-/

namespace FrameLang

/-- The run from `s` ends as a computation does: in a state with `P`, in a state with `B` if the
computation was left by `break`, at a fault of the same kind, or not within `rounds` steps. -/
def Follows {α : Type} (image : Image) (rounds : Nat) (s : State)
    (P : α → World → State → Prop) (B : World → State → Prop) : Ending α → Prop
  | .done r w => ∃ n t, image.Steps n s t ∧ P r w t
  | .broken w => ∃ n t, image.Steps n s t ∧ B w t
  | .faulted kind => ∃ n t i f, image.Steps n s t ∧ image.Stuck t i f ∧ f.kind = kind
  | .unfinished => ∃ n t, rounds ≤ n ∧ image.Steps n s t

namespace Follows

variable {α β : Type} {image : Image} {rounds rounds' n : Nat} {s t : State}
  {P : α → World → State → Prop} {Q : β → World → State → Prop} {B C : World → State → Prop}
  {ending : Ending α}

theorem done {r : α} {w : World} (h : P r w s) : Follows image rounds s P B (.done r w) :=
  ⟨0, s, .refl s, h⟩

theorem mono (h : Follows image rounds' s P B ending) (hle : rounds ≤ rounds') :
    Follows image rounds s P B ending := by
  cases ending with
  | unfinished =>
    obtain ⟨m, u, hm, hu⟩ := h
    exact ⟨m, u, Nat.le_trans hle hm, hu⟩
  | _ => exact h

/-- Steps in front change nothing but the number of steps. -/
theorem steps_add (hs : image.Steps n s t) (h : Follows image rounds t P B ending) :
    Follows image (rounds + n) s P B ending := by
  cases ending with
  | done r w =>
    obtain ⟨m, u, hu, hp⟩ := h
    exact ⟨_, u, hs.trans hu, hp⟩
  | broken w =>
    obtain ⟨m, u, hu, hb⟩ := h
    exact ⟨_, u, hs.trans hu, hb⟩
  | faulted kind =>
    obtain ⟨m, u, i, f, hu, hf⟩ := h
    exact ⟨_, u, i, f, hs.trans hu, hf⟩
  | unfinished =>
    obtain ⟨m, u, hm, hu⟩ := h
    exact ⟨_, u, Nat.add_le_add_right hm n, hs.trans hu⟩

theorem steps (hs : image.Steps n s t) (h : Follows image rounds t P B ending) :
    Follows image rounds s P B ending :=
  (steps_add hs h).mono (Nat.le_add_right _ _)

theorem next (hs : image.Next s t) (h : Follows image rounds t P B ending) :
    Follows image rounds s P B ending :=
  h.steps (.one hs)

theorem imp {Q : α → World → State → Prop} (h : Follows image rounds s P B ending)
    (hP : ∀ r w t, P r w t → Q r w t) (hB : ∀ w t, B w t → C w t) :
    Follows image rounds s Q C ending := by
  cases ending with
  | done r w =>
    obtain ⟨m, u, hu, hp⟩ := h
    exact ⟨m, u, hu, hP r w u hp⟩
  | broken w =>
    obtain ⟨m, u, hu, hb⟩ := h
    exact ⟨m, u, hu, hB w u hb⟩
  | faulted kind => exact h
  | unfinished => exact h

/-- Steps behind the end of a computation lead on. -/
theorem andThen {Q : α → World → State → Prop} (h : Follows image rounds s P B ending)
    (hQ : ∀ r w t, P r w t → ∃ u, image.Next t u ∧ Q r w u) :
    Follows image rounds s Q B ending := by
  cases ending with
  | done r w =>
    obtain ⟨m, u, hu, hp⟩ := h
    obtain ⟨v, hv, hq⟩ := hQ r w u hp
    exact ⟨_, v, hu.trans (.one hv), hq⟩
  | broken w => exact h
  | faulted kind => exact h
  | unfinished => exact h

/-- One computation after another. -/
theorem bind {x : Exec α} {g : α → Exec β} {w : World} (h : Follows image rounds s P B (x w))
    (hg : ∀ r w' t, P r w' t → Follows image rounds t Q B (g r w')) :
    Follows image rounds s Q B ((x >>= g) w) := by
  simp only [Bind.bind, Exec.bind]
  cases hx : x w with
  | done r w' =>
    rw [hx] at h
    obtain ⟨m, u, hu, hp⟩ := h
    exact (hg r w' u hp).steps hu
  | broken w' =>
    rw [hx] at h
    exact h
  | faulted kind =>
    rw [hx] at h
    exact h
  | unfinished =>
    rw [hx] at h
    exact h

/-- A computation in an activation of its own. -/
theorem inNewActivation {body : Exec α} {w : World}
    (h : Follows image rounds s (fun r v t => P r ⟨w.env, v.operands⟩ t) (fun _ _ => False)
      (body ⟨fun _ => 0, w.operands⟩)) :
    Follows image rounds s P B (Exec.inNewActivation body w) := by
  simp only [Exec.inNewActivation]
  cases hx : body ⟨fun _ => 0, w.operands⟩ with
  | broken v =>
    rw [hx] at h
    obtain ⟨_, _, -, hfalse⟩ := h
    exact hfalse.elim
  | _ =>
    rw [hx] at h
    exact h

/-- At the end of a run it is known how the computation ends, as soon as it has more rounds than the
run has steps. -/
theorem of_final (h : Follows image (n + 1) s P (fun _ _ => False) ending)
    (hP : ∀ r w u, P r w u → ∀ v, ¬ image.Next u v) (hn : image.Steps n s t)
    (ht : ∀ v, ¬ image.Next t v) :
    (∃ r w, ending = .done r w ∧ P r w t) ∨
      ∃ i f, image.Stuck t i f ∧ ending = .faulted f.kind := by
  cases ending with
  | done r w =>
    obtain ⟨m, u, hu, hp⟩ := h
    obtain ⟨-, rfl⟩ := hn.final_unique ht hu (hP r w u hp)
    exact .inl ⟨r, w, rfl, hp⟩
  | broken w =>
    obtain ⟨_, _, -, hfalse⟩ := h
    exact hfalse.elim
  | faulted kind =>
    obtain ⟨m, u, i, f, hu, hstuck, rfl⟩ := h
    obtain ⟨-, rfl⟩ := hn.final_unique ht hu fun v hv => hv.not_stuck hstuck
    exact .inr ⟨i, f, hstuck, rfl⟩
  | unfinished =>
    obtain ⟨m, u, hm, hu⟩ := h
    have hle := hn.le_of_final ht hu
    omega

/-- A run without end leaves the computation unfinished. -/
theorem of_endless (h : Follows image rounds s P (fun _ _ => False) ending)
    (hP : ∀ r w u, P r w u → ∀ v, ¬ image.Next u v) (hs : ∀ n, ∃ t, image.Steps n s t) :
    ending = .unfinished := by
  have hlast {m : Nat} {u : State} (hu : image.Steps m s u) (hfinal : ∀ v, ¬ image.Next u v) :
      False := by
    obtain ⟨t, ht⟩ := hs (m + 1)
    have hle := hu.le_of_final hfinal ht
    omega
  cases ending with
  | done r w =>
    obtain ⟨m, u, hu, hp⟩ := h
    exact (hlast hu (hP r w u hp)).elim
  | broken w =>
    obtain ⟨_, _, -, hfalse⟩ := h
    exact hfalse.elim
  | faulted kind =>
    obtain ⟨m, u, i, f, hu, hstuck, -⟩ := h
    exact (hlast hu fun v hv => hv.not_stuck hstuck).elim
  | unfinished => rfl

end Follows

@[simp] theorem Exec.read_bind {β : Type} (place : Expr.Place) (g : Int32 → Exec β) (w : World) :
    (Exec.read place >>= g) w = g (place.value w.env) w := rfl

@[simp] theorem Exec.assign_bind {β : Type} (x : Text) (value : Int32) (g : Unit → Exec β)
    (w : World) : (Exec.assign x value >>= g) w =
      g () { w with env := fun y => if y = x then value else w.env y } := rfl

/-! ## Scopes -/

/-- The registers of an activation, as they are when all its code is made, and its seat. -/
structure Scope where
  final : Allocation
  owner : Owner
  seat : Seat
  valid : final.Valid
  suits : seat.Suits owner

namespace Scope

variable (S : Scope)

/-- The world that a frame and the operands stand for. -/
def world (f : Frame) (operands : Array Int32) : World :=
  ⟨S.final.view f, operands⟩

/-- The state at a place. -/
abbrev state (ip : Nat) (f : Frame) (operands : Array Int32) : State :=
  S.seat.state ip f operands

/-- The state is at `ip` and stands for the world, with a frame that satisfies `Q`. -/
inductive Stands (ip : Nat) (Q : Frame → Prop) : World → State → Prop where
  | intro {g : Frame} {operands : Array Int32} : Q g →
      Stands ip Q (S.world g operands) (S.state ip g operands)

variable {S}

theorem Stands.imp {ip : Nat} {Q R : Frame → Prop} {w : World} {t : State}
    (h : S.Stands ip Q w t) (hQ : ∀ g, Q g → R g) : S.Stands ip R w t := by
  cases h with
  | intro hg => exact .intro (hQ _ hg)

variable {a b : Allocation} {r out : Register} {x : Text} {n ip : Nat} {f : Frame}
  {operands : Array Int32}

theorem world_zero : S.world .zero operands = ⟨fun _ => 0, operands⟩ := by
  rw [world, Allocation.view_zero]

/-- Writing a fresh register gives a temporary and changes nothing else. -/
theorem set_fresh (h : Lower.register S.owner a = .ok (out, b)) (ha : a.Valid)
    (hN : b.GrowsTo S.final) (f : Frame) (operands : Array Int32) (value : Int32) :
    S.world (f.set a.registers value) operands = S.world f operands ∧
      Untouched S.final a.registers f (f.set a.registers value) ∧
      (Expr.Place.temporary value).Held S.final S.owner b.registers (f.set a.registers value)
        out := by
  obtain ⟨rfl, hlt, hu, hb⟩ := Lower.register_fresh h ha hN
  refine ⟨?_, Untouched.set_above hlt (Nat.le_refl _), .temporary (by omega) hu ?_⟩
  · rw [world, Allocation.view_set_unnamed S.valid hlt hu]
    rfl
  · rw [f.slot_set _ hlt hlt, if_pos rfl]

/-- Writing the register of a name assigns to the variable. -/
theorem set_named (hx : S.final.names.lookup x = some n) (f : Frame) (value : Int32) :
    S.world (f.set n value) operands = { S.world f operands with
      env := fun y => if y = x then value else (S.world f operands).env y } := by
  rw [world, Allocation.view_set_named S.valid hx]
  rfl

theorem read_held {place : Expr.Place} {lo : Nat} (ip : Nat) (operands : Array Int32)
    (h : place.Held S.final S.owner lo f r) :
    (S.state ip f operands).read r = place.value (S.world f operands).env := by
  obtain ⟨n, rfl, hv⟩ := h.exists_slot
  rw [Seat.read_state _ _ _ _ S.suits, hv]
  rfl

theorem write_state (value : Int32) :
    (S.state ip f operands).write (S.owner.register n) value =
      S.state ip (f.set n value) operands :=
  Seat.write_state _ _ _ _ _ S.suits

/-! ## Single instructions -/

section Instructions

variable {α β : Type} {code : List Instr} {result : Option Register} {rounds : Nat} {i : Instr}
  {l : Label} {j lo : Nat} {place : Expr.Place} {value : Int32} {P : β → World → State → Prop}
  {B : World → State → Prop}

theorem next_of_acts {seat : Seat} {t : State} (hi : code[ip]? = some i)
    (ha : Image.Acts ⟨code.toArray, result⟩ (seat.state ip f operands) i t) :
    Image.Next ⟨code.toArray, result⟩ (seat.state ip f operands) t :=
  ⟨i, by rwa [Seat.state_ip, List.getElem?_toArray], ha.execute⟩

theorem next_label (hi : code[ip]? = some (.label l)) :
    Image.Next ⟨code.toArray, result⟩ (S.state ip f operands) (S.state (ip + 1) f operands) := by
  have ha : Image.Acts ⟨code.toArray, result⟩ (S.state ip f operands) _ _ := .label l
  rw [Seat.next_state] at ha
  exact next_of_acts hi ha

/-- An instruction that writes a register. -/
theorem next_write (hi : code[ip]? = some i)
    (ha : Image.Acts ⟨code.toArray, result⟩ (S.state ip f operands) i
      ((S.state ip f operands).write (S.owner.register n) value).next) :
    Image.Next ⟨code.toArray, result⟩ (S.state ip f operands)
      (S.state (ip + 1) (f.set n value) operands) := by
  rw [write_state, Seat.next_state] at ha
  exact next_of_acts hi ha

theorem next_move (hi : code[ip]? = some (.move r (S.owner.register n)))
    (hr : place.Held S.final S.owner lo f r) :
    Image.Next ⟨code.toArray, result⟩ (S.state ip f operands)
      (S.state (ip + 1) (f.set n (place.value (S.world f operands).env)) operands) := by
  refine next_write hi ?_
  rw [← read_held ip operands hr]
  exact .move r _

theorem next_jump (hl : placed l code ≤ 1) (hi : code[ip]? = some (.jump l))
    (hj : code[j]? = some (.label l)) :
    Image.Next ⟨code.toArray, result⟩ (S.state ip f operands) (S.state (j + 1) f operands) := by
  have ha : Image.Acts ⟨code.toArray, result⟩ (S.state ip f operands) _ _ :=
    .jump ((Image.resolve_eq_some hl).2 hj)
  rw [Seat.state_withIp] at ha
  exact next_of_acts hi ha

theorem next_branch {ifOne ifOther : Label} (hl : ∀ l, placed l code ≤ 1)
    (hi : code[ip]? = some (.branch r ifOne ifOther)) (hr : place.Held S.final S.owner lo f r)
    (hj : code[j]? = some
      (.label (if place.value (S.world f operands).env = 1 then ifOne else ifOther))) :
    Image.Next ⟨code.toArray, result⟩ (S.state ip f operands) (S.state (j + 1) f operands) := by
  rw [← read_held ip operands hr] at hj
  have ha : Image.Acts ⟨code.toArray, result⟩ (S.state ip f operands) _ _ :=
    .branch ((Image.resolve_eq_some (hl _)).2 hj)
  rw [Seat.state_withIp] at ha
  exact next_of_acts hi ha

/-- A call goes to the entry of its function, in a frame of its own. -/
theorem next_call (hl : placed l code ≤ 1) (hi : code[ip]? = some (.call l))
    (hj : code[j]? = some (.label l)) (hd : S.seat.depth < maxCallDepth) :
    Image.Next ⟨code.toArray, result⟩ (S.state ip f operands)
      ((S.seat.inner f ip).state (j + 1) .zero operands) := by
  have ha : Image.Acts ⟨code.toArray, result⟩ (S.state ip f operands) _ _ :=
    .call ((Image.resolve_eq_some hl).2 hj) (by rwa [Seat.state_calls_length])
  rw [Seat.state_ip, Seat.state_enter] at ha
  exact next_of_acts hi ha

/-- A return goes back behind the call. -/
theorem next_ret {g : Frame} (hi : code[j]? = some .ret) :
    Image.Next ⟨code.toArray, result⟩ ((S.seat.inner f ip).state j g operands)
      (S.state (ip + 1) f operands) := by
  have ha : Image.Acts ⟨code.toArray, result⟩ ((S.seat.inner f ip).state j g operands) _ _ :=
    .ret (Seat.inner_state_calls _ _ _ _ _ _)
  rw [Seat.state_leave] at ha
  exact next_of_acts hi ha

/-- A fault of the next instruction ends the run. -/
theorem follows_fault {fault : Fault} {kind : FaultKind} (hi : code[ip]? = some i)
    (hf : Image.Fails ⟨code.toArray, result⟩ (S.state ip f operands) i fault)
    (hk : fault.kind = kind) :
    Follows ⟨code.toArray, result⟩ rounds (S.state ip f operands) P B (.faulted kind) :=
  ⟨0, _, i, fault, .refl _, ⟨by rwa [Seat.state_ip, List.getElem?_toArray], hf.execute⟩, hk⟩

/-- A value is put on the operand stack, or the stack is full. -/
theorem follows_push (hi : code[ip]? = some (.push r)) (hr : place.Held S.final S.owner lo f r) :
    Follows ⟨code.toArray, result⟩ rounds (S.state ip f operands)
      (fun _ => S.Stands (ip + 1) (· = f)) B
      (Exec.push (place.value (S.world f operands).env) (S.world f operands)) := by
  rcases Nat.lt_or_ge operands.size maxOperands with hlt | hge
  · have hpush : Exec.push (place.value (S.world f operands).env) (S.world f operands) =
        .done () (S.world f (operands.push (place.value (S.world f operands).env))) := by
      simp only [Exec.push, world, hlt, if_true]
    have ha : Image.Acts ⟨code.toArray, result⟩ (S.state ip f operands) _ _ :=
      .push r (by rwa [Seat.state_operands])
    rw [Seat.state_operands, Seat.state_withOperands, Seat.next_state, read_held _ _ hr] at ha
    rw [hpush]
    exact Follows.next (next_of_acts hi ha) (.done (.intro rfl))
  · have hpush : Exec.push (place.value (S.world f operands).env) (S.world f operands) =
        .faulted .resourceExhausted := by
      simp only [Exec.push, world, Nat.not_lt.2 hge, if_false]
    rw [hpush]
    exact follows_fault hi (.push r (by rwa [Seat.state_operands])) rfl

/-- A value is taken from the operand stack, or the stack is empty. -/
theorem follows_pop {g : Int32 → Exec β} (hi : code[ip]? = some (.pop (S.owner.register n)))
    (hg : ∀ value operands', Follows ⟨code.toArray, result⟩ rounds
      (S.state (ip + 1) (f.set n value) operands') P B (g value (S.world f operands'))) :
    Follows ⟨code.toArray, result⟩ rounds (S.state ip f operands) P B
      ((Exec.pop >>= g) (S.world f operands)) := by
  cases hback : operands.back? with
  | some value =>
    have hpop : (Exec.pop >>= g) (S.world f operands) = g value (S.world f operands.pop) := by
      simp only [Bind.bind, Exec.bind, Exec.pop, world, hback]
    have ha : Image.Acts ⟨code.toArray, result⟩ (S.state ip f operands) _ _ :=
      .pop (S.owner.register n) (by rwa [Seat.state_operands])
    rw [Seat.state_operands, Seat.state_withOperands, write_state, Seat.next_state] at ha
    rw [hpop]
    exact Follows.next (next_of_acts hi ha) (hg _ _)
  | none =>
    have hpop : (Exec.pop >>= g) (S.world f operands) = .faulted .stackUnderflow := by
      simp only [Bind.bind, Exec.bind, Exec.pop, world, hback]
    rw [hpop]
    refine follows_fault hi (.pop _ ?_) rfl
    rw [Seat.state_operands]
    exact Array.back?_eq_none_iff.1 hback

/-- An operator has a value, or the computation fails. -/
theorem follows_compute {g : Int32 → Exec β} {op : Operator} {lhs rhs : Register} {x y : Expr.Place}
    {lo' : Nat} (hi : code[ip]? = some (.binary op lhs rhs (S.owner.register n)))
    (hl : x.Held S.final S.owner lo f lhs) (hr : y.Held S.final S.owner lo' f rhs)
    (hg : ∀ value, Follows ⟨code.toArray, result⟩ rounds
      (S.state (ip + 1) (f.set n value) operands) P B (g value (S.world f operands))) :
    Follows ⟨code.toArray, result⟩ rounds (S.state ip f operands) P B
      ((Exec.compute op (x.value (S.world f operands).env) (y.value (S.world f operands).env) >>= g)
        (S.world f operands)) := by
  rw [← read_held ip operands hl, ← read_held ip operands hr]
  unfold Exec.compute
  cases hv : op.value? ((S.state ip f operands).read lhs) ((S.state ip f operands).read rhs) with
  | some value =>
    exact Follows.next (next_write hi (.binary _ (Operator.eval_eq_ok hv))) (hg value)
  | none =>
    obtain ⟨fault, hf, hk⟩ := Operator.eval_eq_error hv
    exact follows_fault hi (.binary _ hf) hk

end Instructions

end Scope

end FrameLang
