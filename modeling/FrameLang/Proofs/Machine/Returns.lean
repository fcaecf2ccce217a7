import FrameLang.Proofs.Machine.Runs

/-!
# Calls and their returns

A call that is executed *returns* if later, for the first time, a step leads back to as many active
calls as there were at the call. Between the two the machine uses nothing of the place where the
call was made: the same steps can be taken with another place in its stead, up to the return, which
then goes to that other place.

## Main definitions

* `Image.StepsAbove` — steps during which more than a given number of calls are active.
* `Image.Returns` — a call is executed, and later its return.
* `Recalled` — two states that differ only in where one of the active calls was made.
-/

namespace FrameLang

/-- Steps from `s` lead to `t`, and in all states on the way more than `depth` calls are active. -/
inductive Image.StepsAbove (image : Image) (depth : Nat) : State → State → Prop where
  | refl {s : State} : depth < s.calls.length → image.StepsAbove depth s s
  | cons {s t u : State} : depth < s.calls.length → image.Next s t → image.StepsAbove depth t u →
      image.StepsAbove depth s u

/-- A call is executed in `s`, and in `u` the return that ends it, which leads to `t`. -/
structure Image.Returns (image : Image) (s u t : State) : Prop where
  inside : ∃ entered, image.Next s entered ∧ image.StepsAbove s.calls.length entered u
  back : image.Next u t
  left : t.calls.length = s.calls.length

namespace Image

variable {image : Image} {depth : Nat} {s t u : State} {i : Instr}

theorem StepsAbove.lt_left (h : image.StepsAbove depth s t) : depth < s.calls.length := by
  cases h with
  | refl h => exact h
  | cons h _ _ => exact h

theorem StepsAbove.lt_right (h : image.StepsAbove depth s t) : depth < t.calls.length := by
  induction h with
  | refl h => exact h
  | cons _ _ _ ih => exact ih

theorem StepsAbove.exists_steps (h : image.StepsAbove depth s t) : ∃ n, image.Steps n s t := by
  induction h with
  | refl => exact ⟨0, .refl _⟩
  | cons _ hn _ ih =>
    obtain ⟨n, hs⟩ := ih
    exact ⟨n + 1, .cons hn hs⟩

end Image

@[simp] theorem State.write_calls_length (s : State) (r : Register) (value : Int32) :
    (s.write r value).calls.length = s.calls.length := by
  simpa [State.callers] using congrArg List.length (s.callers_write r value)

namespace Image

variable {image : Image} {s t u : State} {i : Instr}

/-- Only a return makes the number of active calls smaller. -/
theorem Acts.eq_ret (h : image.Acts s i t) (hlt : t.calls.length < s.calls.length) : i = .ret := by
  cases h with
  | ret => rfl
  | call =>
    rw [List.length_cons] at hlt
    omega
  | _ => simp [State.next_calls] at hlt

/-- Only a call makes the number of active calls larger. -/
theorem Acts.eq_call (h : image.Acts s i t) (hlt : s.calls.length < t.calls.length) :
    ∃ l entry, i = .call l ∧ image.resolve l = some entry ∧ s.calls.length < maxCallDepth ∧
      t = { s with ip := entry + 1, calls := ⟨s.ip, .zero⟩ :: s.calls } := by
  cases h with
  | call hl hd => exact ⟨_, _, rfl, hl, hd, rfl⟩
  | ret hc =>
    rw [hc] at hlt
    exact absurd hlt (Nat.not_lt.2 (Nat.le_succ _))
  | _ => simp [State.next_calls] at hlt

/-- A call that returns is a call, and it goes to the place of its label. -/
theorem Returns.exists_entry (h : image.Returns s u t) :
    ∃ l entry, image.code[s.ip]? = some (.call l) ∧ image.resolve l = some entry ∧
      s.calls.length < maxCallDepth ∧ image.StepsAbove s.calls.length
        { s with ip := entry + 1, calls := ⟨s.ip, .zero⟩ :: s.calls } u := by
  obtain ⟨⟨entered, ⟨i, hi, ha⟩, hsteps⟩, -, -⟩ := h
  obtain ⟨l, entry, rfl, hl, hd, rfl⟩ := (execute_eq_ok.1 ha).eq_call hsteps.lt_left
  exact ⟨l, entry, hi, hl, hd, hsteps⟩

/-- What ends a call is a return, and it drops one active call. -/
theorem Returns.exists_ret (h : image.Returns s u t) :
    image.code[u.ip]? = some .ret ∧ ∃ call rest, u.calls = call :: rest ∧
      t = { u with ip := call.caller + 1, calls := rest } := by
  obtain ⟨⟨entered, -, hsteps⟩, ⟨i, hi, ha⟩, hleft⟩ := h
  have hacts := execute_eq_ok.1 ha
  obtain rfl : i = .ret := hacts.eq_ret (hleft ▸ hsteps.lt_right)
  cases hacts with
  | @ret call rest hc => exact ⟨hi, call, rest, hc, rfl⟩

end Image

/-! ## Another place of the call -/

/-- The two states differ only in where the call directly above the calls `rest` was made: at
`caller` in the first, at `caller'` in the second. -/
inductive Recalled (caller caller' : Nat) (rest : List Activation) : State → State → Prop where
  | intro (ip : Nat) (globals frame : Frame) (above : List Activation) (operands : Array Int32) :
      Recalled caller caller' rest ⟨ip, globals, above ++ ⟨caller, frame⟩ :: rest, operands⟩
        ⟨ip, globals, above ++ ⟨caller', frame⟩ :: rest, operands⟩

namespace Recalled

variable {image : Image} {caller caller' : Nat} {rest : List Activation} {s s' t u : State}
  {i : Instr}

theorem ip_eq (h : Recalled caller caller' rest s s') : s'.ip = s.ip := by
  cases h
  rfl

theorem operands_eq (h : Recalled caller caller' rest s s') : s'.operands = s.operands := by
  cases h
  rfl

theorem calls_length_eq (h : Recalled caller caller' rest s s') :
    s'.calls.length = s.calls.length := by
  cases h
  simp

theorem read_eq (h : Recalled caller caller' rest s s') (r : Register) :
    s'.read r = s.read r := by
  cases h with
  | intro ip globals frame above operands =>
    cases above <;> cases r <;> rfl

theorem write (h : Recalled caller caller' rest s s') (r : Register) (value : Int32) :
    Recalled caller caller' rest (s.write r value) (s'.write r value) := by
  cases h with
  | intro ip globals frame above operands =>
    cases r with
    | global addr =>
      cases above with
      | nil => exact .intro ip _ frame [] operands
      | cons top above => exact .intro ip _ frame (top :: above) operands
    | arp addr =>
      cases above with
      | nil => exact .intro ip globals _ [] operands
      | cons top above => exact .intro ip globals frame (_ :: above) operands

theorem goTo (h : Recalled caller caller' rest s s') (place : Nat) :
    Recalled caller caller' rest { s with ip := place } { s' with ip := place } := by
  cases h with
  | intro ip globals frame above operands => exact .intro place globals frame above operands

theorem next (h : Recalled caller caller' rest s s') :
    Recalled caller caller' rest s.next s'.next := by
  unfold State.next
  rw [h.ip_eq]
  exact h.goTo _

theorem withOperands (h : Recalled caller caller' rest s s') (operands : Array Int32) :
    Recalled caller caller' rest { s with operands := operands }
      { s' with operands := operands } := by
  cases h with
  | intro ip globals frame above _ => exact .intro ip globals frame above operands

/-- What an instruction does in one state it does in the other, unless it ends the call. -/
theorem acts (h : Recalled caller caller' rest s s') (ha : image.Acts s i t)
    (hlt : rest.length < t.calls.length) :
    ∃ t', image.Acts s' i t' ∧ Recalled caller caller' rest t t' := by
  cases ha with
  | label l => exact ⟨_, .label l, h.next⟩
  | unassigned => exact ⟨_, .unassigned, h.next⟩
  | call hl hd =>
    refine ⟨_, .call hl (h.calls_length_eq ▸ hd), ?_⟩
    cases h with
    | intro ip globals frame above operands =>
      exact .intro _ globals frame (⟨ip, .zero⟩ :: above) operands
  | @ret call left hc =>
    cases h with
    | intro ip globals frame above operands =>
      cases above with
      | nil =>
        -- Then the return would end the call itself.
        obtain ⟨-, rfl⟩ := List.cons.inj hc
        exact absurd hlt (Nat.lt_irrefl _)
      | cons top above =>
        obtain ⟨rfl, rfl⟩ := List.cons.inj hc
        exact ⟨_, .ret rfl, .intro _ globals frame above operands⟩
  | push src ho =>
    refine ⟨_, .push src (h.operands_eq ▸ ho), ?_⟩
    rw [h.operands_eq, h.read_eq]
    exact (h.withOperands _).next
  | pushI value ho =>
    refine ⟨_, .pushI value (h.operands_eq ▸ ho), ?_⟩
    rw [h.operands_eq]
    exact (h.withOperands _).next
  | pop dst ho =>
    refine ⟨_, .pop dst (h.operands_eq ▸ ho), ?_⟩
    rw [h.operands_eq]
    exact ((h.withOperands _).write dst _).next
  | binary out hv =>
    refine ⟨_, .binary out ?_, (h.write out _).next⟩
    rwa [h.read_eq, h.read_eq]
  | binaryI out hv =>
    refine ⟨_, .binaryI out ?_, (h.write out _).next⟩
    rwa [h.read_eq]
  | loadI value out => exact ⟨_, .loadI value out, (h.write out _).next⟩
  | move src dst =>
    refine ⟨_, .move src dst, ?_⟩
    rw [h.read_eq]
    exact (h.write dst _).next
  | jump hl => exact ⟨_, .jump hl, h.goTo _⟩
  | branch hl =>
    refine ⟨_, .branch ?_, h.goTo _⟩
    rwa [h.read_eq]

/-- Steps during which the call is active can be taken from the other state too. -/
theorem steps (h : Recalled caller caller' rest s s') (hs : image.StepsAbove rest.length s t) :
    ∃ n t', image.Steps n s' t' ∧ Recalled caller caller' rest t t' := by
  induction hs generalizing s' with
  | refl => exact ⟨0, s', .refl s', h⟩
  | cons _ hn hrest ih =>
    obtain ⟨i, hi, ha⟩ := hn
    obtain ⟨t', ha', ht'⟩ := h.acts (Image.execute_eq_ok.1 ha) hrest.lt_left
    obtain ⟨n, u', hsteps, hu'⟩ := ih ht'
    exact ⟨n + 1, u', .cons ⟨i, h.ip_eq ▸ hi, ha'.execute⟩ hsteps, hu'⟩

/-- The call at the top goes back to the other place. -/
theorem ret (h : Recalled caller caller' rest s s') (image : Image)
    (hc : s.calls.length = rest.length + 1) :
    (∃ frame, s.calls = ⟨caller, frame⟩ :: rest) ∧
      image.Acts s' .ret ⟨caller' + 1, s.globals, rest, s.operands⟩ := by
  cases h with
  | intro ip globals frame above operands =>
    obtain rfl : above = [] := by
      simp only [List.length_append, List.length_cons] at hc
      exact List.eq_nil_of_length_eq_zero (by omega)
    have hret : image.Acts ⟨ip, globals, ⟨caller', frame⟩ :: rest, operands⟩ .ret _ := .ret rfl
    exact ⟨⟨frame, rfl⟩, hret⟩

end Recalled

/-- A call that returns can be made from any other place: the same steps then lead to the same
state but for the place behind the call, and the frames below the call are still there. -/
theorem Image.Returns.recalled {image : Image} {s u t : State} (h : image.Returns s u t)
    (caller : Nat) :
    ∃ l entry n, image.code[s.ip]? = some (.call l) ∧ image.resolve l = some entry ∧
      s.calls.length < maxCallDepth ∧
      image.Steps n ⟨entry + 1, s.globals, ⟨caller, .zero⟩ :: s.calls, s.operands⟩
        ⟨caller + 1, u.globals, s.calls, u.operands⟩ ∧
      (∃ frame, u.calls = ⟨s.ip, frame⟩ :: s.calls) ∧
      t = ⟨s.ip + 1, u.globals, s.calls, u.operands⟩ := by
  obtain ⟨l, entry, hi, hl, hd, hsteps⟩ := h.exists_entry
  obtain ⟨hret, call, rest, hcalls, rfl⟩ := h.exists_ret
  have hlength : u.calls.length = s.calls.length + 1 := by
    rw [hcalls, List.length_cons, ← h.left]
  have hentered : Recalled s.ip caller s.calls
      { s with ip := entry + 1, calls := ⟨s.ip, .zero⟩ :: s.calls }
      ⟨entry + 1, s.globals, ⟨caller, .zero⟩ :: s.calls, s.operands⟩ :=
    .intro (entry + 1) s.globals .zero [] s.operands
  obtain ⟨n, u', hn, hu'⟩ := hentered.steps hsteps
  obtain ⟨⟨frame, hframe⟩, hback⟩ := hu'.ret image hlength
  refine ⟨l, entry, 1 + n, hi, hl, hd, ?_, ⟨frame, hframe⟩, ?_⟩
  · exact hn.trans (.one ⟨.ret, hu'.ip_eq ▸ hret, hback.execute⟩)
  · obtain ⟨rfl, rfl⟩ := List.cons.inj (hcalls.symm.trans hframe)
    rfl

end FrameLang
