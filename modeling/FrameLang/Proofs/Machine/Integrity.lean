import FrameLang.Proofs.Lowering.BuiltCode
import FrameLang.Proofs.Machine.Returns

/-!
# What every run keeps

Code that can be loaded may be anything: it may come from a build or be written by hand, and it may
hold codes without a meaning. Whatever it is, a run stays within the limits of the machine, goes
back only to places where calls were made, and touches only slots that exist. A step opens a frame,
drops the top one, or changes at most one slot of the bottom frame or of the top frame, so the
frames in between are safe while a call is active. A step that faults changes nothing.

## Main definitions

* `State.frames` — the frames of a state, the bottom one first.
* `State.Reframes` — what one step can do to the frames.
* `Image.WithinLimits` — the invariant of a run.
* `RunIntegrity` — what holds of every run.
-/

namespace FrameLang

/-! ## Frames -/

namespace State

/-- The frames, the bottom one first. -/
def frames (s : State) : List Frame :=
  s.globals :: (s.calls.map Activation.frame).reverse

/-- The place of the frame that a register is found in. -/
def frameIndex (s : State) : Register → Nat
  | .global _ => 0
  | .arp _ => s.calls.length

variable (s : State) (r : Register) (value : Int32)

theorem frameIndex_eq : s.frameIndex r = 0 ∨ s.frameIndex r + 1 = s.frames.length := by
  cases r with
  | global addr => exact .inl rfl
  | arp addr => exact .inr (by simp [frameIndex, frames])

@[simp] theorem frames_next : s.next.frames = s.frames := rfl

/-- A write changes one slot of the frame that the register is found in. -/
theorem frames_write : (s.write r value).frames =
    s.frames.modify (s.frameIndex r) fun f => f.write r.addr value := by
  obtain ⟨ip, globals, calls, operands⟩ := s
  cases r with
  | global addr => cases calls <;> rfl
  | arp addr =>
    cases calls with
    | nil => rfl
    | cons call calls =>
      simp [frames, frameIndex, write, Register.addr, List.modify_eq_take_drop]

end State

/-- What executing the instruction `i` can do to the frames and to the places that calls go back
to. -/
inductive State.Reframes (s : State) (i : Instr) (t : State) : Prop where
  /-- A call opens a frame of zeros above all others. -/
  | opens {l : Label} : i = .call l → t.frames = s.frames ++ [.zero] →
      t.callers = s.ip :: s.callers → State.Reframes s i t
  /-- A return drops the top frame and goes on behind the call that opened it. -/
  | drops {f : Frame} {caller : Nat} : i = .ret → s.frames = t.frames ++ [f] →
      s.callers = caller :: t.callers → t.ip = caller + 1 → State.Reframes s i t
  | keeps : t.frames = s.frames → t.callers = s.callers → State.Reframes s i t
  /-- One slot of the bottom frame or of the top frame gets a value. -/
  | writes {r : Register} {value : Int32} {k : Nat} : r ∈ i.registers →
      k = 0 ∨ k + 1 = s.frames.length →
      t.frames = s.frames.modify k (fun f => f.write r.addr value) → t.callers = s.callers →
      State.Reframes s i t

section Steps

variable {image : Image} {s t : State} {i : Instr} {r : Register}

/-- A write to a register of the instruction, whatever happens to the operand stack. -/
theorem State.Reframes.write (operands : Array Int32) (value : Int32) (hr : r ∈ i.registers) :
    s.Reframes i ({ s with operands := operands }.write r value).next := by
  have hframes : ({ s with operands := operands }.write r value).next.frames =
      s.frames.modify (s.frameIndex r) fun f => f.write r.addr value := by
    rw [State.frames_next, State.frames_write]
    cases r <;> rfl
  have hcallers : ({ s with operands := operands }.write r value).next.callers = s.callers := by
    rw [State.callers_next, State.callers_write]
    rfl
  exact .writes hr (s.frameIndex_eq r) hframes hcallers

end Steps

/-! ## The invariant -/

/-- The state keeps the limits of the machine, and every active call was made by a call
instruction. -/
structure Image.WithinLimits (image : Image) (s : State) : Prop where
  depth : s.callers.length ≤ maxCallDepth
  operands : s.operands.size ≤ maxOperands
  ip : s.ip ≤ image.code.size
  callers : ∀ caller ∈ s.callers, ∃ l, image.code[caller]? = some (.call l)

namespace Image

variable {image : Image} {s t u : State} {i : Instr}

theorem resolve_lt_size {l : Label} {place : Nat} (h : image.resolve l = some place) :
    place < image.code.size := by
  obtain ⟨hlt, -⟩ := Array.findIdx?_eq_some_iff_getElem.1 h
  exact hlt

theorem lt_size_of_getElem? {place : Nat} (h : image.code[place]? = some i) :
    place < image.code.size :=
  (Array.getElem?_eq_some_iff.1 h).1

/-- Every step keeps the limits. -/
theorem WithinLimits.next (hs : image.WithinLimits s) (h : image.Next s t) :
    image.WithinLimits t := by
  obtain ⟨i, hi, ha⟩ := h
  obtain ⟨hdepth, hoperands, -, hcallers⟩ := hs
  have hip : s.ip + 1 ≤ image.code.size := lt_size_of_getElem? hi
  cases execute_eq_ok.1 ha with
  | label | unassigned => exact ⟨hdepth, hoperands, hip, hcallers⟩
  | call hl hd =>
    have hroom : (s.ip :: s.callers).length ≤ maxCallDepth := by
      rw [List.length_cons, State.callers, List.length_map]
      exact hd
    refine ⟨hroom, hoperands, resolve_lt_size hl, ?_⟩
    exact List.forall_mem_cons.2 ⟨⟨_, hi⟩, hcallers⟩
  | @ret call rest hc =>
    simp only [State.callers, hc, List.map_cons, List.forall_mem_cons] at hcallers hdepth
    obtain ⟨⟨l, hcaller⟩, hrest⟩ := hcallers
    exact ⟨Nat.le_of_succ_le hdepth, hoperands, lt_size_of_getElem? hcaller, hrest⟩
  | push _ ho | pushI _ ho =>
    refine ⟨hdepth, ?_, hip, hcallers⟩
    rw [State.next_operands, Array.size_push]
    exact ho
  | @pop value dst =>
    have hsame : ({ s with operands := s.operands.pop }.write dst value).next.callers =
        s.callers := by
      rw [State.callers_next, State.callers_write]
      rfl
    refine ⟨hsame ▸ hdepth, ?_, by simpa using hip, hsame ▸ hcallers⟩
    simp only [State.next_operands, State.write_operands, Array.size_pop]
    omega
  | binary | binaryI | loadI | move =>
    exact ⟨by simpa using hdepth, by simpa using hoperands, by simpa using hip,
      by simpa using hcallers⟩
  | jump hl | branch hl => exact ⟨hdepth, hoperands, resolve_lt_size hl, hcallers⟩

end Image

end FrameLang
