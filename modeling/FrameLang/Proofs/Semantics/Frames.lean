import FrameLang.Proofs.Lowering.Registers
import FrameLang.Proofs.Machine.Runs
import FrameLang.Proofs.Semantics.Interpreter

/-!
# Frames as variables

A frame stands for the variables of an activation: `Allocation.view` reads them off through the
registers that the scope has handed out. Writing the register of a name changes one variable, and
writing any other register changes none.

Code of a construct writes only registers of names and registers that were handed out for it, so a
temporary that was handed out before keeps its value.

## Main definitions

* `Allocation.view` — the variables that a frame stands for.
* `Untouched` — temporaries below a bound keep their values.
* `Expr.Place.Held` — a register holds what a place denotes.
* `Seat` — all of a state but its place, its current frame and its operands.
-/

namespace FrameLang

/-! ## Slots -/

namespace Frame

/-- The value of the slot with the given number. -/
def slot (f : Frame) (n : Nat) : Int32 :=
  f.read (UInt32.ofNat n)

/-- The frame with a new value in the slot with the given number. -/
def set (f : Frame) (n : Nat) (value : Int32) : Frame :=
  f.write (UInt32.ofNat n) value

@[simp] theorem slot_zero (n : Nat) : Frame.zero.slot n = 0 := by
  simp [slot]

theorem slot_set (f : Frame) {m n : Nat} (value : Int32) (hm : m < registerFileSize)
    (hn : n < registerFileSize) : (f.set m value).slot n = if m = n then value else f.slot n := by
  have hm' : m < 2 ^ 32 := Nat.lt_trans hm (by decide)
  have hn' : n < 2 ^ 32 := Nat.lt_trans hn (by decide)
  have heq : UInt32.ofNat m = UInt32.ofNat n ↔ m = n := by
    refine ⟨fun h => ?_, fun h => h ▸ rfl⟩
    have h' := congrArg UInt32.toNat h
    rwa [UInt32.toNat_ofNat_of_lt' hm', UInt32.toNat_ofNat_of_lt' hn'] at h'
  unfold slot set
  rw [Frame.read_write _ _ _ _ (by rwa [UInt32.toNat_ofNat_of_lt' hm'])]
  simp only [heq]

end Frame

/-! ## Variables -/

namespace Allocation

/-- The variables that a frame stands for. A name without a register is zero. -/
def view (N : Allocation) (f : Frame) (x : Text) : Int32 :=
  match N.names.lookup x with
  | some n => f.slot n
  | none => 0

/-- A register that belongs to no name. -/
def Unnamed (N : Allocation) (n : Nat) : Prop :=
  ∀ x, N.names.lookup x ≠ some n

variable {N : Allocation} {f : Frame} {n : Nat} {x : Text} {value : Int32}

theorem view_of_lookup (h : N.names.lookup x = some n) : N.view f x = f.slot n := by
  simp only [view, h]

theorem view_zero (N : Allocation) : N.view .zero = fun _ => 0 := by
  funext x
  unfold view
  cases N.names.lookup x <;> simp

theorem Valid.lt_of_lookup (hv : N.Valid) (h : N.names.lookup x = some n) :
    n < registerFileSize :=
  Nat.lt_of_lt_of_le (hv.below h) hv.bounded

/-- Writing the register of a name changes the variable. -/
theorem view_set_named (hv : N.Valid) (h : N.names.lookup x = some n) :
    N.view (f.set n value) = fun y => if y = x then value else N.view f y := by
  funext y
  have hn := hv.lt_of_lookup h
  by_cases hy : y = x
  · subst hy
    rw [view_of_lookup h, f.slot_set _ hn hn, if_pos rfl, if_pos rfl]
  · rw [if_neg hy]
    cases hl : N.names.lookup y with
    | none => simp only [view, hl]
    | some m =>
      have hmn : n ≠ m := by
        rintro rfl
        exact hy (hv.distinct hl h)
      rw [view_of_lookup hl, view_of_lookup hl, f.slot_set _ hn (hv.lt_of_lookup hl), if_neg hmn]

/-- Writing another register changes no variable. -/
theorem view_set_unnamed (hv : N.Valid) (hn : n < registerFileSize) (h : N.Unnamed n) :
    N.view (f.set n value) = N.view f := by
  funext y
  cases hl : N.names.lookup y with
  | none => simp only [view, hl]
  | some m =>
    have hmn : n ≠ m := by
      rintro rfl
      exact h y hl
    rw [view_of_lookup hl, view_of_lookup hl, f.slot_set _ hn (hv.lt_of_lookup hl), if_neg hmn]

end Allocation

/-! ## Temporaries -/

/-- Temporaries below `lo` have the same values in both frames. -/
def Untouched (N : Allocation) (lo : Nat) (f g : Frame) : Prop :=
  ∀ n < lo, N.Unnamed n → g.slot n = f.slot n

namespace Untouched

variable {N : Allocation} {lo lo' n : Nat} {f g h : Frame} {value : Int32} {x : Text}

theorem refl : Untouched N lo f f := fun _ _ _ => rfl

theorem trans (hfg : Untouched N lo f g) (hgh : Untouched N lo g h) : Untouched N lo f h :=
  fun n hn hu => (hgh n hn hu).trans (hfg n hn hu)

theorem mono (hfg : Untouched N lo f g) (hlo : lo' ≤ lo) : Untouched N lo' f g :=
  fun n hn hu => hfg n (Nat.lt_of_lt_of_le hn hlo) hu

theorem set_named (hv : N.Valid) (hx : N.names.lookup x = some n) (hlo : lo ≤ registerFileSize) :
    Untouched N lo f (f.set n value) := by
  intro m hm hu
  have hmn : n ≠ m := by
    rintro rfl
    exact hu x hx
  rw [f.slot_set _ (hv.lt_of_lookup hx) (Nat.lt_of_lt_of_le hm hlo), if_neg hmn]

theorem set_above (hn : n < registerFileSize) (hlo : lo ≤ n) :
    Untouched N lo f (f.set n value) := by
  intro m hm _
  rw [f.slot_set _ hn (by omega), if_neg (by omega)]

end Untouched

/-- The register holds in the frame what the place denotes. Temporaries are below `lo`. -/
inductive Expr.Place.Held (N : Allocation) (o : Owner) (lo : Nat) (f : Frame) :
    Expr.Place → Register → Prop where
  | named {x : Text} {n : Nat} : N.names.lookup x = some n →
      Expr.Place.Held N o lo f (.named x) (o.register n)
  | temporary {n : Nat} {value : Int32} : n < lo → N.Unnamed n → f.slot n = value →
      Expr.Place.Held N o lo f (.temporary value) (o.register n)

namespace Expr.Place.Held

variable {N : Allocation} {o : Owner} {lo lo' : Nat} {f g : Frame} {place : Expr.Place}
  {r : Register}

theorem mono (h : place.Held N o lo f r) (hlo : lo ≤ lo') : place.Held N o lo' f r := by
  cases h with
  | named hx => exact .named hx
  | temporary hn hu hv => exact .temporary (Nat.lt_of_lt_of_le hn hlo) hu hv

/-- What a register holds stays if temporaries do. -/
theorem untouched (h : place.Held N o lo f r) (hg : Untouched N lo f g) :
    place.Held N o lo g r := by
  cases h with
  | named hx => exact .named hx
  | temporary hn hu hv => exact .temporary hn hu ((hg _ hn hu).trans hv)

/-- A register that holds a place has the value at the place. -/
theorem exists_slot (h : place.Held N o lo f r) :
    ∃ n, r = o.register n ∧ f.slot n = place.value (N.view f) := by
  cases h with
  | named hx => exact ⟨_, rfl, (Allocation.view_of_lookup hx).symm⟩
  | temporary _ _ hv => exact ⟨_, rfl, hv⟩

end Expr.Place.Held

/-! ## Fresh and named registers -/

section Registers

variable {N a b : Allocation} {o : Owner} {r : Register} {x : Text}

/-- A fresh register is a temporary, and it is the first that was not handed out before. -/
theorem Lower.register_fresh (h : Lower.register o a = .ok (r, b)) (ha : a.Valid)
    (hN : b.GrowsTo N) : r = o.register a.registers ∧ a.registers < registerFileSize ∧
      N.Unnamed a.registers ∧ b.registers = a.registers + 1 := by
  obtain ⟨hlt, rfl, rfl⟩ := Lower.register_eq_ok.1 h
  exact ⟨rfl, hlt, fun x => ha.lookup_ne hN x, rfl⟩

theorem Lower.named_kept (h : Lower.named o x a = .ok (r, b)) (hN : b.GrowsTo N) :
    ∃ n, N.names.lookup x = some n ∧ r = o.register n := by
  obtain ⟨n, hn, hr⟩ := Lower.named_lookup h
  exact ⟨n, hN.kept hn, hr.symm⟩

end Registers

/-! ## Seats -/

/-- All of a state but its place, its current frame and its operands. -/
inductive Seat where
  /-- No call is active. -/
  | bottom
  | call (globals : Frame) (caller : Nat) (rest : List Activation)

namespace Seat

/-- The state at a place, with the given frame and operands. -/
def state : Seat → Nat → Frame → Array Int32 → State
  | .bottom, ip, f, operands => ⟨ip, f, [], operands⟩
  | .call globals caller rest, ip, f, operands => ⟨ip, globals, ⟨caller, f⟩ :: rest, operands⟩

/-- The number of active calls. -/
def depth : Seat → Nat
  | .bottom => 0
  | .call _ _ rest => rest.length + 1

/-- The current frame is that of the given owner. -/
def Suits : Seat → Owner → Prop
  | .bottom, .topLevel => True
  | .call .., .function _ => True
  | _, _ => False

/-- The seat of a call from a state with the frame `f`, made at the place `ip`. -/
def inner : Seat → Frame → Nat → Seat
  | .bottom, f, ip => .call f ip []
  | .call globals caller rest, f, ip => .call globals ip (⟨caller, f⟩ :: rest)

variable (seat : Seat) (ip : Nat) (f : Frame) (operands : Array Int32) (n : Nat) (value : Int32)

@[simp] theorem state_ip : (seat.state ip f operands).ip = ip := by
  cases seat <;> rfl

@[simp] theorem state_operands : (seat.state ip f operands).operands = operands := by
  cases seat <;> rfl

@[simp] theorem state_calls_length : (seat.state ip f operands).calls.length = seat.depth := by
  cases seat <;> rfl

@[simp] theorem depth_inner : (seat.inner f ip).depth = seat.depth + 1 := by
  cases seat <;> rfl

@[simp] theorem next_state : (seat.state ip f operands).next = seat.state (ip + 1) f operands := by
  cases seat <;> rfl

@[simp] theorem state_withIp (ip' : Nat) :
    { seat.state ip f operands with ip := ip' } = seat.state ip' f operands := by
  cases seat <;> rfl

@[simp] theorem state_withOperands (operands' : Array Int32) :
    { seat.state ip f operands with operands := operands' } = seat.state ip f operands' := by
  cases seat <;> rfl

/-- A call opens a frame. -/
theorem state_enter (entry : Nat) :
    { seat.state ip f operands with
      ip := entry, calls := ⟨ip, .zero⟩ :: (seat.state ip f operands).calls } =
      (seat.inner f ip).state entry .zero operands := by
  cases seat <;> rfl

theorem inner_state_calls (place : Nat) (g : Frame) :
    ((seat.inner f ip).state place g operands).calls =
      ⟨ip, g⟩ :: (seat.state place f operands).calls := by
  cases seat <;> rfl

/-- A return drops the frame. -/
theorem state_leave (place : Nat) (g : Frame) :
    { (seat.inner f ip).state place g operands with
      ip := ip + 1, calls := (seat.state place f operands).calls } =
      seat.state (ip + 1) f operands := by
  cases seat <;> rfl

theorem inner_suits (x : Text) : (seat.inner f ip).Suits (.function x) := by
  cases seat <;> trivial

variable {seat}

theorem read_state {o : Owner} (h : seat.Suits o) :
    (seat.state ip f operands).read (o.register n) = f.slot n := by
  cases seat <;> cases o <;> first | rfl | exact h.elim

theorem write_state {o : Owner} (h : seat.Suits o) :
    (seat.state ip f operands).write (o.register n) value =
      seat.state ip (f.set n value) operands := by
  cases seat <;> cases o <;> first | rfl | exact h.elim

end Seat

end FrameLang
