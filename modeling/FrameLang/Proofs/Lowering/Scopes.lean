import FrameLang.Proofs.Lowering.Allotment
import Mathlib.Data.Finset.Card
import Mathlib.Data.Set.Function
import Mathlib.Order.Interval.Set.Defs

/-!
# The registers of a scope

In a scope, which is the top level or the body of one function, the names and the nodes with a value
of their own have the first registers, each its own. So a node is written by its own instructions
only, and a name by assignments to it and by taking its argument.

## Main definitions

* `Instr.writes` — the register that an instruction writes.
* `Allotted` — the code of a scope is its sketch, with one register for each holder.
-/

namespace FrameLang

/-- The register that an instruction writes. -/
def Instr.writes : Instr → Option Register
  | .pop out | .binary _ _ _ out | .binaryI _ _ _ out | .loadI _ out | .move _ out => some out
  | _ => none

theorem SketchStep.Describes.writes_eq {place : Holder → Register} {step : SketchStep} {i : Instr}
    (h : step.Describes place i) : i.writes = step.writes.map place := by
  cases step with
  | plain => cases i <;> first | rfl | cases h
  | test =>
    obtain ⟨l, m, rfl⟩ := h
    rfl
  | deliver src path =>
    cases h
    cases src <;> rfl
  | _ =>
    cases h
    rfl

/-- The code of a scope is its sketch, when `slot` tells the register of each holder. -/
structure Allotted (o : Owner) (k : Sketch) (code : List Instr) (slot : Holder → Nat) : Prop where
  /-- The holders have the first registers of the scope, each its own. -/
  oneToOne : Set.BijOn slot {h | h ∈ k.holders} (Set.Iio k.holders.toFinset.card)
  enough : k.holders.toFinset.card ≤ registerFileSize
  described : List.Forall₂ (SketchStep.Describes fun h => o.register (slot h)) k.steps code
  /-- A register is written by the steps of its holder, and by nothing else. -/
  writer {h : Holder} {j : Nat} {i : Instr} : h ∈ k.holders → code[j]? = some i →
    (i.writes = some (o.register (slot h)) ↔ ∃ step, k.steps[j]? = some step ∧ step.writes = some h)
  /-- The register of a name is written by taking an argument and by assignments to the name. -/
  name {x : Text} {j : Nat} {i : Instr} : .name x ∈ k.holders → code[j]? = some i →
    i.writes = some (o.register (slot (.name x))) →
    (k.steps[j]? = some (.take x) ∧ i = .pop (o.register (slot (.name x)))) ∨
      ∃ src, k.steps[j]? = some (.assign src x) ∧
        i = .move (o.register (slot src)) (o.register (slot (.name x)))
  /-- The register of a node is written by one instruction. -/
  node {way : List Nat} : .node way ∈ k.holders →
    (code.filterMap Instr.writes).count (o.register (slot (.node way))) = 1
  /-- The register of an if expression is written by one instruction for each branch. -/
  branch {way : List Nat} : .branch way ∈ k.holders →
    (code.filterMap Instr.writes).count (o.register (slot (.branch way))) = 2

theorem Owner.register_inj {o : Owner} {m n : Nat} (hm : m < registerFileSize)
    (hn : n < registerFileSize) (h : o.register m = o.register n) : m = n := by
  have haddr := congrArg (fun r => r.addr.toNat) h
  have hsize : registerFileSize < UInt32.size := by decide
  simp only [Owner.register_addr] at haddr
  rwa [UInt32.toNat_ofNat_of_lt' (hm.trans hsize), UInt32.toNat_ofNat_of_lt' (hn.trans hsize)]
    at haddr

/-- What is related element by element is related at every place. -/
theorem exists_of_forall₂ {α β : Type} {R : α → β → Prop} {l : List α} {l' : List β}
    (h : List.Forall₂ R l l') {j : Nat} {y : β} (hy : l'[j]? = some y) :
    ∃ x, l[j]? = some x ∧ R x y := by
  induction h generalizing j with
  | nil => simp at hy
  | @cons x _ _ _ hxy _ ih =>
    cases j with
    | zero =>
      cases hy
      exact ⟨x, rfl, hxy⟩
    | succ j => simpa using ih (by simpa using hy)

section Describes

variable {place : Holder → Register} {steps : List SketchStep} {code : List Instr}

theorem filterMap_writes (h : List.Forall₂ (SketchStep.Describes place) steps code) :
    code.filterMap Instr.writes = (steps.filterMap SketchStep.writes).map place := by
  induction h with
  | nil => rfl
  | cons hstep _ ih =>
    simp only [List.filterMap_cons, hstep.writes_eq, ih]
    cases SketchStep.writes _ <;> rfl

end Describes

section Allotted

variable {o : Owner} {k : Sketch} {code : List Instr} {slot : Holder → Nat}
  (hslot : Set.BijOn slot {h | h ∈ k.holders} (Set.Iio k.holders.toFinset.card))
  (henough : k.holders.toFinset.card ≤ registerFileSize)
  (hdescribed : List.Forall₂ (SketchStep.Describes fun h => o.register (slot h)) k.steps code)
  (hk : k.Orderly)

include hslot henough

/-- No two holders of a scope share a register. -/
theorem register_slot_inj {h h' : Holder} (hh : h ∈ k.holders) (hh' : h' ∈ k.holders)
    (heq : o.register (slot h) = o.register (slot h')) : h = h' :=
  hslot.injOn hh hh' (Owner.register_inj (Nat.lt_of_lt_of_le (hslot.mapsTo hh) henough)
    (Nat.lt_of_lt_of_le (hslot.mapsTo hh') henough) heq)

include hdescribed hk

/-- A register is written where the sketch writes its holder. -/
theorem writes_iff_step {h : Holder} {j : Nat} {i : Instr} (hh : h ∈ k.holders)
    (hi : code[j]? = some i) : i.writes = some (o.register (slot h)) ↔
      ∃ step, k.steps[j]? = some step ∧ step.writes = some h := by
  obtain ⟨step, hstep, hdesc⟩ := exists_of_forall₂ hdescribed hi
  rw [hdesc.writes_eq, Option.map_eq_some_iff]
  constructor
  · rintro ⟨h', hw, heq⟩
    have hmem : h' ∈ k.written := List.mem_filterMap.2 ⟨step, List.mem_of_getElem? hstep, hw⟩
    rw [register_slot_inj hslot henough (hk.written_subset hmem) hh heq] at hw
    exact ⟨step, hstep, hw⟩
  · rintro ⟨step', hstep', hw⟩
    cases hstep.symm.trans hstep'
    exact ⟨h, hw, rfl⟩

/-- A register is written as often as the sketch writes its holder. -/
theorem count_writes {h : Holder} (hh : h ∈ k.holders) :
    (code.filterMap Instr.writes).count (o.register (slot h)) = k.written.count h := by
  rw [filterMap_writes hdescribed, List.count, List.countP_map, List.count]
  refine List.countP_congr fun h' hh' => ?_
  simp only [Function.comp_apply, beq_iff_eq]
  exact ⟨register_slot_inj hslot henough (hk.written_subset hh') hh, fun heq => by rw [heq]⟩

/-- Code that is described by an orderly sketch is allotted. -/
theorem allotted_of_described : Allotted o k code slot := by
  have honce {h : Holder} {way : List Nat} (hway : h.path? = some way) (hh : h ∈ k.holders) :
      k.holders.count h = 1 :=
    Nat.le_antisymm (hk.once hway) (List.count_pos_iff.2 hh)
  refine
    { oneToOne := hslot
      enough := henough
      described := hdescribed
      writer := writes_iff_step hslot henough hdescribed hk
      name := fun {x j i} hx hi hw => ?_
      node := fun hh => ?_
      branch := fun hh => ?_ }
  · obtain ⟨step, hstep, hsw⟩ := (writes_iff_step hslot henough hdescribed hk hx hi).1 hw
    obtain ⟨step', hstep', hdesc⟩ := exists_of_forall₂ hdescribed hi
    cases hstep.symm.trans hstep'
    cases step with
    | take y =>
      cases hsw
      exact .inl ⟨hstep, hdesc⟩
    | assign src y =>
      cases hsw
      exact .inr ⟨src, hstep, hdesc⟩
    | _ => cases hsw
  · rw [count_writes hslot henough hdescribed hk hh, hk.nodes, honce rfl hh]
  · rw [count_writes hslot henough hdescribed hk hh, hk.branches, honce rfl hh]

end Allotted

theorem card_claimAll (hs : List Holder) : hs.toFinset.card = (claimAll [] hs).length := by
  rw [← List.toFinset_card_of_nodup (nodup_claimAll List.nodup_nil hs)]
  congr 1
  ext h
  simp [mem_claimAll]

/-- The holders have the first places in the order in which they ask first. -/
theorem idxOf_claimAll_bijOn (hs : List Holder) :
    Set.BijOn (claimAll [] hs).idxOf {h | h ∈ hs} (Set.Iio hs.toFinset.card) := by
  have hmem {h : Holder} : h ∈ claimAll [] hs ↔ h ∈ hs := by
    simp [mem_claimAll]
  have hnodup := nodup_claimAll List.nodup_nil hs
  rw [card_claimAll]
  refine ⟨fun h hh => ?_, fun h hh h' hh' heq => ?_, fun n hn => ?_⟩
  · exact List.idxOf_lt_length_of_mem (hmem.2 hh)
  · exact (List.idxOf_inj (hmem.2 hh)).1 heq
  · exact ⟨(claimAll [] hs)[n], hmem.1 (List.getElem_mem hn), hnodup.idxOf_getElem n hn⟩

/-- The code of a whole scope is allotted. -/
theorem Fulfils.allotted {o : Owner} {k : Sketch} {code : List Instr} {b : Allocation}
    {found : (Holder → Register) → Prop} (h : Fulfils o [] k code b found) (hb : b.Valid)
    (hk : k.Orderly) : ∃ slot, Allotted o k code slot := by
  have henough : k.holders.toFinset.card ≤ registerFileSize := by
    rw [card_claimAll, ← h.holds.registers]
    exact hb.bounded
  exact ⟨_, allotted_of_described (idxOf_claimAll_bijOn k.holders) henough
    (h.described (List.prefix_refl _)) hk⟩

end FrameLang
