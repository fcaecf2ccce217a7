import FrameLang.Proofs.Lowering.Sketches
import Mathlib.Data.List.Forall2
import Mathlib.Data.List.Infix
import Mathlib.Data.List.Nodup

/-!
# Handing out registers

A scope hands out its registers to holders in the order in which they ask, and a holder that asks
again gets no other register. So the register of a holder is told by the holders that have asked
alone, and the code of a construct is its sketch with these registers.

## Main definitions

* `claimAll` — the holders of registers when some more have asked.
* `Owner.place` — the register of a holder.
* `Allocation.Holds` — an allocation belongs to the holders that have asked.
-/

namespace FrameLang

/-! ## Asking -/

/-- The holders of registers when `h` has asked for one. -/
def claim (H : List Holder) (h : Holder) : List Holder :=
  if h ∈ H then H else H ++ [h]

/-- The holders of registers when all of `hs` have asked, one after another. -/
def claimAll (H hs : List Holder) : List Holder :=
  hs.foldl claim H

section Claims

variable {H hs : List Holder} {h k : Holder}

@[simp] theorem claimAll_nil (H : List Holder) : claimAll H [] = H := rfl

theorem claimAll_append (H hs ks : List Holder) :
    claimAll H (hs ++ ks) = claimAll (claimAll H hs) ks :=
  List.foldl_append

theorem claim_of_mem (h : k ∈ H) : claim H k = H := if_pos h

theorem claim_of_notMem (h : k ∉ H) : claim H k = H ++ [k] := if_neg h

theorem mem_claim : h ∈ claim H k ↔ h ∈ H ∨ h = k := by
  unfold claim
  split
  · exact ⟨.inl, fun hh => hh.elim id (· ▸ ‹_›)⟩
  · simp

theorem mem_claimAll : h ∈ claimAll H hs ↔ h ∈ H ∨ h ∈ hs := by
  induction hs generalizing H with
  | nil => simp
  | cons k rest ih =>
    rw [claimAll, List.foldl_cons, ← claimAll, ih, mem_claim, List.mem_cons, or_assoc]

theorem notMem_claimAll (hH : h ∉ H) (hhs : h ∉ hs) : h ∉ claimAll H hs :=
  fun hmem => (mem_claimAll.1 hmem).elim hH hhs

theorem prefix_claimAll (H hs : List Holder) : H <+: claimAll H hs := by
  induction hs generalizing H with
  | nil => exact List.prefix_refl H
  | cons k rest ih =>
    have hclaim : H <+: claim H k := by
      unfold claim
      split
      · exact List.prefix_refl H
      · exact List.prefix_append H [k]
    exact hclaim.trans (ih (claim H k))

theorem nodup_claimAll (hH : H.Nodup) (hs : List Holder) : (claimAll H hs).Nodup := by
  induction hs generalizing H with
  | nil => exact hH
  | cons k rest ih =>
    refine ih ?_
    by_cases hk : k ∈ H
    · rwa [claim_of_mem hk]
    · rw [claim_of_notMem hk, List.nodup_append]
      exact ⟨hH, List.nodup_singleton k, fun h hh k' hk' => by
        rintro rfl
        exact hk (List.mem_singleton.1 hk' ▸ hh)⟩

end Claims

/-- The register of a holder in a scope, when all of `F` have asked. -/
def Owner.place (o : Owner) (F : List Holder) (h : Holder) : Register :=
  o.register (F.idxOf h)

/-- The registers are those of the holders `H`, and the names are those among them. -/
structure Allocation.Holds (a : Allocation) (H : List Holder) : Prop where
  registers : a.registers = H.length
  nodup : H.Nodup
  names {x : Text} {n : Nat} : a.names.lookup x = some n ↔ H[n]? = some (.name x)

section Asking

variable {owner : Owner} {a b : Allocation} {r : Register} {H F : List Holder} {k : Holder}

theorem Allocation.holds_empty (labels : Nat) : ({ labels := labels } : Allocation).Holds [] :=
  ⟨rfl, List.nodup_nil, by simp⟩

theorem Allocation.Holds.withLabels (h : a.Holds H) (labels : Nat) :
    { a with labels := labels }.Holds H :=
  ⟨h.registers, h.nodup, h.names⟩

/-- A holder keeps its register when others ask. -/
theorem Owner.place_of_getElem? {n : Nat} (hH : H.Nodup) (hn : H[n]? = some k) (hF : H <+: F) :
    owner.place F k = owner.register n := by
  obtain ⟨hlt, rfl⟩ := List.getElem?_eq_some_iff.1 hn
  rw [Owner.place, ← hF.idxOf_eq_of_mem (List.getElem_mem hlt), hH.idxOf_getElem n hlt]

/-- A node that has not asked gets a new register. -/
theorem Lower.register_holds (h : Lower.register owner a = .ok (r, b)) (ha : a.Holds H)
    {way : List Nat} (hway : k.path? = some way) (hnew : k ∉ H) :
    b.Holds (claim H k) ∧ ∀ F, claim H k <+: F → r = owner.place F k := by
  obtain ⟨-, rfl, rfl⟩ := Lower.register_eq_ok.1 h
  have hnodup : (claim H k).Nodup := nodup_claimAll ha.nodup [k]
  rw [claim_of_notMem hnew] at hnodup ⊢
  have hlast : (H ++ [k])[a.registers]? = some k := by simp [ha.registers]
  refine ⟨⟨by simp [ha.registers], hnodup, fun {x n} => ?_⟩, fun F hF => ?_⟩
  · have hne : k ≠ .name x := by
      rintro rfl
      cases hway
    rw [ha.names, List.getElem?_append]
    grind
  · exact (Owner.place_of_getElem? hnodup hlast hF).symm

/-- A name gets a new register unless it has asked. -/
theorem Lower.named_holds {x : Text} (h : Lower.named owner x a = .ok (r, b)) (ha : a.Holds H) :
    b.Holds (claim H (.name x)) ∧ ∀ F, claim H (.name x) <+: F → r = owner.place F (.name x) := by
  have hnodup : (claim H (.name x)).Nodup := nodup_claimAll ha.nodup [.name x]
  rcases Lower.named_eq_ok.1 h with ⟨n, hx, rfl, rfl⟩ | ⟨hx, -, rfl, rfl⟩
  · have hn := ha.names.1 hx
    rw [claim_of_mem (List.mem_of_getElem? hn)]
    exact ⟨ha, fun F hF => (Owner.place_of_getElem? ha.nodup hn hF).symm⟩
  · have hnew : .name x ∉ H := by
      intro hmem
      obtain ⟨n, hn⟩ := List.getElem?_of_mem hmem
      rw [ha.names.2 hn] at hx
      cases hx
    rw [claim_of_notMem hnew] at hnodup ⊢
    have hlast : (H ++ [.name x])[a.registers]? = some (.name x) := by simp [ha.registers]
    refine ⟨⟨by simp [ha.registers], hnodup, fun {y n} => ?_⟩, fun F hF => ?_⟩
    · simp only [Allocation.lookup_names_cons]
      have hlen := ha.registers
      have hnames := ha.names (x := y) (n := n)
      rw [List.getElem?_append]
      grind
    · exact (Owner.place_of_getElem? hnodup hlast hF).symm

end Asking

/-! ## Fulfilling a sketch -/

section Described

variable {place : Holder → Register} {i : Instr} {steps : List SketchStep} {code : List Instr}

theorem describes_plain (hi : i.registers = [])
    (h : List.Forall₂ (SketchStep.Describes place) steps code) :
    List.Forall₂ (SketchStep.Describes place) (.plain :: steps) (i :: code) :=
  .cons hi h

/-- The arguments of a call are pushed from the last one on, and its result is taken. -/
theorem describes_call {holders : List Holder} {places : List Register} {path : List Nat}
    {out : Register} (callee : Text) (hplaces : places = holders.map place)
    (hout : out = place (.node path)) :
    List.Forall₂ (SketchStep.Describes place)
      (holders.reverse.map .push ++ [.plain, .result path])
      (places.reverse.map .push ++ [.call (.named callee), .pop out]) := by
  refine List.rel_append ?_ (describes_plain rfl (.cons (congrArg Instr.pop hout) .nil))
  rw [hplaces, ← List.map_reverse, List.map_map, List.forall₂_map_left_iff,
    List.forall₂_map_right_iff, List.forall₂_same]
  exact fun _ _ => rfl

theorem describes_test {src : Holder} {r : Register} (l m : Label) (hsrc : r = place src) :
    List.Forall₂ (SketchStep.Describes place) [.test src, .plain] [.branch r l m, .label l] :=
  .cons ⟨l, m, by rw [hsrc]⟩ (describes_plain rfl .nil)

theorem describes_deliver {src : Option Holder} {value : Option Register} {path : List Nat}
    {out : Register} (l m : Label) (hvalue : value = src.map place)
    (hout : out = place (.branch path)) :
    List.Forall₂ (SketchStep.Describes place) [.deliver src path, .plain, .plain]
      [deliver value out, .jump l, .label m] :=
  .cons (by rw [hvalue, hout]; rfl) (describes_plain rfl (describes_plain rfl .nil))

end Described

/-- No node of `H` is at the end of `path` or behind it. -/
def Fresh (path : List Nat) (H : List Holder) : Prop :=
  ∀ h ∈ H, ∀ way, h.path? = some way → ¬ path <:+ way

section Fresh

variable {path : List Nat} {H : List Holder} {i j : Nat} {k : Sketch} {own : Holder}

theorem fresh_nil (path : List Nat) : Fresh path [] := List.forall_mem_nil _

theorem fresh_names (path : List Nat) (xs : List Text) : Fresh path (xs.map .name) := by
  intro h hh way hway
  obtain ⟨x, -, rfl⟩ := List.mem_map.1 hh
  cases hway

theorem Fresh.append {H' : List Holder} (h : Fresh path H) (h' : Fresh path H') :
    Fresh path (H ++ H') :=
  List.forall_mem_append.2 ⟨h, h'⟩

theorem Fresh.child (h : Fresh path H) (i : Nat) : Fresh (i :: path) H :=
  fun k hk way hway hi => h k hk way hway ((List.suffix_cons i path).trans hi)

theorem Fresh.notMem (h : Fresh path H) (hown : own.path? = some path) : own ∉ H :=
  fun hmem => h own hmem path hown (List.suffix_refl path)

/-- What is fresh stays so while others ask that are not behind it. -/
theorem Fresh.claimAll {hs : List Holder} (h : Fresh path H) (hs' : Fresh path hs) :
    Fresh path (claimAll H hs) := by
  intro k hk
  rcases mem_claimAll.1 hk with hk | hk
  · exact h k hk
  · exact hs' k hk

/-- The nodes of one part are not in another one. -/
theorem Sketch.Under.fresh_sibling (hk : k.Under (i :: path)) (hne : i ≠ j) :
    Fresh (j :: path) k.holders :=
  fun h hh _ hway => (hk h hh).not_sibling hne hway

theorem Sketch.Under.own_notMem (hk : k.Under (i :: path)) (hown : own.path? = some path) :
    own ∉ k.holders :=
  fun hmem => (hk own hmem).path?_ne hown

/-- A node is not in its parts. -/
theorem fresh_own (hown : own.path? = some path) (i : Nat) : Fresh (i :: path) [own] := by
  intro h hh way hway hi
  rw [List.mem_singleton.1 hh, hown] at hway
  cases hway
  exact absurd hi.length_le (by simp)

end Fresh

/-- The sketch of a construct. -/
def Construct.sketch (path : List Nat) : Construct → Sketch
  | .expr e => e.sketch path
  | .args es => Expr.sketchAll path es
  | .line l => l.sketch path
  | .block _ ls => Line.sketchAll path ls
  | .params xs => paramSketch xs

/-- The value of a construct is found in the registers of its holders. A block without lines has the
value that it comes with. -/
def Construct.FoundAt (place : Holder → Register) (path : List Nat) :
    (c : Construct) → c.Value → Prop
  | .expr e, r => r = place (e.holder path)
  | .args es, rs => rs = (Expr.holders path es).map place
  | .line l, v => v = (l.holder? path).map place
  | .block value ls, v => v = if ls.isEmpty then value else (Line.lastHolder? path ls).map place
  | .params _, _ => True

/-- The value of a block that comes with none is that of its last line. -/
theorem Line.lastHolder?_eq {place : Holder → Register} {path : List Nat} {ls : List Line}
    {v : Option Register} (h : Construct.FoundAt place path (.block none ls) v) :
    v = (Line.lastHolder? path ls).map place := by
  cases ls with
  | nil => exact h
  | cons l rest => exact h

/-- The code fulfils the sketch `k` when `H` have asked before: now the holders of the sketch have
asked too, and whoever asks later, the code is what the sketch says, and its value is found. -/
structure Fulfils (o : Owner) (H : List Holder) (k : Sketch) (code : List Instr) (b : Allocation)
    (found : (Holder → Register) → Prop) : Prop where
  holds : b.Holds (claimAll H k.holders)
  described {F : List Holder} : claimAll H k.holders <+: F →
    List.Forall₂ (SketchStep.Describes (o.place F)) k.steps code
  found {F : List Holder} : claimAll H k.holders <+: F → found (o.place F)

namespace Fulfils

variable {o : Owner} {H : List Holder} {k m : Sketch} {code code' : List Instr}
  {a b c : Allocation} {found found' : (Holder → Register) → Prop} {r : Register} {own : Holder}
  {steps : List SketchStep}

theorem empty (h : a.Holds H) : Fulfils o H {} [] a fun _ => True :=
  ⟨h, fun _ => .nil, fun _ => trivial⟩

theorem imp (h : Fulfils o H k code b found) (himp : ∀ place, found place → found' place) :
    Fulfils o H k code b found' :=
  ⟨h.holds, h.described, fun hF => himp _ (h.found hF)⟩

theorem of_code_eq (h : Fulfils o H k code b found) (hcode : code = code') :
    Fulfils o H k code' b found :=
  hcode ▸ h

theorem withLabels (h : Fulfils o H k code b found) (labels : Nat) :
    Fulfils o H k code { b with labels := labels } found :=
  ⟨h.holds.withLabels labels, h.described, h.found⟩

/-- The code goes on, and what goes on uses what has been found. -/
theorem extend {holders : List Holder} (h : Fulfils o H k code b found)
    (hc : c.Holds (claimAll (claimAll H k.holders) holders))
    (hnew : ∀ F, claimAll (claimAll H k.holders) holders <+: F → found (o.place F) →
      List.Forall₂ (SketchStep.Describes (o.place F)) steps code' ∧ found' (o.place F)) :
    Fulfils o H (k ++ ⟨holders, steps⟩) (code ++ code') c found' := by
  have hclaim : claimAll H (k ++ ⟨holders, steps⟩).holders =
      claimAll (claimAll H k.holders) holders :=
    claimAll_append H k.holders holders
  have hbefore {F : List Holder} (hF : claimAll H (k ++ ⟨holders, steps⟩).holders <+: F) :
      claimAll H k.holders <+: F :=
    (prefix_claimAll _ holders).trans (hclaim ▸ hF)
  constructor
  · rw [hclaim]
    exact hc
  · intro F hF
    exact List.rel_append (h.described (hbefore hF))
      (hnew F (hclaim ▸ hF) (h.found (hbefore hF))).1
  · intro F hF
    exact (hnew F (hclaim ▸ hF) (h.found (hbefore hF))).2

/-- Code after code fulfils sketch after sketch. -/
theorem append (h : Fulfils o H k code b found)
    (h' : Fulfils o (claimAll H k.holders) m code' c found') :
    Fulfils o H (k ++ m) (code ++ code') c fun place => found place ∧ found' place :=
  h.extend h'.holds fun _ hF hfound => ⟨h'.described hF, hfound, h'.found hF⟩

/-- Instructions that ask for nothing fulfil further steps. -/
theorem more (h : Fulfils o H k code b found)
    (hsteps : ∀ place, found place → List.Forall₂ (SketchStep.Describes place) steps code') :
    Fulfils o H (k ++ ⟨[], steps⟩) (code ++ code') b found :=
  h.extend h.holds fun F _ hfound => ⟨hsteps (o.place F) hfound, hfound⟩

/-- A holder asks for the register `r`, and further instructions use it. -/
theorem ask (h : Fulfils o H k code b found)
    (hask : c.Holds (claim (claimAll H k.holders) own) ∧
      ∀ F, claim (claimAll H k.holders) own <+: F → r = o.place F own)
    (hsteps : ∀ place, found place → r = place own →
      List.Forall₂ (SketchStep.Describes place) steps code') :
    Fulfils o H (k ++ ⟨[own], steps⟩) (code ++ code') c fun place => found place ∧ r = place own :=
  h.extend hask.1 fun F hF hfound =>
    ⟨hsteps (o.place F) hfound (hask.2 F hF), hfound, hask.2 F hF⟩

end Fulfils

/-- Code fulfils the sketch of its construct. -/
theorem Emits.fulfils {s : Surroundings} {c : Construct} {a b : Allocation} {code : List Instr}
    {v : c.Value} (h : Emits s c a code v b) {path : List Nat} {H : List Holder}
    (ha : a.Holds H) (hpath : Fresh path H) :
    Fulfils s.owner H (c.sketch path) code b (fun place => c.FoundAt place path v) := by
  -- A node asks behind its parts, an if expression in front of them.
  induction h generalizing path H with
  | int _ _ hr | bool _ _ hr =>
    have hask := Lower.register_holds hr ha (k := .node path) rfl (hpath.notMem rfl)
    exact ((Fulfils.empty ha).ask hask fun _ _ hout => .cons (by rw [hout]; rfl) .nil).imp
      fun _ => And.right
  | name _ x hn =>
    exact ((Fulfils.empty ha).ask (Lower.named_holds hn ha) fun _ _ _ => .nil).imp
      fun _ => And.right
  | assign _ x _ hn ih =>
    have hvalue := ih ha (hpath.child 0)
    refine (hvalue.ask (Lower.named_holds hn hvalue.holds) fun place hsrc hout => ?_).imp
      fun _ => And.right
    exact .cons (congrArg₂ Instr.move hsrc hout) .nil
  | @binary _ _ _ _ _ lhs rhs _ _ _ _ _ _ op _ _ hx ihl ihr =>
    have hunder := lhs.under_sketch (0 :: path)
    have hl := ihl ha (hpath.child 0)
    have hr := ihr hl.holds ((hpath.child 1).claimAll (hunder.fresh_sibling (by decide)))
    have hnew : .node path ∉
        claimAll (claimAll H (lhs.sketch (0 :: path)).holders) (rhs.sketch (1 :: path)).holders :=
      notMem_claimAll (notMem_claimAll (hpath.notMem rfl) (hunder.own_notMem rfl))
        ((rhs.under_sketch _).own_notMem rfl)
    rw [← claimAll_append] at hnew
    have hboth := hl.append hr
    have hask := Lower.register_holds hx hboth.holds rfl hnew
    refine (hboth.ask hask fun place hfound hout => ?_).imp fun _ => And.right
    refine .cons ?_ .nil
    rw [hfound.1, hfound.2, hout]
    rfl
  | @call _ _ _ _ args _ places _ _ callee _ hx ih =>
    have hargs := ih ha (hpath.child 0)
    have hnew : .node path ∉ claimAll H (Expr.sketchAll (0 :: path) args).holders :=
      notMem_claimAll (hpath.notMem rfl) ((Expr.under_sketchAll _ args).own_notMem rfl)
    have hcall := hargs.ask (Lower.register_holds hx hargs.holds rfl hnew)
      fun place (hfound : places = _) hout => describes_call callee hfound hout
    rw [← List.append_assoc] at hcall
    exact hcall.imp fun _ => And.right
  | @branch s _ _ a₂ _ _ test thenBlock elseBlock _ _ _ _ _ _ _ _ hx _ _ _ iht ihth ihe =>
    have htestUnder := test.under_sketch (0 :: path)
    have hthenUnder := Line.under_sketchAll (1 :: path) thenBlock
    have hown := (Fulfils.empty ha).ask
      (Lower.register_holds hx ha (k := .branch path) rfl (hpath.notMem rfl))
      fun _ _ _ => List.Forall₂.nil
    have htest := hown.append (iht hown.holds ((hpath.child 0).claimAll (fresh_own rfl 0)))
    have hfirst := htest.more fun place hfound =>
      describes_test (.ofNumber a₂.labels) (.ofNumber (a₂.labels + 2)) hfound.2
    have hthen := (hfirst.withLabels (a₂.labels + 3)).append
      (ihth (hfirst.withLabels (a₂.labels + 3)).holds
        ((hpath.child 1).claimAll (((fresh_own rfl 1).append
          (htestUnder.fresh_sibling (by decide))).append (fresh_nil _))))
    have hsecond := hthen.more fun place hfound =>
      describes_deliver (.ofNumber (a₂.labels + 1)) (.ofNumber (a₂.labels + 2))
        (Line.lastHolder?_eq hfound.2) hfound.1.1.2
    have helse := hsecond.append (ihe hsecond.holds
      ((hpath.child 2).claimAll (((((fresh_own rfl 2).append
        (htestUnder.fresh_sibling (by decide))).append (fresh_nil _)).append
        (hthenUnder.fresh_sibling (by decide))).append (fresh_nil _))))
    have hall := helse.more fun place hfound =>
      describes_deliver (.ofNumber (a₂.labels + 1)) (.ofNumber (a₂.labels + 1))
        (Line.lastHolder?_eq hfound.2) hfound.1.1.1.2
    rw [Construct.sketch, Expr.sketch, Line.sketchElse_eq]
    exact (hall.of_code_eq (by simp)).imp fun _ hfound => hfound.1.1.1.2
  | noArgs => exact (Fulfils.empty ha).imp fun _ _ => rfl
  | @moreArgs _ _ _ _ e es _ _ _ _ _ _ ih₁ ih₂ =>
    have hfirst := ih₁ ha (hpath.child 0)
    have hrest := ih₂ hfirst.holds
      ((hpath.child 1).claimAll ((e.under_sketch (0 :: path)).fresh_sibling (by decide)))
    refine (hfirst.append hrest).imp fun place hfound => ?_
    rw [Construct.FoundAt, Expr.holders, List.map_cons, ← hfound.1, ← hfound.2]
  | exprLine _ _ ih =>
    exact (ih ha hpath).imp fun place hfound => congrArg some hfound
  | @loop s a _ body _ _ _ _ ih =>
    have hstart : Fulfils s.owner H ⟨[], [.plain]⟩ [.label (.ofNumber a.labels)] a
        fun _ => True :=
      (Fulfils.empty ha).more fun _ _ => describes_plain rfl .nil
    have hbody := hstart.append (ih (hstart.withLabels (a.labels + 2)).holds hpath)
    refine (hbody.more fun _ _ => ?_).imp fun _ _ => rfl
    exact describes_plain rfl (describes_plain rfl .nil)
  | @brk s a target _ _ =>
    have hjump : Fulfils s.owner H ⟨[], [.plain]⟩ [.jump target] a fun _ => True :=
      (Fulfils.empty ha).more fun _ _ => describes_plain rfl .nil
    exact hjump.imp fun _ _ => rfl
  | noLines => exact (Fulfils.empty ha).imp fun _ _ => rfl
  | @moreLines _ _ _ _ l ls _ _ _ _ _ _ _ ih₁ ih₂ =>
    have hfirst := ih₁ ha (hpath.child 0)
    have hrest := ih₂ hfirst.holds
      ((hpath.child 1).claimAll ((l.under_sketch (0 :: path)).fresh_sibling (by decide)))
    refine (hfirst.append hrest).imp fun place hfound => ?_
    obtain ⟨hvalue, hlast⟩ := hfound
    cases ls with
    | nil => exact hlast.trans hvalue
    | cons m rest => exact hlast
  | noParams => exact Fulfils.empty ha
  | @moreParams s _ a₁ _ x xs _ place hx _ ih =>
    have htake (f : Holder → Register) (hplace : place = f (.name x)) :
        (SketchStep.take x).Describes f (.pop place) := congrArg Instr.pop hplace
    have hfirst : Fulfils s.owner H ⟨[.name x], [.take x]⟩ [.pop place] a₁ fun _ => True :=
      ((Fulfils.empty ha).ask (Lower.named_holds hx ha) fun f _ hplace =>
        .cons (htake f hplace) .nil).imp fun _ _ => trivial
    exact (hfirst.append (ih hfirst.holds (hpath.claimAll (fresh_names path [x])))).imp
      fun _ _ => trivial

end FrameLang
