import FrameLang.Proofs.CommandLine.Plans
import FrameLang.Proofs.Listing.Legibility

/-!
# Listings of source texts can be read back

The listing of a source text is canonical: code is made of instructions with a meaning, numbered
labels are legible as they are, and the named labels are names of functions, which are identifiers
of the source text. So its text tells such a listing apart from all others.
-/

namespace FrameLang

/-! ## Labels of lowered code -/

/-- The names of a construct come from tokens, and no part is missing. -/
def Construct.ReadFrom (T : Token → Prop) : Construct → Prop
  | .expr e => e.ReadFrom T
  | .args es => Expr.AllReadFrom T es
  | .line l => l.ReadFrom T
  | .block _ ls => Line.AllReadFrom T ls
  | .params xs => ∀ x ∈ xs, NameFrom T x

/-- An else branch that is missing has no lines. -/
theorem Line.ElseReadFrom.getD {T : Token → Prop} {block : Option (List Line)}
    (h : Line.ElseReadFrom T block) : Line.AllReadFrom T (block.getD []) := by
  cases block with
  | none => exact trivial
  | some block => exact h

section Legible

variable {T : Token → Prop} (hT : ∀ x, NameFrom T x → (Label.named x).IsLegible)
include hT

/-- Code is legible if the names of its construct are, and the end of the loop around it. -/
theorem Emits.isLegible {s : Surroundings} {c : Construct} {a b : Allocation} {code : List Instr}
    {v : c.Value} (h : Emits s c a code v b) (hc : c.ReadFrom T)
    (hs : ∀ l, s.loopEnd = some l → l.IsLegible) : ∀ i ∈ code, i.IsLegible := by
  have hdeliver (value : Option Register) (out : Register) : (deliver value out).IsLegible := by
    cases value <;> exact trivial
  have hpush (places : List Register) : ∀ i ∈ places.reverse.map Instr.push, i.IsLegible := by
    intro i hi
    obtain ⟨r, -, rfl⟩ := List.mem_map.1 hi
    exact trivial
  -- Two labels have names or come from outside: that of a call, and the end that a `break` goes to.
  induction h with
  | int | bool => exact List.forall_mem_singleton.2 trivial
  | name | noArgs | noLines | noParams => exact List.forall_mem_nil _
  | assign _ _ _ _ ih =>
    exact List.forall_mem_append.2 ⟨ih hc.2.2 hs, List.forall_mem_singleton.2 trivial⟩
  | binary _ _ _ _ _ ihl ihr =>
    simp only [List.forall_mem_append, List.forall_mem_singleton]
    exact ⟨⟨ihl hc.2.1 hs, ihr hc.2.2 hs⟩, trivial⟩
  | call _ callee _ _ ih =>
    simp only [List.forall_mem_append, List.forall_mem_cons]
    exact ⟨⟨ih hc.2.2 hs, hpush _⟩, hT callee hc.2.1, trivial, List.forall_mem_nil _⟩
  | branch _ _ _ _ _ iht ihth ihe =>
    simp only [List.forall_mem_append, List.forall_mem_cons]
    have hnil := List.forall_mem_nil Instr.IsLegible
    exact ⟨⟨⟨⟨iht hc.2.1 hs, ⟨trivial, trivial⟩, hnil⟩,
      ⟨trivial, ihth hc.2.2.1 hs⟩, hdeliver _ _, trivial, hnil⟩,
      ⟨trivial, ihe hc.2.2.2.getD hs⟩, hdeliver _ _, trivial, hnil⟩, trivial, hnil⟩
  | moreArgs _ _ ih₁ ih₂ | moreLines _ _ _ ih₁ ih₂ =>
    exact List.forall_mem_append.2 ⟨ih₁ hc.1 hs, ih₂ hc.2 hs⟩
  | exprLine _ _ ih => exact ih hc.2 hs
  | loop _ _ ih =>
    have hbody := ih hc.2 fun l hl => Option.some.inj hl ▸ trivial
    simp only [List.forall_mem_append, List.forall_mem_cons]
    exact ⟨⟨trivial, hbody⟩, trivial, trivial, List.forall_mem_nil _⟩
  | brk _ htarget => exact List.forall_mem_singleton.2 (hs _ htarget)
  | moreParams _ _ ih =>
    exact List.forall_mem_cons.2 ⟨trivial, ih (fun x hx => hc x (List.mem_cons_of_mem _ hx)) hs⟩

theorem Statement.Emits.isLegible {st : Statement} {a b : Allocation} {code : List Instr}
    {v : Option Register} (h : st.Emits a code v b) (hst : st.ReadFrom T) :
    ∀ i ∈ code, i.IsLegible := by
  have hnone (l : Label) (hl : none = some l) : l.IsLegible := by cases hl
  cases h with
  | line hl => exact hl.isLegible hT hst hnone
  | fn hparams hbody =>
    obtain ⟨-, hname, hxs, hblock⟩ := hst
    have hnil := List.forall_mem_nil Instr.IsLegible
    simp only [List.forall_mem_append, List.forall_mem_cons]
    exact ⟨⟨⟨trivial, hT _ hname, hnil⟩,
      ⟨hparams.isLegible hT hxs hnone, hbody.isLegible hT hblock hnone⟩, trivial, trivial, hnil⟩,
      trivial, hnil⟩

theorem Program.Emits.isLegible {p : Program} {result final : Option Register} {a b : Allocation}
    {code : List Instr} (h : Program.Emits result p a code final b) (hp : p.ReadFrom T) :
    ∀ i ∈ code, i.IsLegible := by
  induction h with
  | nil => simp
  | cons hst _ ih =>
    obtain ⟨hfirst, hrest⟩ := List.forall_mem_cons.1 hp
    exact List.forall_mem_append.2 ⟨hst.isLegible hT hfirst, ih hrest⟩

/-- The listing of a program with legible names is canonical. -/
theorem Program.build_isCanonical {p : Program} {checkArity : Bool} {listing : Listing}
    (h : p.build checkArity = .ok listing) (hp : p.ReadFrom T) : listing.IsCanonical := by
  obtain ⟨code, result, a, hlower, -, -, rfl⟩ := Program.build_eq_ok h
  intro op hop
  obtain ⟨i, hi, rfl⟩ := List.mem_map.1 hop
  refine ⟨i, ?_, rfl⟩
  rcases mem_relabelShadowed hi with hi | ⟨m, rfl⟩
  · exact (Program.lower_emits hlower).isLegible hT hp i hi
  · exact trivial

end Legible

/-! ## Source texts -/

/-- The names of a source text are legible. -/
theorem NameFrom.isLegible {source x : Text} (h : NameFrom (Token.StandsIn source) x) :
    (Label.named x).IsLegible := by
  obtain ⟨tok, htok, hkind, rfl⟩ := h
  have hname := htok.lexed.name hkind
  cases htext : tok.text with
  | nil => exact nofun
  | cons c rest =>
    simp only [htext, isName, Bool.and_eq_true, List.all_eq_true] at hname
    refine List.forall_mem_cons.2 ⟨?_, hname.1.2⟩
    rw [isNamePart_eq, hname.1.1, Bool.true_or]

/-- The listing of a source text is canonical. -/
theorem compile_isCanonical {checkArity : Bool} {source : Text} {listing : Listing}
    (h : compile checkArity source = .ok listing) : listing.IsCanonical := by
  obtain ⟨p, hparse, hbuild⟩ := compile_eq_ok_iff.1 h
  exact Program.build_isCanonical (fun _ => NameFrom.isLegible) hbuild (parse_readFrom hparse)

/-- Only a listing is written for a request that asks for one. -/
theorem Request.compile_of_plan {request : Request} {fuel : Nat} {source path contents : Text}
    (htask : request.task = .emit "-ir".toList)
    (h : request.plan fuel (some source) = .ok (some (.write path contents))) :
    ∃ listing, compile request.options.checkArity source = .ok listing ∧
      listing.text = contents := by
  obtain ⟨answer, hanswer, hplanned⟩ := request.exists_plan fuel source
  cases h.symm.trans hanswer
  cases hplanned with
  | listed _ hc => exact ⟨_, hc, rfl⟩
  | outlined houtline _ =>
    exact absurd (Task.emit.inj (htask.symm.trans houtline)) Request.listingMode_ne_outlineMode

/-- A listing is known by its text if it is canonical, and in particular if it was made of a source
text. So what is emitted for two source texts is equal exactly if their listings are. -/
theorem Listing.text_determines :
    (∀ a b : Listing, a.IsCanonical → b.IsCanonical → (a.text = b.text ↔ a = b)) ∧
    (∀ (c d : Bool) (s t : Text) (a b : Listing), compile c s = .ok a → compile d t = .ok b →
      (a.text = b.text ↔ a = b)) ∧
    ∀ (q r : Request) (fuel : Nat) (s t path path' contents contents' : Text),
      q.task = .emit "-ir".toList → r.task = .emit "-ir".toList →
      q.plan fuel (some s) = .ok (some (.write path contents)) →
      r.plan fuel (some t) = .ok (some (.write path' contents')) →
      (contents = contents' ↔ compile q.options.checkArity s = compile r.options.checkArity t) := by
  have hcanonical {a b : Listing} (ha : a.IsCanonical) (hb : b.IsCanonical) :
      a.text = b.text ↔ a = b :=
    ⟨ha.eq_of_text hb, congrArg Listing.text⟩
  refine ⟨fun a b => hcanonical, fun c d s t a b ha hb => ?_,
    fun q r fuel s t path path' contents contents' hq hr hs ht => ?_⟩
  · exact hcanonical (compile_isCanonical ha) (compile_isCanonical hb)
  · obtain ⟨a, ha, rfl⟩ := Request.compile_of_plan hq hs
    obtain ⟨b, hb, rfl⟩ := Request.compile_of_plan hr ht
    rw [hcanonical (compile_isCanonical ha) (compile_isCanonical hb), ha, hb, Except.ok.injEq]

/-- A named label and a numbered one are written differently, even if the name is the letter and
the number of the other, and so are two constants in a source text. -/
theorem Listing.text_determines_labels :
    let named : Listing := .ofInstrs [.jump (.named "L1".toList)] none
    let numbered : Listing := .ofInstrs [.jump (.numbered 1)] none
    named.IsCanonical ∧ numbered.IsCanonical ∧ named.text ≠ numbered.text ∧
      ∃ a b, compile false "f(1);".toList = .ok a ∧ compile false "f(2);".toList = .ok b ∧
        a.text ≠ b.text := by
  intro named numbered
  have hlabel : (Label.named "L1".toList).IsLegible := by decide +kernel
  have hnamed : named.IsCanonical :=
    List.forall_mem_singleton.2 ⟨.jump (.named "L1".toList), hlabel, rfl⟩
  have hnumbered : numbered.IsCanonical :=
    List.forall_mem_singleton.2 ⟨.jump (.numbered 1), trivial, rfl⟩
  refine ⟨hnamed, hnumbered, fun h => ?_, ?_⟩
  · exact absurd ((text_determines.1 _ _ hnamed hnumbered).1 h) (by decide +kernel)
  · have hne : compile false "f(1);".toList ≠ compile false "f(2);".toList := by decide +kernel
    obtain ⟨a, ha⟩ : ∃ a, compile false "f(1);".toList = .ok a :=
      exists_listing_of_compile (by decide +kernel)
    obtain ⟨b, hb⟩ : ∃ b, compile false "f(2);".toList = .ok b :=
      exists_listing_of_compile (by decide +kernel)
    refine ⟨a, b, ha, hb, fun h => hne ?_⟩
    rw [ha, hb, (text_determines.2.1 _ _ _ _ a b ha hb).1 h]

end FrameLang
