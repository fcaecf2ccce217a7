import FrameLang.Proofs.Machine.Operands
import FrameLang.Proofs.Machine.Returns
import FrameLang.Proofs.Semantics.Stability

/-!
# Functions are pure

A call that returns leaves all frames that were there as they were, and puts one value in the place
of its arguments on the operand stack. The value depends on nothing but the arguments and on what
the names of functions mean: neither on the variables around the call, nor on how deep it is nested,
nor on what ran before.

Both follow from the interpreter, which gives an activation nothing but its operands. The run of a
callee is moved to a call from behind the code, so that its return is the end of a run, and there it
is known how the interpreter ends.

## Main definitions

* `Program.SameFunctions` — every name means the same in two programs.
* `PureCalls` — what holds of the calls in runs of two images.
-/

namespace FrameLang

/-! ## Returns and the interpreter -/

section Returns

variable {p : Program} {code : List Instr} {result : Option Register} {s u t : State}

/-- A run of a function's code, called from behind all code, that goes back there has followed an
activation of the function to its end. -/
theorem FnDef.PlacedAt.eval_of_steps {f : FnDef} {start n : Nat} {globals globals' : Frame}
    {calls : List Activation} {operands operands' : Array Int32} (h : f.PlacedAt code start)
    (hp : Linked p code) (hd : calls.length < maxCallDepth)
    (hn : Image.Steps ⟨code.toArray, result⟩ n
      ⟨start + 2, globals, ⟨code.length, .zero⟩ :: calls, operands⟩
      ⟨code.length + 1, globals', calls, operands'⟩) :
    ∃ rounds depth env, f.eval (p.invoke rounds depth) rounds ⟨fun _ => 0, operands⟩ =
      .done () ⟨env, operands'⟩ ∧ globals' = globals := by
  have hbehind {s : State} (hs : s.ip = code.length + 1) :
      (⟨code.toArray, result⟩ : Image).code[s.ip]? = none := by
    simp [hs]
  obtain ⟨final, back, hvalid, hback, hfollows⟩ :=
    @FnDef.PlacedAt.follows code result (n + 1) f start h hp.placed_le
  have hfollows' := hfollows
    ⟨final, .function f.name, .call globals code.length calls, hvalid, trivial⟩
    (p.invoke (n + 1) (maxCallDepth - (calls.length + 1))) operands rfl rfl
    (hp.follows_invoke _ _ (by simp only [Seat.depth]; omega))
  -- One more step is the return, which ends the run.
  have hreturned := hfollows'.andThen
    (Q := fun _ w t => t = ⟨code.length + 1, globals, calls, w.operands⟩) ?_
  · rcases hreturned.of_final (by rintro _ _ _ rfl v hv; exact hv.getElem?_ne_none (hbehind rfl)) hn
      (fun v hv => hv.getElem?_ne_none (hbehind rfl)) with ⟨_, w, he, ht⟩ | ⟨i, fault, hs, -⟩
    · cases ht
      exact ⟨_, _, w.env, he, rfl⟩
    · cases (hbehind rfl).symm.trans hs.1
  · rintro _ _ _ (@⟨g, operands₁, -⟩)
    have hact : Image.Acts ⟨code.toArray, result⟩
      ⟨back, globals, ⟨code.length, g⟩ :: calls, operands₁⟩ .ret _ := .ret rfl
    exact ⟨_, ⟨.ret, by simpa using hback, hact.execute⟩, rfl⟩

/-- A call that returns has run an activation of the function that its name means, on the operands
that were there, and it has changed no other frame. -/
theorem Linked.eval_of_returns (h : Linked p code)
    (hret : Image.Returns ⟨code.toArray, result⟩ s u t) :
    ∃ x f rounds depth env, code[s.ip]? = some (.call (.named x)) ∧ p.function? x = some f ∧
      f.eval (p.invoke rounds depth) rounds ⟨fun _ => 0, s.operands⟩ =
        .done () ⟨env, u.operands⟩ ∧
      u.globals = s.globals ∧ (∃ frame, u.calls = ⟨s.ip, frame⟩ :: s.calls) ∧
      t = { s with ip := s.ip + 1, operands := u.operands } := by
  obtain ⟨l, entry, n, hi, hl, hd, hsteps, hframe, ht⟩ := hret.recalled code.length
  rw [List.getElem?_toArray] at hi
  obtain ⟨x, rfl⟩ := h.calls (List.mem_of_getElem? hi)
  have hlabel := (Image.resolve_eq_some (h.placed_le _)).1 hl
  have hdefined : p.function? x ≠ none := fun hnone =>
    Program.function?_eq_none.1 hnone (h.named (List.mem_of_getElem? hlabel))
  obtain ⟨f, hf⟩ := Option.ne_none_iff_exists'.1 hdefined
  obtain ⟨start, hplaced, hstart⟩ := h.placedAt_of_function? hf
  obtain rfl := placed_unique (h.placed_le _) hlabel hstart
  obtain ⟨rounds, depth, env, he, hglobals⟩ := hplaced.eval_of_steps h hd hsteps
  exact ⟨x, f, rounds, depth, env, hi, hf, he, hglobals, hframe, by rw [ht, hglobals]⟩

/-- At a call that passes what its function takes, the arguments are all that is on the operand
stack. -/
theorem Linked.size_operands_of_call (h : Linked p code) (hc : p.callError? = none)
    (hs : Image.Reachable ⟨code.toArray, result⟩ s) {x : Text}
    (hi : code[s.ip]? = some (.call (.named x))) {f : FnDef} (hf : p.function? x = some f) :
    s.operands.size = f.params.length := by
  obtain ⟨⟨g, hg, hheight⟩, -⟩ := h.fits hc hi (h.controlled hs).ne_entry
  obtain rfl := Option.some.inj (hf.symm.trans hg)
  rw [(h.balanced hc hs).1, hheight]

/-- At a return the result is all that is on the operand stack. -/
theorem Linked.size_operands_of_ret (h : Linked p code) (hc : p.callError? = none)
    (hs : Image.Reachable ⟨code.toArray, result⟩ s) (hi : code[s.ip]? = some .ret) :
    s.operands.size = 1 :=
  (h.balanced hc hs).1.trans (h.fits hc hi (h.controlled hs).ne_entry)

end Returns

theorem Image.Returns.reachable {image : Image} {s u t : State} (h : image.Returns s u t)
    (hs : image.Reachable s) : image.Reachable u := by
  obtain ⟨n, hn⟩ := hs
  obtain ⟨⟨entered, hnext, habove⟩, -, -⟩ := h
  obtain ⟨m, hm⟩ := habove.exists_steps
  exact ⟨_, hn.trans (.cons hnext hm)⟩

/-! ## Calls in runs -/

/-- Two programs define the same names and agree on the last definition of each, positions apart. -/
def Program.SameFunctions (p q : Program) : Prop :=
  ∀ x, (p.function? x).map FnDef.unplaced = (q.function? x).map FnDef.unplaced

/-- What holds of the calls in every run of an image of `p`, and of those in every run of another
image. -/
structure PureCalls (p : Program) (image image' : Image) : Prop where
  /-- When a call returns, the frames that were there have not changed, and one value is on the
  operand stack in the place of the arguments. -/
  frames {s u t : State} : image.Reachable s → image.Returns s u t →
    ∃ x f below args value frame, image.code[s.ip]? = some (.call (.named x)) ∧
      p.function? x = some f ∧ args.size = f.params.length ∧ s.operands = below ++ args ∧
      u.globals = s.globals ∧ u.calls = ⟨s.ip, frame⟩ :: s.calls ∧
      u.operands = below.push value ∧
      t = { s with ip := s.ip + 1, operands := below.push value }
  /-- Two calls of one name with the same arguments that return give the same value, wherever they
  are made. -/
  values {s s' u u' t t' : State} {x : Text} {f : FnDef} {below below' args : Array Int32} :
    image.Reachable s → image.Returns s u t → image'.Reachable s' → image'.Returns s' u' t' →
    image.code[s.ip]? = some (.call (.named x)) → image'.code[s'.ip]? = some (.call (.named x)) →
    p.function? x = some f → args.size = f.params.length →
    s.operands = below ++ args → s'.operands = below' ++ args →
    ∃ value, u.operands = below.push value ∧ u'.operands = below'.push value

section Calls

variable {p q : Program} {code code' : List Instr} {result result' : Option Register}

/-- Operands of the size of the arguments are the arguments. -/
theorem eq_args_of_size {operands below args : Array Int32} (h : operands = below ++ args)
    (hsize : operands.size = args.size) : below = #[] ∧ operands = args := by
  subst h
  rw [Array.size_append] at hsize
  obtain rfl : below = #[] := Array.eq_empty_of_size_eq_zero (by omega)
  exact ⟨rfl, Array.empty_append⟩

/-- Calls in runs of linked programs with checked calls are pure. -/
theorem Linked.pureCalls (hp : Linked p code) (hq : Linked q code') (hcp : p.callError? = none)
    (hcq : q.callError? = none) (h : p.SameFunctions q) :
    PureCalls p ⟨code.toArray, result⟩ ⟨code'.toArray, result'⟩ where
  frames := by
    intro s u t hs hret
    obtain ⟨x, f, _, _, _, hi, hf, -, hglobals, ⟨frame, hcalls⟩, ht⟩ := hp.eval_of_returns hret
    have hargs := hp.size_operands_of_call hcp hs hi hf
    have hone := hp.size_operands_of_ret hcp (hret.reachable hs) (by simpa using hret.exists_ret.1)
    obtain ⟨value, hvalue⟩ := Array.size_eq_one_iff.1 hone
    refine ⟨x, f, #[], s.operands, value, frame, by simpa using hi, hf, hargs,
      Array.empty_append.symm, hglobals, hcalls, hvalue, ?_⟩
    rw [ht, hvalue]
    rfl
  values := by
    intro s s' u u' t t' x f below below' args hs hret hs' hret' hi hi' hf hsize hops hops'
    have hone := hp.size_operands_of_ret hcp (hret.reachable hs) (by simpa using hret.exists_ret.1)
    obtain ⟨value, hvalue⟩ := Array.size_eq_one_iff.1 hone
    obtain ⟨y, g, rounds, depth, env, hy, hg, he, -, -, -⟩ := hp.eval_of_returns hret
    obtain ⟨y', g', rounds', depth', env', hy', hg', he', -, -, -⟩ := hq.eval_of_returns hret'
    simp only [List.getElem?_toArray] at hi hi'
    cases hy.symm.trans hi
    cases hy'.symm.trans hi'
    cases hg.symm.trans hf
    -- Both calls run the same function, positions apart.
    have hsame : f.unplaced = g'.unplaced := by
      simpa [hg, hg'] using h x
    have hparams : g'.params = f.params := (congrArg FnDef.params hsame).symm
    obtain ⟨rfl, rfl⟩ := eq_args_of_size hops
      ((hp.size_operands_of_call hcp hs hi hg).trans hsize.symm)
    obtain ⟨rfl, hargs⟩ := eq_args_of_size hops'
      ((hq.size_operands_of_call hcq hs' hi' hg').trans (by rw [hparams, hsize]))
    rw [← Program.invoke_congr h, ← FnDef.eval_unplaced, ← hsame, FnDef.eval_unplaced, hargs] at he'
    have hworld := FnDef.eval_unique p f he he'
    have hoperands : u'.operands = u.operands := (congrArg World.operands hworld).symm
    exact ⟨value, hvalue, hoperands.trans hvalue⟩

end Calls

/-- Functions are pure in programs that are built with checked calls. -/
theorem Program.build_pureCalls {p q : Program} {listing listing' : Listing}
    (hp : p.build true = .ok listing) (hq : q.build true = .ok listing')
    (hlp : p.labelsDrawn < 2 ^ 32) (hlq : q.labelsDrawn < 2 ^ 32) (h : p.SameFunctions q) :
    ∃ image image', listing.load = .ok image ∧ listing'.load = .ok image' ∧
      PureCalls p image image' := by
  obtain ⟨_, _, _, -, -, hcp, -⟩ := Program.build_eq_ok hp
  obtain ⟨_, _, _, -, -, hcq, -⟩ := Program.build_eq_ok hq
  exact ⟨_, _, Program.build_load hp hlp, Program.build_load hq hlq,
    (Program.build_linked hp hlp).pureCalls (Program.build_linked hq hlq) (hcp rfl) (hcq rfl) h⟩

/-- A call of a function that gives its argument back. -/
def Program.echo : Program :=
  [.fn ⟨.start, ['f'], [['x']], [.expr .start (.name .start ['x'])]⟩,
    .line (.expr .start (.call .start ['f'] [.int .start 7]))]

/-- The image of `Program.echo`. -/
def Program.echoImage : Image where
  code := #[.jump (.numbered 0), .label (.named ['f']), .pop (.arp 0), .push (.arp 0), .ret,
    .label (.numbered 0), .loadI 7 (.global 0), .push (.global 0), .call (.named ['f']),
    .pop (.global 1)]
  result := some (.global 1)

/-- The call in `Program.echo` is executed, and it returns. -/
theorem Program.echoImage_returns :
    ∃ s u t, Program.echoImage.Reachable s ∧ Program.echoImage.Returns s u t := by
  obtain ⟨f, hf⟩ : ∃ f, f = Frame.zero.write 0 7 := ⟨_, rfl⟩
  obtain ⟨v, hv⟩ : ∃ v, v = f.read 0 := ⟨_, rfl⟩
  obtain ⟨g, hg⟩ : ∃ g, g = Frame.zero.write 0 v := ⟨_, rfl⟩
  have hroom : 0 < maxOperands := by decide
  have hdeep : 0 < maxCallDepth := by decide
  have h₁ : Program.echoImage.Next .initial ⟨6, .zero, [], #[]⟩ :=
    ⟨_, rfl, Image.Acts.execute (.jump (by decide +kernel))⟩
  have h₂ : Program.echoImage.Next ⟨6, .zero, [], #[]⟩ ⟨7, f, [], #[]⟩ :=
    ⟨_, rfl, hf ▸ Image.Acts.execute (.loadI _ _)⟩
  have h₃ : Program.echoImage.Next ⟨7, f, [], #[]⟩ ⟨8, f, [], #[v]⟩ :=
    ⟨_, rfl, hv ▸ Image.Acts.execute (.push _ hroom)⟩
  have h₄ : Program.echoImage.Next ⟨8, f, [], #[v]⟩ ⟨2, f, [⟨8, .zero⟩], #[v]⟩ :=
    ⟨_, rfl, Image.Acts.execute (.call (by decide +kernel) hdeep)⟩
  have h₅ : Program.echoImage.Next ⟨2, f, [⟨8, .zero⟩], #[v]⟩ ⟨3, f, [⟨8, g⟩], #[]⟩ :=
    ⟨_, rfl, hg ▸ Image.Acts.execute (.pop _ rfl)⟩
  have h₆ : Program.echoImage.Next ⟨3, f, [⟨8, g⟩], #[]⟩ ⟨4, f, [⟨8, g⟩], #[g.read 0]⟩ :=
    ⟨_, rfl, Image.Acts.execute (.push _ hroom)⟩
  have hret : Program.echoImage.Acts ⟨4, f, [⟨8, g⟩], #[g.read 0]⟩ .ret _ := .ret rfl
  have h₇ : Program.echoImage.Next ⟨4, f, [⟨8, g⟩], #[g.read 0]⟩ ⟨9, f, [], #[g.read 0]⟩ :=
    ⟨_, rfl, hret.execute⟩
  exact ⟨_, _, _, ⟨3, .cons h₁ (.cons h₂ (.one h₃))⟩,
    ⟨_, h₄, .cons (Nat.lt_succ_self 0) h₅ (.cons (Nat.lt_succ_self 0) h₆
      (.refl (Nat.lt_succ_self 0)))⟩, h₇, rfl⟩

theorem Program.echo_pureCalls : ∃ listing, Program.echo.build true = .ok listing ∧
    Program.echo.labelsDrawn < 2 ^ 32 ∧ Program.echo.SameFunctions Program.echo ∧
    listing.load = .ok Program.echoImage ∧
    (∃ s u t, Program.echoImage.Reachable s ∧ Program.echoImage.Returns s u t) ∧
    PureCalls Program.echo Program.echoImage Program.echoImage := by
  obtain ⟨listing, h⟩ : ∃ listing, Program.echo.build true = .ok listing :=
    Program.exists_listing (by decide +kernel)
  have hl : Program.echo.labelsDrawn < 2 ^ 32 := by decide +kernel
  have hload : listing.load = .ok Program.echoImage := by
    have hboth : ((Program.echo.build true).toOption.bind fun l => l.load.toOption) =
        some Program.echoImage := by decide +kernel
    rw [h] at hboth
    revert hboth
    cases hl : listing.load <;> simp [Except.toOption, hl]
  obtain ⟨image, image', hi, hi', hpure⟩ := Program.build_pureCalls h h hl hl fun _ => rfl
  cases hload.symm.trans hi
  cases hload.symm.trans hi'
  exact ⟨listing, h, hl, fun _ => rfl, hload, Program.echoImage_returns, hpure⟩

end FrameLang
