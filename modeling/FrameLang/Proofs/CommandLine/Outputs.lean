import FrameLang.Proofs.CommandLine.Contract
import FrameLang.Proofs.CommandLine.Extensions

/-!
# Where output goes by default

If no path is asked for, what is emitted goes into a file beside the source file. Two paths that
differ behind their last separator name different files, so the source file itself is overwritten
exactly if its path has the extension of the output already.

## Main definitions

* `Request.Emits` — what a request emits for a source text.
* `Disk.EmitsBeside` — what emitting leaves beside the source file, and of it.
* `Disk.EmissionLaws` — what a call promises that asks for no path.
-/

namespace FrameLang

/-! ## Places of paths with the same directory -/

namespace Disk

variable {disk : Disk} {base place : Place} {path ext : Text}

theorem splitSlashes_of_notMem {name : Text} (h : '/' ∉ name) : splitSlashes name = [name] := by
  induction name with
  | nil => rfl
  | cons c rest ih =>
    obtain ⟨hc, hrest⟩ := not_or.1 (mt List.mem_cons.2 h)
    rw [splitSlashes, if_neg (Ne.symm hc), ih hrest]

/-- What is put behind a text lengthens the last of its names, if it has no slashes. -/
theorem exists_splitSlashes_append (t : Text) : ∃ names start, ∀ name : Text, '/' ∉ name →
    splitSlashes (t ++ name) = names ++ [start ++ name] := by
  induction t with
  | nil => exact ⟨[], [], fun name h => splitSlashes_of_notMem h⟩
  | cons c t ih =>
    obtain ⟨names, start, ih⟩ := ih
    by_cases hc : c = '/'
    · refine ⟨[] :: names, start, fun name h => ?_⟩
      rw [List.cons_append, splitSlashes, if_pos hc, ih name h, List.cons_append]
    · cases names with
      | nil =>
        refine ⟨[], c :: start, fun name h => ?_⟩
        simp only [List.cons_append, splitSlashes, if_neg hc, ih name h, List.nil_append]
      | cons first names =>
        refine ⟨(c :: first) :: names, start, fun name h => ?_⟩
        simp only [List.cons_append, splitSlashes, if_neg hc, ih name h]

theorem walk_cons {name : Text} {names : List Text} (h : names ≠ []) :
    disk.walk base (name :: names) =
      if name = [] ∨ name = ['.'] then disk.walk base names
      else if name = upward then disk.walk (parent base) names
      else if disk.isDirectory (base ++ [name]) then disk.walk (base ++ [name]) names
      else none := by
  cases names with
  | nil => exact absurd rfl h
  | cons =>
    rw [walk]
    exact h

/-- Walks that differ in the last name end in the same directory. -/
theorem exists_walk_append (disk : Disk) (base : Place) (names : List Text) :
    ∃ above : Place, ∀ name place, disk.walk base (names ++ [name]) = some place →
      place = above ++ [name] := by
  induction names generalizing base with
  | nil =>
    refine ⟨base, fun name place h => ?_⟩
    simp only [List.nil_append, walk] at h
    split at h
    · cases h
    · split at h
      · exact (Option.some.inj h).symm
      · cases h
  | cons first names ih =>
    have hne (name : Text) : names ++ [name] ≠ [] :=
      List.append_ne_nil_of_right_ne_nil _ (List.cons_ne_nil _ _)
    by_cases hstay : first = [] ∨ first = ['.']
    · obtain ⟨above, ih⟩ := ih base
      refine ⟨above, fun name place h => ih name place ?_⟩
      rwa [List.cons_append, walk_cons (hne name), if_pos hstay] at h
    by_cases hup : first = upward
    · obtain ⟨above, ih⟩ := ih (parent base)
      refine ⟨above, fun name place h => ih name place ?_⟩
      rwa [List.cons_append, walk_cons (hne name), if_neg hstay, if_pos hup] at h
    · obtain ⟨above, ih⟩ := ih (base ++ [first])
      refine ⟨above, fun name place h => ih name place ?_⟩
      rw [List.cons_append, walk_cons (hne name), if_neg hstay, if_neg hup] at h
      split at h
      · exact h
      · cases h

/-- Files whose paths differ only in what stands behind a text are in the same directory, and the
ends of their names are what stands there. -/
theorem exists_place?_append (disk : Disk) (t : Text) :
    ∃ (above : Place) (start : Text), ∀ name place, '/' ∉ name →
      disk.place? (t ++ name) = some place → place = above ++ [start ++ name] := by
  obtain ⟨names, start, hsplit⟩ := exists_splitSlashes_append t
  obtain ⟨above, hwalk⟩ := exists_walk_append disk [] names
  refine ⟨above, start, fun name place hname h => hwalk _ _ ?_⟩
  rw [← hsplit name hname]
  unfold place? at h
  split at h
  · exact h
  · cases h

theorem slash_notMem {name : Text} (h : ∀ c ∈ name, Path.isSeparator c = false) : '/' ∉ name :=
  fun hc => absurd (h _ hc) (by decide)

/-- The file with another extension is in the same directory as the file of the path, and has
another name there unless the path has the extension already. -/
theorem place?_withExtension {other : Place} (hext : Path.IsExtension ext)
    (h : disk.place? path = some place)
    (hother : disk.place? (Path.withExtension path ext) = some other) :
    ∃ (directory : Place) (name name' : Text), place = directory ++ [name] ∧
      other = directory ++ [name'] ∧ (name = name' → ext <:+ path) := by
  obtain ⟨above, name, kept, hsplit, hcut⟩ := Path.exists_parts path
  have hsplit' := Path.splits_withExtension hext hsplit hcut
  obtain ⟨directory, start, hplace⟩ := exists_place?_append disk above
  rw [← hsplit.append_eq] at h
  rw [← hsplit'.append_eq] at hother
  refine ⟨directory, start ++ name, start ++ (kept ++ ext),
    hplace name place (slash_notMem hsplit.not_isSeparator) h,
    hplace (kept ++ ext) other (slash_notMem hsplit'.not_isSeparator) hother, fun hname => ?_⟩
  rw [← hsplit.append_eq, List.append_cancel_left hname, ← List.append_assoc]
  exact List.suffix_append _ _

theorem place?_withExtension_eq_iff (hext : Path.IsExtension ext)
    (h : disk.place? path = some place) :
    disk.place? (Path.withExtension path ext) = disk.place? path ↔ ext <:+ path := by
  constructor
  · intro hsame
    obtain ⟨directory, name, name', hplace, hplace', hsuffix⟩ :=
      place?_withExtension hext h (hsame.trans h)
    rw [hplace] at hplace'
    exact hsuffix (List.singleton_inj.1 (List.append_cancel_left hplace'))
  · intro hsuffix
    rw [Path.withExtension_of_suffix hext hsuffix]

end Disk

/-! ## Emissions -/

section Emissions

variable {request : Request} {options : Options} {args : List Text} {source ext contents : Text}

/-- What the request emits for a source text: the extension that the path of the output has by
default, and the contents of the output. -/
inductive Request.Emits (request : Request) (source : Text) : Text → Text → Prop where
  | listing {p : Program} {listing : Listing} : request.task = .emit "-ir".toList →
      parse source = .ok p → p.build request.options.checkArity = .ok listing →
      Emits request source ".ir".toList listing.text
  | outline {p : Program} : request.task = .emit "-ast".toList → parse source = .ok p →
      Emits request source ".ast".toList p.outline

theorem Request.Emits.isExtension (h : request.Emits source ext contents) :
    Path.IsExtension ext := by
  cases h <;> decide +kernel

/-- What is emitted is written at the path for the output. -/
theorem Request.Emits.plan_eq (h : request.Emits source ext contents) (fuel : Nat) :
    request.plan fuel (some source) = .ok (some (.write (request.target ext) contents)) := by
  cases h with
  | listing htask hp hb => rw [Request.plan_listing htask, compile_eq_ok_iff.2 ⟨_, hp, hb⟩]
  | outline htask hp => rw [Request.plan_outline htask, hp]

/-- A request to emit fails if there is nothing that it emits. -/
theorem Request.exists_failure {mode : Text} {contents? : Option Text}
    (htask : request.task = .emit mode)
    (hnone : ∀ source ext contents, contents? = some source → ¬ request.Emits source ext contents) :
    ∃ text, text ≠ [] ∧
      ∀ fuel, request.plan fuel contents? = .ok (some (.reply (.failure text))) := by
  cases contents? with
  | none => exact ⟨_, errorLine_ne_nil _, fun _ => rfl⟩
  | some source =>
    obtain ⟨answer, hplan, hplanned⟩ := request.exists_plan 0 source
    cases hplanned with
    | failed hne => exact ⟨_, hne, fun fuel => Request.plan_mono hplan (Nat.zero_le fuel)⟩
    | checked hother | running hother | halted hother => cases htask.symm.trans hother
    | listed hmode hc =>
      obtain ⟨p, hp, hb⟩ := compile_eq_ok_iff.1 hc
      exact absurd (.listing hmode hp hb) (hnone source _ _ rfl)
    | outlined hmode hp => exact absurd (.outline hmode hp) (hnone source _ _ rfl)

/-- Without the option there is no path for the output. -/
theorem Options.Spelled.out_eq_nil (h : options.Spelled args) (hout : "--out".toList ∉ args) :
    options.out = [] := by
  obtain ⟨items, -, rfl, rfl⟩ := h
  have hpaths : items.filterMap OptionItem.path? = [] := by
    refine List.filterMap_eq_nil_iff.2 fun item hitem => ?_
    cases item with
    | out path => exact absurd (List.mem_flatMap.2 ⟨_, hitem, List.mem_cons_self⟩) hout
    | checkArity | other => rfl
  rw [Options.ofItems, hpaths, List.getLastD_nil]

theorem Request.Asked.out_eq_nil (h : request.Asked args) (hout : "--out".toList ∉ args) :
    request.options.out = [] := by
  cases h with
  | emit hspelled | check _ hspelled | run _ hspelled | bare _ _ hspelled =>
    exact hspelled.out_eq_nil (mt (List.mem_cons_of_mem _) hout)

theorem Request.target_of_out_eq_nil (h : request.options.out = []) (ext : Text) :
    request.target ext = Path.withExtension request.path ext := by
  rw [Request.target, h]

end Emissions

/-! ## The source file -/

namespace Disk

variable {disk : Disk} {tool : Option Text} {args : List Text} {request : Request}
  {path source ext contents : Text} {reply : Reply} {after : Disk}

/-- What emitting leaves beside the source file at the path, and of the source file, if no path is
asked for: the call ends with the reply and with the disk `after`. -/
structure EmitsBeside (disk : Disk) (path source ext contents : Text) (reply : Reply)
    (after : Disk) : Prop where
  /-- The output is written at the path with the extension if there can be a file. -/
  written {place : Place} (h : disk.place? (Path.withExtension path ext) = some place) :
    reply = .success [] ∧ disk.WroteTo after (Path.withExtension path ext) contents
  /-- If there can be none, the call fails and changes nothing. -/
  failed (h : disk.place? (Path.withExtension path ext) = none) :
    reply.exitCode = 1 ∧ after = disk
  /-- The output is in the directory of the source. -/
  directory {place other : Place} (h : disk.place? path = some place)
    (hother : disk.place? (Path.withExtension path ext) = some other) :
    other.dropLast = place.dropLast
  /-- The output goes into the source file exactly if the path has the extension already. -/
  overwrites_iff : disk.place? (Path.withExtension path ext) = disk.place? path ↔ ext <:+ path
  /-- Then the source is lost, -/
  overwritten (h : ext <:+ path) : reply = .success [] ∧ after.read path = some contents
  /-- and otherwise it is kept. -/
  kept (h : ¬ ext <:+ path) : after.read path = some source

theorem emitsBeside (hext : Path.IsExtension ext) (hread : disk.read path = some source)
    (h : Plan.carryOut disk (.write (Path.withExtension path ext) contents) = (reply, after)) :
    disk.EmitsBeside path source ext contents reply after := by
  obtain ⟨place, hplace, -⟩ := Option.bind_eq_some_iff.1 hread
  have hiff := place?_withExtension_eq_iff hext hplace
  have hwritten {other : Place} (hother : disk.place? (Path.withExtension path ext) = some other) :
      reply = .success [] ∧ disk.WroteTo after (Path.withExtension path ext) contents := by
    obtain ⟨after', hw⟩ := exists_write_iff.2 ⟨other, hother⟩
    cases (carryOut_of_write hw).symm.trans h
    exact ⟨rfl, write_eq_some hw⟩
  have hfailed (hnone : disk.place? (Path.withExtension path ext) = none) :
      reply.exitCode = 1 ∧ after = disk := by
    simp only [Plan.carryOut, write, hnone, Option.map_none] at h
    cases h
    exact ⟨rfl, rfl⟩
  refine
    { written := hwritten
      failed := hfailed
      directory := fun hpath hother => ?_
      overwrites_iff := hiff
      overwritten := fun hsuffix => ?_
      kept := fun hsuffix => ?_ }
  · obtain ⟨directory, name, name', rfl, rfl, -⟩ := place?_withExtension hext hpath hother
    rw [List.dropLast_concat, List.dropLast_concat]
  · obtain ⟨hreply, hwrote⟩ := hwritten ((hiff.2 hsuffix).trans hplace)
    rw [Path.withExtension_of_suffix hext hsuffix] at hwrote
    exact ⟨hreply, hwrote.read_self⟩
  · cases hother : disk.place? (Path.withExtension path ext) with
    | none => rw [(hfailed hother).2, hread]
    | some other =>
      have hne : disk.place? path ≠ disk.place? (Path.withExtension path ext) :=
        fun heq => hsuffix (hiff.1 heq.symm)
      rw [(hwritten hother).2.read_other hne, hread]

/-- What a call promises that makes the request, if this asks for no path. -/
structure EmissionLaws (disk : Disk) (tool : Option Text) (args : List Text)
    (request : Request) : Prop where
  /-- If there is something to emit, it goes beside the source file. -/
  emits {source ext contents : Text} (hread : disk.read request.path = some source)
    (hemits : request.Emits source ext contents) :
    ∃ reply after, (∀ fuel, disk.call tool args fuel = .ok (some (reply, after))) ∧
      disk.EmitsBeside request.path source ext contents reply after
  /-- If there is nothing to emit, the call fails and changes nothing. -/
  refuses {mode : Text} (htask : request.task = .emit mode)
    (hnone : ∀ source ext contents, disk.read request.path = some source →
      ¬ request.Emits source ext contents) :
    ∃ text, text ≠ [] ∧ ∀ fuel, disk.call tool args fuel = .ok (some (.failure text, disk))

theorem emissionLaws (hasked : request.Asked (args.map argument))
    (hout : request.options.out = []) : disk.EmissionLaws tool args request where
  emits {source ext contents} hread hemits := by
    refine ⟨_, _, fun fuel => ?_, emitsBeside hemits.isExtension hread rfl⟩
    rw [call_of_plan hasked (hread ▸ hemits.plan_eq fuel), Request.target_of_out_eq_nil hout]
    rfl
  refuses htask hnone := by
    obtain ⟨text, hne, hplan⟩ := Request.exists_failure htask hnone
    exact ⟨text, hne, fun fuel => call_of_plan hasked (hplan fuel)⟩

end Disk

/-- Default outputs stand beside their sources, and take the place of a source only if its path has
the extension of the output already. -/
theorem defaultOutputs_beside :
    (∀ path ext : Text, Path.IsExtension ext → Path.ExtensionLaws path ext) ∧
    (∀ (args : List Text) (request : Request), request.Asked args → "--out".toList ∉ args →
      request.options.out = []) ∧
    ∀ (disk : Disk) (tool : Option Text) (args : List Text) (request : Request),
      request.Asked (args.map argument) → request.options.out = [] →
      disk.EmissionLaws tool args request :=
  ⟨fun path _ hext => Path.extensionLaws hext path, fun _ _ => Request.Asked.out_eq_nil,
    fun _ _ _ _ => Disk.emissionLaws⟩

/-- A source file that is named like a listing, in a directory with a dot in its name: its listing
takes its place, but its outline goes beside it. -/
theorem defaultOutputs_beside_listing :
    let path := "v1.2/p.ir".toList
    let source := "f(1);".toList
    let disk := Disk.ofFiles [(path, source)]
    Path.Splits (Path.withExtension path ".ast".toList) "v1.2/".toList "p.ast".toList ∧
    (∃ listing after, compile false source = .ok listing ∧
      (∀ fuel, disk.call none ["emit".toList, "-ir".toList, path] fuel =
        .ok (some (.success [], after))) ∧ after.read path = some listing.text) ∧
    ∃ reply after, (∀ fuel, disk.call none ["emit".toList, "-ast".toList, path] fuel =
      .ok (some (reply, after))) ∧ after.read path = some source := by
  intro path source disk
  obtain ⟨hlaws, hunasked, hcalls⟩ := defaultOutputs_beside
  have hread : disk.read path = some source := by decide +kernel
  have hlawful (mode : Text) (hmode : mode ∈ ["-ir".toList, "-ast".toList]) :
      disk.EmissionLaws none ["emit".toList, mode, path] ⟨.emit mode, path, {}⟩ := by
    have hargs : ∀ mode ∈ ["-ir".toList, "-ast".toList],
        Request.ofArguments (["emit".toList, mode, path].map argument) =
          .ok ⟨.emit mode, path, {}⟩ ∧
        "--out".toList ∉ ["emit".toList, mode, path].map argument := by decide +kernel
    obtain ⟨hrequest, hout⟩ := hargs mode hmode
    have hasked := Request.ofArguments_eq_ok_iff.1 hrequest
    exact hcalls _ _ _ _ hasked (hunasked _ _ hasked hout)
  obtain ⟨listing, hc⟩ : ∃ listing, compile false source = .ok listing :=
    exists_listing_of_compile (by decide +kernel)
  obtain ⟨p, hp, hb⟩ := compile_eq_ok_iff.1 hc
  refine ⟨?_, ?_, ?_⟩
  · have hparts : Path.directory path = "v1.2/".toList ∧
        Path.component path = "p".toList ++ '.' :: "ir".toList := by decide +kernel
    have hsplit := Path.splits_self path
    rw [hparts.1, hparts.2] at hsplit
    exact (hlaws path ".ast".toList (by decide +kernel)).splits hsplit (.atDot (by decide +kernel))
  · obtain ⟨reply, after, hcall, hbeside⟩ :=
      (hlawful _ (by simp)).emits hread (.listing rfl hp hb)
    obtain ⟨rfl, hlost⟩ := hbeside.overwritten (by decide +kernel)
    exact ⟨listing, after, hc, hcall, hlost⟩
  · obtain ⟨reply, after, hcall, hbeside⟩ := (hlawful _ (by simp)).emits hread (.outline rfl hp)
    exact ⟨reply, after, hcall, hbeside.kept (by decide +kernel)⟩

end FrameLang
