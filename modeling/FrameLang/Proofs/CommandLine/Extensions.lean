import FrameLang.Proofs.CommandLine.Arguments

/-!
# Paths with another extension

The extension of a path begins at its last dot, unless a separator stands behind that dot: then the
dot is one of a directory, and the name behind the last separator has no extension. So replacing the
extension never touches what stands up to the last separator.

## Main definitions

* `Path.IsExtension` — a dot with plain characters behind it.
* `Path.Splits`, `Path.Cuts` — the parts of a path, and what is kept of a name.
* `Path.replaceFound` — the new path, as searches for the dot and the separator give it.
* `Path.ExtensionLaws` — what replacing the extension of a path promises.
-/

namespace FrameLang

namespace Path

variable {path above name kept ext : Text}

/-! ## Parts of a path -/

/-- A text that can be an extension: a dot, and behind it neither dots nor separators. -/
def IsExtension (ext : Text) : Prop :=
  ext.head? = some '.' ∧ ext.tail.all isPlain = true

instance : DecidablePred IsExtension := fun ext =>
  inferInstanceAs (Decidable (ext.head? = some '.' ∧ ext.tail.all isPlain = true))

/-- The path consists of what stands up to its last separator, which is nothing if it has none, and
of the name behind that. -/
structure Splits (path above name : Text) : Prop where
  append_eq : above ++ name = path
  isSeparator_last : ∀ c ∈ above.getLast?, isSeparator c = true
  not_isSeparator : ∀ c ∈ name, isSeparator c = false

/-- What is kept of a name: all that stands in front of its last dot, or the whole name if it has no
dot. -/
inductive Cuts : Text → Text → Prop where
  | atDot {kept old : Text} : '.' ∉ old → Cuts (kept ++ '.' :: old) kept
  | whole {name : Text} : '.' ∉ name → Cuts name name

theorem IsExtension.exists_cons (h : IsExtension ext) :
    ∃ letters, ext = '.' :: letters ∧ ∀ c ∈ letters, isPlain c = true := by
  obtain ⟨hdot, hletters⟩ := h
  obtain ⟨letters, rfl⟩ := List.head?_eq_some_iff.1 hdot
  exact ⟨letters, rfl, List.all_eq_true.1 hletters⟩

theorem IsExtension.not_isSeparator (h : IsExtension ext) : ∀ c ∈ ext, isSeparator c = false := by
  obtain ⟨letters, rfl, hletters⟩ := h.exists_cons
  exact List.forall_mem_cons.2 ⟨by decide, fun c hc => (isPlain_iff.1 (hletters c hc)).2⟩

/-- A path falls into its directory and its last component. -/
theorem splits_self (path : Text) : Splits path (directory path) (component path) where
  append_eq := directory_append_component path
  isSeparator_last := isSeparator_getLast?_directory path
  not_isSeparator _ := isSeparator_of_mem_component

theorem Splits.directory_eq (h : Splits path above name) : directory path = above := by
  rw [← h.append_eq, directory_append h.not_isSeparator, directory_eq_self h.isSeparator_last]

theorem Splits.component_eq (h : Splits path above name) : component path = name := by
  have hpath := directory_append_component path
  rw [h.directory_eq, ← h.append_eq] at hpath
  rw [← h.append_eq]
  exact List.append_cancel_left hpath

theorem Cuts.stem_eq (h : Cuts name kept) : stem name = kept := by
  cases h with
  | atDot hold => exact stem_append hold _
  | whole hname => exact stem_of_notMem hname

/-- Something can be kept of every name. -/
theorem exists_cuts (name : Text) : ∃ kept, Cuts name kept := by
  by_cases hdot : '.' ∈ name
  · -- The first dot from behind is the last one.
    obtain ⟨old, kept, hname, hold⟩ := List.eq_append_cons_of_mem (List.mem_reverse.2 hdot)
    have heq : name = kept.reverse ++ '.' :: old.reverse := by
      rw [← List.reverse_reverse name, hname]
      simp
    exact ⟨kept.reverse, heq ▸ .atDot (mt List.mem_reverse.1 hold)⟩
  · exact ⟨name, .whole hdot⟩

theorem exists_parts (path : Text) :
    ∃ above name kept, Splits path above name ∧ Cuts name kept := by
  obtain ⟨kept, hcut⟩ := exists_cuts (component path)
  exact ⟨_, _, kept, splits_self path, hcut⟩

theorem Cuts.kept_subset (h : Cuts name kept) : kept ⊆ name := by
  cases h with
  | atDot => exact List.subset_append_left _ _
  | whole => exact List.Subset.refl _

/-! ## Replacing the extension -/

theorem withExtension_eq (h : Splits path above name) (hcut : Cuts name kept) (ext : Text) :
    withExtension path ext = above ++ (kept ++ ext) := by
  rw [withExtension, h.directory_eq, h.component_eq, hcut.stem_eq, List.append_assoc]

/-- The new path has the parts of the old one, but for the end of its name. -/
theorem splits_withExtension (hext : IsExtension ext) (h : Splits path above name)
    (hcut : Cuts name kept) : Splits (withExtension path ext) above (kept ++ ext) where
  append_eq := (withExtension_eq h hcut ext).symm
  isSeparator_last := h.isSeparator_last
  not_isSeparator c hc := by
    rcases List.mem_append.1 hc with hc | hc
    · exact h.not_isSeparator c (hcut.kept_subset hc)
    · exact hext.not_isSeparator c hc

theorem suffix_withExtension (path ext : Text) : ext <:+ withExtension path ext :=
  List.suffix_append _ _

/-- A path that ends in the extension has it already. -/
theorem withExtension_of_suffix (hext : IsExtension ext) (h : ext <:+ path) :
    withExtension path ext = path := by
  obtain ⟨before, rfl⟩ := h
  obtain ⟨letters, rfl, hletters⟩ := hext.exists_cons
  exact retyped_iff.1 (.replaced hletters)

theorem withExtension_eq_self_iff (hext : IsExtension ext) :
    withExtension path ext = path ↔ ext <:+ path := by
  constructor
  · intro h
    exact h ▸ suffix_withExtension path ext
  · exact withExtension_of_suffix hext

/-! ## Searching -/

/-- The last index of a text at which there is a character of the kind. -/
def lastIndex? (test : Char → Bool) : Text → Option Nat
  | [] => none
  | c :: rest => ((lastIndex? test rest).map (· + 1)).or (if test c then some 0 else none)

section Search

variable {test : Char → Bool}

theorem lastIndex?_eq_none {t : Text} (h : ∀ c ∈ t, test c = false) : lastIndex? test t = none := by
  induction t with
  | nil => rfl
  | cons c rest ih =>
    obtain ⟨hc, hrest⟩ := List.forall_mem_cons.1 h
    simp [lastIndex?, ih hrest, hc]

/-- What has no character of the kind does not count at the end of a text. -/
theorem lastIndex?_append {rest : Text} (h : ∀ c ∈ rest, test c = false) (t : Text) :
    lastIndex? test (t ++ rest) = lastIndex? test t := by
  induction t with
  | nil => exact lastIndex?_eq_none h
  | cons c t ih => rw [List.cons_append, lastIndex?, ih, lastIndex?]

theorem lastIndex?_append_cons {c : Char} {rest : Text} (hc : test c = true)
    (hrest : ∀ c ∈ rest, test c = false) (t : Text) :
    lastIndex? test (t ++ c :: rest) = some t.length := by
  induction t with
  | nil => simp [lastIndex?, lastIndex?_eq_none hrest, hc]
  | cons c t ih => simp [lastIndex?, ih]

theorem lt_of_mem_lastIndex? {t : Text} {i : Nat} (h : i ∈ lastIndex? test t) : i < t.length := by
  induction t generalizing i with
  | nil => cases h
  | cons c rest ih =>
    rw [lastIndex?, Option.mem_def] at h
    cases hrest : lastIndex? test rest with
    | none =>
      simp only [hrest, Option.map_none, Option.none_or] at h
      split at h
      · cases h
        exact Nat.succ_pos _
      · cases h
    | some j =>
      simp only [hrest, Option.map_some, Option.some_or] at h
      cases h
      exact Nat.succ_lt_succ (ih hrest)

theorem not_dot_of_notMem {t : Text} (h : '.' ∉ t) : ∀ c ∈ t, decide (c = '.') = false :=
  fun _ hc => decide_eq_false fun heq => h (heq ▸ hc)

/-- Behind a dot in a directory stands the separator at its end. -/
theorem exists_slash_behind {dot : Nat} (hlast : ∀ c ∈ above.getLast?, isSeparator c = true)
    (hdot : dot ∈ lastIndex? (· = '.') above) :
    ∃ slash ∈ lastIndex? isSeparator above, dot < slash := by
  cases habove : above.getLast? with
  | none =>
    rw [List.getLast?_eq_none_iff.1 habove] at hdot
    cases hdot
  | some c =>
    obtain ⟨start, rfl⟩ := List.getLast?_eq_some_iff.1 habove
    have hc := hlast c habove
    have hne : decide (c = '.') = false := by
      refine decide_eq_false ?_
      rintro rfl
      cases hc
    rw [lastIndex?_append (List.forall_mem_singleton.2 hne)] at hdot
    exact ⟨start.length, lastIndex?_append_cons hc (List.forall_mem_nil _) start,
      lt_of_mem_lastIndex? hdot⟩

end Search

/-- The path with its extension replaced where two searches through the whole path find it, one for
the last dot and one for the last separator. -/
def replaceFound (path ext : Text) : Text :=
  match lastIndex? (· = '.') path with
  | none => path ++ ext
  | some dot =>
    if ∃ slash ∈ lastIndex? isSeparator path, dot < slash then path ++ ext
    else path.take dot ++ ext

theorem withExtension_eq_replaceFound (path ext : Text) :
    withExtension path ext = replaceFound path ext := by
  obtain ⟨above, name, kept, hsplit, hcut⟩ := exists_parts path
  rw [withExtension_eq hsplit hcut, replaceFound]
  obtain ⟨rfl, hlast, hname⟩ := hsplit
  cases hcut with
  | @atDot _ old hold =>
    have hdot : lastIndex? (· = '.') (above ++ kept ++ '.' :: old) = some (above ++ kept).length :=
      lastIndex?_append_cons rfl (not_dot_of_notMem hold) _
    rw [List.append_assoc] at hdot
    -- Behind the last dot there is no separator.
    have hslash : ¬ ∃ slash ∈ lastIndex? isSeparator (above ++ (kept ++ '.' :: old)),
        (above ++ kept).length < slash := by
      rw [lastIndex?_append hname]
      rintro ⟨slash, hslash, hlt⟩
      have hbound := lt_of_mem_lastIndex? hslash
      rw [List.length_append] at hlt
      omega
    simp only [hdot, hslash, if_false]
    rw [← List.append_assoc above kept ('.' :: old), List.take_left, List.append_assoc]
  | whole hnone =>
    rw [lastIndex?_append (not_dot_of_notMem hnone), lastIndex?_append hname, List.append_assoc]
    cases hdot : lastIndex? (· = '.') above with
    | none => rfl
    | some dot => simp only [exists_slash_behind hlast hdot, if_true]

/-! ## The laws -/

/-- What replacing the extension of a path promises. -/
structure ExtensionLaws (path ext : Text) : Prop where
  /-- The path has parts. -/
  parts : ∃ above name kept, Splits path above name ∧ Cuts name kept
  /-- The new path has what stands up to the last separator, and what is kept of the name. -/
  splits {above name kept : Text} (h : Splits path above name) (hcut : Cuts name kept) :
    Splits (withExtension path ext) above (kept ++ ext)
  /-- It is what two searches through the whole path give. -/
  eq_replaceFound : withExtension path ext = replaceFound path ext
  /-- To replace the extension again changes nothing. -/
  again : withExtension (withExtension path ext) ext = withExtension path ext
  /-- The path is the new one exactly if it ends in the extension. -/
  eq_self_iff : withExtension path ext = path ↔ ext <:+ path

/-- The laws hold of every path and every extension. -/
theorem extensionLaws (hext : IsExtension ext) (path : Text) : ExtensionLaws path ext where
  parts := exists_parts path
  splits := splits_withExtension hext
  eq_replaceFound := withExtension_eq_replaceFound path ext
  again := withExtension_of_suffix hext (suffix_withExtension path ext)
  eq_self_iff := withExtension_eq_self_iff hext

end Path

end FrameLang
