import FrameLang.CommandLine.Disk

/-!
# What a write changes

Writing a file changes the contents of one place and nothing else. In particular it makes no
directories, because the file is put into a directory that is there, so every path still leads where
it led before.

## Main definitions

* `Disk.WroteTo` — one disk is the other with new contents in one file.
-/

namespace FrameLang

namespace Disk

variable {disk : Disk} {base place q : Place} {names : List Text} {path contents : Text}

/-! ## Replacing contents -/

theorem lookup_replace (place other : Place) (contents : Text) (files : List (Place × Text)) :
    (replace place contents files).lookup other =
      if other = place then some contents else files.lookup other := by
  have hcons (p : Place) (t : Text) (files : List (Place × Text)) :
      ((p, t) :: files).lookup other = if other = p then some t else files.lookup other := by
    by_cases h : other = p
    · simp [h]
    · simp [List.lookup_cons, h, beq_false_of_ne h]
  induction files with
  | nil => rw [replace, hcons]
  | cons file rest ih =>
    obtain ⟨p, old⟩ := file
    by_cases hp : p = place
    · by_cases ho : other = place <;> simp [replace, hcons, hp, ho]
    · by_cases ho : other = p
      · simp [replace, hp, ho]
      · simp [replace, hcons, hp, ho, ih]

theorem any_replace (test : Place → Bool) (place : Place) (contents : Text)
    (files : List (Place × Text)) :
    (replace place contents files).any (fun file => test file.1) =
      (test place || files.any fun file => test file.1) := by
  induction files with
  | nil => simp [replace]
  | cons file rest ih =>
    obtain ⟨p, old⟩ := file
    by_cases hp : p = place
    · simp [replace, hp]
    · simp [replace, hp, ih, Bool.or_left_comm]

/-! ## Directories -/

theorem isDirectory_iff : disk.isDirectory place = true ↔
    (∀ name ∈ place, name = upward) ∨ ∃ file ∈ disk.files, place <+: file.1 ∧ place ≠ file.1 := by
  simp [isDirectory]

/-- What leads to a directory is one. -/
theorem isDirectory_above (h : disk.isDirectory place = true) (hq : q <+: place) :
    disk.isDirectory q = true := by
  rw [isDirectory_iff] at h ⊢
  rcases h with h | ⟨file, hfile, hplace, hne⟩
  · exact .inl fun name hname => h name (hq.subset hname)
  · refine .inr ⟨file, hfile, hq.trans hplace, ?_⟩
    rintro rfl
    exact hne (hplace.eq_of_length_le hq.length_le)

theorem isDirectory_nil : disk.isDirectory [] = true :=
  isDirectory_iff.2 (.inl nofun)

theorem isDirectory_parent (h : disk.isDirectory place = true) :
    disk.isDirectory (parent place) = true := by
  unfold parent
  split
  case isTrue hall =>
    refine isDirectory_iff.2 (.inl fun name hname => ?_)
    rcases List.mem_append.1 hname with hname | hname
    · simpa using List.all_eq_true.1 hall name hname
    · exact List.mem_singleton.1 hname
  case isFalse => exact isDirectory_above h (List.dropLast_prefix place)

/-- A walk ends at a file in a directory. -/
theorem exists_directory_of_walk (hbase : disk.isDirectory base = true)
    (h : disk.walk base names = some place) :
    ∃ directory name, disk.isDirectory directory = true ∧ directory ++ [name] = place := by
  fun_induction walk disk base names with
  | case1 | case2 | case4 | case8 => cases h
  | case3 base name => exact ⟨base, name, hbase, Option.some.inj h⟩
  | case5 base name names _ _ ih => exact ih hbase h
  | case6 base names _ _ ih => exact ih (isDirectory_parent hbase) h
  | case7 base name names _ _ _ hname ih => exact ih hname h

/-- New contents of a file in a directory make no directories. -/
theorem isDirectory_replace {directory : Place} (h : disk.isDirectory directory = true)
    (name contents : Text) (q : Place) :
    (Disk.mk (replace (directory ++ [name]) contents disk.files)).isDirectory q =
      disk.isDirectory q := by
  have hany := any_replace (fun p => q.isPrefixOf p && decide (q ≠ p)) (directory ++ [name])
    contents disk.files
  unfold isDirectory
  rw [hany]
  cases hnew : (q.isPrefixOf (directory ++ [name]) && decide (q ≠ directory ++ [name])) with
  | false => rw [Bool.false_or]
  | true =>
    simp only [Bool.and_eq_true, List.isPrefixOf_iff_prefix, decide_eq_true_eq] at hnew
    -- What leads to the new file leads to its directory, and was one before.
    have hq : q <+: directory := (List.prefix_concat_iff.1 hnew.1).resolve_left hnew.2
    rw [Bool.true_or, Bool.or_true]
    exact (isDirectory_above h hq).symm

theorem walk_congr {other : Disk} (h : ∀ q, other.isDirectory q = disk.isDirectory q)
    (base : Place) (names : List Text) : other.walk base names = disk.walk base names := by
  fun_induction walk disk base names <;> simp_all [walk]

/-! ## Writing -/

/-- The disk `after` is the disk `before` with new contents in the file that the path names. -/
structure WroteTo (before after : Disk) (path contents : Text) : Prop where
  /-- The file has the contents, and every other place is as it was. -/
  file : ∃ place, before.place? path = some place ∧
    ∀ other, after.file? other = if other = place then some contents else before.file? other
  /-- The directories are the same. -/
  directories (q : Place) : after.isDirectory q = before.isDirectory q
  /-- Paths lead where they led. -/
  paths (other : Text) : after.place? other = before.place? other

/-- A write that succeeds changes the contents of the file that the path names. -/
theorem write_eq_some {after : Disk} (h : disk.write path contents = some after) :
    disk.WroteTo after path contents := by
  obtain ⟨place, hplace, rfl⟩ := Option.map_eq_some_iff.1 h
  have hwalk : disk.walk [] (splitSlashes path) = some place := by
    unfold place? at hplace
    split at hplace
    · exact hplace
    · cases hplace
  obtain ⟨directory, name, hdirectory, rfl⟩ := exists_directory_of_walk isDirectory_nil hwalk
  have hsame := isDirectory_replace hdirectory name contents
  exact
    { file := ⟨_, hplace, fun other => lookup_replace _ other contents disk.files⟩
      directories := hsame
      paths := fun other => by simp only [place?, walk_congr hsame] }

/-- A write succeeds exactly if there can be a file at the path. -/
theorem exists_write_iff : (∃ after, disk.write path contents = some after) ↔
    ∃ place, disk.place? path = some place := by
  simp only [← Option.isSome_iff_exists, write, Option.isSome_map]

namespace WroteTo

variable {before after : Disk}

/-- The file that was written is read back. -/
theorem read_self (h : before.WroteTo after path contents) : after.read path = some contents := by
  obtain ⟨place, hplace, hfile⟩ := h.file
  rw [read, h.paths, hplace, Option.bind_some, hfile, if_pos rfl]

/-- Every other file is read as before. -/
theorem read_other (h : before.WroteTo after path contents) {other : Text}
    (hne : before.place? other ≠ before.place? path) : after.read other = before.read other := by
  obtain ⟨place, hplace, hfile⟩ := h.file
  rw [read, read, h.paths]
  cases ho : before.place? other with
  | none => rfl
  | some q =>
    have hq : q ≠ place := by
      rintro rfl
      exact hne (ho.trans hplace.symm)
    rw [Option.bind_some, Option.bind_some, hfile, if_neg hq]

end WroteTo

end Disk

end FrameLang
