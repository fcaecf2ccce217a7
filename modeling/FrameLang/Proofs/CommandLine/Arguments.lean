import FrameLang.CommandLine

/-!
# What arguments ask for

The options of a call may stand anywhere behind its first argument, while the mode and the file of a
task are found at fixed places. So an argument can be both: in `emit -ir --check-arity` the last one
is an option and the file as well.

## Main definitions

* `OptionItem`, `Options.Spelled` — how options are written among other arguments.
* `Request.Asked` — which arguments ask for a request.
* `Path.Retyped`, `Request.Wants` — where the output of a request goes.
-/

namespace FrameLang

/-! ## Options -/

/-- A piece of the arguments in which options are looked for. -/
inductive OptionItem where
  | out (path : Text)
  | checkArity
  | other (arg : Text)
deriving DecidableEq, Repr

namespace OptionItem

/-- The arguments that a piece consists of. -/
def spelling : OptionItem → List Text
  | out path => ["--out".toList, path]
  | checkArity => ["--check-arity".toList]
  | other arg => [arg]

/-- No option is taken for something else. -/
def IsProper : OptionItem → Prop
  | other arg => arg ≠ "--out".toList ∧ arg ≠ "--check-arity".toList
  | _ => True

/-- The path that a piece gives for the output. -/
def path? : OptionItem → Option Text
  | out path => some path
  | _ => none

end OptionItem

/-- The options that pieces of the arguments give: arities are checked if one of them says so, and
of several paths for the output the last one counts. -/
def Options.ofItems (items : List OptionItem) : Options where
  checkArity := .checkArity ∈ items
  out := (items.filterMap OptionItem.path?).getLastD []

/-- The arguments are written so that they give the options. -/
def Options.Spelled (args : List Text) (options : Options) : Prop :=
  ∃ items : List OptionItem, (∀ item ∈ items, item.IsProper) ∧
    items.flatMap OptionItem.spelling = args ∧ options = .ofItems items

namespace Options

variable {options result : Options} {args : List Text}

theorem out_ne_checkArity : "--out".toList ≠ "--check-arity".toList := by
  decide +kernel

theorem read_out (path : Text) (rest : List Text) :
    options.read ("--out".toList :: path :: rest) = read { options with out := path } rest := by
  rw [read, if_pos rfl]

theorem read_checkArity (rest : List Text) :
    options.read ("--check-arity".toList :: rest) =
      read { options with checkArity := true } rest := by
  cases rest <;> simp only [read, out_ne_checkArity.symm, if_true, if_false]

theorem read_other {arg : Text} (hout : arg ≠ "--out".toList)
    (harity : arg ≠ "--check-arity".toList) (rest : List Text) :
    options.read (arg :: rest) = options.read rest := by
  cases rest <;> simp only [read, hout, harity, if_false]

/-- Reading on from given options, an option that is found later wins. -/
theorem read_flatMap {items : List OptionItem} (h : ∀ item ∈ items, item.IsProper)
    (options : Options) : options.read (items.flatMap OptionItem.spelling) =
      .ok ⟨options.checkArity || .checkArity ∈ items,
        (items.filterMap OptionItem.path?).getLastD options.out⟩ := by
  induction items generalizing options with
  | nil => simp [read]
  | cons item items ih =>
    obtain ⟨hitem, hitems⟩ := List.forall_mem_cons.1 h
    rw [List.flatMap_cons]
    cases item with
    | out path =>
      have hpath : OptionItem.path? (.out path) = some path := rfl
      rw [OptionItem.spelling, List.cons_append, List.singleton_append, read_out, ih hitems,
        List.filterMap_cons_some hpath, List.getLastD_cons]
      simp
    | checkArity =>
      rw [OptionItem.spelling, List.singleton_append, read_checkArity, ih hitems]
      simp [OptionItem.path?]
    | other arg =>
      rw [OptionItem.spelling, List.singleton_append, read_other hitem.1 hitem.2, ih hitems]
      simp [OptionItem.path?]

/-- Arguments from which options are read fall into pieces. -/
theorem exists_items_of_read (h : options.read args = .ok result) :
    ∃ items : List OptionItem, (∀ item ∈ items, item.IsProper) ∧
      items.flatMap OptionItem.spelling = args := by
  have hcons (item : OptionItem) {rest : List Text} (hitem : item.IsProper)
      (hrest : ∃ items : List OptionItem, (∀ item ∈ items, item.IsProper) ∧
        items.flatMap OptionItem.spelling = rest) :
      ∃ items : List OptionItem, (∀ item ∈ items, item.IsProper) ∧
        items.flatMap OptionItem.spelling = item.spelling ++ rest := by
    obtain ⟨items, hitems, rfl⟩ := hrest
    exact ⟨item :: items, List.forall_mem_cons.2 ⟨hitem, hitems⟩, rfl⟩
  have hnil : ∃ items : List OptionItem, (∀ item ∈ items, item.IsProper) ∧
      items.flatMap OptionItem.spelling = [] := ⟨[], List.forall_mem_nil _, rfl⟩
  -- Each step of the reading takes one piece; the piece of a path is two arguments long.
  fun_induction read options args with
  | case1 => exact hnil
  | case2 => cases h
  | case3 => exact hcons .checkArity trivial hnil
  | case4 _ arg hout harity => exact hcons (.other arg) ⟨hout, harity⟩ hnil
  | case5 _ value rest ih => exact hcons (.out value) trivial (ih h)
  | case6 _ value rest _ ih => exact hcons .checkArity trivial (ih h)
  | case7 _ arg value rest hout harity ih =>
    exact hcons (.other arg) ⟨hout, harity⟩ (ih h)

/-- Options are read exactly from the arguments in which they are written. -/
theorem read_eq_ok_iff : read {} args = .ok result ↔ Spelled args result := by
  constructor
  · intro h
    obtain ⟨items, hitems, rfl⟩ := exists_items_of_read h
    refine ⟨items, hitems, rfl, ?_⟩
    rw [read_flatMap hitems] at h
    simpa [ofItems] using (Except.ok.inj h).symm
  · rintro ⟨items, hitems, rfl, rfl⟩
    rw [read_flatMap hitems]
    simp [ofItems]

/-- An argument that is no option gives none. -/
theorem Spelled.cons {arg : Text} (h : Spelled args options) (hout : arg ≠ "--out".toList)
    (harity : arg ≠ "--check-arity".toList) : Spelled (arg :: args) options := by
  rw [← read_eq_ok_iff, read_other hout harity]
  exact read_eq_ok_iff.2 h

end Options

/-! ## Requests -/

/-- A path that can be given to a task: it is neither empty nor does it look like an option. -/
def Text.IsOperand (path : Text) : Prop :=
  ¬ (path = [] ∨ ['-', '-'] <+: path)

instance : DecidablePred Text.IsOperand := fun path =>
  inferInstanceAs (Decidable (¬ (path = [] ∨ ['-', '-'] <+: path)))

/-- The names of the tasks. -/
def taskNames : List Text := ["emit".toList, "check".toList, "run".toList]

theorem notMem_taskNames {name : Text} : name ∉ taskNames ↔
    name ≠ "emit".toList ∧ name ≠ "check".toList ∧ name ≠ "run".toList := by
  simp only [taskNames, List.mem_cons, List.not_mem_nil, or_false, not_or, ne_eq]

/-- The arguments ask for the request. Every argument behind the first one can be an option, whether
it is something else too or not. -/
inductive Request.Asked : List Text → Request → Prop where
  | emit {mode path : Text} {rest : List Text} {options : Options} :
      options.Spelled (mode :: path :: rest) →
      Asked ("emit".toList :: mode :: path :: rest) ⟨.emit mode, path, options⟩
  | check {path : Text} {rest : List Text} {options : Options} :
      path.IsOperand → options.Spelled (path :: rest) →
      Asked ("check".toList :: path :: rest) ⟨.check, path, options⟩
  | run {path : Text} {rest : List Text} {options : Options} :
      path.IsOperand → options.Spelled (path :: rest) →
      Asked ("run".toList :: path :: rest) ⟨.run, path, options⟩
  | bare {path : Text} {rest : List Text} {options : Options} :
      path.IsOperand → path ∉ taskNames → options.Spelled rest →
      Asked (path :: rest) ⟨.run, path, options⟩

namespace Request

variable {task : Task} {path : Text} {options : Options} {request : Request} {args : List Text}

theorem about_eq_ok_iff : about task path options = .ok request ↔
    path.IsOperand ∧ request = ⟨task, path, options⟩ := by
  unfold about Text.IsOperand
  split
  case isTrue h => simp [h]
  case isFalse h => rw [Except.ok.injEq, eq_comm, and_iff_right h]

/-- The file of a task is the first argument behind its name. -/
theorem exists_cons_of_headD {rest : List Text} (h : (rest.headD []).IsOperand) :
    ∃ path more, rest = path :: more ∧ path.IsOperand := by
  cases rest with
  | nil => exact absurd (.inl rfl) h
  | cons path more => exact ⟨path, more, rfl, h⟩

theorem asked_of_ofArguments (h : ofArguments args = .ok request) : Asked args request := by
  cases args with
  | nil => cases h
  | cons command rest =>
    cases hread : Options.read {} rest with
    | error e => simp [ofArguments, hread, bind, Except.bind] at h
    | ok options =>
      have hspelled := Options.read_eq_ok_iff.1 hread
      simp only [ofArguments, hread, bind, Except.bind] at h
      split at h
      case isTrue hemit =>
        subst hemit
        split at h
        case h_1 mode path more =>
          cases h
          exact .emit hspelled
        case h_2 => cases h
      case isFalse hemit =>
        split at h
        case isTrue hcheck =>
          subst hcheck
          obtain ⟨hpath, rfl⟩ := about_eq_ok_iff.1 h
          obtain ⟨path, more, rfl, hpath⟩ := exists_cons_of_headD hpath
          exact .check hpath hspelled
        case isFalse hcheck =>
          split at h
          case isTrue hrun =>
            subst hrun
            obtain ⟨hpath, rfl⟩ := about_eq_ok_iff.1 h
            obtain ⟨path, more, rfl, hpath⟩ := exists_cons_of_headD hpath
            exact .run hpath hspelled
          case isFalse hrun =>
            obtain ⟨hpath, rfl⟩ := about_eq_ok_iff.1 h
            exact .bare hpath (notMem_taskNames.2 ⟨hemit, hcheck, hrun⟩) hspelled

theorem Asked.ofArguments_eq (h : Asked args request) : ofArguments args = .ok request := by
  have hnames : "check".toList ≠ "emit".toList ∧ "run".toList ≠ "emit".toList ∧
      "run".toList ≠ "check".toList := by decide +kernel
  cases h with
  | emit hspelled =>
    simp only [ofArguments, Options.read_eq_ok_iff.2 hspelled, bind, Except.bind, if_true]
  | check hpath hspelled =>
    simp only [ofArguments, Options.read_eq_ok_iff.2 hspelled, bind, Except.bind, hnames, if_true,
      if_false, List.headD_cons]
    exact about_eq_ok_iff.2 ⟨hpath, rfl⟩
  | run hpath hspelled =>
    simp only [ofArguments, Options.read_eq_ok_iff.2 hspelled, bind, Except.bind, hnames, if_true,
      if_false, List.headD_cons]
    exact about_eq_ok_iff.2 ⟨hpath, rfl⟩
  | bare hpath hname hspelled =>
    simp only [ofArguments, Options.read_eq_ok_iff.2 hspelled, bind, Except.bind,
      notMem_taskNames.1 hname, if_false]
    exact about_eq_ok_iff.2 ⟨hpath, rfl⟩

/-- Arguments are understood exactly if they ask for something. -/
theorem ofArguments_eq_ok_iff : ofArguments args = .ok request ↔ Asked args request :=
  ⟨asked_of_ofArguments, Asked.ofArguments_eq⟩

end Request

/-! ## Extensions -/

namespace Path

/-- Whether a character neither separates components nor starts an extension. -/
def isPlain (c : Char) : Bool :=
  c ≠ '.' && !isSeparator c

/-- The second path is the first one with the extension `ext`: in place of the one that it has,
which begins at the last dot of its last component, or behind it if there is no such dot. -/
inductive Retyped (ext : Text) : Text → Text → Prop where
  | replaced {before old : Text} : (∀ c ∈ old, isPlain c = true) →
      Retyped ext (before ++ '.' :: old) (before ++ ext)
  | added {directory name : Text} : (∀ c ∈ directory.getLast?, isSeparator c = true) →
      (∀ c ∈ name, isPlain c = true) → Retyped ext (directory ++ name) (directory ++ name ++ ext)

variable {path name old ext : Text}

theorem isPlain_iff {c : Char} : isPlain c = true ↔ c ≠ '.' ∧ isSeparator c = false := by
  simp [isPlain]

theorem directory_append_component (path : Text) : directory path ++ component path = path := by
  rw [directory, component, ← List.reverse_append, List.takeWhile_append_dropWhile,
    List.reverse_reverse]

theorem isSeparator_of_mem_component {c : Char} (h : c ∈ component path) :
    isSeparator c = false := by
  have hall := List.all_eq_true.1 (List.all_takeWhile (p := fun c => !isSeparator c)) c
    (List.mem_reverse.1 h)
  simpa using hall

theorem isSeparator_getLast?_directory (path : Text) :
    ∀ c ∈ (directory path).getLast?, isSeparator c = true := by
  intro c hc
  rw [directory, List.getLast?_reverse] at hc
  have hhead := List.head?_dropWhile_not (fun c => !isSeparator c) path.reverse
  rw [Option.mem_def.1 hc] at hhead
  simpa using hhead

theorem directory_append (h : ∀ c ∈ name, isSeparator c = false) (path : Text) :
    directory (path ++ name) = directory path := by
  have hname : ∀ c ∈ name.reverse, (!isSeparator c) = true := by simpa using h
  rw [directory, List.reverse_append, List.dropWhile_append_of_pos hname, directory]

theorem component_append (h : ∀ c ∈ name, isSeparator c = false) (path : Text) :
    component (path ++ name) = component path ++ name := by
  have hname : ∀ c ∈ name.reverse, (!isSeparator c) = true := by simpa using h
  rw [component, List.reverse_append, List.takeWhile_append_of_pos hname, component,
    List.reverse_append, List.reverse_reverse]

/-- Behind its last separator nothing belongs to the directory of a path. -/
theorem directory_eq_self (h : ∀ c ∈ path.getLast?, isSeparator c = true) :
    directory path = path := by
  have hdrop : path.reverse.dropWhile (fun c => !isSeparator c) = path.reverse := by
    cases hpath : path.reverse with
    | nil => rfl
    | cons c rest =>
      have hlast : path.getLast? = some c := by rw [← List.head?_reverse, hpath, List.head?_cons]
      rw [List.dropWhile_cons_of_neg (by simp [h c hlast])]
  rw [directory, hdrop, List.reverse_reverse]

theorem stem_append (h : '.' ∉ old) (name : Text) : stem (name ++ '.' :: old) = name := by
  have hold : ∀ c ∈ old.reverse, decide (c ≠ '.') = true := by
    intro c hc
    exact decide_eq_true fun hdot => h (List.mem_reverse.1 (hdot ▸ hc))
  have hdot : (decide ('.' ≠ '.')) = false := rfl
  simp only [stem, List.reverse_append, List.reverse_cons, List.append_assoc, List.singleton_append,
    List.dropWhile_append_of_pos hold, List.dropWhile_cons, hdot, Bool.false_eq_true, if_false,
    List.reverse_reverse]

theorem stem_of_notMem (h : '.' ∉ name) : stem name = name := by
  have hall : ∀ c ∈ name.reverse, decide (c ≠ '.') = true := by
    intro c hc
    exact decide_eq_true fun hdot => h (List.mem_reverse.1 (hdot ▸ hc))
  have hname : (name.reverse ++ []).dropWhile (· ≠ '.') = [] := List.dropWhile_append_of_pos hall
  rw [List.append_nil] at hname
  simp only [stem, hname]

/-- A path that replaces the extension or gains one is the path with the other extension. -/
theorem Retyped.withExtension_eq {target : Text} (h : Retyped ext path target) :
    withExtension path ext = target := by
  cases h with
  | @replaced before old hold =>
    have hsep : ∀ c ∈ '.' :: old, isSeparator c = false :=
      List.forall_mem_cons.2 ⟨by decide, fun c hc => (isPlain_iff.1 (hold c hc)).2⟩
    have hdot : '.' ∉ old := fun hc => (isPlain_iff.1 (hold _ hc)).1 rfl
    rw [withExtension, directory_append hsep, component_append hsep, stem_append hdot,
      directory_append_component]
  | @added directory name hdirectory hname =>
    have hsep : ∀ c ∈ name, isSeparator c = false := fun c hc => (isPlain_iff.1 (hname c hc)).2
    have hdot : '.' ∉ name := fun hc => (isPlain_iff.1 (hname _ hc)).1 rfl
    have hself := directory_append_component directory
    rw [directory_eq_self hdirectory, List.append_right_eq_self] at hself
    rw [withExtension, directory_append hsep, component_append hsep, hself, List.nil_append,
      stem_of_notMem hdot, directory_eq_self hdirectory]

/-- The path with the other extension replaces the extension if the last component has one, and
gains one otherwise. -/
theorem retyped_withExtension (path ext : Text) : Retyped ext path (withExtension path ext) := by
  have hsep : ∀ c ∈ component path, isSeparator c = false :=
    fun c => isSeparator_of_mem_component
  have hpath := directory_append_component path
  by_cases hdot : '.' ∈ component path
  · obtain ⟨old, name, hname, hold⟩ := List.eq_append_cons_of_mem (List.mem_reverse.2 hdot)
    have hcomponent : component path = name.reverse ++ '.' :: old.reverse := by
      rw [← List.reverse_reverse (component path), hname]
      simp
    have hold : '.' ∉ old.reverse := mt List.mem_reverse.1 hold
    have hplain : ∀ c ∈ old.reverse, isPlain c = true := by
      intro c hc
      refine isPlain_iff.2 ⟨fun h => hold (h ▸ hc), hsep c ?_⟩
      rw [hcomponent]
      exact List.mem_append_right _ (List.mem_cons_of_mem _ hc)
    have heq : withExtension path ext = directory path ++ name.reverse ++ ext := by
      rw [withExtension, hcomponent, stem_append hold]
    have h : Retyped ext (directory path ++ name.reverse ++ '.' :: old.reverse)
      (directory path ++ name.reverse ++ ext) := .replaced hplain
    rwa [← heq, List.append_assoc, ← hcomponent, hpath] at h
  · have hplain : ∀ c ∈ component path, isPlain c = true := fun c hc =>
      isPlain_iff.2 ⟨fun h => hdot (h ▸ hc), hsep c hc⟩
    have heq : withExtension path ext = path ++ ext := by
      rw [withExtension, stem_of_notMem hdot, hpath]
    have h : Retyped ext (directory path ++ component path)
      (directory path ++ component path ++ ext) :=
      .added (isSeparator_getLast?_directory path) hplain
    rwa [hpath, ← heq] at h

/-- Replacing the extension does what it says. -/
theorem retyped_iff {target : Text} :
    Retyped ext path target ↔ withExtension path ext = target :=
  ⟨Retyped.withExtension_eq, fun h => h ▸ retyped_withExtension path ext⟩

end Path

end FrameLang
