import FrameLang.Program.Outline
import FrameLang.Proofs.Listing.Legibility

/-!
# Headings of outlines

What an outline shows for a node is a word for the kind of the node and, for some kinds, a name, a
number, an operator or a list of parameters behind it. If all names are identifiers, this can be
read back: the first word tells the kind, and the rest of the line tells everything else.

## Main definitions

* `Heading`, `HeadingKind` — what is shown for a node, and of which kind it is.
* `Heading.IsLegible` — headings whose names are identifiers.
-/

namespace FrameLang

/-- The kinds of nodes in an outline. -/
inductive HeadingKind where
  | program
  | function
  | int
  | str
  | bool
  | name
  | assign
  | binary
  | call
  | branch
  | thenBlock
  | elseBlock
  | loop
  | brk
deriving DecidableEq

/-- The word that a heading starts with. -/
def HeadingKind.word : HeadingKind → Text
  | program => "Program".toList
  | function => "FnDef".toList
  | int => "Int".toList
  | str => "Str".toList
  | bool => "Boolean".toList
  | name => "Name".toList
  | assign => "Assignment".toList
  | binary => "BinOp".toList
  | call => "FnCall".toList
  | branch => "If".toList
  | thenBlock => "Then".toList
  | elseBlock => "Else".toList
  | loop => "Loop".toList
  | brk => "Break".toList

/-- What is shown for a node of an outline. -/
inductive Heading where
  | program
  | function (f : Text) (params : List Text)
  | int (value : Int32)
  | str (contents : Text)
  | bool (value : Bool)
  | name (x : Text)
  | assign (target : Text)
  | binary (op : Operator)
  | call (callee : Text)
  | branch
  | thenBlock
  | elseBlock
  | loop
  | brk

namespace Heading

/-- The kind of node that a heading is shown for. -/
def kind : Heading → HeadingKind
  | program => .program
  | function .. => .function
  | int _ => .int
  | str _ => .str
  | bool _ => .bool
  | name _ => .name
  | assign _ => .assign
  | binary _ => .binary
  | call _ => .call
  | branch => .branch
  | thenBlock => .thenBlock
  | elseBlock => .elseBlock
  | loop => .loop
  | brk => .brk

/-- What is shown behind the first word, with the space in front of it. -/
def details : Heading → Text
  | function f params => ' ' :: f ++ '(' :: List.intercalate [',', ' '] params ++ [')']
  | int value => ' ' :: Text.ofInt value.toInt
  | str contents => ' ' :: '"' :: contents ++ ['"']
  | bool value => ' ' :: if value then "true".toList else "false".toList
  | name x => ' ' :: x
  | assign target => ' ' :: target
  | binary op => ' ' :: op.symbol
  | call callee => ' ' :: callee
  | _ => []

/-- How a heading is written. -/
def text (h : Heading) : Text :=
  h.kind.word ++ h.details

/-- A heading whose names are identifiers. The contents of a string literal may be anything, so its
heading does not count. -/
def IsLegible : Heading → Prop
  | function f params => isName f = true ∧ ∀ x ∈ params, isName x = true
  | name x | assign x | call x => isName x = true
  | str _ => False
  | _ => True

end Heading

/-! ## Names -/

section Names

variable {x : Text} {xs ys : List Text}

theorem isNamePart_of_isName (h : isName x = true) : ∀ c ∈ x, isNamePart c = true := by
  cases x with
  | nil => cases h
  | cons c rest =>
    simp only [isName, Bool.and_eq_true, List.all_eq_true] at h
    refine List.forall_mem_cons.2 ⟨?_, h.1.2⟩
    rw [isNamePart_eq, h.1.1, Bool.true_or]

theorem notMem_of_isName (h : isName x = true) {c : Char} (hc : isNamePart c = false) : c ∉ x :=
  fun hmem => absurd (isNamePart_of_isName h c hmem) (by simp [hc])

/-- What is in texts that are set apart comes from the texts or from what stands between them. -/
theorem mem_intercalate {c : Char} {sep : Text} (h : c ∈ sep.intercalate xs) :
    c ∈ sep ∨ ∃ x ∈ xs, c ∈ x := by
  induction xs with
  | nil => cases h
  | cons x rest ih =>
    cases rest with
    | nil => exact .inr ⟨x, List.mem_cons_self, by simpa using h⟩
    | cons y rest =>
      simp only [List.intercalate_cons_cons, List.mem_append] at h
      rcases h with (hx | hsep) | hrest
      · exact .inr ⟨x, List.mem_cons_self, hx⟩
      · exact .inl hsep
      · rcases ih hrest with hsep | ⟨z, hz, hc⟩
        · exact .inl hsep
        · exact .inr ⟨z, List.mem_cons_of_mem _ hz, hc⟩

/-- Without its spaces, a list of parameters has a comma between each two names. -/
theorem filter_params (h : ∀ x ∈ xs, isName x = true) :
    (List.intercalate [',', ' '] xs).filter (· ≠ ' ') = [','].intercalate xs := by
  induction xs with
  | nil => rfl
  | cons x rest ih =>
    obtain ⟨hx, hrest⟩ := List.forall_mem_cons.1 h
    have hname : x.filter (· ≠ ' ') = x := by
      rw [List.filter_eq_self]
      exact fun c hc => decide_eq_true fun hspace =>
        notMem_of_isName hx (by decide) (hspace ▸ hc)
    cases rest with
    | nil => simpa using hname
    | cons y rest =>
      rw [List.intercalate_cons_cons, List.intercalate_cons_cons, List.filter_append,
        List.filter_append, hname, ih hrest]
      rfl

/-- A list of parameters can be read back. -/
theorem params_injective (hx : ∀ x ∈ xs, isName x = true) (hy : ∀ y ∈ ys, isName y = true)
    (h : List.intercalate [',', ' '] xs = List.intercalate [',', ' '] ys) : xs = ys := by
  have hcommas : [','].intercalate xs = [','].intercalate ys := by
    rw [← filter_params hx, ← filter_params hy, h]
  have hsplit {zs : List Text} (hz : ∀ z ∈ zs, isName z = true) (hne : zs ≠ []) :
      ([','].intercalate zs).splitOn ',' = zs :=
    List.splitOn_intercalate ',' (fun z hmem => notMem_of_isName (hz z hmem) (by decide)) hne
  have hnil {zs : List Text} (hz : ∀ z ∈ zs, isName z = true)
      (hempty : [','].intercalate zs = []) : zs = [] := by
    by_cases hne : zs = []
    · exact hne
    · have hone := hsplit hz hne
      rw [hempty] at hone
      rw [← hone] at hz
      exact absurd (hz [] (by simp)) (by decide)
  by_cases hxs : xs = []
  · rw [hxs, hnil hy (by rw [← hcommas, hxs]; rfl)]
  · have hys : ys ≠ [] := fun hys => hxs (hnil hx (by rw [hcommas, hys]; rfl))
    rw [← hsplit hx hxs, ← hsplit hy hys, hcommas]

end Names

/-! ## Reading headings back -/

namespace Heading

variable {i j : Heading}

theorem word_injective : Function.Injective HeadingKind.word := by
  let kinds : List HeadingKind := [.program, .function, .int, .str, .bool, .name, .assign, .binary,
    .call, .branch, .thenBlock, .elseBlock, .loop, .brk]
  have hmem (kind : HeadingKind) : kind ∈ kinds := by
    cases kind <;> decide
  have hinj : ∀ a ∈ kinds, ∀ b ∈ kinds, a.word = b.word → a = b := by
    decide +kernel
  exact fun a b => hinj a (hmem a) b (hmem b)

theorem symbol_injective : Function.Injective Operator.symbol := by
  intro a b
  cases a <;> cases b <;> decide

theorem solid_word (kind : HeadingKind) : kind.word ≠ [] ∧ kind.word.Solid := by
  cases kind <;> decide +kernel

/-- Behind the first word there is nothing or a space. -/
theorem head?_details (h : Heading) : ∀ c ∈ h.details.head?, c = ' ' := by
  intro c hc
  cases h <;> cases hc <;> rfl

/-- The first word and what stands behind it are told apart by the first space. -/
theorem word_and_details (h : i.text = j.text) : i.kind = j.kind ∧ i.details = j.details := by
  have hsplit (k : Heading) : k.text.takeWhile (· ≠ ' ') = k.kind.word ∧
      k.text.dropWhile (· ≠ ' ') = k.details :=
    takeWhile_run
      (fun c hc => decide_eq_true fun h => (solid_word k.kind).2.space_notMem (h ▸ hc))
      (fun c hc => by simp [k.head?_details c hc])
  refine ⟨word_injective ?_, ?_⟩
  · rw [← (hsplit i).1, ← (hsplit j).1, h]
  · rw [← (hsplit i).2, ← (hsplit j).2, h]

theorem eq_of_details (hi : i.IsLegible) (hj : j.IsLegible) (hkind : i.kind = j.kind)
    (h : i.details = j.details) : i = j := by
  cases i with
  | str => cases hi
  | function f xs =>
    cases j with
    | function g ys =>
      obtain ⟨⟨hf, hxs⟩, ⟨hg, hys⟩⟩ := And.intro hi hj
      simp only [details, List.cons_append, List.append_assoc, List.cons.injEq, true_and] at h
      have hsplit {z rest : Text} (hz : isName z = true) :
          (z ++ '(' :: rest).takeWhile isNamePart = z ∧
            (z ++ '(' :: rest).dropWhile isNamePart = '(' :: rest :=
        takeWhile_run (isNamePart_of_isName hz) (by simp; decide)
      have hname : f = g := by rw [← (hsplit hf).1, h, (hsplit hg).1]
      have hparams := (hsplit hf).2.symm.trans (h ▸ (hsplit hg).2)
      have hparams := List.append_cancel_right (List.cons.inj hparams).2
      rw [hname, params_injective hxs hys hparams]
    | _ => cases hkind
  | int m =>
    cases j with
    | int n => rw [Int32.toInt_inj.1 (Text.ofInt_injective (List.cons.inj h).2)]
    | _ => cases hkind
  | bool a =>
    cases j with
    | bool b =>
      have htext := (List.cons.inj h).2
      cases a <;> cases b <;> simp at htext ⊢
    | _ => cases hkind
  | binary op =>
    cases j with
    | binary op' => rw [symbol_injective (List.cons.inj h).2]
    | _ => cases hkind
  | name x | assign x | call x =>
    cases j <;> cases hkind
    rw [(List.cons.inj h).2]
  | program | branch | thenBlock | elseBlock | loop | brk =>
    cases j <;> cases hkind
    rfl

/-- A legible heading is known by its text. -/
theorem eq_of_text (hi : i.IsLegible) (hj : j.IsLegible) (h : i.text = j.text) : i = j :=
  have hparts := word_and_details h
  eq_of_details hi hj hparts.1 hparts.2

/-- Headings are not indented. -/
theorem head?_text (h : Heading) : ∀ c ∈ h.text.head?, c ≠ ' ' := by
  obtain ⟨hne, hsolid⟩ := solid_word h.kind
  obtain ⟨d, rest, hword⟩ := List.exists_cons_of_ne_nil hne
  rw [hword] at hsolid
  intro c hc
  rw [text, hword] at hc
  cases hc
  rintro rfl
  exact hsolid.space_notMem List.mem_cons_self

/-- A legible heading is shown on one line. -/
theorem IsLegible.newline_notMem_text (h : i.IsLegible) : '\n' ∉ i.text := by
  have hsolid {t : Text} (ht : t.Solid) : '\n' ∉ t := fun hmem => absurd (ht _ hmem) (by decide)
  have hname {x : Text} (hx : isName x = true) : '\n' ∉ x := notMem_of_isName hx (by decide)
  rw [text, List.mem_append, not_or]
  refine ⟨hsolid (solid_word _).2, ?_⟩
  cases i with
  | str => cases h
  | function f xs =>
    obtain ⟨hf, hxs⟩ := h
    have hparams : '\n' ∉ List.intercalate [',', ' '] xs := by
      intro hmem
      rcases mem_intercalate hmem with hsep | ⟨x, hx, hc⟩
      · exact absurd hsep (by decide)
      · exact hname (hxs x hx) hc
    simp [details, hname hf, hparams]
  | int value => simp [details, hsolid (Text.solid_ofInt value.toInt)]
  | bool value => cases value <;> simp only [details] <;> decide
  | binary op => cases op <;> decide +kernel
  | name x | assign x | call x => simp [details, hname h]
  | program | branch | thenBlock | elseBlock | loop | brk => exact List.not_mem_nil

end Heading

end FrameLang
