import FrameLang.Listing
import FrameLang.Proofs.Syntax.Lexemes

/-!
# Listings can be read back

A listing has one operation a line, and an operation is written as words with blanks between them.
Words are solid: there is no blank in a register, a label, a numeral or a mnemonic. So the lines of
a text are told apart by its newlines, the words of a line by its spaces, and from its words an
instruction is known: the first one tells its kind, and the others its operands.

## Main definitions

* `Label.IsLegible`, `Instr.IsLegible` — labels that are identifiers, and instructions with a
  meaning that use no others.
* `Instr.operandWords` — the words behind the mnemonic.
* `Listing.IsCanonical` — listings in which unused fields have their default.
-/

namespace FrameLang

/-! ## Solid texts -/

/-- The text has no blank in it. -/
def Text.Solid (t : Text) : Prop :=
  ∀ c ∈ t, isBlank c = false

instance : DecidablePred Text.Solid := fun t =>
  decidable_of_iff (t.all (fun c => !isBlank c) = true) (by simp [Text.Solid])

namespace Text

variable {t u : Text}

@[simp] theorem solid_nil : Solid [] := by
  simp [Solid]

@[simp] theorem solid_cons {c : Char} : Solid (c :: t) ↔ isBlank c = false ∧ t.Solid := by
  simp [Solid]

@[simp] theorem solid_append : (t ++ u).Solid ↔ t.Solid ∧ u.Solid := by
  simp [Solid, or_imp, forall_and]

theorem Solid.space_notMem (h : t.Solid) : ' ' ∉ t :=
  fun hmem => absurd (h ' ' hmem) (by decide)

/-- Words that are set apart by spaces stay on one line. -/
theorem newline_notMem_intercalate {words : List Text} (h : ∀ word ∈ words, word.Solid) :
    '\n' ∉ [' '].intercalate words := by
  induction words with
  | nil => simp
  | cons word rest ih =>
    have hword : '\n' ∉ word := fun hmem => absurd (h word List.mem_cons_self _ hmem) (by decide)
    cases rest with
    | nil => simpa using hword
    | cons next rest =>
      have hrest := ih fun word hword => h word (List.mem_cons_of_mem _ hword)
      simp [List.intercalate_cons_cons, hword, hrest]

theorem solid_ofNat (n : Nat) : (ofNat n).Solid := by
  intro c hc
  obtain ⟨h₀, -⟩ : 48 ≤ c.toNat ∧ c.toNat ≤ 57 := Char.isDigit_iff_toNat.1 (isDigit_of_mem_ofNat hc)
  exact isBlank_of_lt (by omega)

theorem solid_ofInt (n : Int) : (ofInt n).Solid := by
  unfold ofInt
  split
  · exact solid_cons.2 ⟨by decide, solid_ofNat _⟩
  · exact solid_ofNat _

theorem ofNat_injective : Function.Injective ofNat :=
  Function.LeftInverse.injective decimal_ofNat

/-- A numeral has a sign exactly if the number is negative. -/
theorem ofInt_injective : Function.Injective ofInt := by
  have hsign (m n : Nat) : '-' :: ofNat m ≠ ofNat n := by
    intro h
    obtain ⟨d, digits, hn, hd⟩ := exists_ofNat_eq_cons n
    rw [hn] at h
    obtain ⟨rfl, -⟩ := List.cons.inj h
    exact absurd hd (by decide)
  intro a b h
  unfold ofInt at h
  split at h <;> split at h
  · have := ofNat_injective (List.cons.inj h).2
    omega
  · exact absurd h (hsign _ _)
  · exact absurd h.symm (hsign _ _)
  · have := ofNat_injective h
    omega

end Text

/-! ## Registers and labels -/

theorem Register.solid_text (r : Register) : r.text.Solid := by
  cases r with
  | global a => exact Text.solid_cons.2 ⟨by decide, Text.solid_ofNat _⟩
  | arp a => exact Text.solid_append.2 ⟨by decide, Text.solid_ofNat _⟩

theorem Register.text_injective : Function.Injective Register.text := by
  intro r q h
  cases r <;> cases q <;> simp [Register.text] at h
  all_goals exact congrArg _ (UInt32.toNat_inj.1 (Text.ofNat_injective h))

/-- A label whose name is made of letters, digits and underscores, as identifiers are, or which has
a number. -/
def Label.IsLegible : Label → Prop
  | .named x => ∀ c ∈ x, isNamePart c = true
  | .numbered _ => True

instance : DecidablePred Label.IsLegible
  | .named x => decidable_of_iff (x.all isNamePart = true) List.all_eq_true
  | .numbered _ => .isTrue trivial

theorem Label.IsLegible.solid_text {l : Label} (h : l.IsLegible) : l.text.Solid := by
  cases l with
  | named x =>
    refine Text.solid_cons.2 ⟨by decide, fun c hc => ?_⟩
    exact isBlank_of_lt (lt_toNat_of_isNamePart (h c hc))
  | numbered n => exact Text.solid_cons.2 ⟨by decide, Text.solid_ofNat _⟩

theorem Label.text_injective : Function.Injective Label.text := by
  intro l m h
  cases l <;> cases m <;> simp [Label.text] at h
  · rw [h]
  · rw [UInt32.toNat_inj.1 (Text.ofNat_injective h)]

/-! ## Words of an instruction -/

/-- An instruction that has a meaning, and whose labels are legible. -/
def Instr.IsLegible : Instr → Prop
  | .label l | .call l | .jump l => l.IsLegible
  | .branch _ l m => l.IsLegible ∧ m.IsLegible
  | .unassigned => False
  | _ => True

/-- What is written behind the mnemonic, word by word. -/
def Instr.operandWords : Instr → List Text
  | .label _ | .ret | .unassigned => []
  | .call l | .jump l => ["->".toList, l.text]
  | .push r | .pop r => [r.text]
  | .pushI value => [Text.ofInt value.toInt]
  | .binary _ lhs rhs out => [lhs.text ++ [','], rhs.text, "=>".toList, out.text]
  | .binaryI _ lhs imm out =>
    [lhs.text ++ [','], Text.ofInt imm.toInt, "=>".toList, out.text]
  | .loadI value out => [Text.ofInt value.toInt, "=>".toList, out.text]
  | .move src dst => [src.text, "=>".toList, dst.text]
  | .branch test l m => [test.text, "->".toList, l.text ++ [','], m.text]

namespace Instr

variable {i j : Instr}

/-- An instruction is written as its mnemonic and the words behind it, unless it is a label. -/
theorem text_eq_intercalate (h : i.isLabel = false) :
    i.text = [' '].intercalate (i.encode.opcode.name :: i.operandWords) := by
  have hthree (name a b c : Text) :
      name ++ operands a b c = [' '].intercalate [name, a ++ [','], b, "=>".toList, c] := by
    simp [operands, List.intercalate_cons_cons]
  cases i with
  | label l => cases h
  | ret | unassigned => rfl
  | call l =>
    change "call -> ".toList ++ l.text = [' '].intercalate ["call".toList, "->".toList, l.text]
    simp [List.intercalate_cons_cons]
  | push r =>
    change "push ".toList ++ r.text = [' '].intercalate ["push".toList, r.text]
    simp [List.intercalate_cons_cons]
  | pop r =>
    change "pop ".toList ++ r.text = [' '].intercalate ["pop".toList, r.text]
    simp [List.intercalate_cons_cons]
  | pushI value =>
    change "pushI ".toList ++ Text.ofInt _ = [' '].intercalate ["pushI".toList, Text.ofInt _]
    simp [List.intercalate_cons_cons]
  | binary op lhs rhs out => exact hthree ..
  | binaryI op lhs imm out => exact hthree ..
  | loadI value out =>
    change "loadI ".toList ++ Text.ofInt _ ++ " => ".toList ++ out.text =
      [' '].intercalate ["loadI".toList, Text.ofInt _, "=>".toList, out.text]
    simp [List.intercalate_cons_cons]
  | move src dst =>
    change "i2i ".toList ++ src.text ++ " => ".toList ++ dst.text =
      [' '].intercalate ["i2i".toList, src.text, "=>".toList, dst.text]
    simp [List.intercalate_cons_cons]
  | jump l =>
    change "jumpI -> ".toList ++ l.text = [' '].intercalate ["jumpI".toList, "->".toList, l.text]
    simp [List.intercalate_cons_cons]
  | branch test l m =>
    change "cbr ".toList ++ test.text ++ " -> ".toList ++ l.text ++ [',', ' '] ++ m.text =
      [' '].intercalate ["cbr".toList, test.text, "->".toList, l.text ++ [','], m.text]
    simp [List.intercalate_cons_cons]

theorem solid_mnemonic (opcode : Opcode) : opcode.name.Solid := by
  cases opcode with
  | binary op | binaryI op => cases op <;> decide +kernel
  | _ => decide +kernel

theorem IsLegible.solid_operandWords (h : i.IsLegible) : ∀ word ∈ i.operandWords, word.Solid := by
  have harrow : Text.Solid "->".toList ∧ Text.Solid "=>".toList ∧ isBlank ',' = false := by
    decide +kernel
  cases i <;> simp_all [Instr.operandWords, Instr.IsLegible, Register.solid_text, Text.solid_ofInt,
    Label.IsLegible.solid_text]

/-- An opcode is known by its mnemonic. -/
theorem mnemonic_injective : Function.Injective Opcode.name := by
  have hmem (opcode : Opcode) : opcode ∈ Opcode.unassigned :: Opcode.all := by
    cases opcode with
    | binary op | binaryI op => cases op <;> decide
    | _ => decide
  have hinj : ∀ a ∈ Opcode.unassigned :: Opcode.all, ∀ b ∈ Opcode.unassigned :: Opcode.all,
      a.name = b.name → a = b := by
    decide +kernel
  exact fun a b => hinj a (hmem a) b (hmem b)

/-- An instruction that is no label is known by its opcode and the words behind its mnemonic. -/
theorem eq_of_operandWords (hi : i.isLabel = false) (hop : i.encode.opcode = j.encode.opcode)
    (hwords : i.operandWords = j.operandWords) : i = j := by
  have hreg {r q : Register} (h : r.text = q.text) : r = q := Register.text_injective h
  have hlabel {l m : Label} (h : l.text = m.text) : l = m := Label.text_injective h
  have hint {m n : Int32} (h : Text.ofInt m.toInt = Text.ofInt n.toInt) : m = n :=
    Int32.toInt_inj.1 (Text.ofInt_injective h)
  cases i with
  | label l => cases hi
  | _ =>
    -- The opcode leaves one constructor for `j`, and the words give its arguments.
    cases j <;> cases hop
    all_goals
      simp only [operandWords, List.cons.injEq, List.append_cancel_right_eq, and_true,
        true_and] at hwords
      grind

/-- Instructions that are no labels are written alike only if they are equal. -/
theorem eq_of_text (hi : i.IsLegible) (hj : j.IsLegible) (hil : i.isLabel = false)
    (hjl : j.isLabel = false) (h : i.text = j.text) : i = j := by
  have hsplit {k : Instr} (hk : k.IsLegible) (hkl : k.isLabel = false) :
      k.text.splitOn ' ' = k.encode.opcode.name :: k.operandWords := by
    rw [text_eq_intercalate hkl]
    refine List.splitOn_intercalate ' ' (fun word hword => ?_) (List.cons_ne_nil _ _)
    rcases List.mem_cons.1 hword with rfl | hword
    · exact (solid_mnemonic _).space_notMem
    · exact (hk.solid_operandWords word hword).space_notMem
  have hwords := (hsplit hi hil).symm.trans ((congrArg _ h).trans (hsplit hj hjl))
  obtain ⟨hname, hoperands⟩ := List.cons.inj hwords
  exact eq_of_operandWords hil (mnemonic_injective hname) hoperands

/-- The text of an instruction stays on one line. -/
theorem IsLegible.newline_notMem_text (h : i.IsLegible) : '\n' ∉ i.text := by
  by_cases hl : i.isLabel = true
  · cases i with
    | label l =>
      have hsolid : (l.text ++ [':']).Solid := Text.solid_append.2 ⟨h.solid_text, by decide⟩
      exact fun hmem => absurd (hsolid '\n' hmem) (by decide)
    | _ => cases hl
  · rw [text_eq_intercalate (Bool.eq_false_iff.2 hl)]
    refine Text.newline_notMem_intercalate fun word hword => ?_
    rcases List.mem_cons.1 hword with rfl | hword
    · exact solid_mnemonic _
    · exact h.solid_operandWords word hword

end Instr

/-! ## Lines -/

/-- Lines, each with its newline, are told apart by these. -/
theorem Text.splitOn_newline {lines : List Text} (h : ∀ line ∈ lines, '\n' ∉ line) :
    (lines.flatMap (· ++ ['\n'])).splitOn '\n' = lines ++ [[]] := by
  have hjoin : lines.flatMap (· ++ ['\n']) = ['\n'].intercalate (lines ++ [[]]) := by
    induction lines with
    | nil => rfl
    | cons line rest ih =>
      have hrest := ih fun line hline => h line (List.mem_cons_of_mem _ hline)
      obtain ⟨next, more, hmore⟩ := List.exists_cons_of_ne_nil (List.concat_ne_nil [] rest)
      rw [List.flatMap_cons, hrest, List.cons_append, hmore, List.intercalate_cons_cons]
  rw [hjoin]
  refine List.splitOn_intercalate '\n' (fun line hline => ?_) (by simp)
  rcases List.mem_append.1 hline with hline | hline
  · exact h line hline
  · simp [List.mem_singleton.1 hline]

/-- The line of an instruction, without its newline. -/
def Instr.indented (i : Instr) : Text :=
  (if i.isLabel then [] else [' ', ' ']) ++ i.text

/-- The last line of a listing, without its newline. -/
def resultNote (result : Option Register) : Text :=
  "; result: ".toList ++ (result.map Register.text).getD "none".toList

/-- The lines of a listing, without their newlines. -/
def Listing.lines (listing : Listing) : List Text :=
  listing.operations.map (fun op => op.decode.indented) ++ [resultNote listing.result]

theorem Listing.text_eq_flatMap (listing : Listing) :
    listing.text = listing.lines.flatMap (· ++ ['\n']) := by
  have hresult : resultLine listing.result = resultNote listing.result ++ ['\n'] := rfl
  have hline (i : Instr) : i.line = i.indented ++ ['\n'] := rfl
  simp only [Listing.text, Listing.lines, List.flatMap_append, List.flatMap_map,
    List.flatMap_singleton, hresult, hline]

theorem Instr.IsLegible.newline_notMem_indented {i : Instr} (h : i.IsLegible) :
    '\n' ∉ i.indented := by
  rw [Instr.indented, List.mem_append, not_or]
  refine ⟨?_, h.newline_notMem_text⟩
  split <;> decide

/-- Only labels stand at the margin, so a line tells whether it is one. -/
theorem Instr.eq_of_indented {i j : Instr} (hi : i.IsLegible) (hj : j.IsLegible)
    (h : i.indented = j.indented) : i = j := by
  have hmargin (l : Label) (t : Text) : (Instr.label l).text ≠ ' ' :: t := by
    change l.text ++ [':'] ≠ ' ' :: t
    cases l <;> simp [Label.text]
  have hlabel {k : Instr} (hk : k.isLabel = true) : ∃ l, k = .label l := by
    cases k <;> simp_all [Instr.isLabel]
  unfold Instr.indented at h
  by_cases hil : i.isLabel = true <;> by_cases hjl : j.isLabel = true
  · obtain ⟨⟨l, rfl⟩, ⟨m, rfl⟩⟩ := And.intro (hlabel hil) (hlabel hjl)
    have htext : l.text ++ [':'] = m.text ++ [':'] := h
    rw [Label.text_injective (List.append_cancel_right htext)]
  · obtain ⟨l, rfl⟩ := hlabel hil
    rw [if_pos hil, if_neg hjl] at h
    exact absurd h (hmargin l _)
  · obtain ⟨m, rfl⟩ := hlabel hjl
    rw [if_neg hil, if_pos hjl] at h
    exact absurd h.symm (hmargin m _)
  · rw [if_neg hil, if_neg hjl] at h
    exact eq_of_text hi hj (Bool.eq_false_iff.2 hil) (Bool.eq_false_iff.2 hjl)
      (List.append_cancel_left h)

theorem newline_notMem_resultNote (result : Option Register) : '\n' ∉ resultNote result := by
  unfold resultNote
  rw [List.mem_append, not_or]
  refine ⟨by decide +kernel, ?_⟩
  cases result with
  | none => decide +kernel
  | some r => exact fun hmem => absurd (r.solid_text _ hmem) (by decide)

theorem resultNote_injective : Function.Injective resultNote := by
  have hnone (r : Register) : r.text ≠ "none".toList := by
    cases r <;> simp [Register.text]
  intro a b h
  have htext := List.append_cancel_left h
  cases a with
  | none =>
    cases b with
    | none => rfl
    | some r => exact absurd htext.symm (hnone r)
  | some r =>
    cases b with
    | none => exact absurd htext (hnone r)
    | some q => rw [Register.text_injective htext]

/-! ## Listings -/

/-- Every operation is the canonical one of a legible instruction: it has a meaning, the fields that
it does not use have their default, and its named labels are identifiers. -/
def Listing.IsCanonical (listing : Listing) : Prop :=
  ∀ op ∈ listing.operations, ∃ i : Instr, i.IsLegible ∧ i.encode = op

namespace Listing

variable {a b : Listing}

theorem IsCanonical.newline_notMem (h : a.IsCanonical) : ∀ line ∈ a.lines, '\n' ∉ line := by
  intro line hline
  rcases List.mem_append.1 hline with hline | hline
  · obtain ⟨op, hop, rfl⟩ := List.mem_map.1 hline
    obtain ⟨i, hi, rfl⟩ := h op hop
    rw [Instr.decode_encode]
    exact hi.newline_notMem_indented
  · rw [List.mem_singleton.1 hline]
    exact newline_notMem_resultNote _

/-- Canonical operations are written alike only if they are equal. -/
theorem IsCanonical.operations_eq (ha : a.IsCanonical) (hb : b.IsCanonical)
    (h : a.operations.map (fun op => op.decode.indented) =
      b.operations.map fun op => op.decode.indented) : a.operations = b.operations := by
  have hlength : a.operations.length = b.operations.length := by
    simpa using congrArg List.length h
  refine List.ext_getElem hlength fun k hka hkb => ?_
  obtain ⟨i, hi, hia⟩ := ha _ (List.getElem_mem hka)
  obtain ⟨j, hj, hjb⟩ := hb _ (List.getElem_mem hkb)
  have hk : a.operations[k].decode.indented = b.operations[k].decode.indented := by
    simpa [hka, hkb] using congrArg (·[k]?) h
  rw [← hia, ← hjb, Instr.decode_encode, Instr.decode_encode] at hk
  rw [← hia, ← hjb, Instr.eq_of_indented hi hj hk]

/-- The text of a canonical listing determines the listing. -/
theorem IsCanonical.eq_of_text (ha : a.IsCanonical) (hb : b.IsCanonical) (h : a.text = b.text) :
    a = b := by
  have hlines : a.lines ++ [[]] = b.lines ++ [[]] := by
    rw [← Text.splitOn_newline ha.newline_notMem, ← Text.splitOn_newline hb.newline_notMem,
      ← text_eq_flatMap, ← text_eq_flatMap, h]
  obtain ⟨hoperations, hresult⟩ := List.append_inj' (List.append_cancel_right hlines) rfl
  have hresult := resultNote_injective (List.singleton_inj.1 hresult)
  have hoperations := ha.operations_eq hb hoperations
  cases a
  cases b
  simp_all

end Listing

end FrameLang
