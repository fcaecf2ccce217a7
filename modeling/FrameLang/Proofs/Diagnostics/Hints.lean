import FrameLang.Proofs.Diagnostics.Location
import FrameLang.Proofs.Lowering.Positions
import FrameLang.Proofs.Lowering.Renaming
import FrameLang.Proofs.Lowering.Success
import FrameLang.Proofs.Outline.Headings

/-!
# Hints and the names of functions

The hint for a message is looked up by the words in it, and some messages quote the name of a
function. The words of a hint are told apart from the name by the quotes around it and by their
blanks, which no name has. Only the hint of syntax errors is called for by a single word, which may
be part of a name. So the name decides on the hint if the rest of the message calls for none.

## Main definitions

* `nameHint` — the hint that a name calls for.
* `LowerError.name?` — the name that an error quotes.
* `LowerError.bareName?` — that name if the rest of the message calls for no hint.
-/

namespace FrameLang

/-! ## Occurrences -/

section Occurrences

variable {w t l r : Text} {c : Char}

/-- The search for words finds them wherever they stand. -/
theorem occursIn_iff : occursIn w t = true ↔ w <:+: t := by
  induction t with
  | nil => simp [occursIn]
  | cons c rest ih =>
    rw [occursIn, Bool.or_eq_true, List.isPrefixOf_iff_prefix, ih, List.infix_cons_iff]

theorem prefix_append_cons_iff (h : c ∉ w) : w <+: l ++ c :: r ↔ w <+: l := by
  refine ⟨fun hw => ?_, fun hw => hw.trans (List.prefix_append l _)⟩
  have hlc : l ++ [c] <+: l ++ c :: r := ⟨r, by simp⟩
  rcases List.prefix_or_prefix_of_prefix hw hlc with hw | hw
  · rcases List.prefix_concat_iff.1 hw with rfl | hw
    · simp at h
    · exact hw
  · exact absurd (hw.subset (by simp)) h

/-- Words without a character occur before it or behind it. -/
theorem infix_append_cons_iff (h : c ∉ w) : w <:+: l ++ c :: r ↔ w <:+: l ∨ w <:+: r := by
  induction l with
  | nil =>
    have hstart : w <+: c :: r ↔ w <+: [] := prefix_append_cons_iff (l := []) h
    rw [List.nil_append, List.infix_cons_iff, hstart, List.prefix_nil, List.infix_nil]
  | cons a l ih =>
    have hstart : w <+: a :: (l ++ c :: r) ↔ w <+: a :: l := prefix_append_cons_iff (l := a :: l) h
    rw [List.cons_append, List.infix_cons_iff, hstart, ih, List.infix_cons_iff, or_assoc]

theorem occursIn_append_cons (h : c ∉ w) (l r : Text) :
    occursIn w (l ++ c :: r) = (occursIn w l || occursIn w r) := by
  rw [Bool.eq_iff_iff, Bool.or_eq_true, occursIn_iff, occursIn_iff, occursIn_iff,
    infix_append_cons_iff h]

theorem occursIn_eq_false_of_mem (h : c ∈ w) (hc : c ∉ t) : occursIn w t = false :=
  Bool.eq_false_iff.2 fun hw => hc ((occursIn_iff.1 hw).subset h)

end Occurrences

/-! ## Messages that quote a name -/

/-- The hints that are called for by several words. -/
def phraseHints : List (Text × Text) :=
  hints.take 4

/-- The word that calls for the last hint. -/
def syntaxWord : Text := "expected".toList

/-- The hint of syntax errors, which is the last one. -/
def syntaxHint : Text := "check surrounding syntax near the highlighted token".toList

/-- The hint that a name in a message calls for. -/
def nameHint (x : Text) : Option Text :=
  if occursIn syntaxWord x then some syntaxHint else none

theorem nameHint_eq_iff {x y : Text} :
    nameHint x = nameHint y ↔ occursIn syntaxWord x = occursIn syntaxWord y := by
  unfold nameHint
  cases occursIn syntaxWord x <;> cases occursIn syntaxWord y <;> simp

/-- The words of the hint on loops behind the keyword in them. -/
def loopWords : Text := " outside of a loop".toList

theorem hintFor_eq (message : Text) : hintFor message =
    ((phraseHints.find? fun (words, _) => occursIn words message).map Prod.snd).or
      (nameHint message) := by
  have hhints : hints = phraseHints ++ [(syntaxWord, syntaxHint)] := rfl
  rw [hintFor, hhints, List.find?_append, Option.map_or, nameHint]
  cases h : occursIn syntaxWord message <;> simp [h]

section Quoted

variable {w x pre post : Text}

theorem occursIn_quoted (h : '\'' ∉ w) (pre x post : Text) :
    occursIn w (pre ++ Text.quote x ++ post) =
      (occursIn w pre || (occursIn w x || occursIn w post)) := by
  have htext : pre ++ Text.quote x ++ post = pre ++ '\'' :: (x ++ '\'' :: post) := by
    simp [Text.quote]
  rw [htext, occursIn_append_cons h, occursIn_append_cons h]

/-- Several words do not occur in a name. -/
theorem occursIn_quoted_of_space (hx : ' ' ∉ x) (hq : '\'' ∉ w) (hs : ' ' ∈ w) :
    occursIn w (pre ++ Text.quote x ++ post) = (occursIn w pre || occursIn w post) := by
  rw [occursIn_quoted hq, occursIn_eq_false_of_mem hs hx, Bool.false_or]

theorem occursIn_eq_false_of_part {v : Text} (h : v <:+: w) {t : Text}
    (ht : occursIn v t = false) : occursIn w t = false :=
  Bool.eq_false_iff.2 fun hw =>
    Bool.eq_false_iff.1 ht (occursIn_iff.2 (h.trans (occursIn_iff.1 hw)))

/-- The words of a phrase occur in what stands around the name, if they occur at all. -/
theorem occursIn_phrase (hx : ' ' ∉ x) (hpre : occursIn loopWords pre = false)
    (hpost : occursIn loopWords post = false) {phrase : Text × Text} (h : phrase ∈ phraseHints) :
    occursIn phrase.1 (pre ++ Text.quote x ++ post) =
      (occursIn phrase.1 pre || occursIn phrase.1 post) := by
  simp only [phraseHints, hints, List.take_succ_cons, List.take_zero, List.mem_cons,
    List.not_mem_nil, or_false] at h
  rcases h with rfl | rfl | rfl | rfl
  · exact occursIn_quoted_of_space hx (by decide) (by decide)
  · -- These words quote a keyword themselves, so they are told by the words behind it.
    have hpart : loopWords <:+: "'break' outside of a loop".toList := by decide
    have hquoted : occursIn loopWords (pre ++ Text.quote x ++ post) = false := by
      rw [occursIn_quoted_of_space hx (by decide) (by decide), hpre, hpost, Bool.false_or]
    rw [occursIn_eq_false_of_part hpart hpre, occursIn_eq_false_of_part hpart hpost,
      occursIn_eq_false_of_part hpart hquoted, Bool.false_or]
  · exact occursIn_quoted_of_space hx (by decide) (by decide)
  · exact occursIn_quoted_of_space hx (by decide) (by decide)

/-- A message that quotes a name has the hint that it would have without the name, or else the one
that the name calls for. -/
theorem hintFor_quoted (hx : ' ' ∉ x) (hpre : occursIn loopWords pre = false)
    (hpost : occursIn loopWords post = false) :
    hintFor (pre ++ Text.quote x ++ post) =
      (hintFor (pre ++ Text.quote [] ++ post)).or (nameHint x) := by
  have hphrases :
      (phraseHints.find? fun (words, _) => occursIn words (pre ++ Text.quote x ++ post)) =
        phraseHints.find? fun (words, _) => occursIn words (pre ++ Text.quote [] ++ post) :=
    List.find?_congr fun phrase h => (occursIn_phrase hx hpre hpost h).trans
      (occursIn_phrase List.not_mem_nil hpre hpost h).symm
  have hname : nameHint (pre ++ Text.quote x ++ post) =
      (nameHint (pre ++ Text.quote [] ++ post)).or (nameHint x) := by
    have hnil : occursIn syntaxWord [] = false := by decide
    have hquote : '\'' ∉ syntaxWord := by decide
    simp only [nameHint, occursIn_quoted hquote, hnil]
    cases occursIn syntaxWord pre <;> cases occursIn syntaxWord x <;>
      cases occursIn syntaxWord post <;> rfl
  rw [hintFor_eq, hintFor_eq (pre ++ Text.quote [] ++ post), hphrases, hname, Option.or_assoc]

end Quoted

/-! ## Positions -/

/-- No words of a hint have a colon in them, fit between two colons, or start with a blank. -/
theorem words_of_mem_hints : ∀ hint ∈ hints,
    ':' ∉ hint.1 ∧ 'e' ∈ hint.1 ∧ hint.1.head? ≠ some ' ' := by
  decide

theorem occursIn_cons_of_head? {w : Text} {c : Char} (hw : w ≠ []) (h : w.head? ≠ some c)
    (t : Text) : occursIn w (c :: t) = occursIn w t := by
  cases w with
  | nil => exact absurd rfl hw
  | cons d w =>
    have hne : d ≠ c := fun heq => h (congrArg some heq)
    simp [occursIn, List.isPrefixOf, hne]

/-- A position in front of a message calls for no hint. -/
theorem hintFor_mark_append (pos : Pos) (text : Text) :
    hintFor (pos.mark ++ text) = hintFor text := by
  have hmark : pos.mark ++ text = Text.ofNat pos.line.toNat ++
      ':' :: (Text.ofNat pos.column.toNat ++ ':' :: ' ' :: text) := by
    simp [Pos.mark]
  have hdigits (n : Nat) : 'e' ∉ Text.ofNat n := fun he =>
    absurd (Text.isDigit_of_mem_ofNat he) (by decide)
  unfold hintFor
  congr 1
  refine List.find?_congr fun hint hmem => ?_
  obtain ⟨hcolon, he, hhead⟩ := words_of_mem_hints hint hmem
  show occursIn hint.1 (pos.mark ++ text) = occursIn hint.1 text
  rw [hmark, occursIn_append_cons hcolon, occursIn_append_cons hcolon,
    occursIn_eq_false_of_mem he (hdigits _), occursIn_eq_false_of_mem he (hdigits _),
    occursIn_cons_of_head? (List.ne_nil_of_mem he) hhead, Bool.false_or, Bool.false_or]

/-! ## Errors of builds -/

/-- The name of the function that a scope belongs to. -/
def Owner.name? : Owner → Option Text
  | topLevel => none
  | function name => some name

/-- The name of a function that a cause quotes. -/
def LowerCause.name? : LowerCause → Option Text
  | noValue name | undefinedFunction name | arity name _ _ => some name
  | _ => none

/-- The name of a function that an error quotes. -/
def LowerError.name? : LowerError → Option Text
  | located _ cause => cause.name?
  | exhausted owner => owner.name?

/-- An error with nothing between the quotes. -/
def LowerError.anonymous (e : LowerError) : LowerError :=
  e.renamed fun _ => []

theorem LowerError.hintFor_message_located (pos : Pos) (cause : LowerCause) :
    hintFor (located pos cause).message = hintFor cause.message := by
  by_cases h : pos.line = 0
  · rw [message_of_line_eq_zero h]
  · rw [message_of_line_ne_zero h, hintFor_mark_append]

/-- What stands behind the name in a message about the number of arguments. -/
def aritySuffix (params args : Nat) : Text :=
  " expects ".toList ++ Text.ofNat params ++ " argument(s), got ".toList ++ Text.ofNat args

/-- What stands behind the name of a scope that needs too many registers. -/
def registersSuffix : Text :=
  " needs more than ".toList ++ Text.ofNat registerFileSize ++ " registers".toList

theorem LowerCause.message_arity (name : Text) (params args : Nat) :
    (arity name params args).message =
      "function ".toList ++ Text.quote name ++ aritySuffix params args := by
  unfold message aritySuffix
  simp only [List.append_assoc]

theorem LowerError.message_exhausted (name : Text) :
    (exhausted (.function name)).message =
      "register file exhausted: function ".toList ++ Text.quote name ++ registersSuffix := by
  have hstart : "register file exhausted: function ".toList =
      "register file exhausted: ".toList ++ "function ".toList := by decide
  unfold message Owner.text registersSuffix
  rw [hstart]
  simp only [List.append_assoc]

theorem occursIn_aritySuffix (params args : Nat) :
    occursIn loopWords (aritySuffix params args) = false := by
  have hd (n : Nat) : 'd' ∉ Text.ofNat n := fun hc =>
    absurd (Text.isDigit_of_mem_ofNat hc) (by decide)
  have hexpects : 'd' ∉ " expects ".toList := by decide
  have hgot : 'd' ∉ " argument(s), got ".toList := by decide
  have hsuffix : 'd' ∉ aritySuffix params args := by
    unfold aritySuffix
    exact List.not_mem_append (List.not_mem_append (List.not_mem_append hexpects (hd params)) hgot)
      (hd args)
  exact occursIn_eq_false_of_mem (by decide) hsuffix

theorem LowerCause.hintFor_message {cause : LowerCause} (h : ∀ x ∈ cause.name?, ' ' ∉ x) :
    hintFor cause.message =
      (hintFor (cause.renamed fun _ => []).message).or (cause.name?.bind nameHint) := by
  have hfunction : occursIn loopWords "function ".toList = false := by decide
  cases cause with
  | noValue name =>
    have hvalue : occursIn loopWords " body does not end with a value".toList = false := by decide
    exact hintFor_quoted (h name rfl) hfunction hvalue
  | undefinedFunction name =>
    have hcall : occursIn loopWords "call to undefined function ".toList = false := by decide
    have hnil : occursIn loopWords [] = false := rfl
    have hquoted := hintFor_quoted (h name rfl) hcall hnil
    rwa [List.append_nil, List.append_nil] at hquoted
  | arity name params args =>
    rw [renamed, message_arity, message_arity]
    exact hintFor_quoted (h name rfl) hfunction (occursIn_aritySuffix params args)
  | _ => exact (Option.or_none).symm

/-- The hint for an error is that for its message without the name, or else the one that the name
calls for. -/
theorem LowerError.hintFor_message {e : LowerError} (h : ∀ x ∈ e.name?, ' ' ∉ x) :
    hintFor e.message = (hintFor e.anonymous.message).or (e.name?.bind nameHint) := by
  cases e with
  | located pos cause =>
    rw [anonymous, renamed, hintFor_message_located, hintFor_message_located]
    exact cause.hintFor_message h
  | exhausted owner =>
    cases owner with
    | topLevel => exact (Option.or_none).symm
    | function name =>
      have hfile : occursIn loopWords "register file exhausted: function ".toList = false := by
        decide
      have hsize : occursIn loopWords registersSuffix = false := by decide +kernel
      rw [anonymous, renamed, Owner.renamed, message_exhausted, message_exhausted]
      exact hintFor_quoted (h name rfl) hfile hsize

/-! ## Names that decide on the hint -/

/-- The name in an error whose message calls for no hint by itself. -/
def LowerError.bareName? : LowerError → Option Text
  | located _ (.undefinedFunction name) => some name
  | exhausted (.function name) => some name
  | _ => none

namespace LowerError

variable {e : LowerError} {ρ : Text → Text}

theorem hintFor_unplaced (e : LowerError) : hintFor e.unplaced.message = hintFor e.message := by
  cases e with
  | located pos cause => rw [unplaced, hintFor_message_located, hintFor_message_located]
  | exhausted owner => rfl

theorem name?_unplaced (e : LowerError) : e.unplaced.name? = e.name? := by
  cases e <;> rfl

theorem name?_renamed (ρ : Text → Text) (e : LowerError) :
    (e.renamed ρ).name? = e.name?.map ρ := by
  cases e with
  | located pos cause => cases cause <;> rfl
  | exhausted owner => cases owner <;> rfl

theorem bareName?_renamed (ρ : Text → Text) (e : LowerError) :
    (e.renamed ρ).bareName? = e.bareName?.map ρ := by
  cases e with
  | located pos cause => cases cause <;> rfl
  | exhausted owner => cases owner <;> rfl

theorem anonymous_renamed (ρ : Text → Text) (e : LowerError) :
    (e.renamed ρ).anonymous = e.anonymous := by
  cases e with
  | located pos cause => cases cause <;> rfl
  | exhausted owner => cases owner <;> rfl

theorem isSome_hintFor_arity (params args : Nat) :
    (hintFor (LowerCause.arity [] params args).message).isSome = true := by
  have hgot : "argument(s), got".toList <:+: (LowerCause.arity [] params args).message :=
    List.IsInfix.trans (by decide) ⟨_, Text.ofNat args, rfl⟩
  rw [hintFor, Option.isSome_map, List.find?_isSome]
  exact ⟨_, List.mem_cons_of_mem _ (List.mem_cons_of_mem _ (List.mem_cons_of_mem _
    List.mem_cons_self)), occursIn_iff.2 hgot⟩

/-- An error calls for the hint of its kind, unless its kind has none: then its name decides. -/
theorem hintFor_message_eq (h : ∀ x ∈ e.name?, ' ' ∉ x) : hintFor e.message =
    match e.bareName? with
    | some x => nameHint x
    | none => hintFor e.anonymous.message := by
  rw [e.hintFor_message h]
  cases e with
  | located pos cause =>
    rw [anonymous, renamed, hintFor_message_located]
    cases cause with
    | undefinedFunction name =>
      have hnone : hintFor (LowerCause.undefinedFunction []).message = none := by decide
      exact congrArg (Option.or · (nameHint name)) hnone
    | noValue name =>
      have hsome : (hintFor (LowerCause.noValue []).message).isSome = true := by decide
      exact Option.or_of_isSome hsome
    | arity name params args => exact Option.or_of_isSome (isSome_hintFor_arity params args)
    | _ => exact Option.or_none
  | exhausted owner =>
    cases owner with
    | topLevel => exact Option.or_none
    | function name =>
      have hnone : hintFor (exhausted (.function [])).message = none := by decide +kernel
      exact congrArg (Option.or · (nameHint name)) hnone

/-- Other names for the functions keep the hint, unless the name decides on it and the new name
decides otherwise. -/
theorem hintFor_renamed_iff (h : ∀ x ∈ e.name?, ' ' ∉ x ∧ ' ' ∉ ρ x) :
    hintFor (e.renamed ρ).message = hintFor e.message ↔
      ∀ x ∈ e.bareName?, occursIn syntaxWord (ρ x) = occursIn syntaxWord x := by
  have hspace : ∀ y ∈ (e.renamed ρ).name?, ' ' ∉ y := by
    rw [name?_renamed]
    exact Option.forall_mem_map.2 fun x hx => (h x hx).2
  rw [hintFor_message_eq hspace, hintFor_message_eq fun x hx => (h x hx).1, bareName?_renamed,
    anonymous_renamed]
  cases e.bareName? with
  | none => simp
  | some x => simp [nameHint_eq_iff]

end LowerError

end FrameLang
