import FrameLang.Diagnostic
import FrameLang.Lowering.Allocation
import FrameLang.Program.SyntaxError
import FrameLang.Proofs.Syntax.Rescanning
import FrameLang.Token.Lexer

/-!
# Taking positions out of messages

A message is a position in front of a text, or a text alone. The texts that errors have are tight:
they are not empty and have no blanks at their ends, so trimming leaves them alone and nothing but
the position is taken out of a message.

## Main definitions

* `Text.Tight` — a text without blanks at its ends.
-/

namespace FrameLang

/-! ## Tight texts -/

namespace Text

/-- The text starts with a character that is no blank. -/
def startsTight (t : Text) : Bool :=
  t.head?.any fun c => !isBlank c

/-- The text ends with a character that is no blank. -/
def endsTight (t : Text) : Bool :=
  t.getLast?.any fun c => !isBlank c

/-- The text is not empty, and it neither starts nor ends with a blank. -/
structure Tight (t : Text) : Prop where
  starts : t.startsTight = true
  ends : t.endsTight = true

variable {t : Text}

theorem startsTight_append (h : t.startsTight = true) (u : Text) :
    (t ++ u).startsTight = true := by
  cases t with
  | nil => cases h
  | cons c rest => exact h

theorem endsTight_append {u : Text} (h : u.endsTight = true) (t : Text) :
    (t ++ u).endsTight = true := by
  unfold endsTight at h ⊢
  rw [List.getLast?_append]
  cases hu : u.getLast? with
  | none => simp [hu] at h
  | some c => simpa [hu] using h

theorem endsTight_quote (t : Text) : (quote t).endsTight = true :=
  endsTight_append (by decide) _

theorem isBlank_of_isDigit {c : Char} (h : c.isDigit = true) : isBlank c = false := by
  obtain ⟨h₀, -⟩ : 48 ≤ c.toNat ∧ c.toNat ≤ 57 := Char.isDigit_iff_toNat.1 h
  exact isBlank_of_lt (by omega)

theorem endsTight_of_digits (hne : t ≠ []) (h : t.all Char.isDigit = true) :
    t.endsTight = true := by
  have hlast := List.getLast_mem hne
  rw [endsTight, List.getLast?_eq_some_getLast hne, Option.any_some,
    isBlank_of_isDigit (List.all_eq_true.1 h _ hlast)]
  rfl

theorem tight_ofNat (n : Nat) : (ofNat n).Tight := by
  obtain ⟨d, digits, hn, hd⟩ := exists_ofNat_eq_cons n
  have hall : (ofNat n).all Char.isDigit = true :=
    List.all_eq_true.2 fun c => isDigit_of_mem_ofNat
  refine ⟨?_, endsTight_of_digits Nat.toDigits_ne_nil hall⟩
  rw [hn, startsTight, List.head?_cons, Option.any_some, isBlank_of_isDigit hd]
  rfl

theorem dropWhile_of_startsTight (h : t.startsTight = true) : t.dropWhile isBlank = t := by
  cases t with
  | nil => rfl
  | cons c rest =>
    have hc : isBlank c = false := by simpa [startsTight] using h
    rw [List.dropWhile_cons_of_neg (by simp [hc])]

namespace Tight

theorem ne_nil (h : t.Tight) : t ≠ [] := by
  rintro rfl
  cases h.starts

theorem trim_eq (h : t.Tight) : t.trim = t := by
  have hrev : Text.startsTight t.reverse = true := by
    rw [startsTight, List.head?_reverse]
    exact h.ends
  rw [Text.trim, dropWhile_of_startsTight h.starts, dropWhile_of_startsTight hrev,
    List.reverse_reverse]

theorem messageText_space (h : t.Tight) : messageText (' ' :: t) = t := by
  have htrim : Text.trim (' ' :: t) = t := h.trim_eq
  unfold messageText
  rw [htrim]
  split
  · exact absurd rfl h.ne_nil
  · rfl

end Tight

end Text

/-! ## Reading positions -/

theorem splitNumeral_ofNat (n : Nat) (rest : Text) :
    splitNumeral (Text.ofNat n ++ ':' :: rest) = some (Text.ofNat n, rest) := by
  have hdigits : ∀ c ∈ Text.ofNat n, c.isDigit = true := fun c => Text.isDigit_of_mem_ofNat
  obtain ⟨d, digits, hn, -⟩ := Text.exists_ofNat_eq_cons n
  have hcolon : Char.isDigit ':' = false := by decide
  rw [splitNumeral, List.takeWhile_append_of_pos hdigits, List.dropWhile_append_of_pos hdigits]
  simp [hcolon, hn]

theorem wordOfDigits_ofNat (w : UInt32) : wordOfDigits (Text.ofNat w.toNat) = .ok w := by
  have hvalue : Nat.ofDigitChars 10 (Text.ofNat w.toNat) 0 = w.toNat := Text.decimal_ofNat w.toNat
  have hlt : w.toNat < numeralLimit := by
    have := w.toNat_lt
    unfold numeralLimit
    omega
  simp only [wordOfDigits, hvalue, hlt, if_true, UInt32.ofNat_toNat]

theorem Pos.tight_mark_append (pos : Pos) {text : Text} (h : text.Tight) :
    (pos.mark ++ text).Tight := by
  refine ⟨?_, Text.endsTight_append h.ends _⟩
  rw [Pos.mark, List.append_assoc, List.append_assoc]
  exact Text.startsTight_append (Text.tight_ofNat _).starts _

/-- What stands behind a position is given back together with it, unless one of its counters is
zero; then the message is left as it is. -/
theorem locate_mark_append (pos : Pos) {text : Text} (h : text.Tight) :
    locate (pos.mark ++ text) =
      .ok (if pos.line = 0 ∨ pos.column = 0 then ⟨none, pos.mark ++ text⟩
        else ⟨some pos, text⟩) := by
  have hmark : pos.mark ++ text = Text.ofNat pos.line.toNat ++
      ':' :: (Text.ofNat pos.column.toNat ++ ':' :: ' ' :: text) := by
    simp [Pos.mark]
  simp only [locate, (pos.tight_mark_append h).trim_eq]
  rw [hmark, splitNumeral_ofNat]
  simp only [wordOfDigits_ofNat, splitNumeral_ofNat, h.messageText_space, bind, Except.bind]
  split <;> rfl

/-- A message that does not start with a digit is about no position. -/
theorem locate_of_not_digit {t : Text} (h : t.Tight) (hd : t.head?.any Char.isDigit = false) :
    locate t = .ok ⟨none, t⟩ := by
  have hsplit : splitNumeral t = none := by
    cases t with
    | nil => rfl
    | cons c rest =>
      have hc : c.isDigit = false := by simpa using hd
      simp [splitNumeral, hc]
  simp only [locate, h.trim_eq, hsplit]

/-! ## The texts of errors -/

section Wording

-- The characters of a string literal are compared as they are, without decoding the literal.
variable {l : List Char}

theorem Text.startsTight_toList (h : Text.startsTight l = true) :
    Text.startsTight (String.ofList l).toList = true := by
  rwa [String.toList_ofList]

theorem Text.endsTight_toList (h : Text.endsTight l = true) :
    Text.endsTight (String.ofList l).toList = true := by
  rwa [String.toList_ofList]

theorem Text.tight_toList (hs : Text.startsTight l = true) (he : Text.endsTight l = true) :
    Text.Tight (String.ofList l).toList :=
  ⟨Text.startsTight_toList hs, Text.endsTight_toList he⟩

end Wording

theorem LexCause.tight_message (cause : LexCause) : cause.message.Tight := by
  cases cause with
  | unexpected c =>
    exact ⟨Text.startsTight_append (Text.startsTight_toList rfl) _, Text.endsTight_append rfl _⟩
  | _ => exact Text.tight_toList rfl rfl

/-- The text of a syntax error ends with the digits of the literal if it is about one. -/
theorem SyntaxCause.tight_message {cause : SyntaxCause}
    (h : ∀ negative digits, cause = .literalRange negative digits → digits.endsTight = true) :
    cause.message.Tight := by
  cases cause with
  | expression found =>
    cases found with
    | eof => exact Text.tight_toList rfl rfl
    | _ =>
      exact ⟨Text.startsTight_append (Text.startsTight_toList rfl) _,
        Text.endsTight_append (Text.endsTight_quote _) _⟩
  | literalRange negative digits =>
    have hdigits : digits.endsTight = true := h negative digits rfl
    refine ⟨Text.startsTight_append (Text.startsTight_toList rfl) _, Text.endsTight_append ?_ _⟩
    cases negative with
    | true => exact Text.endsTight_append hdigits ['-']
    | false => exact hdigits
  | _ => exact Text.tight_toList rfl rfl

theorem LowerCause.tight_message (cause : LowerCause) : cause.message.Tight := by
  have hfunction : Text.startsTight "function ".toList = true := Text.startsTight_toList rfl
  cases cause with
  | noValue name =>
    exact ⟨Text.startsTight_append (Text.startsTight_append hfunction _) _,
      Text.endsTight_append (Text.endsTight_toList rfl) _⟩
  | undefinedFunction name =>
    exact ⟨Text.startsTight_append (Text.startsTight_toList rfl) _,
      Text.endsTight_append (Text.endsTight_quote name) _⟩
  | arity name params args =>
    have hnamed := Text.startsTight_append hfunction (Text.quote name)
    have hexpects := Text.startsTight_append hnamed " expects ".toList
    have hparams := Text.startsTight_append hexpects (Text.ofNat params)
    exact ⟨Text.startsTight_append (Text.startsTight_append hparams _) _,
      Text.endsTight_append (Text.tight_ofNat args).ends _⟩
  | _ => exact Text.tight_toList rfl rfl

theorem LowerCause.head?_message (cause : LowerCause) :
    cause.message.head?.any Char.isDigit = false := by
  cases cause <;> rfl

theorem LowerError.tight_exhausted (owner : Owner) : (exhausted owner).message.Tight :=
  ⟨Text.startsTight_append (Text.startsTight_append (Text.startsTight_append
      (Text.startsTight_append (Text.startsTight_toList rfl) _) _) _) _,
    Text.endsTight_append (Text.endsTight_toList rfl) _⟩

end FrameLang
