import FrameLang.Proofs.Diagnostics.Location
import FrameLang.Proofs.Lowering.Success

/-!
# Which messages have a position

A message is about a position exactly if it starts with two numerals, each with a colon behind it,
that are not zero in 32 bits. Numerals of any length are read, but one that does not fit 64 bits is
an error as soon as its colon is seen, whatever follows. The messages of errors are decoded into the
position and the text that they were made of.

## Main definitions

* `Text.Opens` — a text starts with a numeral and a colon.
* `Text.Overflows`, `Text.Places` — messages with a numeral that is too large, and those that are
  about a position.
* `DecodedExactly` — what becomes of a message, in terms of these.
-/

namespace FrameLang

/-! ## Numerals in front of a text -/

namespace Text

/-- The text consists of the numeral `digits`, a colon, and `rest`. -/
structure Opens (t digits rest : Text) : Prop where
  eq_append : t = digits ++ ':' :: rest
  ne_nil : digits ≠ []
  isDigit : ∀ c ∈ digits, c.isDigit = true

/-- The first number of the text does not fit 64 bits, or it does and the second one does not. -/
def Overflows (t : Text) : Prop :=
  ∃ digits rest, t.Opens digits rest ∧
    (2 ^ 64 ≤ digits.decimal ∨
      digits.decimal < 2 ^ 64 ∧ ∃ digits' rest', rest.Opens digits' rest' ∧
        2 ^ 64 ≤ digits'.decimal)

/-- The text behind the position of a message, which has a stand-in if it is blank. -/
def shown (rest : Text) : Text :=
  if rest.trim = [] then "diagnostic error".toList else rest.trim

/-- The text consists of two numerals and a rest that is shown as `text`. In 32 bits the numerals
are the line and the column of `pos`, and neither of them is zero. -/
def Places (t : Text) (pos : Pos) (text : Text) : Prop :=
  ∃ lineDigits columnDigits rest behind, t.Opens lineDigits behind ∧
    behind.Opens columnDigits rest ∧ pos.line.toNat = lineDigits.decimal % 2 ^ 32 ∧
    pos.column.toNat = columnDigits.decimal % 2 ^ 32 ∧ pos.line ≠ 0 ∧ pos.column ≠ 0 ∧
    text = rest.shown

section Opens

variable {t digits rest : Text}

theorem Opens.decimal_lt (h : t.Opens digits rest) (ht : ¬ t.Overflows) :
    digits.decimal < 2 ^ 64 :=
  Nat.lt_of_not_le fun hbig => ht ⟨_, _, h, .inl hbig⟩

theorem Opens.second_decimal_lt (h : t.Opens digits rest) {digits' rest' : Text}
    (h' : rest.Opens digits' rest') (ht : ¬ t.Overflows) : digits'.decimal < 2 ^ 64 :=
  Nat.lt_of_not_le fun hbig => ht ⟨_, _, h, .inr ⟨h.decimal_lt ht, _, _, h', hbig⟩⟩

end Opens

end Text

/-- A numeral and a colon are split off exactly if the text starts with them. -/
theorem splitNumeral_eq_some {t digits rest : Text} :
    splitNumeral t = some (digits, rest) ↔ t.Opens digits rest := by
  constructor
  · intro h
    unfold splitNumeral at h
    split at h
    · rename_i d ds rest' htake hdrop
      obtain ⟨rfl, rfl⟩ : d :: ds = digits ∧ rest' = rest := by simpa using h
      refine ⟨?_, List.cons_ne_nil _ _, fun c hc => ?_⟩
      · rw [← htake, ← hdrop, List.takeWhile_append_dropWhile]
      · exact List.all_eq_true.1 List.all_takeWhile c (htake ▸ hc)
    · cases h
  · rintro ⟨rfl, hne, hdigits⟩
    have hcolon : ∀ c ∈ (':' :: rest).head?, c.isDigit = false := by
      intro c hc
      obtain rfl : ':' = c := by simpa using hc
      rfl
    obtain ⟨htake, hdrop⟩ := takeWhile_run hdigits hcolon
    obtain ⟨d, ds, rfl⟩ := List.exists_cons_of_ne_nil hne
    simp only [splitNumeral, htake, hdrop]

/-! ## The value of a numeral -/

theorem wordOfDigits_of_lt {digits : Text} (h : digits.decimal < 2 ^ 64) :
    wordOfDigits digits = .ok (UInt32.ofNat digits.decimal) :=
  if_pos h

theorem wordOfDigits_of_le {digits : Text} (h : 2 ^ 64 ≤ digits.decimal) :
    wordOfDigits digits = .error {} :=
  if_neg (Nat.not_lt.2 h)

theorem messageText_eq_shown (rest : Text) : messageText rest = rest.shown := by
  unfold messageText Text.shown
  split
  · rename_i h
    rw [if_pos h]
  · rename_i h
    rw [if_neg h]

/-! ## Messages -/

section Messages

variable {message : Text}

theorem locate_of_overflows (h : message.trim.Overflows) : locate message = .error {} := by
  obtain ⟨digits, rest, hopens, hbig⟩ := h
  simp only [locate, splitNumeral_eq_some.2 hopens]
  rcases hbig with hbig | ⟨hlt, digits', rest', hopens', hbig⟩
  · rw [wordOfDigits_of_le hbig]
    rfl
  · rw [wordOfDigits_of_lt hlt]
    simp only [splitNumeral_eq_some.2 hopens', wordOfDigits_of_le hbig, bind, Except.bind]

theorem locate_of_places {pos : Pos} {text : Text} (h : ¬ message.trim.Overflows)
    (hplaces : message.trim.Places pos text) : locate message = .ok ⟨some pos, text⟩ := by
  obtain ⟨lineDigits, columnDigits, rest, behind, hline, hcolumn, hl, hc, hl₀, hc₀, rfl⟩ := hplaces
  have hlineLt := hline.decimal_lt h
  have hcolumnLt := hline.second_decimal_lt hcolumn h
  have hlineWord : UInt32.ofNat lineDigits.decimal = pos.line := UInt32.toNat_inj.1 hl.symm
  have hcolumnWord : UInt32.ofNat columnDigits.decimal = pos.column := UInt32.toNat_inj.1 hc.symm
  simp only [locate, splitNumeral_eq_some.2 hline, splitNumeral_eq_some.2 hcolumn,
    wordOfDigits_of_lt hlineLt, wordOfDigits_of_lt hcolumnLt, hlineWord, hcolumnWord,
    messageText_eq_shown, bind, Except.bind, hl₀, hc₀, or_self, if_false]
  rfl

theorem locate_otherwise (h : ¬ message.trim.Overflows)
    (hnone : ∀ pos text, ¬ message.trim.Places pos text) :
    locate message = .ok ⟨none, message.trim⟩ := by
  unfold locate
  dsimp only
  split
  · rfl
  · rename_i lineDigits behind hline
    rw [splitNumeral_eq_some] at hline
    rw [wordOfDigits_of_lt (hline.decimal_lt h)]
    simp only [bind, Except.bind]
    split
    · rfl
    · rename_i columnDigits rest hcolumn
      rw [splitNumeral_eq_some] at hcolumn
      rw [wordOfDigits_of_lt (hline.second_decimal_lt hcolumn h)]
      dsimp only
      split
      · rfl
      · rename_i hzero
        obtain ⟨hl₀, hc₀⟩ := not_or.1 hzero
        exact absurd ⟨_, _, _, _, hline, hcolumn, UInt32.toNat_ofNat', UInt32.toNat_ofNat', hl₀, hc₀,
          rfl⟩ (hnone ⟨_, _⟩ rest.shown)

end Messages

/-- What becomes of a message is determined by its text without the blanks at the ends: there is an
error if one of the numerals in front is too large, and else the position that they make, or no
position. -/
structure DecodedExactly (message : Text) : Prop where
  overflows : locate message = .error {} ↔ message.trim.Overflows
  places (pos : Pos) (text : Text) : locate message = .ok ⟨some pos, text⟩ ↔
    ¬ message.trim.Overflows ∧ message.trim.Places pos text
  otherwise : locate message = .ok ⟨none, message.trim⟩ ↔
    ¬ message.trim.Overflows ∧ ∀ pos text, ¬ message.trim.Places pos text

theorem decodedExactly (message : Text) : DecodedExactly message := by
  by_cases hover : message.trim.Overflows
  · have h := locate_of_overflows hover
    constructor <;> simp [h, hover]
  by_cases hplaces : ∃ pos text, message.trim.Places pos text
  · obtain ⟨pos, text, hplaces⟩ := hplaces
    have h := locate_of_places hover hplaces
    refine ⟨by simp [h, hover], fun pos' text' => ⟨fun h' => ?_, fun h' => ?_⟩, ?_⟩
    · obtain ⟨rfl, rfl⟩ : pos = pos' ∧ text = text' := by simpa [h] using h'
      exact ⟨hover, hplaces⟩
    · exact locate_of_places h'.1 h'.2
    · simpa [h, hover] using ⟨pos, text, hplaces⟩
  · have hnone : ∀ pos text, ¬ message.trim.Places pos text :=
      fun pos text hp => hplaces ⟨pos, text, hp⟩
    have h := locate_otherwise hover hnone
    constructor <;> simp [h, hover, hnone]

/-- Messages are decoded exactly. So the position and the text of an error are given back, whichever
part of the tool wrote them, if both counters of the position are at least one. -/
theorem locate_decodes :
    (∀ message, DecodedExactly message) ∧
      ∀ pos : Pos, pos.line ≠ 0 → pos.column ≠ 0 →
        (∀ text : Text, text.Tight → locate (pos.mark ++ text) = .ok ⟨some pos, text⟩) ∧
        (∀ cause, locate (LexError.mk pos cause).message = .ok ⟨some pos, cause.message⟩) ∧
        (∀ cause : SyntaxCause, cause.message.Tight →
          locate (SyntaxError.mk pos cause).message = .ok ⟨some pos, cause.message⟩) ∧
        ∀ cause, locate (LowerError.located pos cause).message = .ok ⟨some pos, cause.message⟩ := by
  refine ⟨decodedExactly, fun pos hline hcolumn => ?_⟩
  have hmark (text : Text) (h : text.Tight) :
      locate (pos.mark ++ text) = .ok ⟨some pos, text⟩ := by
    rw [locate_mark_append pos h, if_neg (not_or.2 ⟨hline, hcolumn⟩)]
  refine ⟨hmark, fun cause => hmark _ cause.tight_message, fun cause h => hmark _ h,
    fun cause => ?_⟩
  rw [LowerError.message_of_line_ne_zero hline]
  exact hmark _ cause.tight_message

-- Counters are cut down to 32 bits before they are compared with zero.
example : locate "\t4294967297:2:  x ".toList = .ok ⟨some ⟨1, 2⟩, ['x']⟩ := by decide +kernel

-- A numeral that is too large is an error even if there is no position behind it.
example : locate "18446744073709551616:x".toList = .error {} := by decide +kernel

end FrameLang
