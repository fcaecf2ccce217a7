import FrameLang.Program.Literal

/-!
# The value of integer literals

A literal of digits is read exactly: it has its decimal value if that is within the limit, and none
otherwise, however long it is. Reading stops at the first beginning that is above the limit, which
is right because further digits only add to it.

## Main definitions

* `Text.decimal` — the value of a text of digits.
* `literalLimit` — the largest value that a literal may have.
-/

namespace FrameLang

/-- The value of a text of decimal digits. -/
def Text.decimal (digits : Text) : Nat :=
  Nat.ofDigitChars 10 digits 0

/-- The largest value of a literal, which is larger by one behind a sign. -/
def literalLimit (negative : Bool) : Nat :=
  if negative then 2147483648 else 2147483647

theorem Text.isDigit_of_mem_ofNat {n : Nat} {c : Char} (h : c ∈ Text.ofNat n) :
    c.isDigit = true :=
  Nat.isDigit_of_mem_toDigits (by decide) (by decide) h

/-- A numeral starts with a digit. -/
theorem Text.exists_ofNat_eq_cons (n : Nat) :
    ∃ d digits, Text.ofNat n = d :: digits ∧ d.isDigit = true := by
  cases h : Text.ofNat n with
  | nil => exact absurd h Nat.toDigits_ne_nil
  | cons d digits => exact ⟨d, digits, rfl, Text.isDigit_of_mem_ofNat (h ▸ List.mem_cons_self)⟩

theorem Text.decimal_ofNat (n : Nat) : Text.decimal (Text.ofNat n) = n :=
  Nat.ofDigitChars_toDigits (by decide) (by decide)

theorem digitWeight_of_isDigit {c : Char} (h : c.isDigit = true) :
    digitWeight c = Int64.ofNat (c.toNat - '0'.toNat) := by
  obtain ⟨h₀, h₉⟩ := Char.isDigit_iff_toNat.1 h
  have hle : (48 : Nat) ≤ c.toNat := h₀
  have hlt : c.toNat < 128 := Nat.lt_of_le_of_lt h₉ (by decide)
  rw [digitWeight, if_pos hlt, show '0'.toNat = 48 from rfl, ← Int64.ofInt_eq_ofNat,
    Int.ofNat_sub hle]
  rfl

/-- A digit that is read is a step of the decimal value. -/
theorem mul_ten_add_digitWeight {c : Char} (h : c.isDigit = true) (n : Nat) :
    Int64.ofNat n * 10 + digitWeight c = Int64.ofNat (10 * n + (c.toNat - '0'.toNat)) := by
  rw [digitWeight_of_isDigit h, Int64.ofNat_add, Int64.ofNat_mul, Int64.mul_comm]
  rfl

theorem toNat_sub_le_nine {c : Char} (h : c.isDigit = true) : c.toNat - '0'.toNat ≤ 9 := by
  have h₉ : c.toNat ≤ 57 := (Char.isDigit_iff_toNat.1 h).2
  have h₀ : '0'.toNat = 48 := rfl
  omega

/-- Values that one digit is read behind are compared as they are: they do not leave the 64 bits. -/
theorem ofNat_lt_ofNat_iff {limit n : Nat} (hl : limit ≤ 2147483648)
    (hn : n ≤ 10 * 2147483648 + 9) : Int64.ofNat limit < Int64.ofNat n ↔ limit < n := by
  rw [Int64.lt_iff_toInt_lt, Int64.toInt_ofNat_of_lt (by omega), Int64.toInt_ofNat_of_lt (by omega),
    Int.ofNat_lt]

/-- Further digits do not make a value smaller. -/
theorem le_ofDigitChars (n : Nat) (digits : Text) : n ≤ Nat.ofDigitChars 10 digits n := by
  induction digits generalizing n with
  | nil => exact Nat.le_refl n
  | cons c rest ih =>
    rw [Nat.ofDigitChars_cons]
    exact Nat.le_trans (by omega) (ih _)

/-- Reading on from a value that is within the limit. -/
theorem readDigits_ofNat (limit : Nat) (hl : limit ≤ 2147483648) {digits : Text}
    (hd : ∀ c ∈ digits, c.isDigit = true) (n : Nat) (hn : n ≤ limit) :
    readDigits (Int64.ofNat limit) (Int64.ofNat n) digits =
      if Nat.ofDigitChars 10 digits n ≤ limit then
        some (Int64.ofNat (Nat.ofDigitChars 10 digits n))
      else none := by
  induction digits generalizing n with
  | nil => simp [readDigits, hn]
  | cons c rest ih =>
    have hc := hd c (.head _)
    have hnine := toNat_sub_le_nine hc
    have hlt := ofNat_lt_ofNat_iff (n := 10 * n + (c.toNat - '0'.toNat)) hl (by omega)
    rw [readDigits, mul_ten_add_digitWeight hc, Nat.ofDigitChars_cons]
    by_cases h : limit < 10 * n + (c.toNat - '0'.toNat)
    · have hle := le_ofDigitChars (10 * n + (c.toNat - '0'.toNat)) rest
      rw [if_pos (hlt.2 h), if_neg (by omega)]
    · rw [if_neg (mt hlt.1 h)]
      exact ih (fun c hc => hd c (.tail _ hc)) _ (by omega)

/-- A literal of digits has a value exactly if its decimal value is within the limit. -/
theorem readLiteral_of_digits {negative : Bool} {digits : Text}
    (hd : ∀ c ∈ digits, c.isDigit = true) :
    readLiteral negative digits =
      if Text.decimal digits ≤ literalLimit negative then
        some (Int32.ofInt (if negative then -(Text.decimal digits) else Text.decimal digits))
      else none := by
  unfold readLiteral literalLimit Text.decimal
  cases negative with
  | false =>
    have h := readDigits_ofNat 2147483647 (by decide) hd 0 (by decide)
    simp only [Bool.false_eq_true, if_false]
    rw [show (2147483647 : Int64) = Int64.ofNat 2147483647 from rfl,
      show (0 : Int64) = Int64.ofNat 0 from rfl, h]
    split
    · simp [Int32.ofInt_eq_ofNat]
    · rfl
  | true =>
    have h := readDigits_ofNat 2147483648 (by decide) hd 0 (by decide)
    simp only [if_true]
    rw [show (2147483648 : Int64) = Int64.ofNat 2147483648 from rfl,
      show (0 : Int64) = Int64.ofNat 0 from rfl, h]
    split
    · simp [Int32.ofInt_eq_ofNat]
    · rfl

end FrameLang
