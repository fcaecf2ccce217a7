import FrameLang.Proofs.Syntax.Spacing

/-!
# Numerals are read exactly

A literal is read by multiplying by ten and adding, in 64 bits. The numbers on the way are those
that the decimal value is made of, however long the literal is: reading stops at the first of them
that is above the limit, so none of them comes near the end of the range. Every 32-bit number is
read back from its numeral.

## Main definitions

* `readingSteps` — the numbers that reading goes through.
* `ReadExactly` — what becomes of a literal of digits.
-/

namespace FrameLang

/-! ## The numbers on the way -/

/-- For each character that is read, the value before it times ten, and that plus the weight of the
character. The last sum is the first one above the limit, if there is one. -/
def readingSteps (limit : Int64) : Int64 → Text → List (Int64 × Int64)
  | _, [] => []
  | value, c :: rest =>
    let next := value * 10 + digitWeight c
    (value * 10, next) :: if limit < next then [] else readingSteps limit next rest

/-- Reading fails at the last number on the way or gives it. -/
theorem readDigits_eq_readingSteps (limit value : Int64) (digits : Text) :
    readDigits limit value digits =
      if (readingSteps limit value digits).getLast?.any (limit < ·.2) then none
      else some (((readingSteps limit value digits).getLast?.map Prod.snd).getD value) := by
  induction digits generalizing value with
  | nil => rfl
  | cons c rest ih =>
    rw [readDigits, readingSteps]
    by_cases h : limit < value * 10 + digitWeight c
    · simp [h]
    · simp only [h, if_false, ih]
      cases hsteps : readingSteps limit (value * 10 + digitWeight c) rest with
      | nil => simp [h]
      | cons step steps =>
        have hlast := List.getLast?_eq_some_getLast (List.cons_ne_nil step steps)
        simp [List.getLast?_cons_cons, hlast]

/-- The numbers on the way are those that the beginnings of the literal stand for. Each of them is
one digit behind a value that is within the limit. -/
theorem readingSteps_ofNat (limit : Nat) (hl : limit ≤ 2147483648) {digits : Text}
    (hd : ∀ c ∈ digits, c.isDigit = true) (n : Nat) (hn : n ≤ limit) {i : Nat}
    {step : Int64 × Int64}
    (h : (readingSteps (Int64.ofNat limit) (Int64.ofNat n) digits)[i]? = some step) :
    Nat.ofDigitChars 10 (digits.take i) n ≤ limit ∧
      step.1 = Int64.ofNat (10 * Nat.ofDigitChars 10 (digits.take i) n) ∧
      step.2 = Int64.ofNat (Nat.ofDigitChars 10 (digits.take (i + 1)) n) ∧
      Nat.ofDigitChars 10 (digits.take (i + 1)) n ≤ 10 * limit + 9 := by
  induction digits generalizing n i with
  | nil => simp [readingSteps] at h
  | cons c rest ih =>
    have hc := hd c (.head _)
    have hnine := toNat_sub_le_nine hc
    have hlt := ofNat_lt_ofNat_iff (n := 10 * n + (c.toNat - '0'.toNat)) hl (by omega)
    rw [readingSteps, mul_ten_add_digitWeight hc] at h
    cases i with
    | zero =>
      obtain rfl := Option.some.inj h
      rw [List.take_succ_cons, Nat.ofDigitChars_cons, List.take_zero, List.take_zero,
        Nat.ofDigitChars_nil, Nat.ofDigitChars_nil]
      refine ⟨hn, ?_, rfl, by omega⟩
      rw [Int64.ofNat_mul, Int64.mul_comm]
      rfl
    | succ i =>
      rw [List.getElem?_cons_succ] at h
      split at h
      · simp at h
      · rename_i hle
        rw [List.take_succ_cons, List.take_succ_cons, Nat.ofDigitChars_cons, Nat.ofDigitChars_cons]
        exact ih (fun c hc => hd c (.tail _ hc)) _ (Nat.not_lt.1 (mt hlt.2 hle)) h

/-! ## Literals -/

/-- The value of a literal with its sign. -/
def signedDecimal (negative : Bool) (digits : Text) : Int :=
  if negative then -digits.decimal else digits.decimal

/-- What becomes of a literal of digits, also as a token where an operand is due: it is read as its
decimal value if that is within the limit, and it is out of range otherwise. -/
structure ReadExactly (negative : Bool) (digits : Text) : Prop where
  within : digits.decimal ≤ literalLimit negative →
    ∃ v : Int32, readLiteral negative digits = some v ∧ v.toInt = signedDecimal negative digits ∧
      ∀ (tok : Token) (pos : Pos) (site : OperandSite), tok.text = digits →
        tok.literal negative pos site = .ok (.operandDone (.int pos v) site)
  beyond : literalLimit negative < digits.decimal →
    readLiteral negative digits = none ∧
      ∀ (tok : Token) (pos : Pos) (site : OperandSite), tok.text = digits →
        ∃ e : SyntaxError, tok.literal negative pos site = .error e ∧
          e.message = tok.pos.mark ++ ("integer literal out of range: ".toList ++
            if negative then '-' :: digits else digits)
  /-- The numbers that reading goes through do not leave the 64 bits: they are what the beginnings
  of the literal stand for, and not larger than what one more digit makes of the limit. -/
  steps (i : Nat) (step : Int64 × Int64)
    (h : (readingSteps (Int64.ofNat (literalLimit negative)) 0 digits)[i]? = some step) :
      step.1.toInt = (10 * Text.decimal (digits.take i) : Nat) ∧
      step.2.toInt = Text.decimal (digits.take (i + 1)) ∧
      step.1.toInt ≤ 10 * 2147483648 ∧ step.2.toInt ≤ 10 * 2147483648 + 9
  /-- Reading fails if the last of these numbers is above the limit, and gives it otherwise. -/
  last : readDigits (Int64.ofNat (literalLimit negative)) 0 digits =
    let last? := (readingSteps (Int64.ofNat (literalLimit negative)) 0 digits).getLast?
    if last?.any (Int64.ofNat (literalLimit negative) < ·.2) then none
    else some ((last?.map Prod.snd).getD 0)

section Literals

variable {negative : Bool} {digits : Text}

theorem literalLimit_le (negative : Bool) : literalLimit negative ≤ 2147483648 := by
  cases negative <;> decide

/-- Within the limit the 32 bits hold the value with its sign. -/
theorem toInt_ofInt_signedDecimal (h : digits.decimal ≤ literalLimit negative) :
    (Int32.ofInt (signedDecimal negative digits)).toInt = signedDecimal negative digits := by
  refine Int32.toInt_ofInt_of_le ?_ ?_ <;> cases negative <;>
    simp [literalLimit, signedDecimal] at h ⊢ <;> omega

theorem Token.literal_of_some {tok : Token} {v : Int32} (h : readLiteral negative tok.text = some v)
    (pos : Pos) (site : OperandSite) :
    tok.literal negative pos site = .ok (.operandDone (.int pos v) site) := by
  simp only [Token.literal, h]

theorem Token.literal_of_none {tok : Token} (h : readLiteral negative tok.text = none)
    (pos : Pos) (site : OperandSite) :
    tok.literal negative pos site = .error ⟨tok.pos, .literalRange negative tok.text⟩ := by
  simp only [Token.literal, h, Token.reject]

/-- Digits are read exactly, however many they are. -/
theorem readExactly (hd : ∀ c ∈ digits, c.isDigit = true) : ReadExactly negative digits where
  within h := by
    have hread : readLiteral negative digits = _ := readLiteral_of_digits hd
    rw [if_pos h] at hread
    refine ⟨_, hread, toInt_ofInt_signedDecimal h, ?_⟩
    rintro tok pos site rfl
    exact Token.literal_of_some hread pos site
  beyond h := by
    have hread : readLiteral negative digits = _ := readLiteral_of_digits hd
    rw [if_neg (Nat.not_le.2 h)] at hread
    refine ⟨hread, ?_⟩
    rintro tok pos site rfl
    exact ⟨_, Token.literal_of_none hread pos site, rfl⟩
  steps i step h := by
    have hl := literalLimit_le negative
    obtain ⟨hle, hproduct, hsum, hbound⟩ := readingSteps_ofNat _ hl hd 0 (Nat.zero_le _) h
    rw [hproduct, hsum, Int64.toInt_ofNat_of_lt (by omega), Int64.toInt_ofNat_of_lt (by omega)]
    exact ⟨rfl, rfl, by omega, by omega⟩
  last := readDigits_eq_readingSteps _ _ _

end Literals

/-! ## Numbers -/

/-- A program that is an integer line but for its positions is an integer line. -/
theorem Program.eq_of_unplaced_int {q : Program} {n : Int32}
    (h : q.unplaced = [.line (.expr .nowhere (.int .nowhere n))]) :
    ∃ pos pos', q = [.line (.expr pos (.int pos' n))] := by
  obtain ⟨st, rfl, hst⟩ := List.map_eq_singleton_iff.1 h
  cases st with
  | fn f => simp [Statement.unplaced] at hst
  | line l =>
    cases l with
    | loop | brk | other => simp [Statement.unplaced, Line.unplaced] at hst
    | expr pos e =>
      cases e with
      | int pos' value =>
        obtain rfl : value = n := by simpa [Statement.unplaced, Line.unplaced, Expr.unplaced] using hst
        exact ⟨pos, pos', rfl⟩
      | _ => simp [Statement.unplaced, Line.unplaced, Expr.unplaced] at hst

/-- A number and a semicolon are read as the line that has the number for its value. -/
theorem parse_ofInt (n : Int32) :
    ∃ pos pos', parse (Text.ofInt n.toInt ++ [';']) = .ok [.line (.expr pos (.int pos' n))] := by
  let p : Program := [.line (.expr .nowhere (.int .nowhere n))]
  have hchunks : p.chunks = [.numeral n, .symbol .semicolon] := by
    simp [p, Program.chunks, Statement.chunks, Line.chunks, Expr.chunks]
  have hadj : p.chunks.IsChain Chunk.Adjoins := by
    rw [hchunks]
    refine List.isChain_pair.2 ?_
    intro rest
    have hend : ∀ c ∈ (';' :: rest).head?, isNamePart c = false := by
      intro c hc
      obtain rfl : ';' = c := by simpa using hc
      rfl
    exact TokenKind.endsAt_of_word (by simp [Chunk.lastKind]) hend
  have hspaced : Spaced p.chunks (Text.ofInt n.toInt ++ [';']) := by
    have htext : p.chunks.flatMap Chunk.spelling = Text.ofInt n.toInt ++ [';'] := by
      rw [hchunks, List.flatMap_cons, List.flatMap_singleton]
      rfl
    exact htext ▸ spaced_flatMap p.chunks
  obtain ⟨q, hq, hsame⟩ := Program.parse_spaced (p := p) rfl hadj hspaced
  have hint : p.unplaced = [.line (.expr .nowhere (.int .nowhere n))] := by
    simp [p, Program.unplaced, Statement.unplaced, Line.unplaced, Expr.unplaced]
  obtain ⟨pos, pos', rfl⟩ := Program.eq_of_unplaced_int (hsame.trans hint)
  exact ⟨pos, pos', hq⟩

/-- Literals are read exactly, and every 32-bit number has one. -/
theorem literals_readExactly :
    (∀ (negative : Bool) (digits : Text), (∀ c ∈ digits, c.isDigit = true) →
      ReadExactly negative digits) ∧
    ∀ n : Int32, ∃ pos pos',
      parse (Text.ofInt n.toInt ++ [';']) = .ok [.line (.expr pos (.int pos' n))] :=
  ⟨fun _ _ hd => readExactly hd, parse_ofInt⟩

end FrameLang
