import FrameLang.Position

/-!
# Diagnostics

An error message may start with the position it is about, as in `3:14: unexpected character`. A
diagnostic takes the position out of the message, shows the line of the source text that it is in,
points at the column, and adds a hint for the errors that have one.

## Main definitions

* `locate` — the position and the text of a message.
* `sourceLine` — one line of a source text.
* `hintFor` — the hint for a message.
* `diagnostic` — the full text.
-/

namespace FrameLang

/-! ## Messages with a position -/

/-- A numeral does not fit 64 bits. -/
structure NumeralOverflow where
deriving DecidableEq, Repr, Inhabited

/-- The first number that does not fit 64 bits. -/
def numeralLimit : Nat := 18446744073709551616

/-- The numeral with the given digits, read in 64 bits and cut down to 32 bits. -/
def wordOfDigits (digits : Text) : Except NumeralOverflow UInt32 :=
  let value := Nat.ofDigitChars 10 digits 0
  if value < numeralLimit then .ok (UInt32.ofNat value) else .error {}

/-- A message, and the position that it is about if it names one. -/
structure Located where
  pos : Option Pos
  text : Text
deriving DecidableEq, Repr

/-- Splits a text of the form `digits:rest`. -/
def splitNumeral (t : Text) : Option (Text × Text) :=
  match t.takeWhile Char.isDigit, t.dropWhile Char.isDigit with
  | d :: digits, ':' :: rest => some (d :: digits, rest)
  | _, _ => none

/-- The text of a message that has a position; it is never empty. -/
def messageText (t : Text) : Text :=
  match t.trim with
  | [] => "diagnostic error".toList
  | text => text

/-- Takes the position out of a message of the form `line:column:text`. A message of another form,
or one in which a number is zero in 32 bits, is about no position. -/
def locate (message : Text) : Except NumeralOverflow Located :=
  let t := message.trim
  match splitNumeral t with
  | none => .ok ⟨none, t⟩
  | some (lineDigits, rest) => do
    let line ← wordOfDigits lineDigits
    match splitNumeral rest with
    | none => return ⟨none, t⟩
    | some (columnDigits, text) =>
      let column ← wordOfDigits columnDigits
      if line = 0 ∨ column = 0 then
        return ⟨none, t⟩
      else
        return ⟨some ⟨line, column⟩, messageText text⟩

/-! ## Lines of a source text -/

/-- The line with the given number, counted from one, without its newline. A line that does not
exist is empty. -/
def sourceLine : Nat → Text → Text
  | 0, _ => []
  | 1, source => source.takeWhile (· ≠ '\n')
  | n + 2, source =>
    match source.dropWhile (· ≠ '\n') with
    | [] => []
    | _ :: rest => sourceLine (n + 1) rest

/-! ## Hints -/

/-- Whether `part` occurs in a text. -/
def occursIn (part : Text) : Text → Bool
  | [] => part.isEmpty
  | c :: rest => part.isPrefixOf (c :: rest) || occursIn part rest

/-- The hints, each behind the words that call for it. The first that fits is given. -/
def hints : List (Text × Text) :=
  [("unexpected character".toList,
      "remove unsupported characters or escape them if inside literals".toList),
    ("'break' outside of a loop".toList, "'break' may only appear inside a loop body".toList),
    ("does not end with a value".toList, "end the function body with an expression line".toList),
    ("argument(s), got".toList, "pass exactly as many arguments as the function declares".toList),
    ("expected".toList, "check surrounding syntax near the highlighted token".toList)]

/-- The hint for a message, if it has one. -/
def hintFor (message : Text) : Option Text :=
  (hints.find? fun (words, _) => occursIn words message).map Prod.snd

/-! ## Diagnostics -/

/-- A plain error. -/
def errorLine (message : Text) : Text :=
  "error[E0001]: ".toList ++ message.trim ++ ['\n']

/-- The hint for a message on a line of its own, or nothing. -/
def hintLine (message : Text) : Text :=
  match hintFor message with
  | some hint => "  = help: ".toList ++ hint ++ ['\n']
  | none => []

/-- A line of a source text with a mark under a column. An empty line is not shown. -/
def excerpt (source : Text) (pos : Pos) : Text :=
  match sourceLine pos.line.toNat source with
  | [] => []
  | line =>
    "  |\n".toList ++ Text.ofNat pos.line.toNat ++ " | ".toList ++ line ++ "\n  | ".toList ++
      List.replicate (pos.column.toNat - 1) ' ' ++ ['^', '\n']

/-- The diagnostic for a message about the source text in the file `path`. -/
def diagnostic (path source message : Text) : Except NumeralOverflow Text := do
  match ← locate message with
  | ⟨none, text⟩ => return errorLine text ++ hintLine text
  | ⟨some pos, text⟩ =>
    return "error[E0001]: ".toList ++ text ++ "\n --> ".toList ++ path ++
      ':' :: Text.ofNat pos.line.toNat ++ ':' :: Text.ofNat pos.column.toNat ++ ['\n'] ++
      excerpt source pos ++ hintLine text

end FrameLang
