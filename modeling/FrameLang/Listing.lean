import FrameLang.Instr.Operation

/-!
# Listings

A listing is a finished piece of code: its operations and the register that holds the result, if
there is one. Written out, it has one operation a line; all but the labels are indented, and a last
line names the result.
-/

namespace FrameLang

/-- Code and the register of its result. -/
structure Listing where
  operations : List Operation
  result : Option Register
deriving DecidableEq, Repr

namespace Listing

/-- The listing without code. -/
def empty : Listing := ⟨[], none⟩

/-- The listing of a list of instructions. -/
def ofInstrs (code : List Instr) (result : Option Register) : Listing :=
  ⟨code.map Instr.encode, result⟩

end Listing

/-- An instruction on a line of its own. -/
def Instr.line (i : Instr) : Text :=
  (if i.isLabel then [] else [' ', ' ']) ++ i.text ++ ['\n']

/-- The last line of a listing. -/
def resultLine (result : Option Register) : Text :=
  "; result: ".toList ++ (result.map Register.text).getD "none".toList ++ ['\n']

/-- How a listing is written. -/
def Listing.text (listing : Listing) : Text :=
  (listing.operations.flatMap fun op => op.decode.line) ++ resultLine listing.result

end FrameLang
