import FrameLang.Listing

/-!
# Images

An image is code that is ready to run: every register exists, no label stands twice, and the result
register exists too. `Listing.load` accepts exactly such listings and reports the first operation
that is wrong.
-/

namespace FrameLang

/-- Code that is ready to run. -/
structure Image where
  code : Array Instr
  result : Option Register
deriving DecidableEq, Repr

/-- Where a label stands. -/
def Image.resolve (image : Image) (l : Label) : Option Nat :=
  image.code.findIdx? (Instr.defines l)

/-- Why a listing cannot be run. -/
inductive LoadError where
  | registerRange (index : Nat) (op : Operation)
  | duplicateLabel (index : Nat) (l : Label)
  | resultRange (r : Register)
deriving DecidableEq, Repr

/-- The wording of a load error. -/
def LoadError.message : LoadError → Text
  | registerRange index op =>
    "register index out of range at ip ".toList ++ Text.ofNat index ++ [':', ' '] ++ op.text
  | duplicateLabel index l =>
    "duplicate label ".toList ++ l.text ++ " at ip ".toList ++ Text.ofNat index
  | resultRange r => "result register out of range: ".toList ++ r.text

/-- The first operation that is wrong, counted from `index` on, where `seen` are the labels that
stand in front. -/
def firstLoadError (index : Nat) (seen : List Label) : List Operation → Option LoadError
  | [] => none
  | op :: rest =>
    if op.inRange then
      match op.decode with
      | .label l =>
        if l ∈ seen then some (.duplicateLabel index l)
        else firstLoadError (index + 1) (l :: seen) rest
      | _ => firstLoadError (index + 1) seen rest
    else some (.registerRange index op)

/-- Checks a listing and makes it ready to run. -/
def Listing.load (listing : Listing) : Except LoadError Image :=
  match firstLoadError 0 [] listing.operations with
  | some error => .error error
  | none =>
    let image : Image := ⟨(listing.operations.map Operation.decode).toArray, listing.result⟩
    match listing.result with
    | some r => if r.inRange then .ok image else .error (.resultRange r)
    | none => .ok image

end FrameLang
