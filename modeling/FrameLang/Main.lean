import FrameLang.CommandLine

/-!
# The program

Reads the arguments and the files of a call and writes what the call leaves.
-/

namespace FrameLang

/-- The text of a sequence of bytes. -/
def textOfBytes (bytes : ByteArray) : Text :=
  bytes.toList.map Char.ofUInt8

/-- The bytes of a text. -/
def bytesOfText (t : Text) : ByteArray :=
  ⟨(t.map Char.toUInt8).toArray⟩

/-- The text of an argument. -/
def textOfString (s : String) : Text :=
  textOfBytes s.toUTF8

/-- The argument with the given text. -/
def stringOfText (t : Text) : String :=
  (String.fromUTF8? (bytesOfText t)).getD (String.ofList t)

/-- Writes a reply to the standard streams. -/
def emitReply (reply : Reply) : IO UInt32 := do
  (← IO.getStdout).write (bytesOfText reply.stdout)
  (← IO.getStderr).write (bytesOfText reply.stderr)
  return UInt32.ofNat reply.exitCode

/-- The contents of a file, if it can be read. -/
def readSource (path : Text) : IO (Option Text) := do
  try
    return some (textOfBytes (← IO.FS.readBinFile (stringOfText path)))
  catch _ =>
    return none

/-- Whether new contents could be written to a file. -/
def writeTarget (path contents : Text) : IO Bool := do
  try
    IO.FS.writeBinFile (stringOfText path) (bytesOfText contents)
    return true
  catch _ =>
    return false

/-- The plan for a request, with as many steps as it takes. -/
partial def awaitPlan (request : Request) (source : Option Text) (fuel : Nat) :
    Except NumeralOverflow Plan := do
  match ← request.plan fuel source with
  | some plan => return plan
  | none => awaitPlan request source (8 * fuel)

/-- A call with the given arguments. -/
def runCall (tool : Text) (args : List Text) : IO UInt32 := do
  match Request.ofArguments args with
  | .error e => emitReply (.failure (e.text (toolName (some tool))))
  | .ok request =>
    match awaitPlan request (← readSource request.path) 1048576 with
    | .error _ => throw (IO.userError "a position in a message is out of range")
    | .ok (.reply reply) => emitReply reply
    | .ok (.write path contents) =>
      emitReply (.ofWriting path (← writeTarget path contents))

end FrameLang

/-- Answers a call of the program. -/
def main (args : List String) : IO UInt32 := do
  let tool := toString (← IO.appPath)
  FrameLang.runCall (FrameLang.textOfString tool) (args.map FrameLang.textOfString)
