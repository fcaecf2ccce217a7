import FrameLang.CommandLine.Disk
import FrameLang.Diagnostic
import FrameLang.Lowering.Build
import FrameLang.Machine
import FrameLang.Program.Outline
import FrameLang.Program.Source

/-!
# The command line

A call names a task and a source file. The tasks are to run a program, to check that it can be
built, and to emit its listing or its outline into a file. A call is answered in three parts that
need no input or output of their own: what the arguments ask for, what is to be done about the
contents of the source file, and how the writing of a file went.

## Main definitions

* `Request.ofArguments` — what the arguments ask for.
* `Request.plan` — what to do about the contents of the source file.
* `Disk.call` — a whole call on a disk.
-/

namespace FrameLang

/-! ## Requests -/

/-- The name of the tool: the last component of the path it was called by, or else `brisk`. -/
def toolName (path : Option Text) : Text :=
  match Path.component (path.getD []) with
  | [] => "brisk".toList
  | name => name

/-- An argument as the program gets it: it ends before the first NUL. -/
def argument (t : Text) : Text :=
  t.takeWhile (· ≠ '\x00')

/-- How the tool is used. -/
def usage (tool : Text) : Text :=
  let line (rest : String) : Text := ' ' :: ' ' :: tool ++ rest.toList ++ ['\n']
  "usage:\n".toList ++ line " run <file.bk> [--check-arity]" ++
    line " emit -ir <file.bk> [--out <file.ir>] [--check-arity]" ++
    line " emit -ast <file.bk> [--out <file.ast>]" ++
    line " check <file.bk> [--check-arity]" ++
    line " <file.bk> [--check-arity]"

/-- What is wrong with the arguments. -/
inductive UsageError where
  | noArguments
  | outPath
  | emitArguments
  | inputFile
deriving DecidableEq, Repr

/-- What is shown for wrong arguments. -/
def UsageError.text (tool : Text) : UsageError → Text
  | noArguments => usage tool
  | outPath => errorLine "--out expects a path".toList
  | emitArguments => errorLine "emit expects -ir or -ast and an input file".toList
  | inputFile => errorLine "missing input file".toList

/-- The options of a call. An empty path counts as none. -/
structure Options where
  checkArity : Bool := false
  out : Text := []
deriving DecidableEq, Repr

/-- Reads the options; arguments that are none are passed over. -/
def Options.read (options : Options) : List Text → Except UsageError Options
  | [] => .ok options
  | [arg] =>
    if arg = "--out".toList then .error .outPath
    else if arg = "--check-arity".toList then .ok { options with checkArity := true }
    else .ok options
  | arg :: value :: rest =>
    if arg = "--out".toList then ({ options with out := value } : Options).read rest
    else if arg = "--check-arity".toList then
      ({ options with checkArity := true } : Options).read (value :: rest)
    else options.read (value :: rest)

/-- What is to be done with a program. -/
inductive Task where
  | run
  | check
  | emit (mode : Text)
deriving DecidableEq, Repr

/-- What a call asks for. -/
structure Request where
  task : Task
  path : Text
  options : Options
deriving DecidableEq, Repr

/-- A request about the given file, unless the path is empty or looks like an option. -/
def Request.about (task : Task) (path : Text) (options : Options) : Except UsageError Request :=
  if path = [] ∨ ['-', '-'] <+: path then .error .inputFile else .ok ⟨task, path, options⟩

/-- What the arguments ask for. -/
def Request.ofArguments : List Text → Except UsageError Request
  | [] => .error .noArguments
  | command :: rest => do
    let options ← Options.read {} rest
    if command = "emit".toList then
      match rest with
      | mode :: path :: _ => .ok ⟨.emit mode, path, options⟩
      | _ => .error .emitArguments
    else if command = "check".toList then Request.about .check (rest.headD []) options
    else if command = "run".toList then Request.about .run (rest.headD []) options
    else Request.about .run command options

/-! ## Plans -/

/-- What a call leaves: its exit code and what it wrote to the two streams. -/
structure Reply where
  exitCode : Nat
  stdout : Text
  stderr : Text
deriving DecidableEq, Repr

/-- The reply of a call that fails. -/
def Reply.failure (stderr : Text) : Reply := ⟨1, [], stderr⟩

/-- The reply of a call that succeeds. -/
def Reply.success (stdout : Text) : Reply := ⟨0, stdout, []⟩

/-- What is to be done for a call. -/
inductive Plan where
  | reply (r : Reply)
  | write (path contents : Text)
deriving DecidableEq, Repr

/-- The plan to report an error in a source text. -/
def Plan.report (path source message : Text) : Except NumeralOverflow Plan :=
  return .reply (.failure (← diagnostic path source message))

/-- The listing of a source text, or the message that says why there is none. -/
def compile (checkArity : Bool) (source : Text) : Except Text Listing :=
  match parse source with
  | .error e => .error e.message
  | .ok program =>
    match program.build checkArity with
    | .error e => .error e.message
    | .ok listing => .ok listing

/-- What is shown for the outcome of a run. -/
def Outcome.reply (outcome : Outcome) : Reply :=
  match outcome with
  | .halted _ (some value) _ => .success (Text.ofInt value.toInt ++ ['\n'])
  | .halted _ none _ => .success "none\n".toList
  | .trapped _ _ fault =>
    .failure (errorLine ("runtime trap: ".toList ++ fault.kind.name ++ [':', ' '] ++ outcome.error))
  | .refused message => .failure (errorLine ("load failed: ".toList ++ message))

/-- The file that is emitted: the one asked for, or else one beside the source. -/
def Request.target (request : Request) (ext : Text) : Text :=
  match request.options.out with
  | [] => Path.withExtension request.path ext
  | path => path

/-- What to do about the contents of the source file, which are missing if it cannot be read. Gives
nothing if a run needs more than `fuel` steps. -/
def Request.plan (request : Request) (fuel : Nat) :
    Option Text → Except NumeralOverflow (Option Plan)
  | none =>
    .ok (some (.reply (.failure (errorLine ("failed to open file: ".toList ++ request.path)))))
  | some source =>
    match request.task with
    | .emit mode =>
      if mode = "-ir".toList then
        match compile request.options.checkArity source with
        | .error message => some <$> Plan.report request.path source message
        | .ok listing => .ok (some (.write (request.target ".ir".toList) listing.text))
      else if mode = "-ast".toList then
        match parse source with
        | .error e => some <$> Plan.report request.path source e.message
        | .ok program => .ok (some (.write (request.target ".ast".toList) program.outline))
      else
        .ok (some (.reply (.failure (errorLine "emit expects -ir or -ast".toList))))
    | .check =>
      match compile request.options.checkArity source with
      | .error message => some <$> Plan.report request.path source message
      | .ok _ => .ok (some (.reply (.success [])))
    | .run =>
      match compile request.options.checkArity source with
      | .error message => some <$> Plan.report request.path source message
      | .ok listing => .ok ((listing.execute fuel).map fun outcome => .reply outcome.reply)

/-- The reply to a call that wrote a file, or tried to. -/
def Reply.ofWriting (path : Text) (written : Bool) : Reply :=
  if written then .success []
  else .failure (errorLine ("failed to open output file: ".toList ++ path))

/-! ## Calls -/

/-- Carries out a plan on a disk. -/
def Plan.carryOut (disk : Disk) : Plan → Reply × Disk
  | .reply r => (r, disk)
  | .write path contents =>
    match disk.write path contents with
    | some disk => (Reply.ofWriting path true, disk)
    | none => (Reply.ofWriting path false, disk)

/-- A call of the tool, known by the path `tool`, with the given arguments. Gives nothing if a run
needs more than `fuel` steps. -/
def Disk.call (disk : Disk) (tool : Option Text) (args : List Text) (fuel : Nat) :
    Except NumeralOverflow (Option (Reply × Disk)) :=
  match Request.ofArguments (args.map argument) with
  | .error e => .ok (some (.failure (e.text (toolName (tool.map argument))), disk))
  | .ok request => do
    let plan ← request.plan fuel (disk.read request.path)
    return plan.map (Plan.carryOut disk)

end FrameLang
