import EvmFlow.Analysis
import EvmFlow.Command.Action
import EvmFlow.Settings.Resolve
import EvmFlow.Text.JsonLine
import EvmFlow.Text.Utf8

/-!
# The outcome of a command

A command always has an outcome: an exit code, the lines it prints, and what
it logs. The exit code is 0 when something was displayed or the code was
accepted, 1 when the code was rejected, and 2 when the command could not be
carried out. What goes wrong first decides: the action, the settings, reading
the file, and the text of the code, in this order.
-/

namespace EvmFlow.Command

/-- Why a command could not be carried out. -/
inductive Failure
  /-- It is not known what is asked for. -/
  | misuse (misuse : Misuse)
  /-- There are no settings. -/
  | settings (failure : Settings.Failure)
  /-- A file cannot be read. -/
  | unreadable (path : String)
  /-- A text writes no code. -/
  | malformedCode
  deriving DecidableEq, Repr

/-- What is said of a failure. -/
def Failure.message : Failure → String
  | misuse m => m.message
  | settings f => f.message
  | unreadable path => "cannot read " ++ path
  | malformedCode => Code.malformed

/-- The outcome of a command. -/
structure Outcome where
  /-- The exit code. -/
  exitCode : Nat
  /-- The lines to print. -/
  output : List String
  /-- The records of the log. -/
  records : List Log.Record
  deriving DecidableEq, Repr

/-- The outcome of a command that could not be carried out. -/
def Outcome.ofFailure (f : Failure) : Outcome := ⟨2, ["error: " ++ f.message], []⟩

/-- The version of the program. -/
def version : String := "0.1.0"

/-- The lines of the help. -/
def help : List String :=
  ["Usage: evm-code-validator [options] (<hex> | --file <path>)",
    "",
    "Statically checks that code cannot reach an invalid instruction,",
    "an invalid jump destination, or a stack underflow/overflow.",
    "",
    "Options:",
    "  --hardfork <name>    instruction set to validate against (default cancun)",
    "  --format text|json   output format (default text)",
    "  --log-level <level>  all|trace|debug|info|warning|error|fatal|none",
    "  --strict-code-end    reject paths that run off the end of code",
    "  -i, --file <path>    read hex-encoded code from a file",
    "  -h, --help           show this help",
    "  -v, --version        show the version"]

/-! ## Verdicts -/

/-- The line for accepted code. -/
def accepted (settings : Settings) (r : Report) : String :=
  match settings.format with
  | .text =>
    "accepted: " ++ Text.decimal r.codeLength ++ " bytes, " ++
      Text.decimal r.instructionsVisited ++ " instructions, " ++
      Text.decimal r.pathsExplored ++ " paths, max stack " ++ Text.decimal r.maxStackHeight
  | .json =>
    Text.JsonLine.object [("accepted", Text.JsonLine.bool true),
      ("hardfork", Text.JsonLine.string settings.hardfork.name),
      ("codeLength", Text.JsonLine.integer r.codeLength),
      ("instructionsVisited", Text.JsonLine.integer r.instructionsVisited),
      ("pathsExplored", Text.JsonLine.integer r.pathsExplored),
      ("maxStackHeight", Text.JsonLine.integer r.maxStackHeight),
      ("jumpDestinations",
        Text.JsonLine.array (r.jumpDestinations.map fun (d : Nat) => Text.JsonLine.integer d))]

/-- The line for rejected code. -/
def rejected (settings : Settings) (v : Violation) : String :=
  match settings.format with
  | .text => "rejected: " ++ v.message
  | .json =>
    Text.JsonLine.object [("accepted", Text.JsonLine.bool false),
      ("hardfork", Text.JsonLine.string settings.hardfork.name),
      ("error", Text.JsonLine.string (v.kind ++ "Error")),
      ("pc", Text.JsonLine.integer v.pc),
      ("message", Text.JsonLine.string v.message)]

/-- The outcome of validating code under the settings. -/
def validate (settings : Settings) (code : Code) : Outcome :=
  let analysis := Analysis.analyze (.ofHardfork settings.hardfork) settings.strictEnd code
  let records := Log.kept settings.logLevel analysis.records
  match analysis.result with
  | .ok r => ⟨0, [accepted settings r], records⟩
  | .error v => ⟨1, [rejected settings v], records⟩

/-! ## Commands -/

/-- The surroundings of a command. -/
structure Context where
  /-- The value of an environment variable. -/
  environment : String → Option String
  /-- The bytes of the file at a path, none if it cannot be read. -/
  read : String → Option (List UInt8)

/-- The code that a source gives. -/
def load (context : Context) : Source → Except Failure Code
  | .hex text => ofText text
  | .file path =>
    match context.read path with
    | none => .error (.unreadable path)
    | some bytes => ofText (String.ofList (Text.Utf8.decode bytes))
where
  /-- The code that a text writes. -/
  ofText (text : String) : Except Failure Code :=
    match Code.ofHex? text with
    | none => .error .malformedCode
    | some code => .ok code

/-- The outcome of a command, or why it could not be carried out. -/
def attempt (context : Context) (arguments : List String) : Except Failure Outcome :=
  match action arguments with
  | .error m => .error (.misuse m)
  | .ok .showHelp => .ok ⟨0, help, []⟩
  | .ok .showVersion => .ok ⟨0, [version], []⟩
  | .ok (.validate source) =>
    match Settings.resolve ⟨arguments, context.environment, fun _ => none⟩ with
    | .error f => .error (.settings f)
    | .ok settings =>
      match load context source with
      | .error f => .error f
      | .ok code => .ok (validate settings code)

/-- The outcome of a command. -/
def run (context : Context) (arguments : List String) : Outcome :=
  match attempt context arguments with
  | .ok outcome => outcome
  | .error f => .ofFailure f

/-! ## Output streams -/

/-- What a command prints on the standard streams, one text after the other. -/
structure Streams where
  stdout : List String
  stderr : List String
  deriving DecidableEq, Repr

/-- The output goes to the error stream when the command could not be carried
    out. -/
def Outcome.streams (o : Outcome) : Streams :=
  if o.exitCode = 2 then ⟨[], o.output⟩ else ⟨o.output, []⟩

end EvmFlow.Command
