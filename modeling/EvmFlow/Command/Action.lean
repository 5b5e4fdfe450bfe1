import EvmFlow.Settings.Arguments

/-!
# What the command line asks for

The arguments ask for the help, for the version, or for code to be validated,
which is given in place or in a file. A request for help or for the version
counts wherever it stands, but not both. Otherwise there has to be one code:
an argument that does not start with a dash, or a file option and the path
behind it. The value behind a value option of the settings is never code.
-/

namespace EvmFlow.Command

/-- Where the code comes from. -/
inductive Source
  /-- The argument itself. -/
  | hex (text : String)
  /-- A file. -/
  | file (path : String)
  deriving DecidableEq, Repr

/-- What the command line asks for. -/
inductive Action
  | showHelp
  | showVersion
  | validate (source : Source)
  deriving DecidableEq, Repr

/-- Why it is not known what the command line asks for. -/
inductive Misuse
  /-- Help and version are both asked for. -/
  | conflictingDisplay
  /-- No code is given. -/
  | missingCode
  /-- More than one code is given. -/
  | multipleSources
  /-- A file option has no path. -/
  | missingPath
  deriving DecidableEq, Repr

/-- The flags that ask for something to be displayed and exclude each other. -/
def displayFlags : List String := ["--help", "--version"]

/-- What is said of a misuse. -/
def Misuse.message : Misuse → String
  | conflictingDisplay => String.intercalate " and " displayFlags ++ " cannot be combined"
  | missingCode => "no code given"
  | multipleSources => "give exactly one code source"
  | missingPath => "--file requires a path"

/-- The arguments that ask for the help. -/
def helpFlags : List String := ["--help", "-h"]

/-- The arguments that ask for the version. -/
def versionFlags : List String := ["--version", "-v"]

/-- The options that name a file. -/
def fileOptions : List String := ["--file", "-i"]

/-- The argument is an option of the settings whose value is the next one. -/
def isValueOption (text : String) : Bool := (Settings.valueOptions.lookup text).isSome

/-- A piece of the command line as the search for code reads it. -/
inductive Piece
  /-- A file option and the path behind it. -/
  | file (path : String)
  /-- Code in place. -/
  | hex (text : String)
  /-- An option of the settings and the argument behind it. -/
  | setting
  /-- An argument that is no code. -/
  | passedOver
  deriving DecidableEq, Repr

/-- The number of arguments in a piece. -/
def Piece.width : Piece → Nat
  | file _ | setting => 2
  | _ => 1

/-- The code that a piece gives. -/
def Piece.source? : Piece → Option Source
  | file path => some (.file path)
  | hex text => some (.hex text)
  | _ => none

/-- The pieces of a command line. -/
def pieces : (arguments : List String) → Except Misuse (List Piece)
  | [] => .ok []
  | text :: rest =>
    if fileOptions.contains text then
      match rest with
      | [] => .error .missingPath
      | path :: rest =>
        if Text.startsWith '-' path then .error .missingPath
        else do return .file path :: (← pieces rest)
    else if isValueOption text then
      match rest with
      | [] => .ok [.passedOver]
      | _ :: rest => do return .setting :: (← pieces rest)
    else if Text.startsWith '-' text then do return .passedOver :: (← pieces rest)
    else do return .hex text :: (← pieces rest)

/-- The one code that the arguments give. -/
def source (arguments : List String) : Except Misuse Source := do
  match (← pieces arguments).filterMap Piece.source? with
  | [] => .error .missingCode
  | [source] => .ok source
  | _ => .error .multipleSources

/-- What the arguments ask for. -/
def action (arguments : List String) : Except Misuse Action :=
  let help := arguments.any helpFlags.contains
  let version := arguments.any versionFlags.contains
  if help && version then .error .conflictingDisplay
  else if help then .ok .showHelp
  else if version then .ok .showVersion
  else do return .validate (← source arguments)

end EvmFlow.Command
