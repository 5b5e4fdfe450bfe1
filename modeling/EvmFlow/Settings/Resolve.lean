import EvmFlow.Settings.Arguments
import EvmFlow.Text.Blank

/-!
# Resolving the settings

A setting is taken from the command line, where the last occurrence counts;
else from the environment, where a variable that is blank counts as not set;
else from the given defaults; else it has its built-in default. The raw values
found this way are then decoded together.
-/

namespace EvmFlow.Settings

/-- Why there are no settings. -/
inductive Failure
  /-- An option was given without a value. -/
  | missingValue (option : String)
  /-- A raw value is out of its domain. -/
  | invalid
  deriving DecidableEq, Repr

/-- What is said of a failure. -/
def Failure.message : Failure → String
  | missingValue option => option ++ " requires a value"
  | invalid => "Invalid validator config"

/-- Where settings come from. -/
structure Sources where
  /-- The arguments of the command line. -/
  arguments : List String
  /-- The value of an environment variable. -/
  environment : String → Option String
  /-- The given defaults. -/
  defaults : Key → Option Json

/-- The value of an environment variable that is not blank. -/
def environmentValue? (environment : String → Option String) (key : Key) : Option String :=
  (environment key.variableName).filter fun value => !Text.isAllBlank value

/-- The raw value of a key, given the pieces of the command line. -/
def raw (sources : Sources) (given : List Piece) (key : Key) : Json :=
  match assigned? given key with
  | some value => .str value
  | none =>
    match environmentValue? sources.environment key with
    | some value => .str value
    | none => (sources.defaults key).getD (.str key.default)

/-- The settings that the sources give. -/
def resolve (sources : Sources) : Except Failure Settings :=
  match pieces sources.arguments with
  | .error e => .error (.missingValue e.option)
  | .ok given =>
    match decode (raw sources given) with
    | none => .error .invalid
    | some settings => .ok settings

end EvmFlow.Settings
