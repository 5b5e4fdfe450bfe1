import EvmFlow.Settings
import EvmFlow.Text.Cut

/-!
# Settings on the command line

A setting is given by an option and its value, either as two arguments or as
one, `option=value`; one setting is given by a flag. An option without a value
is an error, and so is one whose next argument starts with a dash. Arguments
that are neither are no concern of the settings and are passed over, also the
*reserved words*: these are known, but set nothing. A reserved word can also
take a value after an equals sign, which must then not be empty.
-/

namespace EvmFlow.Settings

/-- An option was given without a value. -/
structure MissingValue where
  /-- The option as it was written. -/
  option : String
  deriving DecidableEq, Repr

/-- The options that take a value, and what they set. -/
def valueOptions : List (String × Key) :=
  [("--hardfork", .hardfork), ("--fork", .hardfork), ("--log-level", .logLevel),
    ("--format", .format), ("-f", .format)]

/-- The flag, and what it sets. -/
def flags : List (String × Key) := [("--strict-code-end", .strictEnd)]

/-- The words that are known but set nothing. -/
def reservedWords : List String :=
  ["constructor", "toString", "toLocaleString", "valueOf", "hasOwnProperty", "isPrototypeOf",
    "propertyIsEnumerable", "__proto__", "__defineGetter__", "__defineSetter__",
    "__lookupGetter__", "__lookupSetter__"]

/-- What an argument is to the settings. -/
inductive Argument
  /-- A flag. -/
  | flag (key : Key)
  /-- An option whose value is the next argument. -/
  | option (name : String) (key : Key)
  /-- An option with its value. -/
  | assignment (name : String) (key : Key) (value : String)
  /-- A reserved word with a value. -/
  | reserved (name : String) (value : String)
  /-- Anything else. -/
  | other
  deriving DecidableEq, Repr

/-- What an argument is to the settings. -/
def Argument.ofText (text : String) : Argument :=
  match flags.lookup text with
  | some key => .flag key
  | none =>
    if reservedWords.contains text then .other
    else match Text.cutAt '=' text with
      | (name, none) =>
        match valueOptions.lookup name with
        | some key => .option name key
        | none => .other
      | (name, some value) =>
        match valueOptions.lookup name with
        | some key => .assignment name key value
        | none => if reservedWords.contains name then .reserved name value else .other

/-- A piece of the command line as the settings read it. -/
inductive Piece
  /-- A flag. -/
  | flag (key : Key)
  /-- An option and the argument behind it. -/
  | option (key : Key) (value : String)
  /-- An option with its value in one argument. -/
  | assignment (key : Key) (value : String)
  /-- An argument that sets nothing. -/
  | passedOver
  deriving DecidableEq, Repr

/-- The number of arguments in a piece. -/
def Piece.width : Piece → Nat
  | option .. => 2
  | _ => 1

/-- What a piece sets. -/
def Piece.setting? : Piece → Option (Key × String)
  | flag key => some (key, boolText true)
  | option key value => some (key, value)
  | assignment key value => some (key, value)
  | passedOver => none

/-- The pieces of a command line. -/
def pieces : (arguments : List String) → Except MissingValue (List Piece)
  | [] => .ok []
  | text :: rest =>
    match Argument.ofText text with
    | .flag key => do return .flag key :: (← pieces rest)
    | .option name key =>
      match rest with
      | [] => .error ⟨name⟩
      | value :: rest =>
        if Text.startsWith '-' value then .error ⟨name⟩
        else do return .option key value :: (← pieces rest)
    | .assignment name key value =>
      if value = "" then .error ⟨name⟩ else do return .assignment key value :: (← pieces rest)
    | .reserved name value =>
      if value = "" then .error ⟨name⟩ else do return .passedOver :: (← pieces rest)
    | .other => do return .passedOver :: (← pieces rest)

/-- The value that the pieces of a command line give to a key, which is the
    last one. -/
def assigned? (pieces : List Piece) (key : Key) : Option String :=
  (pieces.filterMap Piece.setting?).reverse.lookup key

end EvmFlow.Settings
