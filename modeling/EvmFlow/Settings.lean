import EvmFlow.Hardfork
import EvmFlow.Json
import EvmFlow.Log

/-!
# Settings

What can be set for a run of the program: the hardfork, the minimum level of
the log, the format of the output, and whether paths must not run off the end
of the code. Each setting has a *key* and a *raw value*, which is a string
when it was given on the command line or in the environment.

* `Settings.decode` reads the settings from raw values;
* `Settings.ofRecord?` reads them from a record, and `Settings.toDocument`
  writes them back as raw values.
-/

namespace EvmFlow

/-- The format of the output. -/
inductive Format
  | text
  | json
  deriving DecidableEq, Repr, Inhabited

namespace Format

/-- The name of a format. -/
def name : Format → String
  | text => "text"
  | json => "json"

/-- The format of a name. -/
def ofName? (text : String) : Option Format := Text.named? [.text, .json] name text

theorem ofName?_eq_some_iff {text : String} {f : Format} : ofName? text = some f ↔ text = f.name :=
  Text.named?_eq_some_iff fun f => by cases f <;> decide

end Format

/-- The settings of a run. -/
structure Settings where
  /-- The hardfork whose rules apply. -/
  hardfork : Hardfork
  /-- The minimum level of the log. -/
  logLevel : Log.Level
  /-- The format of the output. -/
  format : Format
  /-- Paths must not run off the end of the code. -/
  strictEnd : Bool
  deriving DecidableEq, Repr

namespace Settings

/-- What can be set. -/
inductive Key
  | hardfork
  | logLevel
  | format
  | strictEnd
  deriving DecidableEq, Repr

namespace Key

/-- The name of a key in records and documents. -/
def name : Key → String
  | hardfork => "hardfork"
  | logLevel => "logLevel"
  | format => "format"
  | strictEnd => "strictCodeEnd"

/-- The environment variable of a key. -/
def variableName : Key → String
  | hardfork => "EVM_CODE_VALIDATOR_HARDFORK"
  | logLevel => "EVM_CODE_VALIDATOR_LOG_LEVEL"
  | format => "EVM_CODE_VALIDATOR_FORMAT"
  | strictEnd => "EVM_CODE_VALIDATOR_STRICT_CODE_END"

/-- The raw value of a key that is not set anywhere. -/
def default : Key → String
  | hardfork => "cancun"
  | logLevel => "info"
  | format => "text"
  | strictEnd => "false"

end Key

/-- The text of a truth value. -/
def boolText (b : Bool) : String := if b then "true" else "false"

/-- The truth value of a text. -/
def boolOfText? (text : String) : Option Bool := Text.named? [true, false] boolText text

theorem boolOfText?_eq_some_iff {text : String} {b : Bool} :
    boolOfText? text = some b ↔ text = boolText b :=
  Text.named?_eq_some_iff fun b => by cases b <;> decide

/-- The settings of raw values, none if one of them is out of its domain. -/
def decode (raw : Key → Json) : Option Settings := do
  let hardfork ← Hardfork.ofName? (← (raw .hardfork).text?)
  let logLevel ← Log.Level.ofName? (← (raw .logLevel).text?)
  let format ← Format.ofName? (← (raw .format).text?)
  let strictEnd ← boolOfText? (← (raw .strictEnd).text?)
  return { hardfork, logLevel, format, strictEnd }

/-- Reads a record of settings, in which the last one is a truth value. Fields
    that are no settings are dropped. -/
def ofRecord? (j : Json) : Option Settings := do
  let hardfork ← Hardfork.ofName? (← (← j.field? Key.hardfork.name).text?)
  let logLevel ← Log.Level.ofName? (← (← j.field? Key.logLevel.name).text?)
  let format ← Format.ofName? (← (← j.field? Key.format.name).text?)
  let strictEnd ← (← j.field? Key.strictEnd.name).bool?
  return { hardfork, logLevel, format, strictEnd }

/-- The raw values of settings. -/
def toDocument (s : Settings) : Json :=
  .obj [(Key.hardfork.name, .str s.hardfork.name), (Key.logLevel.name, .str s.logLevel.name),
    (Key.format.name, .str s.format.name), (Key.strictEnd.name, .str (boolText s.strictEnd))]

end Settings

end EvmFlow
