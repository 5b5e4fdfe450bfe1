import EvmFlow.Text.Named

/-!
# Log records

What happened, for whoever reads the log: a level, the parts of a message, and
annotations. A log has a minimum level; records below it are not kept.
-/

namespace EvmFlow.Log

/-- The level of a record, or of what is kept. -/
inductive Level
  | all
  | trace
  | debug
  | info
  | warning
  | error
  | fatal
  | none
  deriving DecidableEq, Repr, Inhabited

namespace Level

/-- All levels, in ascending order. -/
def ascending : List Level := [all, trace, debug, info, warning, error, fatal, none]

/-- The name by which a level is chosen. -/
def name : Level → String
  | all => "all"
  | trace => "trace"
  | debug => "debug"
  | info => "info"
  | warning => "warning"
  | error => "error"
  | fatal => "fatal"
  | none => "none"

/-- The level of a name. -/
def ofName? (text : String) : Option Level := Text.named? ascending name text

/-- The label under which a level is shown. -/
def label : Level → String
  | all => "ALL"
  | trace => "TRACE"
  | debug => "DEBUG"
  | info => "INFO"
  | warning => "WARN"
  | error => "ERROR"
  | fatal => "FATAL"
  | none => "OFF"

/-- The number by which levels are compared. -/
def ordinal : Level → Int
  | all => -9007199254740991
  | trace => 0
  | debug => 10000
  | info => 20000
  | warning => 30000
  | error => 40000
  | fatal => 50000
  | none => 9007199254740991

theorem ofName?_name (l : Level) : ofName? l.name = some l := by cases l <;> decide

theorem ofName?_eq_some_iff {text : String} {l : Level} : ofName? text = some l ↔ text = l.name :=
  Text.named?_eq_some_iff ofName?_name

end Level

/-- The value of an annotation. -/
inductive Value
  | number (n : Int)
  | text (s : String)
  deriving DecidableEq, Repr

/-- A record of the log. -/
structure Record where
  /-- The level. -/
  level : Level
  /-- The parts of the message. -/
  message : List String
  /-- The annotations. -/
  annotations : List (String × Value)
  deriving DecidableEq, Repr

/-- The record with further annotations. -/
def Record.annotate (r : Record) (annotations : List (String × Value)) : Record :=
  { r with annotations := r.annotations ++ annotations }

/-- The records that a log with a minimum level keeps. -/
def kept (minimum : Level) (records : List Record) : List Record :=
  records.filter fun r => minimum.ordinal ≤ r.level.ordinal

end EvmFlow.Log

namespace EvmFlow

/-- A result together with what was logged on the way. -/
structure Logged (α : Type) where
  /-- The result. -/
  result : α
  /-- The records, in order. -/
  records : List Log.Record

end EvmFlow
