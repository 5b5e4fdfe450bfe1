import EvmFlow.Command.Outcome

/-!
# The program

Runs the command that the arguments give, in the environment and the file
system of the process.
-/

namespace EvmFlow.Main

/-- The settings that are read from the environment. -/
def environmentKeys : List Settings.Key := [.hardfork, .logLevel, .format, .strictEnd]

/-- The environment variables of those settings that are set. -/
def environment : IO (List (String × String)) := do
  let values ← environmentKeys.mapM fun key => do
    return (← IO.getEnv key.variableName).map fun value => (key.variableName, value)
  return values.filterMap id

/-- The bytes of the file at a path, none if it cannot be read. -/
def readFile (path : String) : IO (Option (List UInt8)) := do
  try
    return some (← IO.FS.readBinFile path).toList
  catch _ =>
    return none

/-- The files that the arguments may ask for, with their bytes. -/
def files (arguments : List String) : IO (List (String × List UInt8)) := do
  match Command.action arguments with
  | .ok (.validate (.file path)) =>
    return (← readFile path).toList.map fun bytes => (path, bytes)
  | _ => return []

/-- The line of a log record. -/
def logLine (r : Log.Record) : String :=
  let parts := ("level", r.level.label) :: r.message.map (fun part => ("message", part)) ++
    r.annotations.map fun (name, value) => (name, match value with
      | .number n => Text.decimal n
      | .text s => s)
  String.intercalate " " (parts.map fun (name, value) =>
    name ++ "=" ++ if value.toList.any Text.isBlank then Text.JsonLine.string value else value)

/-- Runs a command, and gives its exit code. -/
def command (arguments : List String) : IO UInt32 := do
  let environment ← environment
  let files ← files arguments
  let context : Command.Context :=
    ⟨fun name => environment.lookup name, fun path => files.lookup path⟩
  let outcome := Command.run context arguments
  for r in outcome.records do
    IO.println (logLine r)
  for line in outcome.streams.stdout do
    IO.println line
  for line in outcome.streams.stderr do
    IO.eprintln line
  return UInt32.ofNat outcome.exitCode

end EvmFlow.Main

/-- Runs the command that the arguments give. -/
def main (arguments : List String) : IO UInt32 := EvmFlow.Main.command arguments
