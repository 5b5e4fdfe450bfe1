import EvmFlow.Text.Hex
import EvmFlow.Text.Numeral

/-!
# JSON on one line

JSON text without blanks between its pieces.
-/

namespace EvmFlow.Text.JsonLine

/-- A character inside a string. -/
def escaped (c : Char) : List Char :=
  if c = '"' then ['\\', '"']
  else if c = '\\' then ['\\', '\\']
  else if c = '\n' then ['\\', 'n']
  else if c = '\r' then ['\\', 'r']
  else if c = '\t' then ['\\', 't']
  else if c.toNat = 0x08 then ['\\', 'b']
  else if c.toNat = 0x0c then ['\\', 'f']
  else if c.toNat < 0x20 then
    ['\\', 'u', '0', '0', Hex.digit (c.toNat / 16), Hex.digit (c.toNat % 16)]
  else [c]

/-- A string. -/
def string (text : String) : String :=
  "\"" ++ String.ofList (text.toList.flatMap escaped) ++ "\""

/-- An integer. -/
def integer (n : Int) : String := decimal n

/-- A truth value. -/
def bool (b : Bool) : String := if b then "true" else "false"

/-- A list of values. -/
def array (values : List String) : String := "[" ++ String.intercalate "," values ++ "]"

/-- An object: the names of its fields, and their values. -/
def object (fields : List (String × String)) : String :=
  "\x7b" ++ String.intercalate "," (fields.map fun (name, value) => string name ++ ":" ++ value)
    ++ "\x7d"

end EvmFlow.Text.JsonLine
