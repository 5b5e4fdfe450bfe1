import EvmFlow.Catalogue.Entry
import EvmFlow.Json
import EvmFlow.Text.Hex
import EvmFlow.Text.Numeral

/-!
# Entries as JSON values

An entry of the catalogue has two forms. In a *document* its opcode is a
string, the mark `0x` and two lower-case digits; in a *record* its opcode is a
number. The other fields are the same in both. Reading an entry drops fields
it does not know, and fails if a field is missing or out of range.

No bounds are set to the number in a record: it is written in base sixteen, and
the record is refused if that is no opcode that a document may hold.

* `Entry.decode?` gives the record of a document;
* `Entry.encode?` gives the document of a record.
-/

namespace EvmFlow.Catalogue.Entry

/-- The opcode that a string writes: the mark `0x` and two lower-case
    digits. -/
def opcodeOfText? (text : String) : Option UInt8 :=
  match text.toList with
  | ['0', 'x', hi, lo] => do
    let b ← Text.Hex.byte? hi lo
    if Text.Hex.pair b = [hi, lo] then return b else none
  | _ => none

/-- The string that writes a number as an opcode: the mark `0x` and the number
    in base sixteen, with at least two characters. -/
def opcodeText (opcode : Rat) : String :=
  "0x" ++ String.ofList (Text.zeroFilled 2 (Text.number 16 opcode))

/-- The fields apart from the opcode. -/
def ofFields? (opcode : UInt8) (j : Json) : Option Entry := do
  let name ← (← j.field? "name").text?
  let consumes ← (← j.field? "consumes").below? 18
  let produces ← (← j.field? "produces").below? 18
  let immediate ← (← j.field? "immediate").below? 33
  let kind ← Kind.ofName? (← (← j.field? "kind").text?)
  let since ← Hardfork.ofName? (← (← j.field? "since").text?)
  return { opcode, name, consumes, produces, immediate, kind, since }

/-- The fields, the opcode being written as given. -/
def toFields (opcode : Json) (e : Entry) : Json :=
  .obj [("opcode", opcode), ("name", .str e.name), ("consumes", .ofInt e.consumes.val),
    ("produces", .ofInt e.produces.val), ("immediate", .ofInt e.immediate.val),
    ("kind", .str e.kind.name), ("since", .str e.since.name)]

/-- Reads the document of an entry. -/
def ofDocument? (j : Json) : Option Entry := do
  let opcode ← opcodeOfText? (← (← j.field? "opcode").text?)
  ofFields? opcode j

/-- The document of an entry. -/
def toDocument (e : Entry) : Json := e.toFields (.str (opcodeText e.opcode.toNat))

/-- Reads the record of an entry. -/
def ofRecord? (j : Json) : Option Entry := do
  let opcode ← opcodeOfText? (opcodeText (← (← j.field? "opcode").number?))
  ofFields? opcode j

/-- The record of an entry. -/
def toRecord (e : Entry) : Json := e.toFields (.ofInt e.opcode.toNat)

/-- The record of the entry in a document. -/
def decode? (document : Json) : Option Json := (ofDocument? document).map toRecord

/-- The document of the entry in a record. -/
def encode? (record : Json) : Option Json := (ofRecord? record).map toDocument

end EvmFlow.Catalogue.Entry
