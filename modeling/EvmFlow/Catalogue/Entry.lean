import EvmFlow.Hardfork
import EvmFlow.Instruction

/-!
# Entries of the catalogue

An entry of the catalogue of instructions describes one opcode and names the
hardfork that brought it. Its counts are small by type: no instruction moves
more than seventeen items, and no immediate is longer than a 32-byte word.
-/

namespace EvmFlow.Catalogue

/-- What the catalogue says of one opcode. -/
structure Entry where
  /-- The opcode. -/
  opcode : UInt8
  /-- The mnemonic. -/
  name : String
  /-- The items taken from the stack. -/
  consumes : Fin 18
  /-- The items put on the stack. -/
  produces : Fin 18
  /-- The bytes of the literal behind the opcode. -/
  immediate : Fin 33
  /-- The kind of instruction. -/
  kind : Kind
  /-- The hardfork that brought the instruction. -/
  since : Hardfork
  deriving DecidableEq, Repr

/-- The instruction that an entry describes. -/
def Entry.instruction (e : Entry) : Instruction where
  opcode := e.opcode
  name := e.name
  consumes := e.consumes.val
  produces := e.produces.val
  producesConstant := e.kind == .push
  immediateLength := e.immediate.val
  terminal := e.kind == .terminal
  kind := e.kind

end EvmFlow.Catalogue
