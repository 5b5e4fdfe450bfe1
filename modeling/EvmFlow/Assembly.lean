import EvmFlow.InstructionSet
import EvmFlow.Text.LeadingHex

/-!
# Assembly

An assembly line is a mnemonic, possibly followed by an operand, and assembles
to an opcode and its immediate. The mnemonics are those of the Cancun
instruction set; the mnemonic `RAW` stands for the byte of its operand.

The operand of a push is hexadecimal: it is filled up with zeros on the left
to the length of the immediate, and digits beyond that length, at the right
end, are dropped. Each byte is the number its two characters begin with.
-/

namespace EvmFlow.Assembly

/-- The instructions that can be assembled. -/
def instructionSet : InstructionSet := .ofRules (.ofHardfork .cancun)

/-- The instruction of a mnemonic. -/
def instruction? (mnemonic : String) : Option Instruction :=
  Text.named? instructionSet.instructions Instruction.name mnemonic

/-- A mnemonic that no instruction has. -/
structure UnknownMnemonic where
  mnemonic : String
  deriving DecidableEq, Repr

/-- What is said of an unknown mnemonic. -/
def UnknownMnemonic.message (e : UnknownMnemonic) : String := "Unknown mnemonic " ++ e.mnemonic

/-- The characters of an operand, in which a character outside the basic
    multilingual plane takes two places. -/
def places (operand : List Char) : List Char :=
  operand.flatMap fun c => if 0xffff < c.toNat then [c, c] else [c]

/-- The immediate of `length` bytes that an operand writes. -/
def immediate (operand : List Char) (length : Nat) : List UInt8 :=
  let digits := Text.zeroFilled (2 * length) (places (Text.Hex.withoutMark operand))
  (List.range length).map fun k => Text.LeadingHex.byte ((digits.drop (2 * k)).take 2)

/-- The operand of a line that gives none. -/
def defaultOperand : List Char := ['0', 'x', '0', '0']

/-- The bytes of a line. -/
def line (text : String) : Except UnknownMnemonic (List UInt8) :=
  let words := Text.words text.toList
  let mnemonic := String.ofList (words.getD 0 [])
  let operand := words.getD 1 defaultOperand
  if mnemonic = "RAW" then .ok [Text.LeadingHex.byte operand]
  else match instruction? mnemonic with
    | none => .error ⟨mnemonic⟩
    | some i => .ok (i.opcode :: immediate operand i.immediateLength.toNat)

/-- The bytes of a sequence of lines. -/
def assemble : (lines : List String) → Except UnknownMnemonic (List UInt8)
  | [] => .ok []
  | text :: lines => do
    let bytes ← line text
    let rest ← assemble lines
    return bytes ++ rest

end EvmFlow.Assembly
