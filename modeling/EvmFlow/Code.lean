import EvmFlow.Text.Blank
import EvmFlow.Text.Hex

/-!
# Code and its jump destinations

Code is a sequence of bytes in which instructions stand one after the other.
A push instruction carries its literal in the bytes behind it, so a byte is an
instruction or push data according to the instructions before it. A linear
*sweep* from offset zero tells the two apart, and marks the offsets that hold
a jump destination instruction. The marks are part of the code, so they are
computed once.

* `Code.ofBytes` sweeps a sequence of bytes;
* `Code.ofHex?` reads code from hexadecimal text, in which blanks are ignored;
* `Code.byte?` and `Code.isJumpDest` answer for any integer offset, inside
  the code or not.
-/

namespace EvmFlow

namespace Code

/-- The opcode of the jump destination instruction. -/
def jumpDestOpcode : UInt8 := 0x5b

/-- The bytes an instruction takes in the sweep: the push of an `n`-byte
    literal takes `n + 1`, any other instruction takes one. -/
def sweepWidth (opcode : UInt8) : Nat :=
  if 0x60 ≤ opcode ∧ opcode ≤ 0x7f then opcode.toNat - 0x5e else 1

theorem sweepWidth_pos (opcode : UInt8) : 0 < sweepWidth opcode := by
  unfold sweepWidth
  split
  · next h =>
    have := UInt8.le_iff_toNat_le.1 h.1
    simp at this
    omega
  · decide

/-- The marks after a sweep from the boundary `pc`. -/
def sweepFrom (bytes : Array UInt8) (pc : Nat) (marks : Array Bool) : Array Bool :=
  if h : pc < bytes.size then
    sweepFrom bytes (pc + sweepWidth bytes[pc])
      (if bytes[pc] = jumpDestOpcode then marks.setIfInBounds pc true else marks)
  else marks
termination_by bytes.size - pc
decreasing_by
  have := sweepWidth_pos bytes[pc]
  omega

/-- One mark per byte: whether a jump destination instruction stands there. -/
def sweep (bytes : Array UInt8) : Array Bool :=
  sweepFrom bytes 0 (Array.replicate bytes.size false)

end Code

/-- Code: its bytes, with the marks of their sweep. -/
structure Code where
  /-- The bytes. -/
  bytes : Array UInt8
  /-- Whether a jump destination instruction stands at each offset. -/
  marks : Array Bool
  /-- The marks are those of the sweep. -/
  marks_eq : marks = Code.sweep bytes

namespace Code

/-- The code of a sequence of bytes. -/
def ofBytes (bytes : Array UInt8) : Code := ⟨bytes, sweep bytes, rfl⟩

variable (code : Code)

/-- The number of bytes. -/
def size : Nat := code.bytes.size

/-- The byte at an offset, none outside the code. -/
def byte? : Int → Option UInt8
  | .ofNat pc => code.bytes[pc]?
  | .negSucc _ => none

/-- The opcode at an offset: the byte there, and zero outside the code. -/
def opcode (pc : Int) : UInt8 := (code.byte? pc).getD 0

/-- A jump destination instruction stands at this offset. -/
def isJumpDest : Int → Bool
  | .ofNat pc => code.marks.getD pc false
  | .negSucc _ => false

/-- The offsets of the jump destinations, ascending. -/
def jumpDests : List Nat := (List.range code.size).filter fun pc => code.isJumpDest pc

/-- The number that `length` bytes from an offset on make up, the first byte
    being the most significant. Bytes outside the code count as zero. -/
def word (start : Int) : (length : Nat) → Nat
  | 0 => 0
  | k + 1 => 256 * word start k + (code.opcode (start + k)).toNat

/-- The code written by a hexadecimal text: digit pairs of either case, after
    the mark `0x` or without it, with blanks anywhere. -/
def ofHex? (text : String) : Option Code :=
  (Text.Hex.bytes? (Text.Hex.withoutMark (Text.withoutBlanks text.toList))).map
    fun bytes => ofBytes bytes.toArray

/-- What is said of a text that writes no code. -/
def malformed : String := "Code must be an even-length hex string"

/-- The bytes as lower-case hexadecimal text after the mark `0x`. -/
def toHex : String := Text.Hex.render code.bytes.toList

variable {code}

/-- Code is determined by its bytes. -/
@[ext] theorem ext {code other : Code} (h : code.bytes = other.bytes) : code = other := by
  obtain ⟨bytes, marks, rfl⟩ := code
  obtain ⟨bytes', marks', rfl⟩ := other
  cases h
  rfl

@[simp] theorem bytes_ofBytes (bytes : Array UInt8) : (ofBytes bytes).bytes = bytes := rfl

@[simp] theorem size_ofBytes (bytes : Array UInt8) : (ofBytes bytes).size = bytes.size := rfl

@[simp] theorem byte?_natCast (pc : Nat) : code.byte? (pc : Int) = code.bytes[pc]? := rfl

theorem byte?_of_neg {pc : Int} (h : pc < 0) : code.byte? pc = none := by
  match pc, h with
  | .negSucc _, _ => rfl

@[simp] theorem isJumpDest_natCast (pc : Nat) :
    code.isJumpDest (pc : Int) = code.marks.getD pc false := rfl

theorem isJumpDest_of_neg {pc : Int} (h : pc < 0) : code.isJumpDest pc = false := by
  match pc, h with
  | .negSucc _, _ => rfl

end Code

end EvmFlow
