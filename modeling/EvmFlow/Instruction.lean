import EvmFlow.Code
import EvmFlow.Text.Named
import EvmFlow.Violation

/-!
# Instructions

An instruction has a stack effect, the number of items it consumes and the
number it produces, and a *kind*, which says how it moves items and where
control goes after it. That no path goes on behind an instruction is said
apart from its kind. Some instructions carry an *immediate*, a literal in the
bytes behind the opcode.

Counts of items and offsets are integers, so that the effect of an instruction
on the height of the stack is `produces - consumes` without further ado, and
an offset may lie outside the code. The length of an immediate is an integer
too: one below zero means that control goes back instead of on.
-/

namespace EvmFlow

/-- How an instruction moves stack items, and where control goes after it. -/
inductive Kind
  /-- Replaces its operands by results that are not known beforehand. -/
  | plain
  /-- Pushes its immediate. -/
  | push
  /-- Copies an item to the top. -/
  | dup
  /-- Exchanges the top with an item below. -/
  | swap
  /-- Drops the top. -/
  | pop
  /-- Jumps to the offset on top of the stack. -/
  | jump
  /-- Jumps to the offset on top of the stack if the item below is not zero. -/
  | jumpi
  /-- Marks a place that can be jumped to. -/
  | jumpdest
  /-- Ends the run. -/
  | terminal
  deriving DecidableEq, Repr, Inhabited

namespace Kind

/-- All kinds. -/
def all : List Kind := [plain, push, dup, swap, pop, jump, jumpi, jumpdest, terminal]

/-- The name of a kind. -/
def name : Kind → String
  | plain => "plain"
  | push => "push"
  | dup => "dup"
  | swap => "swap"
  | pop => "pop"
  | jump => "jump"
  | jumpi => "jumpi"
  | jumpdest => "jumpdest"
  | terminal => "terminal"

/-- The kind of a name. -/
def ofName? (text : String) : Option Kind := Text.named? all name text

/-- The kinds that jump. -/
def isJump : Kind → Bool
  | jump | jumpi => true
  | _ => false

theorem ofName?_name (k : Kind) : ofName? k.name = some k := by cases k <;> decide

theorem ofName?_eq_some_iff {text : String} {k : Kind} : ofName? text = some k ↔ text = k.name :=
  Text.named?_eq_some_iff ofName?_name

end Kind

/-- An instruction. -/
structure Instruction where
  /-- The byte that stands for the instruction. -/
  opcode : UInt8
  /-- The mnemonic. -/
  name : String
  /-- The items taken from the stack. -/
  consumes : Int
  /-- The items put on the stack. -/
  produces : Int
  /-- The item produced is known from the code. -/
  producesConstant : Bool
  /-- The bytes of the literal behind the opcode. -/
  immediateLength : Int
  /-- No path goes on behind the instruction. -/
  terminal : Bool
  /-- The kind. -/
  kind : Kind
  deriving DecidableEq, Repr

namespace Instruction

variable (i : Instruction)

/-- How far the next instruction is from this one: the bytes of the
    instruction, its immediate included. -/
def width : Int := 1 + i.immediateLength

/-- The height of the stack after the instruction. -/
def heightAfter (height : Int) : Int := height - i.consumes + i.produces

/-- The literal of the instruction at `pc`, which is an error if it does not
    end inside the code. -/
def immediate (code : Code) (pc : Int) : Except Violation Nat :=
  if code.size < pc + i.width then .error (.codeTruncated pc code.size)
  else .ok (code.word (pc + 1) i.immediateLength.toNat)

end Instruction

end EvmFlow
