import EvmFlow.Catalogue
import EvmFlow.Rules

/-!
# Instruction sets

The instructions that exist under given rules, one slot per opcode. An entry
of the catalogue is in effect from its hardfork on; the instruction that
pushes zero has a switch of its own in the rules.

* `InstructionSet.ofRules` is the instruction set of rules;
* `InstructionSet.get?` looks an opcode up;
* `InstructionSet.decode` gives the instruction that stands at an offset.
-/

namespace EvmFlow

/-- An instruction set: at most one instruction for each of the 256 opcodes. -/
structure InstructionSet where
  /-- The instruction of each opcode. -/
  slots : Vector (Option Instruction) 256

namespace InstructionSet

/-- The name of the instruction that pushes zero. -/
def push0Name : String := "PUSH0"

/-- An entry of the catalogue is in effect under the rules. -/
def isEnabled (rules : Rules) (e : Catalogue.Entry) : Bool :=
  if e.name = push0Name then rules.hasPush0 else rules.hardfork.isAtLeast e.since

/-- The instruction of an opcode under the rules. -/
def enabled? (rules : Rules) (opcode : UInt8) : Option Instruction :=
  (Catalogue.entries.find? fun e => e.opcode == opcode && isEnabled rules e).map (·.instruction)

/-- The instruction set of the rules. -/
def ofRules (rules : Rules) : InstructionSet :=
  ⟨Vector.ofFn fun opcode => enabled? rules (UInt8.ofNat opcode.val)⟩

variable (set : InstructionSet)

/-- The instruction of an opcode. -/
def get? (opcode : UInt8) : Option Instruction :=
  getElem set.slots opcode.toNat opcode.toNat_lt

/-- The instruction of a number, none if it is no opcode. -/
def lookup? (opcode : Int) : Option Instruction :=
  if 0 ≤ opcode ∧ opcode < 256 then set.get? (UInt8.ofInt opcode) else none

/-- The instructions of the set, by ascending opcode. -/
def instructions : List Instruction := set.slots.toList.filterMap id

/-- The instruction at an offset, which is an error if its opcode has none. -/
def decode (code : Code) (pc : Int) : Except Violation Instruction :=
  match set.get? (code.opcode pc) with
  | some i => .ok i
  | none => .error (.invalidInstruction pc (code.opcode pc).toNat)

theorem get?_ofRules (rules : Rules) (opcode : UInt8) :
    (ofRules rules).get? opcode = enabled? rules opcode := by
  rw [get?, ofRules, Vector.getElem_ofFn, UInt8.ofNat_toNat]

end InstructionSet

end EvmFlow
