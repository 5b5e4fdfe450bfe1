import EvmFlow.Text.Numeral

/-!
# Violations

What can be wrong with code, each with the offset at which it was found. The
fields are integers, so that a violation can be written down for any offset
and any numbers. A violation is shown as one line, `message`: its kind, the
offset, and what was found there.
-/

namespace EvmFlow

/-- What is wrong with code. -/
inductive Violation
  /-- The opcode at `pc` has no instruction. -/
  | invalidInstruction (pc opcode : Int)
  /-- Push data, or a path, runs past the end of the code. -/
  | codeTruncated (pc codeLength : Int)
  /-- The destination of the jump at `pc` is not a constant. -/
  | unresolvedDynamicJump (pc : Int)
  /-- The destination of the jump at `pc` is no jump destination. -/
  | invalidJumpDestination (pc destination : Int)
  /-- An instruction, or the end of a block, needs more items than there are. -/
  | stackUnderflow (pc required available : Int)
  /-- The stack would grow past its limit. -/
  | stackOverflow (pc limit resulting : Int)
  deriving DecidableEq, Repr

namespace Violation

/-- The offset at which the violation was found. -/
def pc : Violation → Int
  | invalidInstruction pc _ => pc
  | codeTruncated pc _ => pc
  | unresolvedDynamicJump pc => pc
  | invalidJumpDestination pc _ => pc
  | stackUnderflow pc _ _ => pc
  | stackOverflow pc _ _ => pc

/-- The name of the kind of violation. -/
def kind : Violation → String
  | invalidInstruction .. => "InvalidInstruction"
  | codeTruncated .. => "CodeTruncated"
  | unresolvedDynamicJump .. => "UnresolvedDynamicJump"
  | invalidJumpDestination .. => "InvalidJumpDestination"
  | stackUnderflow .. => "StackUnderflow"
  | stackOverflow .. => "StackOverflow"

/-- An opcode in base sixteen, with at least two characters after the mark. -/
def opcodeText (opcode : Int) : String :=
  "0x" ++ String.ofList (Text.zeroFilled 2 (Text.numeral 16 opcode))

/-- What was found. -/
def detail : Violation → String
  | invalidInstruction _ opcode => "opcode " ++ opcodeText opcode ++ " is not defined"
  | codeTruncated _ codeLength => "code ends at " ++ Text.decimal codeLength
  | unresolvedDynamicJump _ => "jump destination is not a constant"
  | invalidJumpDestination _ destination =>
    "destination " ++ Text.decimal destination ++ " is not a JUMPDEST"
  | stackUnderflow _ required available =>
    "requires " ++ Text.decimal required ++ " items, " ++ Text.decimal available ++ " available"
  | stackOverflow _ limit resulting =>
    "stack would hold " ++ Text.decimal resulting ++ " items, limit " ++ Text.decimal limit

/-- The line that shows a violation. -/
def message (v : Violation) : String :=
  v.kind ++ " at pc " ++ Text.decimal v.pc ++ ": " ++ v.detail

end Violation

end EvmFlow
