import EvmFlow.Dice
import EvmFlow.InstructionSet

/-!
# The machine

A concrete machine on which code runs. Arithmetic is not modelled: the results
of a plain instruction are drawn from a source of values, so whatever holds of
all sources holds of all results that the instruction could have.

A run starts at offset zero with an empty stack. It halts at a terminal
instruction or past the end of the code, and by a fault: an opcode without an
instruction, a jump to an offset that is no jump destination, too few items or
too many.

* `Machine.stepTaking` is a step in which the branch of a conditional jump is
  given, `Machine.step` one in which the condition on the stack decides;
* `Machine.run` takes a number of steps.
-/

namespace EvmFlow

/-- How a run ends. -/
inductive Halt
  /-- At a terminal instruction, or past the end of the code. -/
  | stop
  /-- After as many steps as were allowed. -/
  | stepLimit
  /-- At an opcode without an instruction. -/
  | invalidInstruction
  /-- At a jump to an offset that is no jump destination. -/
  | invalidJump
  /-- At an instruction that needs more items than there are. -/
  | stackUnderflow
  /-- At an instruction that leaves more items than allowed. -/
  | stackOverflow
  deriving DecidableEq, Repr

/-- The name of an ending. -/
def Halt.name : Halt → String
  | stop => "stop"
  | stepLimit => "stepLimit"
  | invalidInstruction => "invalidInstruction"
  | invalidJump => "invalidJump"
  | stackUnderflow => "stackUnderflow"
  | stackOverflow => "stackOverflow"

/-- Code on a machine with an instruction set and a stack limit. -/
structure Machine where
  /-- The instructions that exist. -/
  instructionSet : InstructionSet
  /-- The code. -/
  code : Code
  /-- The most items the stack may hold. -/
  stackLimit : Int

namespace Machine

/-- The state of a run, with the state `σ` of the source of values. -/
structure State (σ : Type) where
  /-- The offset of the next instruction. -/
  pc : Int
  /-- The items on the stack, the top first. -/
  stack : List Int
  /-- The state of the source. -/
  source : σ
  deriving DecidableEq, Repr

/-- The state in which a run starts. -/
def State.start {σ : Type} (source : σ) : State σ := ⟨0, [], source⟩

variable {σ : Type} (draw : σ → Int × σ)

/-- Pushes `k` values drawn from the source. -/
def produce : (k : Nat) → List Int → σ → List Int × σ
  | 0, stack, source => (stack, source)
  | k + 1, stack, source => produce k ((draw source).1 :: stack) (draw source).2

variable (m : Machine)

/-- Goes on at the destination `d`, which has to be a jump destination. -/
def jumpTo (d : Int) (stack : List Int) (source : σ) : Except Halt (State σ) :=
  if m.code.isJumpDest d then .ok ⟨d, stack, source⟩ else .error .invalidJump

/-- Executes the instruction `i`, a conditional jump being taken or not as
    `taken` says. -/
def execute (taken : Bool) (s : State σ) (i : Instruction) : Except Halt (State σ) :=
  let next := s.pc + i.width
  match i.kind with
  | .push => .ok ⟨next, m.code.word (s.pc + 1) i.immediateLength.toNat :: s.stack, s.source⟩
  | .dup => .ok ⟨next, s.stack.getD (i.consumes - 1).toNat 0 :: s.stack, s.source⟩
  | .swap =>
    let k := (i.consumes - 1).toNat
    .ok ⟨next, (s.stack.set 0 (s.stack.getD k 0)).set k (s.stack.getD 0 0), s.source⟩
  | .pop => .ok ⟨next, s.stack.drop 1, s.source⟩
  | .jump => m.jumpTo (s.stack.getD 0 0) (s.stack.drop 1) s.source
  | .jumpi =>
    if taken then m.jumpTo (s.stack.getD 0 0) (s.stack.drop 2) s.source
    else .ok ⟨next, s.stack.drop 2, s.source⟩
  | .terminal => .error .stop
  | .jumpdest => .ok ⟨next, s.stack, s.source⟩
  | .plain =>
    let (stack, source) := produce draw i.produces.toNat (s.stack.drop i.consumes.toNat) s.source
    .ok ⟨next, stack, source⟩

/-- A step in which a conditional jump is taken or not as `taken` says. -/
def stepTaking (taken : Bool) (s : State σ) : Except Halt (State σ) :=
  if s.pc < m.code.size then
    match m.instructionSet.get? (m.code.opcode s.pc) with
    | none => .error .invalidInstruction
    | some i =>
      if s.stack.length < i.consumes then .error .stackUnderflow
      else if m.stackLimit < i.heightAfter s.stack.length then .error .stackOverflow
      else m.execute draw taken s i
  else .error .stop

/-- A step: a conditional jump is taken if the item below its destination is
    not zero. -/
def step (s : State σ) : Except Halt (State σ) :=
  m.stepTaking draw (s.stack.getD 1 0 != 0) s

/-- A run of at most a number of steps. -/
def run : (steps : Nat) → State σ → Halt
  | 0, _ => .stepLimit
  | k + 1, s =>
    match m.step draw s with
    | .error h => h
    | .ok t => run k t

/-- Dice as a source of values: zero, one and two. -/
def values (dice : Dice) : Int × Dice := ((dice.roll 3).1, (dice.roll 3).2)

end Machine

end EvmFlow
