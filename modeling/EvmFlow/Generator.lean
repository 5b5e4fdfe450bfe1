import EvmFlow.Assembly
import EvmFlow.Dice

/-!
# Generated programs

Programs for experiments, determined by a seed. A program consists of one to
four blocks. Each block is headed by a jump destination, followed by up to six
instructions that consume at most three items, and ends by a jump to the head
of a block, a conditional one, a stop, or by falling into the next block. The
destination of a jump is always pushed right before it.
-/

namespace EvmFlow.Generator

/-- The instructions to choose from: those of the given kinds that consume at
    most three items. -/
def pool (kinds : List Kind) : List Instruction :=
  Assembly.instructionSet.instructions.filter fun i => i.consumes ≤ 3 && kinds.contains i.kind

/-- The pushes to choose from. -/
def pushes : List Instruction := pool [.push]

/-- The stack shuffles to choose from. -/
def shuffles : List Instruction := pool [.dup, .swap, .pop]

/-- The other instructions to choose from. -/
def plains : List Instruction := pool [.plain]

/-- An instruction with its literal. -/
structure Item where
  /-- The mnemonic. -/
  name : String
  /-- The bytes of the immediate. -/
  immediateLength : Nat
  /-- The literal, if there is an immediate. -/
  literal : Nat
  deriving DecidableEq, Repr

/-- The instruction at the head of a block. -/
def Item.head : Item := ⟨"JUMPDEST", 0, 0⟩

/-- The assembly line of an item. -/
def Item.line (item : Item) : String :=
  if 0 < item.immediateLength then
    item.name ++ " 0x" ++ String.ofList (Text.numeral 16 item.literal)
  else item.name

/-- The bytes an item takes. -/
def Item.size (item : Item) : Nat := 1 + item.immediateLength

/-- How a block ends. -/
inductive Ending
  /-- A jump to the head of a block. -/
  | jump (target : Nat)
  /-- A conditional jump to the head of a block. -/
  | jumpi (target : Nat)
  /-- The end of the run. -/
  | stop
  /-- The next block. -/
  | fallThrough
  deriving DecidableEq, Repr

/-- The bytes an ending takes. -/
def Ending.size : Ending → Nat
  | jump _ | jumpi _ => 4
  | stop => 1
  | fallThrough => 0

/-- A block: what stands between its head and its ending, and the ending. -/
structure Block where
  body : List Item
  ending : Ending
  deriving DecidableEq, Repr

/-- The bytes that items take together. -/
def totalSize : (items : List Item) → Nat
  | [] => 0
  | item :: items => item.size + totalSize items

/-- The bytes a block takes. -/
def Block.size (b : Block) : Nat := 1 + totalSize b.body + b.ending.size

/-- The offsets of the heads of the blocks, the first being at `start`. -/
def offsets (start : Nat) : (blocks : List Block) → List Nat
  | [] => []
  | b :: blocks => start :: offsets (start + b.size) blocks

/-- The push of a destination. -/
def destination (offset : Nat) : Item := ⟨"PUSH2", 2, offset⟩

/-- The assembly lines of an ending, given the offsets of the heads. -/
def Ending.lines (heads : List Nat) : Ending → List String
  | jump target => [(destination (heads.getD target 0)).line, "JUMP"]
  | jumpi target => [(destination (heads.getD target 0)).line, "JUMPI"]
  | stop => ["STOP"]
  | fallThrough => []

/-- The assembly lines of a block, given the offsets of the heads. -/
def Block.lines (heads : List Nat) (b : Block) : List String :=
  Item.head.line :: b.body.map Item.line ++ b.ending.lines heads

/-! ## Rolling -/

/-- A number below the bound. -/
def roll (bound : Nat) : StateM Dice Nat := modifyGet (Dice.roll bound)

/-- The results of doing `x` a number of times. -/
def times {α : Type} (x : StateM Dice α) : Nat → StateM Dice (List α)
  | 0 => return []
  | k + 1 => do
    let a ← x
    let rest ← times x k
    return a :: rest

/-- An instruction of the body of a block. -/
def item : StateM Dice Item := do
  let k ← roll 10
  let choices := if k < 4 then pushes else if k < 7 then shuffles else plains
  match choices[← roll choices.length]? with
  | none => return Item.head
  | some i =>
    let literal ← if 0 < i.immediateLength then roll 256 else pure 0
    return ⟨i.name, i.immediateLength.toNat, literal⟩

/-- The ending of one of `count` blocks. -/
def ending (count : Nat) : StateM Dice Ending := do
  match ← roll 4 with
  | 0 => return .jump (← roll count)
  | 1 => return .jumpi (← roll count)
  | 2 => return .stop
  | _ => return .fallThrough

/-- One of `count` blocks. -/
def block (count : Nat) : StateM Dice Block := do
  let length ← roll 7
  let body ← times item length
  return ⟨body, ← ending count⟩

/-- The blocks of a program. -/
def blocks : StateM Dice (List Block) := do
  let count := 1 + (← roll 4)
  times (block count) count

/-- The assembly lines of the program of a seed. -/
def program (seed : Int) : List String :=
  let blocks := (blocks.run (.ofSeed seed)).1
  blocks.flatMap (Block.lines (offsets 0 blocks))

end EvmFlow.Generator
