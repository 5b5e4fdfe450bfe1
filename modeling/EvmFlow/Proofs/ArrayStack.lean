import EvmFlow.Proofs.Boundary
import EvmFlow.Proofs.Runs

/-!
# The stack as an array

A machine may keep its stack in an array that grows at the end, and find an
item by its index from the bottom (`Machine.ArrayState`). Such a machine pops
one item at a time, and works out the index of an item that is copied or
exchanged from the size of the array. Here each of these accesses gives
nothing if it is out of range, and then the whole step gives nothing
(`Machine.step?`): there is no value that stands in for a missing item.

Under the rules of a hardfork this never happens. The checks before an
instruction count with what it consumes, and that covers every access its kind
makes (`Machine.execute?_eq`). So the machine on an array and the machine go in
step for ever, within the bounds of the stack and of the code
(`Machine.run_in_range`).
-/

namespace EvmFlow.Machine

/-! ## Accesses -/

/-- The item at an index, none out of range. -/
def item? (stack : Array Int) (index : Int) : Option Int :=
  if 0 ≤ index then stack[index.toNat]? else none

/-- The array with an item put at an index, none out of range. -/
def put? (stack : Array Int) (index item : Int) : Option (Array Int) :=
  if 0 ≤ index ∧ index < stack.size then some (stack.setIfInBounds index.toNat item) else none

/-- The last item and the array without it, none if there is no item. -/
def pop? (stack : Array Int) : Option (Int × Array Int) :=
  stack.back?.map fun top => (top, stack.pop)

/-- The array after `k` pops. -/
def popMany? : (k : Nat) → Array Int → Option (Array Int)
  | 0, stack => some stack
  | k + 1, stack => do
    let (_, stack) ← pop? stack
    popMany? k stack

variable {σ : Type} (draw : σ → Int × σ)

/-- Appends `k` values drawn from the source. -/
def pushMany : (k : Nat) → Array Int → σ → Array Int × σ
  | 0, stack, source => (stack, source)
  | k + 1, stack, source => pushMany k (stack.push (draw source).1) (draw source).2

/-! ## The machine on an array -/

/-- The state of a run whose stack is an array, the bottom first. -/
structure ArrayState (σ : Type) where
  /-- The offset of the next instruction. -/
  pc : Int
  /-- The items on the stack, the bottom first. -/
  stack : Array Int
  /-- The state of the source. -/
  source : σ

variable (m : Machine)

/-- Goes on at the destination `d`, which has to be a jump destination. -/
def arriveAt (d : Int) (stack : Array Int) (source : σ) : Except Halt (ArrayState σ) :=
  if m.code.isJumpDest d then .ok ⟨d, stack, source⟩ else .error .invalidJump

/-- Executes the instruction `i`, none if an item that it accesses is not
    there. -/
def execute? (s : ArrayState σ) (i : Instruction) : Option (Except Halt (ArrayState σ)) :=
  let next := s.pc + i.width
  match i.kind with
  | .push =>
    some (.ok ⟨next, s.stack.push (m.code.word (s.pc + 1) i.immediateLength.toNat), s.source⟩)
  | .dup => do
    let item ← item? s.stack (s.stack.size - i.consumes)
    return .ok ⟨next, s.stack.push item, s.source⟩
  | .swap => do
    let top : Int := s.stack.size - 1
    let other := top - (i.consumes - 1)
    let item ← item? s.stack top
    let stack ← put? s.stack top (← item? s.stack other)
    let stack ← put? stack other item
    return .ok ⟨next, stack, s.source⟩
  | .pop => do
    let (_, stack) ← pop? s.stack
    return .ok ⟨next, stack, s.source⟩
  | .jump => do
    let (d, stack) ← pop? s.stack
    return m.arriveAt d stack s.source
  | .jumpi => do
    let (d, stack) ← pop? s.stack
    let (condition, stack) ← pop? stack
    return if condition != 0 then m.arriveAt d stack s.source else .ok ⟨next, stack, s.source⟩
  | .terminal => return .error .stop
  | .jumpdest => return .ok ⟨next, s.stack, s.source⟩
  | .plain => do
    let stack ← popMany? i.consumes.toNat s.stack
    let (stack, source) := pushMany draw i.produces.toNat stack s.source
    return .ok ⟨next, stack, source⟩

/-- A step, none if an item that it accesses is not there. -/
def step? (s : ArrayState σ) : Option (Except Halt (ArrayState σ)) :=
  if s.pc < m.code.size then
    match m.instructionSet.get? (m.code.opcode s.pc) with
    | none => some (.error .invalidInstruction)
    | some i =>
      if s.stack.size < i.consumes then some (.error .stackUnderflow)
      else if m.stackLimit < i.heightAfter s.stack.size then some (.error .stackOverflow)
      else m.execute? draw s i
  else some (.error .stop)

/-- A run of at most a number of steps, none if an item that it accesses is not
    there. -/
def run? : (steps : Nat) → ArrayState σ → Option Halt
  | 0, _ => some .stepLimit
  | k + 1, s => do
    match ← m.step? draw s with
    | .error h => return h
    | .ok t => run? k t

/-! ## Lists as arrays -/

/-- A list with the top first, as an array with the bottom first. -/
def tower (stack : List Int) : Array Int := stack.reverse.toArray

/-- A state with its stack as an array. -/
def ArrayState.ofState (s : State σ) : ArrayState σ := ⟨s.pc, tower s.stack, s.source⟩

variable {draw m} {stack : List Int}

@[simp] theorem size_tower : (tower stack).size = stack.length := by simp [tower]

theorem push_tower (x : Int) : (tower stack).push x = tower (x :: stack) := by simp [tower]

theorem pop?_tower (x : Int) : pop? (tower (x :: stack)) = some (x, tower stack) := by
  rw [← push_tower, pop?, Array.back?_push, Option.map_some, Array.pop_push]

/-- A place counted from the top and its index. -/
theorem getElem?_tower {k : Nat} (hk : k < stack.length) :
    (tower stack)[stack.length - 1 - k]? = stack[k]? := by
  rw [tower, List.getElem?_toArray]
  exact List.getElem?_reverse' (by omega)

theorem item?_tower {index : Int} {k : Nat} (hk : k < stack.length)
    (hindex : index = stack.length - 1 - k) :
    item? (tower stack) index = some (stack.getD k 0) := by
  have hnat : index.toNat = stack.length - 1 - k := by omega
  rw [item?, if_pos (by omega), hnat, getElem?_tower hk, List.getElem?_eq_getElem hk,
    List.getD_eq_getElem?_getD, List.getElem?_eq_getElem hk, Option.getD_some]

theorem set_tower {k : Nat} (hk : k < stack.length) (x : Int) :
    (tower stack).setIfInBounds (stack.length - 1 - k) x = tower (stack.set k x) := by
  have hsize : stack.length - 1 - k < stack.reverse.length := by
    rw [List.length_reverse]
    omega
  rw [tower, tower, List.setIfInBounds_toArray]
  congr 1
  -- place by place: a place inside is that of its mirror image
  refine List.ext_getElem? fun j => ?_
  rw [List.getElem?_set]
  by_cases hj : j < stack.length
  · have hmirror : ∀ l : List Int, l.length = stack.length →
        l.reverse[j]? = l[stack.length - 1 - j]? :=
      fun l hl => List.getElem?_reverse' (by omega)
    rw [hmirror stack rfl, hmirror _ List.length_set, List.getElem?_set, if_pos hsize, if_pos hk]
    by_cases heq : k = stack.length - 1 - j
    · rw [if_pos (by omega), if_pos heq]
    · rw [if_neg (by omega), if_neg heq]
  · rw [if_neg (by omega), List.getElem?_eq_none (by rw [List.length_reverse]; omega),
      List.getElem?_eq_none (by rw [List.length_reverse, List.length_set]; omega)]

theorem put?_tower {index : Int} {k : Nat} (hk : k < stack.length)
    (hindex : index = stack.length - 1 - k) (x : Int) :
    put? (tower stack) index x = some (tower (stack.set k x)) := by
  have hnat : index.toNat = stack.length - 1 - k := by omega
  rw [put?, if_pos ⟨by omega, by rw [size_tower]; omega⟩, hnat, set_tower hk]

theorem popMany?_tower {k : Nat} (hk : k ≤ stack.length) :
    popMany? k (tower stack) = some (tower (stack.drop k)) := by
  induction k generalizing stack with
  | zero => rfl
  | succ k ih =>
    cases stack with
    | nil => cases hk
    | cons x below =>
      rw [popMany?, pop?_tower]
      exact ih (Nat.le_of_succ_le_succ hk)

theorem pushMany_tower (k : Nat) (source : σ) : pushMany draw k (tower stack) source =
    (tower (produce draw k stack source).1, (produce draw k stack source).2) := by
  induction k generalizing stack source with
  | zero => rfl
  | succ k ih => rw [pushMany, push_tower, ih, produce]

/-! ## In step -/

variable {s : State σ} {i : Instruction} {opcode : UInt8}

theorem arriveAt_tower (d : Int) (source : σ) : m.arriveAt d (tower stack) source =
    (m.jumpTo d stack source).map .ofState := by
  rw [arriveAt, jumpTo]
  split <;> rfl

/-- An instruction that has the items it consumes finds every item it accesses,
    and does to the array what it does to the stack. -/
theorem execute?_eq (hi : i.IsRegular opcode) (henough : i.consumes ≤ s.stack.length) :
    m.execute? draw (.ofState s) i =
      some ((m.execute draw (s.stack.getD 1 0 != 0) s i).map .ofState) := by
  obtain ⟨pc, stack, source⟩ := s
  have heffect := hi.effect
  rw [execute?, execute]
  simp only [ArrayState.ofState, size_tower] at henough ⊢
  cases hk : i.kind with rw [hk, Kind.HasEffect] at heffect
  | push => rw [push_tower]; rfl
  | dup =>
    have hlt : (i.consumes - 1).toNat < stack.length := by omega
    simp only [item?_tower hlt (by omega : (stack.length - i.consumes : Int) = _), push_tower]
    rfl
  | swap =>
    have hlt : (i.consumes - 1).toNat < stack.length := by omega
    have h₀ : 0 < stack.length := Nat.zero_lt_of_lt hlt
    have hother : (stack.length - 1 - (i.consumes - 1) : Int) =
        stack.length - 1 - (i.consumes - 1).toNat := by omega
    -- the second write goes to the array that the first one left
    have hput (x : Int) : put? (tower (stack.set 0 x)) (stack.length - 1 - (i.consumes - 1))
        (stack.getD 0 0) = some (tower ((stack.set 0 x).set (i.consumes - 1).toNat
          (stack.getD 0 0))) :=
      put?_tower (by rwa [List.length_set]) (by rw [List.length_set, hother]) _
    rw [item?_tower h₀ (Int.sub_zero _).symm, item?_tower hlt hother]
    simp only [bind, Option.bind, put?_tower h₀ (Int.sub_zero _).symm, hput]
    rfl
  | pop =>
    obtain ⟨x, below, rfl⟩ := List.exists_cons_of_length_pos (by omega : 0 < stack.length)
    simp only [pop?_tower]
    rfl
  | jump =>
    obtain ⟨x, below, rfl⟩ := List.exists_cons_of_length_pos (by omega : 0 < stack.length)
    simp only [pop?_tower]
    exact congrArg some (arriveAt_tower _ _)
  | jumpi =>
    obtain ⟨x, below, rfl⟩ := List.exists_cons_of_length_pos (by omega : 0 < stack.length)
    rw [List.length_cons] at henough
    obtain ⟨y, below, rfl⟩ := List.exists_cons_of_length_pos (by omega : 0 < below.length)
    simp only [pop?_tower, bind, Option.bind, arriveAt_tower, List.getD_cons_succ,
      List.getD_cons_zero]
    split <;> rfl
  | terminal => rfl
  | jumpdest => rfl
  | plain =>
    rw [popMany?_tower (by omega)]
    simp only [bind, Option.bind, pushMany_tower]
    rfl

/-- The machine on an array takes the step of the machine. -/
theorem step?_eq (hset : m.instructionSet.IsRegular) (s : State σ) :
    m.step? draw (.ofState s) = some ((m.step draw s).map .ofState) := by
  rw [step?, step, stepTaking]
  simp only [ArrayState.ofState, size_tower]
  split
  · cases hi : m.instructionSet.get? (m.code.opcode s.pc) with
    | none => rfl
    | some i =>
      by_cases henough : (s.stack.length : Int) < i.consumes
      · simp only [if_pos henough]
        rfl
      by_cases hroom : m.stackLimit < i.heightAfter s.stack.length
      · simp only [if_neg henough, if_pos hroom]
        rfl
      · simp only [if_neg henough, if_neg hroom]
        exact execute?_eq (hset _ _ hi) (Int.not_lt.1 henough)
  · rfl

theorem run?_eq (hset : m.instructionSet.IsRegular) (n : Nat) (s : State σ) :
    m.run? draw n (.ofState s) = some (m.run draw n s) := by
  induction n generalizing s with
  | zero => rfl
  | succ n ih =>
    rw [run?, step?_eq hset, run]
    cases m.step draw s with
    | error h => rfl
    | ok t => exact ih t

/-! ## Bounds -/

variable {source : σ} {k : Nat} {t : State σ}

/-- A step leaves at most as many items as there may be, and goes to an offset
    that is not before the code. -/
theorem bounds_of_step (hset : m.instructionSet.IsRegular) (hpc : 0 ≤ s.pc)
    (hs : m.step draw s = .ok t) : t.stack.length ≤ m.stackLimit ∧ 0 ≤ t.pc := by
  obtain ⟨-, i, hi, henough, hroom, hexecute⟩ := of_stepTaking_eq_ok hs
  obtain ⟨hlength, hnext⟩ := of_execute_eq_ok (hset _ _ hi) henough hexecute
  refine ⟨hlength ▸ hroom, ?_⟩
  rcases hnext with ⟨-, -, hdest⟩ | ⟨-, -, hbehind⟩
  · exact (Code.of_isJumpDest hdest).1
  · have hwidth := (hset _ _ hi).width_pos
    omega

theorem Passes.bounds (hset : m.instructionSet.IsRegular) (hlimit : 0 ≤ m.stackLimit)
    (h : m.Passes draw source k s) : s.stack.length ≤ m.stackLimit ∧ 0 ≤ s.pc := by
  induction h with
  | start => exact ⟨hlimit, Int.le_refl 0⟩
  | step _ hstep ih => exact bounds_of_step hset ih.2 hstep

/-- Runs stay in range. A machine that has no value to stand in for a missing
    item, and keeps its stack in an array, ends every run as the machine does:
    whatever it reads, writes or pops is there. Every state that a run passes
    has at most as many items as there may be, and is not before the code. An
    instruction that leads to a next state changes the height by what it produces
    less what it consumes; a terminal instruction ends the run, so it has no next
    state, and no height after it. -/
theorem run_in_range {rules : Rules} (hm : m.instructionSet = .ofRules rules)
    (hlimit : 0 ≤ m.stackLimit) (draw : σ → Int × σ) (source : σ) :
    (∀ n, m.run? draw n (.ofState (.start source)) = some (m.run draw n (.start source))) ∧
    ∀ k s, m.Passes draw source k s →
      (s.stack.length ≤ m.stackLimit ∧ 0 ≤ s.pc) ∧
      m.step? draw (.ofState s) = some ((m.step draw s).map .ofState) ∧
      ∀ t, m.step draw s = .ok t → ∃ i, m.instructionSet.get? (m.code.opcode s.pc) = some i ∧
        (t.stack.length : Int) = s.stack.length + (i.produces - i.consumes) := by
  have hset : m.instructionSet.IsRegular := hm ▸ InstructionSet.isRegular_ofRules rules
  refine ⟨fun n => run?_eq hset n _, fun k s hs => ⟨hs.bounds hset hlimit, step?_eq hset s,
    fun t ht => ?_⟩⟩
  obtain ⟨-, i, hi, henough, -, hexecute⟩ := of_stepTaking_eq_ok ht
  refine ⟨i, hi, ?_⟩
  rw [(of_execute_eq_ok (hset _ _ hi) henough hexecute).1, Instruction.heightAfter]
  omega

/-- Code that copies a value, exchanges it with its copy and drops it. -/
def copySwapDrop : Machine :=
  ⟨.ofRules (.ofHardfork .cancun), .ofBytes #[0x34, 0x80, 0x90, 0x50], Rules.defaultStackLimit⟩

/-- It stops on an array as well, and passes a state with one item on the way. -/
theorem run_in_range_copySwapDrop : let sevens : Unit → Int × Unit := fun source => (7, source)
    copySwapDrop.run? sevens 10 (.ofState (.start ())) = some .stop ∧
      ∃ s, copySwapDrop.Passes sevens () 1 s ∧ s.stack = [7] ∧
        s.stack.length ≤ Rules.defaultStackLimit ∧ 0 ≤ s.pc := by
  intro sevens
  have hm : copySwapDrop.instructionSet = .ofRules (.ofHardfork .cancun) := rfl
  obtain ⟨hrun, hpasses⟩ := run_in_range hm (by decide) sevens ()
  have hend : copySwapDrop.run sevens 10 (.start ()) = .stop := by decide +kernel
  have hpc : (State.start ()).pc < copySwapDrop.code.size := by decide
  have hi : copySwapDrop.instructionSet.get? (copySwapDrop.code.opcode (State.start ()).pc) =
      some ⟨0x34, "CALLVALUE", 0, 1, false, 0, false, .plain⟩ :=
    (InstructionSet.get?_ofRules (.ofHardfork .cancun) 0x34).trans rfl
  have hstep : copySwapDrop.step sevens (.start ()) = .ok ⟨1, [7], ()⟩ := by
    rw [step_eq_execute hpc hi (by decide) (by decide)]
    rfl
  have hs : copySwapDrop.Passes sevens () 1 ⟨1, [7], ()⟩ := .step .start hstep
  exact ⟨(hrun 10).trans (congrArg some hend), _, hs, rfl, (hpasses 1 _ hs).1⟩

end EvmFlow.Machine
