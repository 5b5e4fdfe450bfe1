import EvmFlow.InstructionSet
import EvmFlow.Shadow
import Std.Data.TreeMap
import Std.Data.TreeSet

/-!
# Steps of the walk

The walk checks code by following all its paths, depth first, from offset
zero. A path carries the height of the stack, the height its block began with,
and a shadow of the stack, from which the destinations of jumps are known.
Each offset is *expanded* once: its instruction is checked against the height,
and the path goes on at the offsets that may follow. A path that comes to an
offset expanded before ends there, provided it brings at least as many items
as the first one did. At a conditional jump the path goes on behind the jump,
and the other branch waits until it has ended.

A path may only end with at least as many items as its block began with, be it
at a terminal instruction or past the end of the code.

What the report says is kept while the walk goes on: the offsets expanded and
their number (`Walk.VisitedTable`), the destinations of jumps, the number of
paths and the greatest height (`Walk.State`).

* `Walk.expand` checks the instruction at the head of a path and gives the
  paths that go on from it, `Walk.expand_cases` says what they can be;
* `Walk.step` advances the first open path, `Walk.step_cases` says what comes
  of it.
-/

namespace EvmFlow

/-- A path being followed. -/
structure Path where
  /-- The offset it has come to. -/
  pc : Int
  /-- The height of the stack. -/
  height : Int
  /-- The height with which the current block began. -/
  base : Int
  /-- The shadow of the stack. -/
  shadow : Shadow
  deriving DecidableEq, Repr

/-- The path that starts the walk. -/
def Path.start : Path := ⟨0, 0, 0, .empty⟩

/-- What is known of an expanded offset. -/
structure Visit where
  /-- The height of the stack over the base of the block. -/
  depth : Int
  /-- The height of the stack. -/
  height : Int
  /-- Where the instruction jumps to, if it is a jump. -/
  target : Option Int
  deriving DecidableEq, Repr

/-- The summary of a walk that found no violation. -/
structure Report where
  /-- The number of bytes of the code. -/
  codeLength : Nat
  /-- The number of offsets expanded. -/
  instructionsVisited : Nat
  /-- The number of paths followed to their end. -/
  pathsExplored : Nat
  /-- The greatest height after an instruction that does not jump. -/
  maxStackHeight : Int
  /-- The destinations of the jumps, ascending. -/
  jumpDestinations : List Nat
  /-- The depth at each expanded offset of the code, by ascending offset. -/
  entryDepths : List (Nat × Int)
  deriving DecidableEq, Repr

/-- What is walked: code under an instruction set and limits. -/
structure Walk where
  /-- The instructions that exist. -/
  instructionSet : InstructionSet
  /-- The code. -/
  code : Code
  /-- The most items the stack may hold. -/
  stackLimit : Int
  /-- Paths must not run off the end of the code. -/
  strictEnd : Bool

namespace Walk

/-- What follows an expanded offset: where it jumps to, and the paths that go
    on from it. -/
structure Expansion where
  /-- Where the instruction jumps to, if it is a jump. -/
  target : Option Int
  /-- The paths that go on, the one to be followed first in front. -/
  next : List Path

/-- The offsets that have been expanded. -/
structure VisitedTable where
  /-- What is known of each of them. -/
  entries : Std.TreeMap Int Visit
  /-- How many entries were made. -/
  count : Nat

namespace VisitedTable

/-- The table of a walk that has expanded no offset. -/
def empty : VisitedTable := ⟨∅, 0⟩

variable (table : VisitedTable)

/-- What is known of an offset. -/
def get? (pc : Int) : Option Visit := table.entries[pc]?

/-- Records what is known of an offset. -/
def record (pc : Int) (v : Visit) : VisitedTable := ⟨table.entries.insert pc v, table.count + 1⟩

/-- The depth at each offset recorded, of the offsets below `size`. -/
def depths (size : Nat) : List (Nat × Int) :=
  (List.range size).filterMap fun pc : Nat => (table.get? pc).map fun v => (pc, v.depth)

@[simp] theorem get?_empty (pc : Int) : empty.get? pc = none := Std.TreeMap.getElem?_emptyc

/-- An offset that was recorded is known, all others are known as before. -/
theorem get?_record (pc : Int) (v : Visit) (q : Int) :
    (table.record pc v).get? q = if q = pc then some v else table.get? q := by
  rw [get?, record, Std.TreeMap.getElem?_insert, get?]
  simp only [Std.compare_eq_iff_eq, eq_comm (a := q)]

/-- The depths are those of the offsets recorded below `size`. -/
theorem mem_depths {size k : Nat} {depth : Int} : (k, depth) ∈ table.depths size ↔
    k < size ∧ ∃ v, table.get? k = some v ∧ v.depth = depth := by
  rw [depths, List.mem_filterMap]
  constructor
  · rintro ⟨pc, hpc, hentry⟩
    obtain ⟨v, hv, heq⟩ := Option.map_eq_some_iff.1 hentry
    cases heq
    exact ⟨List.mem_range.1 hpc, v, hv, rfl⟩
  · rintro ⟨hk, v, hv, rfl⟩
    exact ⟨k, List.mem_range.2 hk, by rw [hv]; rfl⟩

end VisitedTable

/-- The state of a walk. -/
structure State where
  /-- The offsets expanded. -/
  visited : VisitedTable
  /-- The destinations of the jumps among them. -/
  destinations : Std.TreeSet Nat
  /-- The number of closed paths. -/
  explored : Nat
  /-- The greatest height so far. -/
  maxHeight : Int
  /-- The open paths, the one being followed first. -/
  paths : List Path

namespace State

/-- The state in which the walk starts. -/
def start : State := ⟨.empty, ∅, 0, 0, [Path.start]⟩

variable (s : State)

/-- What is known of an offset. -/
def visit? (pc : Int) : Option Visit := s.visited.get? pc

/-- Closes the path being followed, leaving the others open. -/
def close (others : List Path) : State :=
  { s with explored := s.explored + 1, paths := others }

/-- Expands the offset that the path `p` has come to, at which the instruction
    `i` stands. -/
def enter (p : Path) (i : Instruction) (e : Expansion) (others : List Path) : State where
  visited := s.visited.record p.pc ⟨p.height - p.base, p.height, e.target⟩
  destinations :=
    match e.target with
    | some d => s.destinations.insert d.toNat
    | none => s.destinations
  explored := if e.next.isEmpty then s.explored + 1 else s.explored
  maxHeight := if i.kind.isJump then s.maxHeight else max s.maxHeight (i.heightAfter p.height)
  paths := e.next ++ others

/-- The summary of the state of a walk over `size` bytes. -/
def report (size : Nat) : Report where
  codeLength := size
  instructionsVisited := s.visited.count
  pathsExplored := s.explored
  maxStackHeight := s.maxHeight
  jumpDestinations := s.destinations.toList
  entryDepths := s.visited.depths size

@[simp] theorem visit?_start (pc : Int) : start.visit? pc = none := VisitedTable.get?_empty pc

@[simp] theorem visit?_close (others : List Path) (pc : Int) :
    (s.close others).visit? pc = s.visit? pc := rfl

theorem paths_close (others : List Path) : (s.close others).paths = others := rfl

theorem explored_close (others : List Path) : (s.close others).explored = s.explored + 1 := rfl

variable (p : Path) (i : Instruction) (e : Expansion) (others : List Path)

/-- What is known after an offset was expanded. -/
theorem visit?_enter (pc : Int) :
    (s.enter p i e others).visit? pc =
      if pc = p.pc then some ⟨p.height - p.base, p.height, e.target⟩ else s.visit? pc :=
  s.visited.get?_record p.pc _ pc

theorem paths_enter : (s.enter p i e others).paths = e.next ++ others := rfl

theorem explored_enter : (s.enter p i e others).explored =
    s.explored + if e.next.isEmpty then 1 else 0 := by
  change (if e.next.isEmpty then s.explored + 1 else s.explored) = _
  split <;> rfl

theorem maxHeight_enter : (s.enter p i e others).maxHeight =
    if i.kind.isJump then s.maxHeight else max s.maxHeight (i.heightAfter p.height) := rfl

end State

variable (w : Walk)

/-- A path that ends at `pc` has at least as many items as its block began
    with. -/
def checkExit (pc : Int) (height base : Int) : Except Violation Unit :=
  if height < base then .error (.stackUnderflow pc base height) else .ok ()

/-- A path may run off the end of the code here. -/
def checkEnd (p : Path) : Except Violation Unit :=
  if w.strictEnd ∧ 0 < w.code.size then .error (.codeTruncated p.pc w.code.size)
  else checkExit p.pc p.height p.base

/-- The destination of a jump at the head of a path: the constant on top of the
    stack, which has to be a jump destination. -/
def destination (p : Path) : Except Violation Int :=
  match p.shadow.pop.1 with
  | none => .error (.unresolvedDynamicJump p.pc)
  | some d =>
    if w.code.isJumpDest d then .ok d else .error (.invalidJumpDestination p.pc d)

/-- Checks the instruction `i` at the head of a path, and follows it. -/
def expand (p : Path) (i : Instruction) : Except Violation Expansion :=
  if p.height < i.consumes then .error (.stackUnderflow p.pc i.consumes p.height)
  else
    let height := i.heightAfter p.height
    if w.stackLimit < height then .error (.stackOverflow p.pc w.stackLimit height)
    else match i.kind with
      | .jump => do
        let d ← w.destination p
        return ⟨some d, [⟨d, height, height, p.shadow.pop.2⟩]⟩
      | .jumpi => do
        let d ← w.destination p
        let shadow := p.shadow.pop.2.drop 1
        return ⟨some d, [⟨p.pc + i.width, height, height, shadow⟩, ⟨d, height, height, shadow⟩]⟩
      | _ => do
        let value ← i.immediate w.code p.pc
        if i.terminal then
          checkExit p.pc height p.base
          return ⟨none, []⟩
        else return ⟨none, [⟨p.pc + i.width, height, p.base, p.shadow.apply i value⟩]⟩

/-- Advances the path `p`, which is the first of the open paths of `s`. -/
def step (s : State) (p : Path) (others : List Path) : Except Violation State :=
  if p.pc < w.code.size then do
    let i ← w.instructionSet.decode w.code p.pc
    match s.visit? p.pc with
    | some v =>
      if p.height < v.height then .error (.stackUnderflow p.pc v.height p.height)
      else return s.close others
    | none =>
      let e ← w.expand p i
      return s.enter p i e others
  else do
    w.checkEnd p
    return s.close others

/-! ## What a step can do -/

variable {w}

/-- The destination of a jump is known from the shadow, and stands in the
    code. -/
theorem of_destination_eq_ok {p : Path} {d : Int} (h : w.destination p = .ok d) :
    p.shadow.pop.1 = some d ∧ w.code.isJumpDest d := by
  unfold destination at h
  split at h
  · cases h
  · next hd =>
    split at h
    · next hj =>
      cases h
      exact ⟨hd, hj⟩
    · cases h

/-- What an instruction that was followed leads to. -/
theorem expand_cases {p : Path} {i : Instruction} {e : Expansion} (h : w.expand p i = .ok e) :
    i.consumes ≤ p.height ∧ i.heightAfter p.height ≤ w.stackLimit ∧
      ((i.kind = .jump ∧ ∃ d, w.destination p = .ok d ∧
          e = ⟨some d, [⟨d, i.heightAfter p.height, i.heightAfter p.height, p.shadow.pop.2⟩]⟩) ∨
        (i.kind = .jumpi ∧ ∃ d, w.destination p = .ok d ∧
          e = ⟨some d, [⟨p.pc + i.width, i.heightAfter p.height, i.heightAfter p.height,
              p.shadow.pop.2.drop 1⟩,
            ⟨d, i.heightAfter p.height, i.heightAfter p.height, p.shadow.pop.2.drop 1⟩]⟩) ∨
        (i.kind.isJump = false ∧ ∃ value, i.immediate w.code p.pc = .ok value ∧
          ((i.terminal = true ∧ checkExit p.pc (i.heightAfter p.height) p.base = .ok () ∧
              e = ⟨none, []⟩) ∨
            (i.terminal = false ∧ e = ⟨none, [⟨p.pc + i.width, i.heightAfter p.height, p.base,
              p.shadow.apply i value⟩]⟩)))) := by
  unfold expand at h
  split at h
  · cases h
  · next hc =>
    simp only at h
    split at h
    · cases h
    · next hl =>
      refine ⟨Int.not_lt.1 hc, Int.not_lt.1 hl, ?_⟩
      split at h
      · next hk =>
        cases hd : w.destination p with
        | error v => simp [hd, bind, Except.bind] at h
        | ok d =>
          simp only [hd, bind, Except.bind, pure, Except.pure, Except.ok.injEq] at h
          exact .inl ⟨hk, d, rfl, h.symm⟩
      · next hk =>
        cases hd : w.destination p with
        | error v => simp [hd, bind, Except.bind] at h
        | ok d =>
          simp only [hd, bind, Except.bind, pure, Except.pure, Except.ok.injEq] at h
          exact .inr (.inl ⟨hk, d, rfl, h.symm⟩)
      · next hjump hjumpi =>
        have hk : i.kind.isJump = false := by
          unfold Kind.isJump
          split
          · next hk => exact absurd hk hjump
          · next hk => exact absurd hk hjumpi
          · rfl
        cases hv : i.immediate w.code p.pc with
        | error v => simp [hv, bind, Except.bind] at h
        | ok value =>
          refine .inr (.inr ⟨hk, value, rfl, ?_⟩)
          simp only [hv, bind, Except.bind, pure, Except.pure] at h
          split at h
          · next hterminal =>
            cases hx : checkExit p.pc (i.heightAfter p.height) p.base with
            | error v => simp [hx] at h
            | ok _ =>
              simp only [hx, Except.ok.injEq] at h
              exact .inl ⟨hterminal, rfl, h.symm⟩
          · next hterminal =>
            cases h
            exact .inr ⟨Bool.eq_false_iff.2 hterminal, rfl⟩

/-- What comes of a step: the path ends past the code, or at an offset that is
    known, or its offset is expanded. -/
theorem step_cases {s t : State} {p : Path} {others : List Path}
    (h : w.step s p others = .ok t) :
    (w.code.size ≤ p.pc ∧ w.checkEnd p = .ok () ∧ t = s.close others) ∨
      (p.pc < w.code.size ∧ ∃ i, w.instructionSet.decode w.code p.pc = .ok i ∧
        ((∃ v, s.visit? p.pc = some v ∧ v.height ≤ p.height ∧ t = s.close others) ∨
          (s.visit? p.pc = none ∧ ∃ e, w.expand p i = .ok e ∧ t = s.enter p i e others))) := by
  unfold step at h
  split at h
  · next hpc =>
    refine .inr ⟨hpc, ?_⟩
    cases hi : w.instructionSet.decode w.code p.pc with
    | error v => simp [hi, bind, Except.bind] at h
    | ok i =>
      refine ⟨i, rfl, ?_⟩
      simp only [hi, bind, Except.bind] at h
      split at h
      · next v hv =>
        split at h
        · cases h
        · next hheight =>
          cases h
          exact .inl ⟨v, hv, Int.not_lt.1 hheight, rfl⟩
      · next hv =>
        cases he : w.expand p i with
        | error v => simp [he] at h
        | ok e =>
          simp only [he, pure, Except.pure, Except.ok.injEq] at h
          exact .inr ⟨hv, e, rfl, h.symm⟩
  · next hpc =>
    cases hx : w.checkEnd p with
    | error v => simp [hx, bind, Except.bind] at h
    | ok _ =>
      simp only [hx, bind, Except.bind, pure, Except.pure, Except.ok.injEq] at h
      exact .inl ⟨Int.not_lt.1 hpc, rfl, h.symm⟩

end Walk

end EvmFlow
