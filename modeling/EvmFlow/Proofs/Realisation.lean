import EvmFlow.Proofs.Paths

/-!
# Realising the paths of the walk

Every path that the walk follows is taken by a run, if only the branches of the
conditional jumps are chosen rightly (`Machine.Reaches`). One sequence of
choices is enough for all values that plain instructions may produce, for the
walk does not look at these values.

To say how the stack of such a run depends on the values, its items are
described beforehand: an item is a constant of the code, or one of the values
in the order in which they are produced (`Item`). The shadow that the walk
keeps is what is left when it is forgotten which value it was.

* `Walk.IsPath.realised`: every path is realised by a sequence of choices.
-/

namespace EvmFlow

namespace Machine

/-- The source that gives the values of a sequence one after the other. Its
    state is the number of values it has given. -/
def sequence (values : Nat → Int) (k : Nat) : Int × Nat := (values k, k + 1)

variable (m : Machine) (values : Nat → Int)

/-- The states that a run comes to if its plain instructions produce `values`
    and its conditional jumps are taken or not as the choices say, one choice
    for each of them. The number is the height of the stack right after the
    last jump, with which the current block began. -/
inductive Reaches : List Bool → Int → State Nat → Prop
  | start : Reaches [] 0 (.start 0)
  | straight {choices : List Bool} {base : Int} {s t : State Nat} {i : Instruction} :
      Reaches choices base s → m.instructionSet.get? (m.code.opcode s.pc) = some i →
      i.kind.isJump = false → m.stepTaking (sequence values) false s = .ok t →
      Reaches choices base t
  | jump {choices : List Bool} {base : Int} {s t : State Nat} {i : Instruction} :
      Reaches choices base s → m.instructionSet.get? (m.code.opcode s.pc) = some i →
      i.kind = .jump → m.stepTaking (sequence values) false s = .ok t →
      Reaches choices t.stack.length t
  | branch {choices : List Bool} {base : Int} {s t : State Nat} {i : Instruction} (taken : Bool) :
      Reaches choices base s → m.instructionSet.get? (m.code.opcode s.pc) = some i →
      i.kind = .jumpi → m.stepTaking (sequence values) taken s = .ok t →
      Reaches (choices ++ [taken]) t.stack.length t

end Machine

/-! ## Items -/

/-- An item of a stack, whatever values are produced. -/
inductive Item
  /-- A constant of the code. -/
  | constant (c : Int)
  /-- The `k`-th of the values that plain instructions produce. -/
  | produced (k : Nat)

namespace Item

/-- The item, given the values that are produced. -/
def value (values : Nat → Int) : Item → Int
  | constant c => c
  | produced k => values k

/-- What a shadow keeps of an item. -/
def slot : Item → Slot
  | constant c => some c
  | produced _ => none

/-- The next `n` values after the first `k`, the last one on top. -/
def fresh : (k n : Nat) → List Item
  | _, 0 => []
  | k, n + 1 => fresh (k + 1) n ++ [produced k]

theorem length_fresh (k n : Nat) : (fresh k n).length = n := by
  induction n generalizing k with
  | zero => rfl
  | succ n ih => rw [fresh, List.length_append, ih, List.length_singleton]

theorem lt_of_mem_fresh {j k n : Nat} (h : produced j ∈ fresh k n) : j < k + n := by
  induction n generalizing k with
  | zero => cases h
  | succ n ih =>
    rcases List.mem_append.1 h with h | h
    · exact Nat.succ_add_eq_add_succ k n ▸ ih h
    · cases List.mem_singleton.1 h
      exact Nat.lt_add_of_pos_right (Nat.succ_pos n)

/-- A shadow knows no fresh item. -/
theorem map_slot_fresh (k n : Nat) : (fresh k n).map slot = List.replicate n none := by
  induction n generalizing k with
  | zero => rfl
  | succ n ih =>
    rw [fresh, List.map_append, ih, List.replicate_succ']
    rfl

/-- The values that a sequence gives are the fresh items. -/
theorem produce_sequence (values : Nat → Int) (k n : Nat) :
    Machine.produce (Machine.sequence values) n [] k =
      ((fresh k n).map (value values), k + n) := by
  induction n generalizing k with
  | zero => rfl
  | succ n ih =>
    rw [Machine.produce, Machine.produce_eq, Machine.sequence, ih, fresh, List.map_append,
      Nat.add_assoc, Nat.add_comm 1 n]
    rfl

end Item

/-! ## Paths -/

namespace Walk

/-- The state of a run at the offset `pc`, with `items` on its stack and `count`
    values produced. -/
abbrev stateAt (pc : Int) (items : List Item) (count : Nat) (values : Nat → Int) :
    Machine.State Nat :=
  ⟨pc, items.map (Item.value values), count⟩

/-- Whatever values are produced, the run that makes the choices arrives at
    `pc` with `items` on its stack and `count` values produced, in a block that
    began with height `base`. -/
def Arrives (w : Walk) (choices : List Bool) (pc base : Int) (items : List Item)
    (count : Nat) : Prop :=
  ∀ values, (w.machine w.stackLimit).Reaches values choices base (stateAt pc items count values)

/-- The run that makes the choices follows the path `p`: it arrives where the
    path is, and the items on its stack are those of which the path keeps a
    shadow. -/
structure Realises (w : Walk) (choices : List Bool) (items : List Item) (count : Nat)
    (p : Path) : Prop where
  height : p.height = items.length
  slots : p.shadow.slots = items.map Item.slot
  produced_lt : ∀ k, .produced k ∈ items → k < count
  arrives : w.Arrives choices p.pc p.base items count

variable {w : Walk} {p q : Path} {i : Instruction} {e : Expansion}

/-- All paths that go on from an instruction have the same height. -/
theorem Leads.height_eq (h : w.Leads p i e) (hq : q ∈ e.next) :
    q.height = i.heightAfter p.height := by
  cases h with
  | jump => cases List.mem_singleton.1 hq; rfl
  | jumpi =>
    rcases List.mem_cons.1 hq with rfl | hq
    · rfl
    · cases List.mem_singleton.1 hq; rfl
  | terminal => cases hq
  | straight => cases List.mem_singleton.1 hq; rfl

/-- All paths that go on from an instruction have the same shadow, to which the
    instruction did what it does to the stack. -/
theorem Leads.slots_eq {opcode : UInt8} (hi : i.IsRegular opcode)
    (henough : i.consumes ≤ p.shadow.slots.length) (h : w.Leads p i e) (hq : q ∈ e.next) :
    q.shadow.slots = i.effect (some (w.code.word (p.pc + 1) i.immediateLength.toNat : Int))
      (List.replicate i.freshCount none) p.shadow.slots := by
  cases h with
  | jump hk =>
    cases List.mem_singleton.1 hq
    exact Shadow.slots_of_jump hk _ _
  | jumpi hk =>
    rcases List.mem_cons.1 hq with rfl | hq
    · exact Shadow.slots_of_jumpi hk _ _
    · cases List.mem_singleton.1 hq
      exact Shadow.slots_of_jumpi hk _ _
  | terminal => cases hq
  | straight hjump hterminal =>
    cases List.mem_singleton.1 hq
    exact Shadow.slots_apply hi henough hjump hterminal _

namespace Realises

variable {choices : List Bool} {items : List Item} {count : Nat}

theorem start : w.Realises [] [] 0 .start where
  height := rfl
  slots := rfl
  produced_lt _ h := by cases h
  arrives _ := .start

/-- A constant that the path knows to be on top of the stack is there. -/
theorem head?_eq_constant (h : w.Realises choices items count p) {d : Int}
    (hd : p.shadow.pop.1 = some d) : items.head? = some (.constant d) := by
  rw [Shadow.fst_pop, h.slots] at hd
  cases items with
  | nil => cases hd
  | cons item below =>
    cases item with
    | constant c =>
      cases hd
      rfl
    | produced k => cases hd

/-- If the path does not know the item on top of the stack, it was produced. -/
theorem head?_eq_produced (h : w.Realises choices items count p) (hpos : 0 < p.height)
    (hd : p.shadow.pop.1 = none) : ∃ k < count, items.head? = some (.produced k) := by
  rw [Shadow.fst_pop, h.slots] at hd
  rw [h.height] at hpos
  cases items with
  | nil => cases hpos
  | cons item below =>
    cases item with
    | constant c => cases hd
    | produced k => exact ⟨k, h.produced_lt k List.mem_cons_self, rfl⟩

theorem top_eq (h : w.Realises choices items count p) {d : Int} (hd : p.shadow.pop.1 = some d)
    (values : Nat → Int) : (items.map (Item.value values)).getD 0 0 = d := by
  obtain ⟨below, rfl⟩ := List.head?_eq_some_iff.1 (h.head?_eq_constant hd)
  rfl

/-- The run executes the instruction that the path follows. -/
theorem stepTaking_eq (h : w.Realises choices items count p) (hf : w.Follows p i e)
    (values : Nat → Int) (taken : Bool) :
    (w.machine w.stackLimit).stepTaking (Machine.sequence values) taken
        (stateAt p.pc items count values) =
      (w.machine w.stackLimit).execute (Machine.sequence values) taken
        (stateAt p.pc items count values) i := by
  have hlen : ((stateAt p.pc items count values).stack.length : Int) = p.height := by
    rw [List.length_map, h.height]
  refine (Machine.stepTaking_eq hf.inside hf.get? ?_).trans (if_neg ?_)
  · rw [hlen]
    exact hf.consumes_le
  · rw [hlen]
    exact Int.not_lt.2 hf.heightAfter_le

variable (i items count) in
/-- The items after the instruction `i` with the given literal. -/
abbrev itemsAfter (literal : Nat) : List Item :=
  i.effect (.constant literal) (Item.fresh count i.freshCount) items

theorem stateAt_itemsAfter (pc : Int) (literal n : Nat) (values : Nat → Int) :
    stateAt pc (itemsAfter i items count literal) n values =
      ⟨pc, i.effect (literal : Int) ((Item.fresh count i.freshCount).map (Item.value values))
        (items.map (Item.value values)), n⟩ := by
  rw [stateAt, i.map_effect]
  rfl

/-- A run that goes on behind the instruction. -/
theorem stepTaking_behind (hset : w.instructionSet.IsRegular)
    (h : w.Realises choices items count p) (hf : w.Follows p i e) (values : Nat → Int)
    {taken : Bool} (hj : ¬i.Jumps taken) (hterminal : i.kind ≠ .terminal) :
    (w.machine w.stackLimit).stepTaking (Machine.sequence values) taken
        (stateAt p.pc items count values) =
      .ok (stateAt (p.pc + i.width)
        (itemsAfter i items count (w.code.word (p.pc + 1) i.immediateLength.toNat))
        (count + i.freshCount) values) := by
  have henough : i.consumes ≤ (stateAt p.pc items count values).stack.length := by
    rw [List.length_map, ← h.height]
    exact hf.consumes_le
  rw [h.stepTaking_eq hf, Machine.execute_of_not_jumps (hf.isRegular hset) henough hj hterminal,
    Item.produce_sequence, stateAt_itemsAfter]
  rfl

/-- A run that goes to the destination of the instruction. -/
theorem stepTaking_jump (h : w.Realises choices items count p) (hf : w.Follows p i e)
    (values : Nat → Int) {taken : Bool} (hj : i.Jumps taken) {d : Int}
    (hd : p.shadow.pop.1 = some d) (hdest : w.code.isJumpDest d = true) (literal : Nat) :
    (w.machine w.stackLimit).stepTaking (Machine.sequence values) taken
        (stateAt p.pc items count values) =
      .ok (stateAt d (itemsAfter i items count literal) (count + i.freshCount) values) := by
  have hfresh : i.freshCount = 0 := if_neg fun hk => by
    have := hj.isJump
    rw [hk] at this
    cases this
  rw [h.stepTaking_eq hf, Machine.execute_of_jumps hj literal
    ((Item.fresh count i.freshCount).map (Item.value values)), h.top_eq hd, stateAt_itemsAfter,
    hfresh]
  exact if_pos hdest

/-- The items after an instruction are those of the paths that go on from it,
    however the run comes there. -/
theorem of_arrives (hset : w.instructionSet.IsRegular) (h : w.Realises choices items count p)
    (hf : w.Follows p i e) (hq : q ∈ e.next) {choices' : List Bool}
    (harrives : w.Arrives choices' q.pc q.base
      (itemsAfter i items count (w.code.word (p.pc + 1) i.immediateLength.toNat))
      (count + i.freshCount)) :
    w.Realises choices' (itemsAfter i items count (w.code.word (p.pc + 1) i.immediateLength.toNat))
      (count + i.freshCount) q := by
  have hi := hf.isRegular hset
  have hleads := hf.leads hset
  have henough : i.consumes ≤ items.length := h.height ▸ hf.consumes_le
  have hterminal := hleads.ne_terminal hq
  refine ⟨?_, ?_, fun k hk => ?_, harrives⟩
  · rw [hleads.height_eq hq, h.height,
      i.length_effect hi henough (Item.length_fresh _ _) hterminal]
  · have hslots : i.consumes ≤ p.shadow.slots.length := by
      rwa [h.slots, List.length_map]
    rw [hleads.slots_eq hi hslots hq, h.slots, i.map_effect, Item.map_slot_fresh]
    rfl
  · -- an item that was produced is fresh, or was there before
    rcases i.mem_effect hk with hk | hk | hk
    · cases hk
    · exact Item.lt_of_mem_fresh hk
    · exact Nat.lt_add_right _ (h.produced_lt k hk)

/-- The height that a block begins with after a jump is that of the stack. -/
theorem length_stateAt (hset : w.instructionSet.IsRegular)
    (h : w.Realises choices items count p) (hf : w.Follows p i e) (hk : i.kind.isJump = true)
    (pc : Int) (literal n : Nat) (values : Nat → Int) :
    ((stateAt pc (itemsAfter i items count literal) n values).stack.length : Int) =
      i.heightAfter p.height := by
  have hterminal : i.kind ≠ .terminal := fun hk' => by rw [hk'] at hk; cases hk
  rw [List.length_map, h.height, i.length_effect (hf.isRegular hset) (h.height ▸ hf.consumes_le)
    (Item.length_fresh _ _) hterminal]

/-- What goes on from a path that is realised is realised, with one more choice
    at a conditional jump. -/
theorem next (hset : w.instructionSet.IsRegular) (h : w.Realises choices items count p)
    (hf : w.Follows p i e) (hq : q ∈ e.next) :
    ∃ choices', w.Realises choices'
      (itemsAfter i items count (w.code.word (p.pc + 1) i.immediateLength.toNat))
      (count + i.freshCount) q := by
  cases hf.leads hset with
  | @jump d hk hd hdest =>
    refine ⟨choices, h.of_arrives hset hf hq fun values => ?_⟩
    cases List.mem_singleton.1 hq
    have hj : i.Jumps false := .inl hk
    have hstep := h.stepTaking_jump hf values hj hd hdest
      (w.code.word (p.pc + 1) i.immediateLength.toNat)
    have hreaches := (h.arrives values).jump hf.get? hk hstep
    -- the block that begins here has the height that the path took for its base
    rwa [h.length_stateAt hset hf (by rw [hk]; rfl)] at hreaches
  | @jumpi d hk hd hdest =>
    rcases List.mem_cons.1 hq with rfl | hq'
    · refine ⟨choices ++ [false], h.of_arrives hset hf hq fun values => ?_⟩
      have hj : ¬i.Jumps false := by
        rintro (hk' | ⟨-, hk'⟩)
        · rw [hk] at hk'
          cases hk'
        · cases hk'
      have hstep := h.stepTaking_behind hset hf values hj (by rw [hk]; decide)
      have hreaches := (h.arrives values).branch false hf.get? hk hstep
      rwa [h.length_stateAt hset hf (by rw [hk]; rfl)] at hreaches
    · refine ⟨choices ++ [true], h.of_arrives hset hf hq fun values => ?_⟩
      cases List.mem_singleton.1 hq'
      have hj : i.Jumps true := .inr ⟨hk, rfl⟩
      have hstep := h.stepTaking_jump hf values hj hd hdest
        (w.code.word (p.pc + 1) i.immediateLength.toNat)
      have hreaches := (h.arrives values).branch true hf.get? hk hstep
      rwa [h.length_stateAt hset hf (by rw [hk]; rfl)] at hreaches
  | terminal => cases hq
  | straight hjump hterminal =>
    -- no choice is made, and the block goes on
    refine ⟨choices, h.of_arrives hset hf hq fun values => ?_⟩
    cases List.mem_singleton.1 hq
    have hj : ¬i.Jumps false := fun hj => by rw [hj.isJump] at hjump; cases hjump
    exact (h.arrives values).straight hf.get? hjump (h.stepTaking_behind hset hf values hj hterminal)

end Realises

/-- Every path is realised by a sequence of choices. -/
theorem IsPath.realised (hset : w.instructionSet.IsRegular) (h : w.IsPath p) :
    ∃ choices items count, w.Realises choices items count p := by
  induction h with
  | start => exact ⟨[], [], 0, .start⟩
  | next _ hf hq ih =>
    obtain ⟨choices, items, count, h⟩ := ih
    obtain ⟨choices', h'⟩ := h.next hset hf hq
    exact ⟨choices', _, _, h'⟩

end Walk

end EvmFlow
