import EvmFlow.Proofs.Paths

/-!
# Shadows and the stacks they abstract

A shadow *abstracts* a stack (`Shadow.Abstracts`) if it has a slot for each
item, and what it knows of an item is so. The walk keeps a shadow up to date
without running the code: it applies each instruction to the shadow, and takes
the operands of jumps off. The machine meanwhile counts its stack from the
other end and fills in results that the shadow leaves open. The shadow still
abstracts the stack after each step (`Shadow.abstracts_step`).

The argument does not look at single instructions. A shadow that abstracts a
stack is one half of a list of pairs, a slot and the item it stands for, and
the stack is the other half. An instruction moves the pairs as it moves slots
or items, and adds none but its literal and unknown results.
-/

namespace EvmFlow

namespace Shadow

/-- The shadow has a slot for each item of the stack, and a constant that it
    knows is the item at the same distance from the top. -/
structure Abstracts (s : Shadow) (stack : List Int) : Prop where
  size_eq : s.size = stack.length
  known : ∀ (k : Nat) (v : Int), s.slots[k]? = some (some v) → stack[k]? = some v

/-- What is known of an item is so. -/
def Agrees (pair : Slot × Int) : Prop := ∀ v, pair.1 = some v → pair.2 = v

variable {s t : Shadow} {stack fresh : List Int} {i : Instruction} {value : Int}

/-! ## Pairs of a slot and an item -/

theorem Abstracts.exists_pairs (h : s.Abstracts stack) : ∃ pairs : List (Slot × Int),
    pairs.map Prod.fst = s.slots ∧ pairs.map Prod.snd = stack ∧ ∀ x ∈ pairs, Agrees x := by
  have hlength : s.slots.length = stack.length := s.size_eq.symm.trans h.size_eq
  refine ⟨s.slots.zip stack, List.map_fst_zip (Nat.le_of_eq hlength),
    List.map_snd_zip (Nat.le_of_eq hlength.symm), fun x hx v hv => ?_⟩
  obtain ⟨k, hk⟩ := List.mem_iff_getElem?.1 hx
  obtain ⟨hslot, hitem⟩ := List.getElem?_zip_eq_some.1 hk
  rw [hv] at hslot
  exact Option.some.inj (hitem.symm.trans (h.known k v hslot))

theorem abstracts_of_pairs (pairs : List (Slot × Int)) (hslots : pairs.map Prod.fst = s.slots)
    (hstack : pairs.map Prod.snd = stack) (hagrees : ∀ x ∈ pairs, Agrees x) :
    s.Abstracts stack where
  size_eq := by rw [s.size_eq, ← hslots, ← hstack, List.length_map, List.length_map]
  known k v hk := by
    rw [← hslots, List.getElem?_map, Option.map_eq_some_iff] at hk
    obtain ⟨x, hx, hv⟩ := hk
    rw [← hstack, List.getElem?_map, hx, ← hagrees x (List.mem_of_getElem? hx) v hv]
    rfl

/-- An instruction that does to the slots what it does to the items keeps the
    abstraction, if nothing is known of its results. -/
theorem Abstracts.effect (h : s.Abstracts stack)
    (ht : t.slots = i.effect (some value) (List.replicate fresh.length none) s.slots) :
    t.Abstracts (i.effect value fresh stack) := by
  obtain ⟨pairs, hslots, hstack, hagrees⟩ := h.exists_pairs
  refine abstracts_of_pairs (i.effect (some value, value) (fresh.map fun x => (none, x)) pairs)
    ?_ ?_ fun x hx => ?_
  · rw [i.map_effect, List.map_map, hslots, ht]
    exact congrArg (i.effect _ · _) List.map_const'
  · rw [i.map_effect, List.map_map, hstack]
    exact congrArg (i.effect _ · _) (List.map_id _)
  · intro v hv
    rcases Instruction.mem_effect hx with rfl | hfresh | hpair
    · exact Option.some.inj hv
    · obtain ⟨y, -, rfl⟩ := List.mem_map.1 hfresh
      cases hv
    · exact hagrees x hpair v hv

end Shadow

namespace Machine

variable {σ : Type} {draw : σ → Int × σ} {m : Machine} {c c' : State σ} {i : Instruction}

/-- The stack after a step is what the instruction makes of it, with results
    that come from the source. -/
theorem exists_effect_of_step (hset : m.instructionSet.IsRegular)
    (hi : m.instructionSet.get? (m.code.opcode c.pc) = some i) (hs : m.step draw c = .ok c') :
    i.kind ≠ .terminal ∧ ∃ fresh : List Int, fresh.length = i.freshCount ∧
      c'.stack = i.effect (m.code.word (c.pc + 1) i.immediateLength.toNat : Int) fresh c.stack := by
  obtain ⟨-, j, hj, henough, -, hexecute⟩ := of_stepTaking_eq_ok hs
  cases hi.symm.trans hj
  have hterminal : i.kind ≠ .terminal := fun hk => by
    rw [execute_of_terminal hk] at hexecute
    cases hexecute
  refine ⟨hterminal, (produce draw i.freshCount [] c.source).1, length_produce _ _, ?_⟩
  by_cases hjumps : i.Jumps (c.stack.getD 1 0 != 0)
  · rw [execute_of_jumps hjumps (m.code.word (c.pc + 1) i.immediateLength.toNat)
      (produce draw i.freshCount [] c.source).1, jumpTo] at hexecute
    split at hexecute
    · cases hexecute
      rfl
    · cases hexecute
  · rw [execute_of_not_jumps (hset _ _ hi) henough hjumps hterminal] at hexecute
    cases hexecute
    rfl

/-- When a step is taken: there is room for the results, the run does not end
    here, and a jump has a jump destination on top of the stack. -/
theorem exists_step_iff (hset : m.instructionSet.IsRegular) (hpc : c.pc < m.code.size)
    (hi : m.instructionSet.get? (m.code.opcode c.pc) = some i)
    (henough : i.consumes ≤ c.stack.length) :
    (∃ c', m.step draw c = .ok c') ↔
      i.heightAfter c.stack.length ≤ m.stackLimit ∧ i.kind ≠ .terminal ∧
        (i.Jumps (c.stack.getD 1 0 != 0) → m.code.isJumpDest (c.stack.getD 0 0) = true) := by
  constructor
  · rintro ⟨c', hs⟩
    obtain ⟨-, j, hj, -, hroom, hexecute⟩ := of_stepTaking_eq_ok hs
    cases hi.symm.trans hj
    refine ⟨hroom, (exists_effect_of_step hset hi hs).1, fun hjumps => ?_⟩
    rcases (of_execute_eq_ok (hset _ _ hi) henough hexecute).2 with ⟨-, hd, hdest⟩ | ⟨hnot, -⟩
    · rwa [hd] at hdest
    · exact absurd hjumps hnot
  · rintro ⟨hroom, hterminal, hdest⟩
    rw [step_eq_execute hpc hi henough hroom]
    by_cases hjumps : i.Jumps (c.stack.getD 1 0 != 0)
    · exact ⟨_, (execute_of_jumps hjumps 0 []).trans (if_pos (hdest hjumps))⟩
    · exact ⟨_, execute_of_not_jumps (hset _ _ hi) henough hjumps hterminal⟩

end Machine

namespace Shadow

variable {σ : Type} {draw : σ → Int × σ} {m : Machine} {c : Machine.State σ} {i : Instruction}
  {s t : Shadow}

/-- A shadow to which an instruction does what it does to the stack abstracts
    the stack after the step. -/
theorem Abstracts.step (hset : m.instructionSet.IsRegular)
    (hi : m.instructionSet.get? (m.code.opcode c.pc) = some i) (h : s.Abstracts c.stack)
    (ht : i.kind ≠ .terminal → t.slots =
      i.effect (some (m.code.word (c.pc + 1) i.immediateLength.toNat : Int))
        (List.replicate i.freshCount none) s.slots)
    {c' : Machine.State σ} (hs : m.step draw c = .ok c') : t.Abstracts c'.stack := by
  obtain ⟨hterminal, fresh, hfresh, hstack⟩ := Machine.exists_effect_of_step hset hi hs
  rw [hstack]
  exact h.effect (hfresh ▸ ht hterminal)

/-- A shadow that abstracts the stack of the machine goes on doing so. At an
    instruction that does not jump it is applied to the shadow, at a jump the
    operands are taken off; either way the number of slots changes by what the
    instruction produces less what it consumes, and after a step of the machine
    the shadow abstracts the stack again, whatever values were drawn. A step is
    taken unless there is no room, the instruction ends the run, or the jump
    goes nowhere. -/
theorem abstracts_step {rules : Rules} (hm : m.instructionSet = .ofRules rules)
    (hpc : c.pc < m.code.size) (hi : m.instructionSet.get? (m.code.opcode c.pc) = some i)
    (henough : i.consumes ≤ c.stack.length) (h : s.Abstracts c.stack) :
    (i.kind.isJump = false → ∀ value, i.immediate m.code c.pc = .ok value →
      ((s.apply i value).size : Int) = s.size + (i.produces - i.consumes) ∧
      ∀ c', m.step draw c = .ok c' → (s.apply i value).Abstracts c'.stack) ∧
    (i.kind = .jump →
      (s.pop.2.size : Int) = s.size + (i.produces - i.consumes) ∧
      ∀ c', m.step draw c = .ok c' → s.pop.2.Abstracts c'.stack) ∧
    (i.kind = .jumpi →
      ((s.pop.2.drop 1).size : Int) = s.size + (i.produces - i.consumes) ∧
      ∀ c', m.step draw c = .ok c' → (s.pop.2.drop 1).Abstracts c'.stack) ∧
    ((∃ c', m.step draw c = .ok c') ↔
      i.heightAfter c.stack.length ≤ m.stackLimit ∧ i.kind ≠ .terminal ∧
        (i.Jumps (c.stack.getD 1 0 != 0) → m.code.isJumpDest (c.stack.getD 0 0) = true)) := by
  have hset : m.instructionSet.IsRegular := hm ▸ InstructionSet.isRegular_ofRules rules
  have hreg := hset _ _ hi
  have hsize : i.consumes ≤ s.size := by rwa [h.size_eq]
  have hslots : i.consumes ≤ s.slots.length := by rwa [← s.size_eq]
  have hheight : i.heightAfter s.size = s.size + (i.produces - i.consumes) := by
    rw [Instruction.heightAfter]
    omega
  refine ⟨fun hjump value hvalue => ?_, fun hk => ?_, fun hk => ?_,
    Machine.exists_step_iff hset hpc hi henough⟩
  · obtain ⟨-, rfl⟩ := Walk.of_immediate_eq_ok hvalue
    exact ⟨hheight ▸ size_apply hreg hsize hjump _, fun c' =>
      h.step hset hi fun hterminal => slots_apply hreg hslots hjump hterminal _⟩
  · have hpop := slots_of_jump (s := s) hk
    exact ⟨hheight ▸ size_of_slots_eq hreg hsize (by rw [hk]; decide) (hpop (some 0) _),
      fun c' => h.step hset hi fun _ => hpop _ _⟩
  · have hpops := slots_of_jumpi (s := s) hk
    exact ⟨hheight ▸ size_of_slots_eq hreg hsize (by rw [hk]; decide) (hpops (some 0) _),
      fun c' => h.step hset hi fun _ => hpops _ _⟩

/-- Code that exchanges the top with the item two places below it. -/
def swapSecond : Machine :=
  ⟨.ofRules (.ofHardfork .cancun), .ofBytes #[0x91], Rules.defaultStackLimit⟩

/-- The state in which it starts on three items. -/
def threeItems : Machine.State Unit := ⟨0, [1, 2, 3], ()⟩

/-- The two constants that are known change places in the shadow and on the
    stack, and nothing is known of the item between them. -/
theorem abstracts_step_swapSecond :
    let s := (ofSlots [some 1, none, some 3]).apply ⟨0x91, "SWAP2", 3, 3, false, 0, false, .swap⟩ 0
    swapSecond.step (fun source => (0, source)) threeItems = .ok ⟨1, [3, 2, 1], ()⟩ ∧
      s.Abstracts [3, 2, 1] ∧ s.slots = [some 3, none, some 1] := by
  have habstracts : (ofSlots [some 1, none, some 3]).Abstracts threeItems.stack :=
    abstracts_of_pairs [(some 1, 1), (none, 2), (some 3, 3)] rfl rfl (by simp [Agrees])
  have hm : swapSecond.instructionSet = .ofRules (.ofHardfork .cancun) := rfl
  have hpc : threeItems.pc < swapSecond.code.size := by decide
  have hi : swapSecond.instructionSet.get? (swapSecond.code.opcode threeItems.pc) =
      some ⟨0x91, "SWAP2", 3, 3, false, 0, false, .swap⟩ :=
    (InstructionSet.get?_ofRules (.ofHardfork .cancun) 0x91).trans rfl
  have hstep : swapSecond.step (fun source => (0, source)) threeItems =
      .ok ⟨1, [3, 2, 1], ()⟩ := by
    rw [Machine.step_eq_execute hpc hi (by decide) (by decide)]
    rfl
  obtain ⟨happly, -⟩ := abstracts_step hm hpc hi (by decide) habstracts
  exact ⟨hstep, (happly rfl 0 rfl).2 _ hstep, rfl⟩

end Shadow

end EvmFlow
