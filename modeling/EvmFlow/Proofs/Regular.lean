import EvmFlow.InstructionSet

/-!
# Regular instructions

What the catalogue says of an instruction fits together. Its stack effect is
the one its kind asks for, its length is the one the sweep counts with, the
opcode tells whether it pushes a literal or jumps, and no path goes on behind
it if it is of the kind that ends a run. Instructions with these properties
are *regular*, and so are instruction sets that hold no others. In all
regular sets, and in others, instructions only go forward.

* `InstructionSet.isRegular_ofRules`: the instruction set of any rules is
  regular.
-/

namespace EvmFlow

/-- The stack effects that go with a kind. -/
def Kind.HasEffect : Kind → (consumes produces : Int) → Prop
  | plain, c, p => 0 ≤ c ∧ 0 ≤ p
  | push, c, p => c = 0 ∧ p = 1
  | dup, c, p => 1 ≤ c ∧ p = c + 1
  | swap, c, p => 2 ≤ c ∧ p = c
  | pop, c, p => c = 1 ∧ p = 0
  | jump, c, p => c = 1 ∧ p = 0
  | jumpi, c, p => c = 2 ∧ p = 0
  | jumpdest, c, p => c = 0 ∧ p = 0
  | terminal, c, p => 0 ≤ c ∧ 0 ≤ p

instance (k : Kind) (c p : Int) : Decidable (k.HasEffect c p) :=
  match k with
  | .plain | .push | .dup | .swap | .pop | .jump | .jumpi | .jumpdest | .terminal =>
    inferInstanceAs (Decidable (_ ∧ _))

namespace Code

/-- The opcodes that push a literal, from the empty one to one of 32 bytes. -/
def IsPush (opcode : UInt8) : Prop := 0x5f ≤ opcode ∧ opcode ≤ 0x7f

/-- The opcodes that jump, always or on a condition. -/
def IsJump (opcode : UInt8) : Prop := opcode = 0x56 ∨ opcode = 0x57

instance (opcode : UInt8) : Decidable (IsPush opcode) := inferInstanceAs (Decidable (_ ∧ _))

instance (opcode : UInt8) : Decidable (IsJump opcode) := inferInstanceAs (Decidable (_ ∨ _))

theorem not_isJump_of_isPush {opcode : UInt8} (h : IsPush opcode) : ¬IsJump opcode := by
  rintro (rfl | rfl)
  · exact absurd h (by decide)
  · exact absurd h (by decide)

end Code

/-- The numbers of an instruction are those its kind and its opcode ask for. -/
structure Instruction.IsRegular (i : Instruction) (opcode : UInt8) : Prop where
  width : i.width = Code.sweepWidth opcode
  effect : i.kind.HasEffect i.consumes i.produces
  push_iff : i.kind = .push ↔ Code.IsPush opcode
  jump_iff : i.kind.isJump = true ↔ Code.IsJump opcode
  terminal_iff : i.terminal = true ↔ i.kind = .terminal

/-- All instructions of the set are regular. -/
def InstructionSet.IsRegular (set : InstructionSet) : Prop :=
  ∀ opcode i, set.get? opcode = some i → i.IsRegular opcode

/-- No instruction of the set goes back: the literals behind the opcodes have a
    length that is not negative. -/
def InstructionSet.IsForward (set : InstructionSet) : Prop :=
  ∀ opcode i, set.get? opcode = some i → 0 ≤ i.immediateLength

namespace Instruction.IsRegular

variable {i : Instruction} {opcode : UInt8}

theorem width_pos (h : i.IsRegular opcode) : 0 < i.width := by
  rw [h.width]
  exact Int.natCast_pos.2 (Code.sweepWidth_pos opcode)

/-- A jump consumes its destination. -/
theorem consumes_pos (h : i.IsRegular opcode) (hk : i.kind.isJump = true) : 0 < i.consumes := by
  have heffect := h.effect
  cases hkind : i.kind <;> rw [hkind] at hk heffect
  case jump => rw [heffect.1]; decide
  case jumpi => rw [heffect.1]; decide
  all_goals cases hk

/-- A jump leaves no item behind. -/
theorem heightAfter_le (h : i.IsRegular opcode) (hk : i.kind.isJump = true) (height : Int) :
    i.heightAfter height ≤ height := by
  have heffect := h.effect
  rw [Instruction.heightAfter]
  cases hkind : i.kind <;> rw [hkind] at hk heffect
  case jump | jumpi => rw [heffect.1, heffect.2]; omega
  all_goals cases hk

/-- Only pushes are longer than one byte. -/
theorem width_eq_one (h : i.IsRegular opcode) (hk : i.kind ≠ .push) : i.width = 1 := by
  have hpush : ¬Code.IsPush opcode := fun hp => hk (h.push_iff.2 hp)
  rw [h.width, Code.sweepWidth, if_neg]
  · rfl
  · exact fun hp => hpush ⟨UInt8.le_trans (by decide) hp.1, hp.2⟩

theorem kind_eq_push (h : i.IsRegular opcode) (hlt : 1 < i.width) : i.kind = .push :=
  Decidable.byContradiction fun hk => Int.ne_of_gt hlt (h.width_eq_one hk)

end Instruction.IsRegular

theorem InstructionSet.IsRegular.isForward {set : InstructionSet} (h : set.IsRegular) :
    set.IsForward := by
  intro opcode i hi
  have hwidth := (h opcode i hi).width_pos
  rw [Instruction.width] at hwidth
  omega

/-! ## The catalogue -/

namespace Catalogue

theorem isRegular_of_mem_entries {e : Entry} (h : e ∈ entries) :
    e.instruction.IsRegular e.opcode := by
  have hall : ∀ e ∈ entries, e.instruction.width = Code.sweepWidth e.opcode ∧
      e.kind.HasEffect e.instruction.consumes e.instruction.produces ∧
      (e.kind = .push ↔ Code.IsPush e.opcode) ∧
      (e.kind.isJump = true ↔ Code.IsJump e.opcode) := by
    decide +kernel
  obtain ⟨hwidth, heffect, hpush, hjump⟩ := hall e h
  exact ⟨hwidth, heffect, hpush, hjump, beq_iff_eq⟩

end Catalogue

namespace InstructionSet

theorem of_enabled?_eq_some {rules : Rules} {opcode : UInt8} {i : Instruction}
    (h : enabled? rules opcode = some i) :
    ∃ e ∈ Catalogue.entries, e.opcode = opcode ∧ e.instruction = i := by
  obtain ⟨e, he, hi⟩ := Option.map_eq_some_iff.1 h
  have hop := List.find?_some he
  rw [Bool.and_eq_true, beq_iff_eq] at hop
  exact ⟨e, List.mem_of_find?_eq_some he, hop.1, hi⟩

theorem isRegular_ofRules (rules : Rules) : (ofRules rules).IsRegular := by
  intro opcode i h
  rw [get?_ofRules] at h
  obtain ⟨e, he, rfl, rfl⟩ := of_enabled?_eq_some h
  exact Catalogue.isRegular_of_mem_entries he

end InstructionSet

end EvmFlow
