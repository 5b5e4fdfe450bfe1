import EvmFlow.Proofs.Rejection
import EvmFlow.Proofs.StaticJumps

/-!
# Code with resolved jumps

Code is *resolved* under an instruction set if an instruction with its whole
literal stands at each boundary, and each jump stands right behind the push of a
jump destination (`InstructionSet.Resolves`). What the walk can still find wrong
with such code is the height of the stack. If no instruction adds more than one
item, a path does not have more items than offsets have been expanded
(`Walk.Reachable.height_add_unvisited_le`), as each offset is expanded once. So
short code does not overflow the stack.

* `Walk.report_of_resolves`: the walk of short resolved code gives a report or
  finds too few items.
-/

namespace EvmFlow

/-- An instruction with its whole literal stands at each boundary of the code, and
    each jump is right behind the push of a jump destination. -/
structure InstructionSet.Resolves (set : InstructionSet) (code : Code) : Prop where
  decodes : ∀ pc, code.IsBoundary pc → pc < code.size →
    ∃ i, set.get? (code.opcode pc) = some i ∧ pc + i.width ≤ code.size
  jumps : ∀ pc, code.IsBoundary pc → pc < code.size → Code.IsJump (code.opcode pc) →
    ∃ b, code.IsBoundary b ∧ Code.IsPush (code.opcode b) ∧
      b + Code.sweepWidth (code.opcode b) = pc ∧ code.isJumpDest (code.literal b) = true

/-- No instruction of the set adds more than one item. -/
def InstructionSet.AddsAtMostOne (set : InstructionSet) : Prop :=
  ∀ opcode i, set.get? opcode = some i → i.produces ≤ i.consumes + 1

theorem InstructionSet.addsAtMostOne_ofRules (rules : Rules) : (ofRules rules).AddsAtMostOne := by
  intro opcode i h
  rw [get?_ofRules] at h
  obtain ⟨e, he, -, rfl⟩ := of_enabled?_eq_some h
  have hall : ∀ e ∈ Catalogue.entries, e.instruction.produces ≤ e.instruction.consumes + 1 := by
    decide +kernel
  exact hall e he

/-- There are too few items. -/
def Violation.IsUnderflow (v : Violation) : Prop :=
  ∃ pc required available, v = .stackUnderflow pc required available

namespace Walk

variable {w : Walk} {s t : State} {p q : Path} {i : Instruction} {e : Expansion}
  {others : List Path}

theorem heightAfter_le_succ (hadds : w.instructionSet.AddsAtMostOne) {opcode : UInt8}
    (h : w.instructionSet.get? opcode = some i) (height : Int) :
    i.heightAfter height ≤ height + 1 := by
  have hle := hadds opcode i h
  rw [Instruction.heightAfter]
  omega

section

variable (hset : w.instructionSet.IsRegular) (hadds : w.instructionSet.AddsAtMostOne)
include hset hadds

/-- An expansion adds at most one item, and leaves fewer offsets to expand. -/
theorem Follows.height_le_and_unvisited_lt (hf : w.Follows p i e) (hp : w.IsPath p)
    (hv : s.visit? p.pc = none) (others : List Path) :
    (∀ q ∈ e.next, q.height ≤ p.height + 1) ∧
      w.unvisited (s.enter p i e others) < w.unvisited s := by
  refine ⟨fun q hq => ?_, unvisited_enter_lt (hp.isBoundary hset).nonneg hf.inside hv⟩
  rw [(hf.leads hset).height_eq hq]
  exact heightAfter_le_succ hadds hf.get? p.height

/-- No path has more items than offsets have been expanded. -/
theorem Reachable.height_add_unvisited_le (h : w.Reachable s) :
    ∀ p ∈ s.paths, p.height + w.unvisited s ≤ w.code.size := by
  induction h with
  | start =>
    intro p hp
    have hle := w.unvisited_le .start
    rw [List.mem_singleton.1 hp, show Path.start.height = 0 from rfl]
    omega
  | @step s t p others hr hs hstep ih =>
    obtain ⟨hp, hothers⟩ := List.forall_mem_cons.1 (hs ▸ ih)
    rcases step_inversion hstep with ⟨-, -, rfl⟩ | ⟨v, -, -, rfl⟩ | ⟨hv, i, e, hf, rfl⟩
    · exact hothers
    · exact hothers
    · have hpath := hr.isPath p (hs ▸ List.mem_cons_self)
      obtain ⟨hnext, hlt⟩ := hf.height_le_and_unvisited_lt hset hadds hpath hv others
      intro q hq
      rcases List.mem_append.1 hq with hq | hq
      · have hle := hnext q hq
        omega
      · have hle := hothers q hq
        omega

end

/-! ## What can be wrong -/

section

variable {v : Violation} (hset : w.instructionSet.IsRegular)
  (hadds : w.instructionSet.AddsAtMostOne) (hcode : w.instructionSet.Resolves w.code)
include hset hcode

/-- The destination of a jump was pushed right before it. -/
theorem destination_ne_error (hp : w.IsPath p) (hpc : p.pc < w.code.size)
    (hjump : Code.IsJump (w.code.opcode p.pc)) : w.destination p ≠ .error v := by
  intro h
  obtain ⟨b, hb, hpush, hbehind, hd⟩ := hcode.jumps p.pc (hp.isBoundary hset) hpc hjump
  have hpop := hp.pop_eq_literal hset hjump hb hpush hbehind
  rcases of_destination_eq_error h with ⟨hnone, -⟩ | ⟨d, hsome, hnot, -⟩
  · cases hnone.symm.trans hpop
  · cases hsome.symm.trans hpop
    cases hnot.symm.trans hd

/-- The literal of an instruction ends inside the code. -/
theorem immediate_ne_error (hp : w.IsPath p) (hpc : p.pc < w.code.size)
    (hi : w.instructionSet.get? (w.code.opcode p.pc) = some i) :
    i.immediate w.code p.pc ≠ .error v := by
  intro h
  obtain ⟨j, hj, hle⟩ := hcode.decodes p.pc (hp.isBoundary hset) hpc
  cases hi.symm.trans hj
  exact Int.not_lt.2 hle (of_immediate_eq_error h).1

include hadds

/-- The only thing that a step can find wrong is that there are too few items. -/
theorem isUnderflow_of_step (hstrict : w.strictEnd = false)
    (hlimit : w.code.size < w.stackLimit) (hr : w.Reachable s) (hs : s.paths = p :: others)
    (h : w.step s p others = .error v) : v.IsUnderflow := by
  have hmem : p ∈ s.paths := hs ▸ List.mem_cons_self
  have hp := hr.isPath p hmem
  rcases step_error_inversion h with ⟨-, hend⟩ | ⟨hpc, ⟨hnone, -⟩ | ⟨i, hi, hknown | herror⟩⟩
  · rcases of_checkEnd_eq_error hend with ⟨hend, -, -⟩ | hexit
    · cases hstrict.symm.trans hend
    · exact ⟨_, _, _, (of_checkExit_eq_error hexit).2⟩
  · obtain ⟨i, hi, -⟩ := hcode.decodes p.pc (hp.isBoundary hset) hpc
    cases hnone.symm.trans hi
  · obtain ⟨u, -, -, hv⟩ := hknown
    exact ⟨_, _, _, hv⟩
  · rcases of_expand_eq_error herror with ⟨-, hv⟩ |
      ⟨-, ⟨hover, -⟩ | ⟨hjump, hdest⟩ | himmediate | ⟨-, hexit⟩⟩
    · exact ⟨_, _, _, hv⟩
    · have hle := hr.height_add_unvisited_le hset hadds p hmem
      have hafter := heightAfter_le_succ hadds hi p.height
      omega
    · exact absurd hdest (destination_ne_error hset hcode hp hpc ((hset _ _ hi).jump_iff.1 hjump))
    · exact absurd himmediate (immediate_ne_error hset hcode hp hpc hi)
    · exact ⟨_, _, _, (of_checkExit_eq_error hexit).2⟩

/-- The walk of resolved code with less bytes than the stack may hold items gives a
    report, or finds too few items. -/
theorem report_of_resolves (hstrict : w.strictEnd = false) (hlimit : w.code.size < w.stackLimit) :
    (∃ r, w.report = .ok r) ∨ ∃ v, w.report = .error v ∧ v.IsUnderflow := by
  cases hreport : w.report with
  | ok r => exact .inl ⟨r, rfl⟩
  | error v =>
    obtain ⟨s, p, others, hr, hs, hstep⟩ :=
      of_run_eq_error hset.isForward .start (of_report_eq_error hreport)
    exact .inr ⟨v, rfl, isUnderflow_of_step hset hadds hcode hstrict hlimit hr hs hstep⟩

end

end Walk

end EvmFlow
