import EvmFlow.Proofs.Certificate
import EvmFlow.Proofs.Rejection

/-!
# The walk and the sweep

The sweep and the walk count the bytes of an instruction each in its own way:
the sweep from the opcode, the walk from what the instruction set says. Under
the rules of a hardfork the two agree, so the walk only comes to offsets at
which the sweep stands, and never takes push data for an instruction.

An offset is *recorded* when a path comes to it for the first time
(`Walk.Records`), be it that the walk ends well or not. If it does, the
recorded offsets are the reported ones (`Walk.records_iff_of_run`).

* `Walk.pc_of_step_eq_error`: a violation is found where the path is;
* `Walk.walk_aligned`: what is recorded, reported or found wrong stands at the
  boundaries of instructions, which do not overlap.
-/

namespace EvmFlow.Walk

variable (w : Walk)

/-- The walk records the offset `pc`: the path being followed has come to it,
    an instruction stands there, and nothing is known of it yet. -/
def Records (pc : Int) : Prop :=
  ∃ (s : State) (p : Path) (others : List Path) (i : Instruction),
    w.Reachable s ∧ s.paths = p :: others ∧ p.pc = pc ∧ pc < w.code.size ∧
      w.instructionSet.get? (w.code.opcode pc) = some i ∧ s.visit? pc = none

/-- The byte at offset `b` belongs to the instruction at `pc`. -/
def Spans (pc b : Int) : Prop :=
  ∃ i, w.instructionSet.get? (w.code.opcode pc) = some i ∧ pc ≤ b ∧ b < pc + i.width

variable {w} {s t : State} {p : Path} {others : List Path} {pc : Int} {v : Visit}

/-! ## Recorded offsets -/

/-- What is known stays known until the end of the walk. -/
theorem EndsIn.visit?_eq_some {r : Except Violation State} (h : w.EndsIn s r) (ht : r = .ok t)
    (hv : s.visit? pc = some v) : t.visit? pc = some v := by
  induction h with
  | done =>
    cases ht
    exact hv
  | stop => cases ht
  | next _ hstep _ ih => exact ih ht (visit?_of_step hstep hv)

/-- What is known was recorded. -/
theorem Reachable.records (h : w.Reachable s) (hv : s.visit? pc = some v) : w.Records pc := by
  induction h generalizing v with
  | start =>
    rw [State.visit?_start] at hv
    cases hv
  | @step s t p others hr hs hstep ih =>
    rcases step_inversion hstep with ⟨-, -, rfl⟩ | ⟨-, -, -, rfl⟩ | ⟨hnone, i, e, hf, rfl⟩
    · exact ih (by rwa [State.visit?_close] at hv)
    · exact ih (by rwa [State.visit?_close] at hv)
    · rw [State.visit?_enter] at hv
      split at hv
      · next hpc =>
        subst hpc
        exact ⟨s, p, others, i, hr, hs, rfl, hf.inside, hf.get?, hnone⟩
      · exact ih hv

/-- At the end of the walk the known offsets are the recorded ones. -/
theorem records_iff_of_run (hset : w.instructionSet.IsForward) (h : w.run .start = .ok t) :
    w.Records pc ↔ ∃ v, t.visit? pc = some v := by
  constructor
  · rintro ⟨s, p, others, i, hr, hs, rfl, hpc, hi, hnone⟩
    have hrun := hr.run_eq.trans h
    -- the walk goes on from here, so the offset is known after the next step
    cases hstep : w.step s p others with
    | error u => cases hrun.symm.trans (EndsIn.stop hs hstep).run_eq
    | ok s' =>
      have hends := endsIn_run hset (hr.step hs hstep)
      rw [run_of_ok hs hstep] at hrun
      rcases step_inversion hstep with ⟨hle, -, -⟩ | ⟨v, hv, -, -⟩ | ⟨-, i, e, hf, rfl⟩
      · exact absurd hpc (Int.not_lt.2 hle)
      · cases hnone.symm.trans hv
      · exact ⟨_, hends.visit?_eq_some hrun ((State.visit?_enter ..).trans (if_pos rfl))⟩
  · rintro ⟨v, hv⟩
    exact (of_run_eq_ok hset .start h).1.records hv

/-- Recorded offsets are boundaries inside the code. -/
theorem Records.isBoundary (hset : w.instructionSet.IsRegular) (h : w.Records pc) :
    w.code.IsBoundary pc ∧ pc < w.code.size := by
  obtain ⟨s, p, others, i, hr, hs, rfl, hpc, -⟩ := h
  exact ⟨(hr.isPath p (hs ▸ List.mem_cons_self)).isBoundary hset, hpc⟩

/-- No byte belongs to two instructions that stand at boundaries. -/
theorem Spans.eq_of_isBoundary (hset : w.instructionSet.IsRegular) {q b : Int}
    (hp : w.code.IsBoundary pc) (hq : w.code.IsBoundary q) (h : w.Spans pc b)
    (h' : w.Spans q b) : pc = q := by
  obtain ⟨i, hi, hle, hlt⟩ := h
  obtain ⟨j, hj, hle', hlt'⟩ := h'
  rw [(hset _ _ hi).width] at hlt
  rw [(hset _ _ hj).width] at hlt'
  rcases Int.lt_trichotomy pc q with h | h | h
  · exact absurd (Int.lt_of_le_of_lt hle' hlt) (Int.not_lt.2 (hp.add_le_of_lt hq h))
  · exact h
  · exact absurd (Int.lt_of_le_of_lt hle hlt') (Int.not_lt.2 (hq.add_le_of_lt hp h))

/-- An instruction that was followed ends inside the code. -/
theorem Follows.add_width_le {i : Instruction} {e : Expansion}
    (hset : w.instructionSet.IsRegular) (h : w.Follows p i e) : p.pc + i.width ≤ w.code.size := by
  by_cases hpush : i.kind = .push
  · cases h.leads hset with
    | jump hk => cases hpush.symm.trans hk
    | jumpi hk => cases hpush.symm.trans hk
    | terminal hk => cases hpush.symm.trans hk
    | straight _ _ hle => exact hle
  · -- all others are one byte long
    rw [(h.isRegular hset).width_eq_one hpush]
    exact h.inside

/-- The bytes of a known instruction are inside the code. -/
theorem Spans.inside (hset : w.instructionSet.IsRegular) (hr : w.Reachable s)
    (hv : s.visit? pc = some v) {b : Int} (h : w.Spans pc b) : 0 ≤ b ∧ b < w.code.size := by
  obtain ⟨p, i, e, rfl, ho⟩ := hr.exists_origin hv
  obtain ⟨j, hj, hle, hlt⟩ := h
  cases ho.follows.get?.symm.trans hj
  exact ⟨Int.le_trans (ho.isPath.isBoundary hset).nonneg hle,
    Int.lt_of_lt_of_le hlt (ho.follows.add_width_le hset)⟩

/-! ## Where violations are found -/

theorem pc_of_expand_eq_error {i : Instruction} {u : Violation} (h : w.expand p i = .error u) :
    u.pc = p.pc := by
  rcases of_expand_eq_error h with ⟨-, rfl⟩ | ⟨-, ⟨-, rfl⟩ | ⟨-, hd⟩ | hvalue | ⟨-, hexit⟩⟩
  · rfl
  · rfl
  · rcases of_destination_eq_error hd with ⟨-, rfl⟩ | ⟨d, -, -, rfl⟩
    · rfl
    · rfl
  · rw [(of_immediate_eq_error hvalue).2]
    rfl
  · rw [(of_checkExit_eq_error hexit).2]
    rfl

/-- A violation is found where the path is. -/
theorem pc_of_step_eq_error {u : Violation} (h : w.step s p others = .error u) : u.pc = p.pc := by
  rcases step_error_inversion h with ⟨-, hend⟩ | ⟨-, ⟨-, rfl⟩ | ⟨i, -, ⟨v, -, -, rfl⟩ | hexpand⟩⟩
  · rcases of_checkEnd_eq_error hend with ⟨-, -, rfl⟩ | hexit
    · rfl
    · rw [(of_checkExit_eq_error hexit).2]
      rfl
  · rfl
  · rfl
  · exact pc_of_expand_eq_error hexpand

variable (w) in
/-- What can be wrong past the end of the code: no path may come there, or the
    path that did has fewer items than its block began with. -/
def EndsBadly (u : Violation) : Prop :=
  (w.strictEnd = true ∧ u = .codeTruncated w.code.size w.code.size) ∨
    ∃ p, w.IsPath p ∧ p.pc = w.code.size ∧ p.height < p.base ∧
      u = .stackUnderflow w.code.size p.base p.height

/-- A violation is found at a boundary inside the code, or right at its end. -/
theorem placed_of_report_eq_error (hset : w.instructionSet.IsRegular) {u : Violation}
    (h : w.report = .error u) :
    (w.code.IsBoundary u.pc ∧ u.pc < w.code.size) ∨ (u.pc = w.code.size ∧ w.EndsBadly u) := by
  obtain ⟨s, p, others, hr, hs, hstep⟩ :=
    of_run_eq_error hset.isForward .start (of_report_eq_error h)
  have hpath := hr.isPath p (hs ▸ List.mem_cons_self)
  have hplace := pc_of_step_eq_error hstep
  rcases step_error_inversion hstep with ⟨hle, hend⟩ | ⟨hlt, -⟩
  · have hpc := hpath.pc_eq_size hset hle
    refine .inr ⟨hplace.trans hpc, ?_⟩
    rcases of_checkEnd_eq_error hend with ⟨hstrict, -, rfl⟩ | hexit
    · exact .inl ⟨hstrict, by rw [hpc]⟩
    · obtain ⟨hlow, rfl⟩ := of_checkExit_eq_error hexit
      exact .inr ⟨p, hpath, hpc, hlow, by rw [hpc]⟩
  · rw [hplace]
    exact .inl ⟨hpath.isBoundary hset, hlt⟩

/-! ## Alignment -/

/-- The walk and the sweep agree on where instructions begin. Every recorded
    offset is a boundary and holds no push data. If the walk finds nothing
    wrong, the recorded offsets are those of its report, and their instructions
    are inside the code and do not overlap. If it does, what is wrong is found
    at a boundary, or at the end of the code because a path ends there. -/
theorem walk_aligned {rules : Rules} (hw : w.instructionSet = .ofRules rules) :
    (∀ pc, w.Records pc →
      w.code.IsBoundary pc ∧ pc < w.code.size ∧ ¬w.code.IsPushData pc) ∧
    (∀ r, w.report = .ok r →
      (∀ pc, w.Records pc ↔ ∃ entry ∈ r.entryDepths, (entry.1 : Int) = pc) ∧
      (∀ pc b, w.Records pc → w.Spans pc b → 0 ≤ b ∧ b < w.code.size) ∧
      ∀ pc q b, w.Records pc → w.Records q → w.Spans pc b → w.Spans q b → pc = q) ∧
    ∀ u, w.report = .error u →
      (w.code.IsBoundary u.pc ∧ u.pc < w.code.size) ∨ (u.pc = w.code.size ∧ w.EndsBadly u) := by
  have hset : w.instructionSet.IsRegular := hw ▸ InstructionSet.isRegular_ofRules rules
  refine ⟨fun pc h => ?_, fun r hr => ?_, fun u => placed_of_report_eq_error hset⟩
  · obtain ⟨hboundary, hlt⟩ := h.isBoundary hset
    exact ⟨hboundary, hlt, hboundary.not_isPushData⟩
  · obtain ⟨s, hs, rfl⟩ := of_report_eq_ok hr
    have hr := (of_run_eq_ok hset.isForward .start hs).1
    refine ⟨fun pc => ?_, fun pc b h hspans => ?_, fun pc q b h h' hspans hspans' => ?_⟩
    · rw [records_iff_of_run hset.isForward hs]
      constructor
      · rintro ⟨v, hv⟩
        obtain ⟨i, hcert⟩ := certified_of_run hset hs hv
        exact (hr.exists_entry_iff hcert.inside.1).2 ⟨v, hv⟩
      · rintro ⟨entry, hentry, rfl⟩
        exact (hr.exists_entry_iff (Int.natCast_nonneg _)).1 ⟨entry, hentry, rfl⟩
    · obtain ⟨v, hv⟩ := (records_iff_of_run hset.isForward hs).1 h
      exact hspans.inside hset hr hv
    · exact hspans.eq_of_isBoundary hset (h.isBoundary hset).1 (h'.isBoundary hset).1 hspans'

/-- Code with the opcode of a jump destination in its push data. -/
def pushedMark : Walk :=
  ⟨.ofRules (.ofHardfork .cancun), .ofBytes #[0x61, 0x5b, 0x00, 0x50, 0x00], 1024, true⟩

/-- The push is recorded and reported with its literal inside the code, and the
    opcode in the literal is not recorded. -/
theorem pushedMark_aligned : ∃ r, pushedMark.report = .ok r ∧ pushedMark.Records 0 ∧
    (∃ entry ∈ r.entryDepths, (entry.1 : Int) = 0) ∧
    (∀ b, pushedMark.Spans 0 b → 0 ≤ b ∧ b < pushedMark.code.size) ∧
    pushedMark.code.IsPushData 1 ∧ ¬pushedMark.Records 1 := by
  obtain ⟨s, hs⟩ : ∃ s, pushedMark.run .start = .ok s := exists_run_eq_ok 10 (by decide +kernel)
  have hw : pushedMark.instructionSet = .ofRules (.ofHardfork .cancun) := rfl
  have hr := report_of_run_eq_ok hs
  obtain ⟨hrecords, hreport, -⟩ := walk_aligned hw
  obtain ⟨hentries, hinside, -⟩ := hreport _ hr
  obtain ⟨i, hi⟩ : ∃ i, pushedMark.instructionSet.get? (pushedMark.code.opcode 0) = some i :=
    Option.isSome_iff_exists.1 (by decide +kernel)
  have hzero : pushedMark.Records 0 :=
    ⟨.start, .start, [], i, .start, rfl, rfl, by decide, hi, State.visit?_start 0⟩
  have hdata : pushedMark.code.IsPushData 1 := ⟨0, .zero, by decide, by decide, by decide +kernel⟩
  exact ⟨_, hr, hzero, (hentries 0).1 hzero, fun b => hinside 0 b hzero, hdata,
    fun h => (hrecords 1 h).2.2 hdata⟩

end EvmFlow.Walk
