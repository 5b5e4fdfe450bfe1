import EvmFlow.Proofs.Alignment
import EvmFlow.Proofs.Linearity

/-!
# Bytes that no path comes to

What the walk says of accepted code depends on few of its bytes: on the
instructions that it expands, their literals included. All other bytes may be
changed, be they data, dead code or opcodes without an instruction, as long as
the code keeps its size.

There is one thing to watch. The jump destinations are found by a sweep over
all bytes, so a byte that no path comes to can move the boundaries behind it,
and with them a destination. Hence the destinations that the walk has jumped to
have to be destinations of the changed code as well.

The two walks go in lock step:

* `Walk.Follows.withCode`: an instruction is followed in the same way over code
  that agrees on its bytes and has its destination;
* `Walk.step_withCode`, `Walk.EndsIn.withCode`: so are steps, and whole walks;
* `Walk.report_eq_of_agrees`: the report stays the same.
-/

namespace EvmFlow

theorem Code.word_congr {a b : Code} {start : Int} {length : Nat}
    (h : ∀ k < length, b.opcode (start + k) = a.opcode (start + k)) :
    b.word start length = a.word start length := by
  induction length with
  | zero => rfl
  | succ n ih =>
    rw [word, word, ih fun k hk => h k (Nat.lt_succ_of_lt hk), h n (Nat.lt_succ_self n)]

namespace Walk

/-- The walk over other code under the same instruction set and limits. -/
abbrev withCode (w : Walk) (code : Code) : Walk :=
  ⟨w.instructionSet, code, w.stackLimit, w.strictEnd⟩

variable {w : Walk} {code : Code} {s t : State} {p : Path} {others : List Path}
  {i : Instruction} {e : Expansion}

/-! ## Instructions -/

variable (w code) in
/-- The code has the same bytes as the one that is walked over in the
    instruction at `pc`, its literal included. -/
def Agrees (pc : Int) : Prop := ∀ b, w.Spans pc b → code.byte? b = w.code.byte? b

namespace Agrees

variable {pc : Int}

theorem opcode_eq (h : w.Agrees code pc) {b : Int} (hb : w.Spans pc b) :
    code.opcode b = w.code.opcode b := by
  rw [Code.opcode, Code.opcode, h b hb]

/-- The instruction is the same. -/
theorem get?_eq (hset : w.instructionSet.IsRegular) (h : w.Agrees code pc)
    (hi : w.instructionSet.get? (w.code.opcode pc) = some i) :
    w.instructionSet.get? (code.opcode pc) = some i := by
  have hwidth := (hset _ _ hi).width_pos
  rw [h.opcode_eq ⟨i, hi, Int.le_refl pc, by omega⟩, hi]

/-- Its literal is the same. -/
theorem word_eq (h : w.Agrees code pc) (hi : w.instructionSet.get? (w.code.opcode pc) = some i) :
    code.word (pc + 1) i.immediateLength.toNat = w.code.word (pc + 1) i.immediateLength.toNat := by
  refine Code.word_congr fun k hk => h.opcode_eq ⟨i, hi, by omega, ?_⟩
  rw [Instruction.width]
  omega

end Agrees

/-- An instruction that is followed is followed in the same way over code that
    agrees on its bytes and has its destination. -/
theorem Follows.withCode (hset : w.instructionSet.IsRegular) (hsize : w.code.size = code.size)
    (hf : w.Follows p i e) (hagrees : w.Agrees code p.pc)
    (hdest : ∀ d, e.target = some d → code.isJumpDest d = true) :
    (w.withCode code).Follows p i e := by
  have hleads : (w.withCode code).Leads p i e := by
    cases hf.leads hset with
    | jump hk hd => exact .jump hk hd (hdest _ rfl)
    | jumpi hk hd => exact .jumpi hk hd (hdest _ rfl)
    | terminal hk hexit => exact .terminal hk hexit
    | straight hk hterminal hle =>
      rw [hsize] at hle
      rw [← hagrees.word_eq hf.get?]
      exact .straight hk hterminal hle
  have hget : w.instructionSet.get? (code.opcode p.pc) = some i := hagrees.get?_eq hset hf.get?
  exact hleads.follows hset (hsize ▸ hf.inside) hget hf.consumes_le hf.heightAfter_le

/-! ## Lock step -/

theorem checkEnd_withCode (hsize : w.code.size = code.size) :
    (w.withCode code).checkEnd p = w.checkEnd p := by
  rw [checkEnd, checkEnd, hsize]

/-- A step is the same over code that agrees on the instruction at its offset, if
    that is known after the step, and has its destination. -/
theorem step_withCode (hset : w.instructionSet.IsRegular) (hsize : w.code.size = code.size)
    (hstep : w.step s p others = .ok t)
    (hagrees : ∀ v, t.visit? p.pc = some v →
      w.Agrees code p.pc ∧ ∀ d, v.target = some d → code.isJumpDest d = true) :
    (w.withCode code).step s p others = .ok t := by
  rcases step_cases hstep with ⟨hpc, hend, rfl⟩ | ⟨hpc, i, hi, ⟨v, hv, hle, rfl⟩ | ⟨hv, e, he, rfl⟩⟩
  · exact step_of_le (w := w.withCode code) (hsize ▸ hpc) ((checkEnd_withCode hsize).trans hend)
  · have hknown : (s.close others).visit? p.pc = some v := by rw [State.visit?_close, hv]
    have hget : w.instructionSet.get? (code.opcode p.pc) = some i :=
      (hagrees v hknown).1.get?_eq hset (get?_of_decode hi)
    exact step_of_known (w := w.withCode code) (hsize ▸ hpc) hget hv hle
  · have hf : w.Follows p i e := ⟨hpc, get?_of_decode hi, he⟩
    obtain ⟨hbytes, hdest⟩ := hagrees _ ((State.visit?_enter ..).trans (if_pos rfl))
    exact step_of_follows (w := w.withCode code) hv (hf.withCode hset hsize hbytes hdest)

/-- A walk that finds no violation is the same over code that agrees on all
    instructions known in its end, and has their destinations. -/
theorem EndsIn.withCode (hset : w.instructionSet.IsRegular) (hsize : w.code.size = code.size)
    {r : Except Violation State} (h : w.EndsIn s r) (ht : r = .ok t)
    (hagrees : ∀ pc v, t.visit? pc = some v →
      w.Agrees code pc ∧ ∀ d, v.target = some d → code.isJumpDest d = true) :
    (w.withCode code).EndsIn s r := by
  induction h with
  | done hs => exact .done hs
  | stop => cases ht
  | next hs hstep hrest ih =>
    -- what is known after the step is known in the end
    exact .next hs (step_withCode hset hsize hstep fun v hv =>
      hagrees _ v (hrest.visit?_eq_some ht hv)) (ih ht)

/-! ## The report -/

/-- Bytes that no path comes to do not matter. Code of the same size that agrees
    on all reported instructions, their literals included, and in which the
    reported destinations are jump destinations, is accepted with the same
    report. -/
theorem report_eq_of_agrees {rules : Rules} (hw : w.instructionSet = .ofRules rules)
    (hsize : w.code.size = code.size) {r : Report} (hr : w.report = .ok r)
    (hbytes : ∀ entry ∈ r.entryDepths, w.Agrees code entry.1)
    (hdests : ∀ d ∈ r.jumpDestinations, code.isJumpDest d = true) :
    (w.withCode code).report = .ok r := by
  have hset : w.instructionSet.IsRegular := hw ▸ InstructionSet.isRegular_ofRules rules
  obtain ⟨s, hs, rfl⟩ := of_report_eq_ok hr
  obtain ⟨hr, hnil⟩ := of_run_eq_ok hset.isForward .start hs
  have hends := (endsIn_run hset.isForward .start).withCode hset hsize hs fun pc v hv => by
    obtain ⟨p, i, e, rfl, ho⟩ := hr.exists_origin hv
    obtain ⟨entry, hentry, heq⟩ :=
      (hr.exists_entry_iff (ho.isPath.isBoundary hset).nonneg).2 ⟨v, hv⟩
    refine ⟨heq ▸ hbytes entry hentry, fun d htarget => ?_⟩
    obtain ⟨k, rfl⟩ := Int.eq_ofNat_of_zero_le (hr.target_nonneg hv htarget)
    exact hdests k (hr.mem_jumpDestinations.2 ⟨p.pc, v, hv, htarget⟩)
  rw [hs] at hends
  rw [report_of_run_eq_ok (w := w.withCode code) hends.run_eq, hsize]

/-- Code that jumps over three opcodes without an instruction. -/
def skippedBytes : Walk :=
  ⟨.ofRules (.ofHardfork .cancun),
    .ofBytes #[0x60, 0x06, 0x56, 0x0c, 0x0c, 0x0c, 0x5b, 0x00], 1024, true⟩

/-- The same code with a push of two jump destination opcodes in their place. -/
def skippedPush : Code := .ofBytes #[0x60, 0x06, 0x56, 0x61, 0x5b, 0x5b, 0x5b, 0x00]

/-- The bytes that are jumped over differ and the report is the same. -/
theorem report_skippedPush : skippedBytes.code.opcode 3 ≠ skippedPush.opcode 3 ∧
    ∃ r, skippedBytes.report = .ok r ∧
      (∀ entry ∈ r.entryDepths, skippedBytes.Agrees skippedPush entry.1) ∧
      (∀ d ∈ r.jumpDestinations, skippedPush.isJumpDest d = true) ∧
      (skippedBytes.withCode skippedPush).report = .ok r := by
  have hw : skippedBytes.instructionSet = .ofRules (.ofHardfork .cancun) := rfl
  have hset : skippedBytes.instructionSet.IsRegular := InstructionSet.isRegular_ofRules _
  obtain ⟨s, hs, htest⟩ := exists_run_eq_ok_of_test (w := skippedBytes) (s := .start) 10
    (fun s => (s.report 8).entryDepths.map Prod.fst = [0, 2, 6, 7]) (by decide +kernel)
  have hpc : ∀ entry ∈ (s.report 8).entryDepths, entry.1 ∈ [0, 2, 6, 7] := fun entry hentry =>
    of_decide_eq_true htest ▸ List.mem_map_of_mem hentry
  have hr := report_of_run_eq_ok hs
  have hsame : ∀ pc ∈ [0, 2, 6, 7],
      ∀ k < Code.sweepWidth (skippedBytes.code.opcode (pc : Nat)),
        skippedPush.byte? (pc + k : Nat) = skippedBytes.code.byte? (pc + k : Nat) := by
    decide +kernel
  have hbytes : ∀ entry ∈ (s.report 8).entryDepths, skippedBytes.Agrees skippedPush entry.1 := by
    rintro entry hentry b ⟨i, hi, hle, hlt⟩
    obtain ⟨k, rfl⟩ := Int.eq_ofNat_of_zero_le (Int.le_trans (Int.natCast_nonneg _) hle)
    rw [(hset _ _ hi).width] at hlt
    have := hsame _ (hpc entry hentry) (k - entry.1) (by omega)
    rwa [Nat.add_sub_cancel' (Int.ofNat_le.1 hle)] at this
  have hdests : ∀ d ∈ (s.report 8).jumpDestinations, skippedPush.isJumpDest d = true := by
    intro d hd
    have hkept : ∀ pc ∈ [0, 2, 6, 7], skippedBytes.code.isJumpDest (pc : Nat) = true →
        skippedPush.isJumpDest (pc : Nat) = true := by
      decide +kernel
    obtain ⟨hreach, hnil⟩ := of_run_eq_ok hset.isForward .start hs
    obtain ⟨expanded, htrace⟩ := hreach.exists_trace
    obtain ⟨hdest, depth, hentry⟩ := (htrace.linear hset.isForward hnil).known d hd
    exact hkept d (hpc _ hentry) hdest
  have hsize : skippedBytes.code.size = skippedPush.size := rfl
  exact ⟨by decide +kernel, _, hr, hbytes, hdests,
    report_eq_of_agrees hw hsize hr hbytes hdests⟩

end Walk

end EvmFlow
