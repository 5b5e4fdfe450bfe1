import EvmFlow.Proofs.Overflow
import EvmFlow.Proofs.Rejection

/-!
# Code without jumps

Over code in whose sweep no jump stands (`Code.JumpFree`) there is but one path
to follow, and all runs take it, whatever values they draw. So here the walk
does not only promise that certain faults do not happen. It tells how every run
ends, if the run has enough steps to come to its end.

There is one difference. A push whose literal passes the end of the code is a
violation to the walk, while the machine reads zeros for the missing bytes and
stops behind them (`Machine.Overruns`).

* `Walk.InStep`: the path and the run are at the same offset with the same
  height;
* `Walk.InStep.step_cases`: from there both go on in step, or both come to their
  end (`Walk.Ends`);
* `Walk.InStep.exists_end`: so they come to their end in step;
* `Walk.jumpFree_exact`: what the walk says and how the run ends.
-/

namespace EvmFlow

/-- No jump stands in the sweep of the code. -/
def Code.JumpFree (code : Code) : Prop :=
  ∀ pc, code.IsBoundary pc → pc < code.size → ¬IsJump (code.opcode pc)

/-! ## Runs -/

namespace Machine

variable {σ : Type} (draw : σ → Int × σ) (m : Machine)

/-- At the state `c`, a push is executed whose literal passes the end of the
    code. -/
def Overruns (c : State σ) : Prop :=
  ∃ i c', m.instructionSet.get? (m.code.opcode c.pc) = some i ∧ i.kind = .push ∧
    m.code.size < c.pc + i.width ∧ m.step draw c = .ok c'

variable {draw m} {source : σ} {b c : State σ} {j k : Nat} {i : Instruction} {h : Halt}

theorem step_of_get?_eq_none (hpc : c.pc < m.code.size)
    (hi : m.instructionSet.get? (m.code.opcode c.pc) = none) :
    m.step draw c = .error .invalidInstruction := by
  rw [step, stepTaking, if_pos hpc, hi]

theorem step_of_lt_consumes (hpc : c.pc < m.code.size)
    (hi : m.instructionSet.get? (m.code.opcode c.pc) = some i)
    (hfew : c.stack.length < i.consumes) : m.step draw c = .error .stackUnderflow := by
  rw [step, stepTaking, if_pos hpc, hi]
  exact if_pos hfew

/-- A push whose literal passes the end of the code leads past it. -/
theorem Overruns.exists_past (hset : m.instructionSet.IsRegular) (hc : m.Overruns draw c) :
    ∃ d, m.step draw c = .ok d ∧ m.code.size ≤ d.pc := by
  obtain ⟨i, d, hi, hk, hover, hd⟩ := hc
  obtain ⟨-, i', hi', henough, -, hexec⟩ := of_stepTaking_eq_ok hd
  cases hi'.symm.trans hi
  refine ⟨d, hd, ?_⟩
  rcases (of_execute_eq_ok (hset _ _ hi) henough hexec).2 with ⟨hjumps, -⟩ | ⟨-, -, hbehind⟩
  · have hjump := hjumps.isJump
    rw [hk] at hjump
    cases hjump
  · rw [hbehind]
    exact Int.le_of_lt hover

theorem Passes.exists_of_le (hb : m.Passes draw source j b) (hle : k ≤ j) :
    ∃ a, m.Passes draw source k a := by
  induction hb with
  | start =>
    cases Nat.le_zero.1 hle
    exact ⟨_, .start⟩
  | step hs hstep ih =>
    rcases Nat.le_succ_iff.1 hle with hle | rfl
    · exact ih hle
    · exact ⟨_, hs.step hstep⟩

/-- A run passes no state after the one at which it ends. -/
theorem Passes.le_of_step_error (hc : m.Passes draw source k c) (hstep : m.step draw c = .error h)
    (hb : m.Passes draw source j b) : j ≤ k := by
  refine Nat.le_of_not_lt fun hlt => ?_
  obtain ⟨a, ha⟩ := hb.exists_of_le (k := k + 1) hlt
  cases ha with
  | step hs hok =>
    cases hs.unique hc
    cases hok.symm.trans hstep

end Machine

namespace Walk

/-! ## Correspondence -/

/-- What the walk says corresponds to how a run ends, given whether the run
    overruns the code. -/
structure Corresponds (outcome : Except Violation Report) (halt : Halt) (overruns : Prop) :
    Prop where
  invalidInstruction : (∃ pc opcode, outcome = .error (.invalidInstruction pc opcode)) ↔
    halt = .invalidInstruction
  stackUnderflow : (∃ pc required available,
    outcome = .error (.stackUnderflow pc required available)) ↔ halt = .stackUnderflow
  stackOverflow : (∃ pc limit resulting, outcome = .error (.stackOverflow pc limit resulting)) ↔
    halt = .stackOverflow
  codeTruncated : (∃ pc codeLength, outcome = .error (.codeTruncated pc codeLength)) ↔ overruns
  stop_of_overruns : overruns → halt = .stop
  accepted : (∃ r, outcome = .ok r) ↔ halt = .stop ∧ ¬overruns

/-- The outcomes of a walk that match the end of a run that does not overrun the
    code. -/
inductive Matches : Except Violation Report → Halt → Prop
  | accepted (r : Report) : Matches (.ok r) .stop
  | invalidInstruction (pc opcode : Int) :
      Matches (.error (.invalidInstruction pc opcode)) .invalidInstruction
  | stackUnderflow (pc required available : Int) :
      Matches (.error (.stackUnderflow pc required available)) .stackUnderflow
  | stackOverflow (pc limit resulting : Int) :
      Matches (.error (.stackOverflow pc limit resulting)) .stackOverflow

theorem Matches.corresponds {outcome : Except Violation Report} {halt : Halt} {overruns : Prop}
    (h : Matches outcome halt) (hnot : ¬overruns) : Corresponds outcome halt overruns := by
  cases h <;> constructor <;> simp [hnot]

theorem corresponds_of_overruns {pc codeLength : Int} {overruns : Prop} (h : overruns) :
    Corresponds (.error (.codeTruncated pc codeLength)) .stop overruns := by
  constructor <;> simp [h]

/-- The room is checked before the literal is read. -/
theorem heightAfter_le_of_truncated {w : Walk} {p : Path} {i : Instruction} {pc codeLength : Int}
    (h : w.expand p i = .error (.codeTruncated pc codeLength)) :
    i.heightAfter p.height ≤ w.stackLimit := by
  refine Int.not_lt.1 fun hlt => ?_
  rw [expand] at h
  split at h
  · cases h
  · simp only [if_pos hlt] at h
    cases h

/-! ## In step -/

variable (w : Walk) {σ : Type} (draw : σ → Int × σ) (source : σ)

/-- The walk has come to the path `p` in the state `s`, and a run to the state `c`
    after `k` steps. Both are at the same offset with the same height, in the
    first block, and the run has not overrun the code. -/
structure InStep (k : Nat) (s : State) (p : Path) (c : Machine.State σ) : Prop where
  ahead : w.Ahead s p []
  passes : (w.machine w.stackLimit).Passes draw source k c
  pc : c.pc = p.pc
  height : p.height = c.stack.length
  base : p.base = 0
  steps_le : (k : Int) ≤ p.pc
  inside : ∀ j < k, ∀ b, (w.machine w.stackLimit).Passes draw source j b →
    ¬(w.machine w.stackLimit).Overruns draw b

/-- The walk, at the path `p`, and the run, at the state `c`, come to their end:
    either in the same way, or with the run overrunning the code. -/
inductive Ends (p : Path) (c : Machine.State σ) : Prop
  | alike {halt : Halt} : Matches w.report halt →
      (w.machine w.stackLimit).step draw c = .error halt → Ends p c
  | overrun : w.report = .error (.codeTruncated p.pc w.code.size) →
      (w.machine w.stackLimit).Overruns draw c → Ends p c

theorem inStep_start : w.InStep draw source 0 .start .start (.start source) where
  ahead := ahead_start
  passes := .start
  pc := rfl
  height := rfl
  base := rfl
  steps_le := Int.le_refl 0
  inside j hj := absurd hj (Nat.not_lt_zero j)

variable {w draw source} {k : Nat} {s : State} {p : Path} {c : Machine.State σ}

namespace InStep

theorem isPath (h : w.InStep draw source k s p c) : w.IsPath p :=
  h.ahead.reachable.isPath p (h.ahead.paths ▸ List.mem_cons_self)

/-- What the walk says is found where it is. -/
theorem report_eq_error (h : w.InStep draw source k s p c) {v : Violation}
    (hstep : w.step s p [] = .error v) : w.report = .error v :=
  report_of_run_eq_error
    (h.ahead.reachable.run_eq.symm.trans (EndsIn.stop h.ahead.paths hstep).run_eq)

theorem exists_report (h : w.InStep draw source k s p c) {t : State}
    (hstep : w.step s p [] = .ok t) (ht : t.paths = []) : ∃ r, w.report = .ok r := by
  have hrun := (EndsIn.next h.ahead.paths hstep (.done ht)).run_eq
  exact ⟨_, report_of_run_eq_ok (h.ahead.reachable.run_eq.symm.trans hrun)⟩

/-- The path and the run come to the same instruction. -/
theorem get?_eq (h : w.InStep draw source k s p c) :
    w.instructionSet.get? (w.code.opcode c.pc) = w.instructionSet.get? (w.code.opcode p.pc) := by
  rw [h.pc]

theorem isJump_eq_false (hset : w.instructionSet.IsRegular) (hcode : w.code.JumpFree)
    (h : w.InStep draw source k s p c) (hpc : p.pc < w.code.size) {i : Instruction}
    (hi : w.instructionSet.get? (w.code.opcode p.pc) = some i) : i.kind.isJump = false :=
  Bool.eq_false_iff.2 fun hk =>
    hcode p.pc (h.isPath.isBoundary hset) hpc ((hset _ _ hi).jump_iff.1 hk)

/-- A block that began with an empty stack has kept what it began with. -/
theorem base_le_heightAfter (hset : w.instructionSet.IsRegular)
    (h : w.InStep draw source k s p c) {i : Instruction}
    (hi : w.instructionSet.get? (w.code.opcode p.pc) = some i) (hk : i.kind = .terminal)
    (henough : i.consumes ≤ p.height) : p.base ≤ i.heightAfter p.height := by
  have heffect := (hset _ _ hi).effect
  rw [hk] at heffect
  have hproduces : 0 ≤ i.produces := heffect.2
  rw [h.base, Instruction.heightAfter]
  omega

/-- The run has the items and the room for an instruction that the path has them
    for. -/
theorem step_eq_execute (h : w.InStep draw source k s p c) {i : Instruction}
    (hpc : p.pc < w.code.size) (hi : w.instructionSet.get? (w.code.opcode p.pc) = some i)
    (henough : i.consumes ≤ p.height) (hroom : i.heightAfter p.height ≤ w.stackLimit) :
    (w.machine w.stackLimit).step draw c =
      (w.machine w.stackLimit).execute draw (c.stack.getD 1 0 != 0) c i :=
  Machine.step_eq_execute (m := w.machine w.stackLimit) (h.pc ▸ hpc) (h.get?_eq.trans hi)
    (h.height ▸ henough) (h.height ▸ hroom)

/-- The run takes an instruction that neither jumps nor ends the path. -/
theorem exists_step (hset : w.instructionSet.IsRegular) (h : w.InStep draw source k s p c)
    {i : Instruction} (hpc : p.pc < w.code.size)
    (hi : w.instructionSet.get? (w.code.opcode p.pc) = some i) (hk : i.kind.isJump = false)
    (hterminal : i.kind ≠ .terminal) (henough : i.consumes ≤ p.height)
    (hroom : i.heightAfter p.height ≤ w.stackLimit) :
    ∃ d, (w.machine w.stackLimit).step draw c = .ok d ∧ d.pc = p.pc + i.width ∧
      (d.stack.length : Int) = i.heightAfter p.height := by
  have hreg := hset _ _ hi
  have henough' : i.consumes ≤ c.stack.length := h.height ▸ henough
  have hj : ¬i.Jumps (c.stack.getD 1 0 != 0) := fun hj => by
    rw [hj.isJump] at hk
    cases hk
  have hstep := h.step_eq_execute hpc hi henough hroom
  have hexec : ∃ d, (w.machine w.stackLimit).execute draw (c.stack.getD 1 0 != 0) c i = .ok d :=
    ⟨_, Machine.execute_of_not_jumps hreg henough' hj hterminal⟩
  obtain ⟨d, hd⟩ := hexec
  obtain ⟨hlength, ⟨hjumps, -⟩ | ⟨-, -, hbehind⟩⟩ := Machine.of_execute_eq_ok hreg henough' hd
  · exact absurd hjumps hj
  · exact ⟨d, hstep.trans hd, by rw [hbehind, h.pc], by rw [hlength, h.height]⟩

/-- Both go on behind an instruction that ends inside the code. -/
theorem next (hset : w.instructionSet.IsRegular) (h : w.InStep draw source k s p c)
    {i : Instruction} {q : Path} (hf : w.Follows p i ⟨none, [q]⟩) (hk : i.kind.isJump = false)
    (hterminal : i.kind ≠ .terminal) (hpc : q.pc = p.pc + i.width) (hle : q.pc ≤ w.code.size)
    (hheight : q.height = i.heightAfter p.height) (hbase : q.base = p.base) :
    ∃ t d, w.InStep draw source (k + 1) t q d := by
  have hwidth := (hf.isRegular hset).width_pos
  obtain ⟨t, ht, -⟩ := h.ahead.next hf (by omega)
  obtain ⟨d, hstep, hd, hlength⟩ := h.exists_step hset hf.inside hf.get? hk hterminal
    hf.consumes_le hf.heightAfter_le
  have hcount := h.steps_le
  refine ⟨t, d, ht, h.passes.step hstep, hd.trans hpc.symm, hheight.trans hlength.symm,
    hbase.trans h.base, by omega, fun j hj b hb => ?_⟩
  rcases Nat.lt_succ_iff_lt_or_eq.1 hj with hlt | rfl
  · exact h.inside j hlt b hb
  · -- the run is at the instruction that ends inside the code
    rintro ⟨i', -, hi', -, hover, -⟩
    cases hb.unique h.passes
    cases hi'.symm.trans (h.get?_eq.trans hf.get?)
    have hover' : (w.code.size : Int) < c.pc + i.width := hover
    rw [h.pc] at hover'
    omega

/-- What a violation at an instruction means for the run. -/
theorem ends_of_expand (hset : w.instructionSet.IsRegular) (hcode : w.code.JumpFree)
    (h : w.InStep draw source k s p c) (hpc : p.pc < w.code.size) {i : Instruction}
    (hi : w.instructionSet.get? (w.code.opcode p.pc) = some i) {v : Violation}
    (hreport : w.report = .error v) (hexpand : w.expand p i = .error v) : w.Ends draw p c := by
  have hinside : c.pc < (w.machine w.stackLimit).code.size := h.pc ▸ hpc
  have hget := h.get?_eq.trans hi
  have hk := h.isJump_eq_false hset hcode hpc hi
  rcases of_expand_eq_error hexpand with ⟨hfew, rfl⟩ |
    ⟨henough, ⟨hroom, rfl⟩ | ⟨hjump, -⟩ | hvalue | ⟨hterminal, hexit⟩⟩
  · exact .alike (hreport ▸ .stackUnderflow _ _ _)
      (Machine.step_of_lt_consumes hinside hget (h.height ▸ hfew))
  · have hmatches : Matches w.report .stackOverflow := hreport ▸ .stackOverflow _ _ _
    rw [h.height] at henough hroom
    refine .alike hmatches ?_
    rw [Machine.step, Machine.stepTaking_eq hinside hget henough]
    exact if_pos hroom
  · cases hk.symm.trans hjump
  · obtain ⟨hover, rfl⟩ := of_immediate_eq_error hvalue
    have hpush : i.kind = .push := (hset _ _ hi).kind_eq_push (by omega)
    have hterminal : i.kind ≠ .terminal := by
      rw [hpush]
      decide
    obtain ⟨d, hd, -⟩ := h.exists_step hset hpc hi hk hterminal henough
      (heightAfter_le_of_truncated hexpand)
    exact .overrun hreport ⟨i, d, hget, hpush, h.pc.symm ▸ hover, hd⟩
  · have hlow := (of_checkExit_eq_error hexit).1
    have hkind := (hset _ _ hi).terminal_iff.1 hterminal
    exact absurd hlow (Int.not_lt.2 (h.base_le_heightAfter hset hi hkind henough))

/-- What a violation at this point means for the run. -/
theorem ends_of_step_error (hset : w.instructionSet.IsRegular) (hlenient : w.strictEnd = false)
    (hcode : w.code.JumpFree) (h : w.InStep draw source k s p c) {v : Violation}
    (hstep : w.step s p [] = .error v) : w.Ends draw p c := by
  have hreport := h.report_eq_error hstep
  rcases step_error_inversion hstep with ⟨-, hend⟩ |
    ⟨hpc, ⟨hnone, rfl⟩ | ⟨i, hi, ⟨u, hu, -, -⟩ | hexpand⟩⟩
  · -- the path may end past the code, with whatever height
    rcases of_checkEnd_eq_error hend with ⟨hstrict, -, -⟩ | hexit
    · cases hlenient.symm.trans hstrict
    · have hlow := (of_checkExit_eq_error hexit).1
      rw [h.base, h.height] at hlow
      exact absurd hlow (Int.not_lt.2 (Int.natCast_nonneg _))
  · exact .alike (hreport ▸ .invalidInstruction _ _)
      (Machine.step_of_get?_eq_none (h.pc ▸ hpc) (h.get?_eq.trans hnone))
  · cases (h.ahead.fresh p.pc (Int.le_refl _)).symm.trans hu
  · exact h.ends_of_expand hset hcode hpc hi hreport hexpand

/-- Where the run ends, it has not overrun the code. -/
theorem not_overruns_of_error (h : w.InStep draw source k s p c) {halt : Halt}
    (hstep : (w.machine w.stackLimit).step draw c = .error halt) {j : Nat} {b : Machine.State σ}
    (hb : (w.machine w.stackLimit).Passes draw source j b) :
    ¬(w.machine w.stackLimit).Overruns draw b := by
  rcases Nat.lt_or_eq_of_le (h.passes.le_of_step_error hstep hb) with hlt | rfl
  · exact h.inside j hlt b hb
  · rintro ⟨-, d, -, -, -, hd⟩
    cases hb.unique h.passes
    cases hd.symm.trans hstep

/-- The path and the run go on in step, or come to their end. -/
theorem step_cases (hset : w.instructionSet.IsRegular) (hlenient : w.strictEnd = false)
    (hcode : w.code.JumpFree) (h : w.InStep draw source k s p c) :
    (∃ t q d, w.InStep draw source (k + 1) t q d ∧ p.pc < q.pc) ∨ w.Ends draw p c := by
  cases hstep : w.step s p [] with
  | error v => exact .inr (h.ends_of_step_error hset hlenient hcode hstep)
  | ok t =>
    rcases step_inversion hstep with ⟨hle, -, rfl⟩ | ⟨u, hu, -⟩ | ⟨-, i, e, hf, rfl⟩
    · obtain ⟨r, hr⟩ := h.exists_report hstep rfl
      exact .inr (.alike (hr ▸ .accepted r) (Machine.stepTaking_of_le (h.pc ▸ hle)))
    · cases (h.ahead.fresh p.pc (Int.le_refl _)).symm.trans hu
    · have hk := h.isJump_eq_false hset hcode hf.inside hf.get?
      cases hf.leads hset with
      | jump hjump =>
        rw [hjump] at hk
        cases hk
      | jumpi hjump =>
        rw [hjump] at hk
        cases hk
      | terminal hterminal =>
        obtain ⟨r, hr⟩ := h.exists_report hstep rfl
        have hexec := h.step_eq_execute hf.inside hf.get? hf.consumes_le hf.heightAfter_le
        exact .inr (.alike (hr ▸ .accepted r)
          (hexec.trans (Machine.execute_of_terminal hterminal)))
      | straight _ hterminal hle =>
        obtain ⟨t, d, hnext⟩ := h.next hset hf hk hterminal rfl hle rfl rfl
        exact .inl ⟨t, _, d, hnext, Int.lt_add_of_pos_right _ (hf.isRegular hset).width_pos⟩

/-- A path and a run in step come to where both end. -/
theorem exists_end (hset : w.instructionSet.IsRegular) (hlenient : w.strictEnd = false)
    (hcode : w.code.JumpFree) (h : w.InStep draw source k s p c) :
    ∃ k s p c, w.InStep draw source k s p c ∧ w.Ends draw p c := by
  -- each step leaves less of the code ahead
  generalize hn : ((w.code.size : Int) - p.pc).toNat = n
  induction n using Nat.strongRecOn generalizing k s p c with
  | ind n ih =>
    rcases h.step_cases hset hlenient hcode with ⟨t, q, d, hnext, hlt⟩ | hend
    · have hle := hnext.isPath.pc_le hset
      exact ih _ (by omega) hnext rfl
    · exact ⟨k, s, p, c, h, hend⟩

end InStep

/-! ## Whole runs -/

variable (draw source)

/-- Over code without jumps, the walk tells how every run ends that has more
    steps than the code has bytes. -/
theorem jumpFree_exact {rules : Rules} (hw : w.instructionSet = .ofRules rules)
    (hlenient : w.strictEnd = false) (hcode : w.code.JumpFree) {steps : Nat}
    (hsteps : w.code.size < steps) :
    Corresponds w.report ((w.machine w.stackLimit).run draw steps (.start source))
      (∃ k < steps, ∃ c, (w.machine w.stackLimit).Passes draw source k c ∧
        (w.machine w.stackLimit).Overruns draw c) := by
  have hset : w.instructionSet.IsRegular := hw ▸ InstructionSet.isRegular_ofRules rules
  obtain ⟨k, s, p, c, h, hend⟩ := (inStep_start w draw source).exists_end hset hlenient hcode
  have hle := h.isPath.pc_le hset
  have hcount := h.steps_le
  rcases hend with ⟨hmatches, hstep⟩ | ⟨hreport, hover⟩
  · obtain ⟨n, rfl⟩ : ∃ n, steps = k + (n + 1) := ⟨steps - k - 1, by omega⟩
    rw [Machine.run_of_passes h.passes, Machine.run_of_step_error hstep]
    refine hmatches.corresponds ?_
    rintro ⟨j, -, b, hb, hover⟩
    exact h.not_overruns_of_error hstep hb hover
  · -- behind the literal the run has a step left, and stops with it
    obtain ⟨d, hd, hpast⟩ := hover.exists_past hset
    have hinside : p.pc < w.code.size := h.pc ▸ (Machine.of_stepTaking_eq_ok hd).1
    obtain ⟨n, rfl⟩ : ∃ n, steps = k + (n + 1 + 1) := ⟨steps - k - 2, by omega⟩
    rw [Machine.run_of_passes h.passes, Machine.run_of_step_ok hd,
      Machine.run_of_step_error (Machine.stepTaking_of_le hpast), hreport]
    exact corresponds_of_overruns ⟨k, by omega, c, h.passes, hover⟩

/-- Code that ends inside the literal of a push. The byte that is left of the
    literal is the opcode of a jump. -/
def cutPush : Walk := ⟨.ofRules (.ofHardfork .cancun), .ofBytes #[0x34, 0x61, 0x56], 1024, false⟩

theorem report_cutPush : cutPush.report = .error (.codeTruncated 1 3) :=
  report_of_run_eq_error (run_eq_error 5 (by decide +kernel))

theorem jumpFree_cutPush : cutPush.code.JumpFree := by
  intro pc hpc hlt hjump
  -- the opcode of a jump stands at offset two only, where there is no instruction
  obtain ⟨k, rfl⟩ := Int.eq_ofNat_of_zero_le hpc.nonneg
  have honly : ∀ k < 3, Code.IsJump (cutPush.code.opcode (k : Nat)) → k = 2 := by
    decide +kernel
  cases honly k (Int.ofNat_lt.1 hlt) hjump
  have hone : cutPush.code.IsBoundary 1 := .next .zero (by decide)
  have hbehind : ¬1 + (Code.sweepWidth (cutPush.code.opcode 1) : Int) ≤ 2 := by decide +kernel
  exact hbehind (hone.add_le_of_lt hpc (by decide))

/-- Every run of the code that ends inside a push overruns it and stops. -/
theorem cutPush_stops : cutPush.code.JumpFree ∧
    cutPush.report = .error (.codeTruncated 1 3) ∧ ∀ dice,
      (cutPush.machine 1024).run Machine.values 4 (.start dice) = .stop ∧
      ∃ k < 4, ∃ c, (cutPush.machine 1024).Passes Machine.values dice k c ∧
        (cutPush.machine 1024).Overruns Machine.values c := by
  have hw : cutPush.instructionSet = .ofRules (.ofHardfork .cancun) := rfl
  refine ⟨jumpFree_cutPush, report_cutPush, fun dice => ?_⟩
  have hsteps : cutPush.code.size < 4 := by decide
  have h := jumpFree_exact Machine.values dice hw rfl jumpFree_cutPush hsteps
  have hover := h.codeTruncated.1 ⟨1, 3, report_cutPush⟩
  exact ⟨h.stop_of_overruns hover, hover⟩

end Walk

end EvmFlow
