import EvmFlow.Proofs.Soundness

/-!
# Jumps behind a push

In code whose jumps all stand behind a push (`Code.StaticJumps`), the
destination of a jump can be read from the code. The jump is no jump
destination itself, so whoever comes to it, the walk or a run, comes from the
push before it and finds the literal of the push on top of the stack.

So no run of such code strays from the walk. If the code is accepted, its runs
pass only offsets that are reported, take only jumps that are reported, and
meet no fault (`Walk.staticJumps_sound`).
-/

namespace EvmFlow

namespace Code

variable (code : Code)

/-- Every jump in the sweep of the code stands right behind a push. -/
def StaticJumps : Prop :=
  ∀ pc, code.IsBoundary pc → pc < code.size → IsJump (code.opcode pc) →
    ∃ b, code.IsBoundary b ∧ IsPush (code.opcode b) ∧ b + sweepWidth (code.opcode b) = pc

/-- The literal behind the opcode at an offset, as far as the sweep skips it. -/
def literal (pc : Int) : Nat := code.word (pc + 1) (sweepWidth (code.opcode pc) - 1)

variable {code}

theorem not_isJump_of_isJumpDest {d : Int} (h : code.isJumpDest d = true) :
    ¬IsJump (code.opcode d) := by
  rw [(of_isJumpDest h).2.2.1]
  decide

end Code

/-- The literal of a regular instruction is the one the sweep skips. -/
theorem Instruction.IsRegular.word_eq_literal {i : Instruction} {code : Code} {pc : Int}
    (h : i.IsRegular (code.opcode pc)) :
    code.word (pc + 1) i.immediateLength.toNat = code.literal pc := by
  have hwidth := h.width
  rw [Instruction.width] at hwidth
  rw [Code.literal, show i.immediateLength.toNat = Code.sweepWidth (code.opcode pc) - 1 by omega]

/-! ## Runs -/

namespace Machine

variable {σ : Type} {draw : σ → Int × σ} {m : Machine} {source : σ} {c c' : State σ} {k : Nat}
  {taken : Bool}

/-- What a step does to the offset, whichever branch it takes, if the instruction
    set is regular. -/
theorem moves_of_stepTaking (hset : m.instructionSet.IsRegular)
    (h : m.stepTaking draw taken c = .ok c') : c.pc < m.code.size ∧
      ∃ i, m.instructionSet.get? (m.code.opcode c.pc) = some i ∧
        i.consumes ≤ c.stack.length ∧ m.execute draw taken c i = .ok c' ∧
        ((i.Jumps taken ∧ c'.pc = c.stack.getD 0 0 ∧ m.code.isJumpDest c'.pc = true) ∨
          (¬i.Jumps taken ∧ c'.pc = c.pc + Code.sweepWidth (m.code.opcode c.pc))) := by
  obtain ⟨hpc, i, hi, henough, -, hexec⟩ := of_stepTaking_eq_ok h
  have hreg := hset _ _ hi
  refine ⟨hpc, i, hi, henough, hexec, ?_⟩
  rcases (of_execute_eq_ok hreg henough hexec).2 with hjump | ⟨hj, -, hbehind⟩
  · exact .inl hjump
  · exact .inr ⟨hj, hreg.width ▸ hbehind⟩

variable (m c) in
/-- The state `c` of a run is at the boundary of an instruction. If that is a
    jump behind a push, the literal of the push is on top of the stack. -/
structure Poised : Prop where
  isBoundary : m.code.IsBoundary c.pc
  top_eq : ∀ b, m.code.IsBoundary b → Code.IsPush (m.code.opcode b) →
    b + Code.sweepWidth (m.code.opcode b) = c.pc → Code.IsJump (m.code.opcode c.pc) →
    c.stack.getD 0 0 = m.code.literal b

theorem poised_start : m.Poised (.start source) :=
  ⟨.zero, fun _ hb _ hbehind _ => absurd hbehind hb.add_ne_zero⟩

/-- All states that come of a step are poised. -/
theorem Poised.of_stepTaking (hset : m.instructionSet.IsRegular) (hc : m.Poised c)
    (h : m.stepTaking draw taken c = .ok c') : m.Poised c' := by
  obtain ⟨hpc, i, hi, -, hexec, ⟨-, -, hd⟩ | ⟨-, hpc'⟩⟩ := moves_of_stepTaking hset h
  · exact ⟨Code.isBoundary_of_isJumpDest hd,
      fun _ _ _ _ hjump => absurd hjump (Code.not_isJump_of_isJumpDest hd)⟩
  · refine ⟨hpc' ▸ hc.isBoundary.next hpc, fun b hb hpush hbehind _ => ?_⟩
    -- the step came from the push, as no other instruction ends there
    obtain rfl := hb.eq_of_add_eq hc.isBoundary (hbehind.trans hpc')
    have hreg := hset _ _ hi
    rw [execute, hreg.push_iff.2 hpush] at hexec
    cases hexec
    exact congrArg Int.ofNat hreg.word_eq_literal

theorem Passes.poised (hset : m.instructionSet.IsRegular) (h : m.Passes draw source k c) :
    m.Poised c := by
  induction h with
  | start => exact poised_start
  | step _ hstep ih => exact ih.of_stepTaking hset hstep

end Machine

/-! ## The walk -/

namespace Walk

variable {w : Walk} {p : Path}

/-- A path that comes to a jump behind a push knows the literal of the push to
    be on top of its stack. -/
theorem IsPath.pop_eq_literal (hset : w.instructionSet.IsRegular) (h : w.IsPath p)
    (hjump : Code.IsJump (w.code.opcode p.pc)) {b : Int} (hb : w.code.IsBoundary b)
    (hpush : Code.IsPush (w.code.opcode b))
    (hbehind : b + Code.sweepWidth (w.code.opcode b) = p.pc) :
    p.shadow.pop.1 = some (w.code.literal b : Int) := by
  cases h with
  | start => exact absurd hbehind hb.add_ne_zero
  | @next q p i e hq hf hp =>
    have hreg := hf.isRegular hset
    have heq : p.pc = q.pc + i.width → b = q.pc := fun hpc =>
      hb.eq_of_add_eq (hq.isBoundary hset) (by rw [hbehind, hpc, hreg.width])
    cases hf.leads hset with
    | jump _ _ hd =>
      cases List.mem_singleton.1 hp
      exact absurd hjump (Code.not_isJump_of_isJumpDest hd)
    | jumpi hk _ hd =>
      rcases List.mem_cons.1 hp with rfl | hp
      · -- behind a conditional jump, and not behind a push
        cases heq rfl
        exact absurd (hreg.jump_iff.1 (by rw [hk]; rfl)) (Code.not_isJump_of_isPush hpush)
      · cases List.mem_singleton.1 hp
        exact absurd hjump (Code.not_isJump_of_isJumpDest hd)
    | terminal => cases hp
    | straight =>
      cases List.mem_singleton.1 hp
      cases heq rfl
      rw [Shadow.apply, hreg.push_iff.2 hpush, Shadow.pop_push, hreg.word_eq_literal]

/-- The destination that is known of a jump is what the shadow held. -/
theorem Origin.target_eq_pop (hset : w.instructionSet.IsRegular) {s : State}
    {v : Visit} {i : Instruction} {e : Expansion} (h : w.Origin s v p i e)
    (hk : i.kind.isJump = true) : v.target = p.shadow.pop.1 := by
  obtain ⟨d, hd, -, htarget, -⟩ := (h.follows.leads hset).exists_dest hk
  rw [h.visit, hd]
  exact htarget

variable {σ : Type} {draw : σ → Int × σ} {source : σ} {c c' : Machine.State σ}
  {s : State} {stackLimit : Int} {k : Nat}

/-- If all jumps stand behind a push, a known jump goes where it is known to go:
    the run and the path from which it was expanded both come from the push. -/
theorem target_eq_top (hset : w.instructionSet.IsRegular)
    (hs : w.run .start = .ok s) (hcode : w.code.StaticJumps)
    (hc : (w.machine stackLimit).Poised c) {v : Visit} (hv : s.visit? c.pc = some v)
    {i : Instruction} (hi : w.instructionSet.get? (w.code.opcode c.pc) = some i)
    (hk : i.kind.isJump = true) : v.target = some (c.stack.getD 0 0) := by
  obtain ⟨p, i', e, hpc, ho⟩ := (of_run_eq_ok hset.isForward .start hs).1.exists_origin hv
  have hget := ho.follows.get?
  rw [hpc] at hget
  cases hi.symm.trans hget
  have hjump := (hset _ _ hi).jump_iff.1 hk
  have hinside : c.pc < w.code.size := hpc ▸ ho.follows.inside
  obtain ⟨b, hb, hpush, hbehind⟩ := hcode c.pc hc.isBoundary hinside hjump
  have htop : c.stack.getD 0 0 = w.code.literal b := hc.top_eq b hb hpush hbehind hjump
  have hpop := ho.isPath.pop_eq_literal hset (hpc ▸ hjump) hb hpush (hbehind.trans hpc.symm)
  rw [ho.target_eq_pop hset hk, hpop, htop]

/-- No run strays if all jumps stand behind a push. -/
theorem not_strays_of_staticJumps (hset : w.instructionSet.IsRegular)
    (hs : w.run .start = .ok s) (hcode : w.code.StaticJumps)
    (hc : (w.machine stackLimit).Passes draw source k c) : ¬w.Strays s c := by
  rintro ⟨v, i, hv, -, hi, hj, hne⟩
  exact hne (target_eq_top hset hs hcode (hc.poised hset) hv hi hj.isJump)

/-- Runs of accepted code stay on the certificate if all jumps stand behind a
    push. -/
theorem tracks_of_staticJumps (hset : w.instructionSet.IsRegular)
    (hs : w.run .start = .ok s) (hcode : w.code.StaticJumps)
    (hc : (w.machine stackLimit).Passes draw source k c) : w.Tracks s c := by
  rcases tracks_or_strays hset hs hc with htracks | ⟨j, -, b, hb, hstray⟩
  · exact htracks
  · exact absurd hstray (not_strays_of_staticJumps hset hs hcode hb)

/-- A state on the certificate that is inside the code is at an offset that is
    reported. -/
theorem Tracks.reported (hset : w.instructionSet.IsRegular)
    (hs : w.run .start = .ok s) (h : w.Tracks s c) (hpc : c.pc < w.code.size) :
    ∃ entry ∈ (s.report w.code.size).entryDepths, (entry.1 : Int) = c.pc := by
  rcases h with ⟨v, hv, -⟩ | ⟨hend, -⟩
  · obtain ⟨i, hcert⟩ := certified_of_run hset hs hv
    have hr := (of_run_eq_ok hset.isForward .start hs).1
    exact (hr.exists_entry_iff hcert.inside.1).2 ⟨v, hv⟩
  · exact absurd hpc (Int.not_lt.2 (Int.le_of_eq hend.symm))

/-- A state on the certificate of a walk that lets no path run off the end of
    the code is inside the code. -/
theorem Tracks.lt_size (hset : w.instructionSet.IsRegular)
    (hs : w.run .start = .ok s) (h : w.Tracks s c) (hstrict : w.strictEnd = true)
    (hsize : 0 < w.code.size) : c.pc < w.code.size := by
  rcases h with ⟨v, hv, -⟩ | ⟨-, hlenient⟩
  · obtain ⟨i, hcert⟩ := certified_of_run hset hs hv
    exact hcert.inside.2
  · rw [hlenient hsize] at hstrict
    cases hstrict

/-- A jump that a run takes from the certificate goes to a destination that is
    reported. -/
theorem Tracks.jump_reported (hset : w.instructionSet.IsRegular)
    (hs : w.run .start = .ok s) (h : w.Tracks s c) (hstray : ¬w.Strays s c)
    (hstep : (w.machine stackLimit).step draw c = .ok c') {i : Instruction}
    (hi : w.instructionSet.get? (w.code.opcode c.pc) = some i)
    (hj : i.Jumps (c.stack.getD 1 0 != 0)) :
    ∃ d ∈ (s.report w.code.size).jumpDestinations, c'.pc = (d : Int) := by
  obtain ⟨hpc, i', hi', -, -, ⟨-, hpc', -⟩ | ⟨hj', -⟩⟩ :=
    Machine.moves_of_stepTaking (m := w.machine stackLimit) hset hstep
  · rcases h with ⟨v, hv, hle⟩ | ⟨hend, -⟩
    · obtain ⟨d, htop, -, hmem, -⟩ := exists_target hset hs hv hle hstray hi hj
      exact ⟨d, hmem, hpc'.trans htop⟩
    · exact absurd hpc (Int.not_lt.2 (Int.le_of_eq hend.symm))
  · cases hi.symm.trans hi'
    exact absurd hj hj'

/-- The runs of accepted code in which all jumps stand behind a push: they pass
    only offsets that are reported, their jumps go to destinations that are
    reported, they do not run off the end of the code if the walk is strict,
    and they meet no fault. -/
theorem staticJumps_sound {rules : Rules} (hw : w.instructionSet = .ofRules rules)
    (hcode : w.code.StaticJumps) {r : Report} (hr : w.report = .ok r) (draw : σ → Int × σ)
    (source : σ) (stackLimit : Int) :
    (∀ k c, (w.machine stackLimit).Passes draw source k c →
      (c.pc < w.code.size → ∃ entry ∈ r.entryDepths, (entry.1 : Int) = c.pc) ∧
      (∀ i c', w.instructionSet.get? (w.code.opcode c.pc) = some i →
        i.Jumps (c.stack.getD 1 0 != 0) → (w.machine stackLimit).step draw c = .ok c' →
        ∃ d ∈ r.jumpDestinations, c'.pc = (d : Int)) ∧
      (w.strictEnd = true → 0 < w.code.size → c.pc < w.code.size)) ∧
    ∀ steps, (w.machine stackLimit).run draw steps (.start source) = .stop ∨
      (w.machine stackLimit).run draw steps (.start source) = .stepLimit ∨
      (w.machine stackLimit).run draw steps (.start source) = .stackOverflow := by
  have hset : w.instructionSet.IsRegular := hw ▸ InstructionSet.isRegular_ofRules rules
  obtain ⟨s, hs, rfl⟩ := of_report_eq_ok hr
  refine ⟨fun k c hc => ?_, fun steps => ?_⟩
  · have htracks := tracks_of_staticJumps hset hs hcode hc
    have hstray := not_strays_of_staticJumps hset hs hcode hc
    exact ⟨htracks.reported hset hs,
      fun i c' hi hj hstep => htracks.jump_reported hset hs hstray hstep hi hj,
      htracks.lt_size hset hs⟩
  · have hfault : ¬((w.machine stackLimit).run draw steps (.start source)).IsFault := by
      intro hfault
      obtain ⟨k, -, c, hc, hstray⟩ := exists_strays_of_isFault hset hs hfault
      exact not_strays_of_staticJumps hset hs hcode hc hstray
    cases hrun : (w.machine stackLimit).run draw steps (.start source) with
    | stop => exact .inl rfl
    | stepLimit => exact .inr (.inl rfl)
    | stackOverflow => exact .inr (.inr rfl)
    | invalidInstruction => exact absurd (.inl hrun) hfault
    | invalidJump => exact absurd (.inr (.inl hrun)) hfault
    | stackUnderflow => exact absurd (.inr (.inr hrun)) hfault

theorem staticJumps_valueLoop : valueLoop.code.StaticJumps := by
  intro pc hpc hsize hjump
  -- the only jump stands at offset four, the push before it at offset two
  obtain ⟨k, rfl⟩ := Int.eq_ofNat_of_zero_le hpc.nonneg
  have honly : ∀ k < 6, Code.IsJump (valueLoop.code.opcode (k : Nat)) → k = 4 := by
    decide +kernel
  cases honly k (Int.ofNat_lt.1 hsize) hjump
  have hone : valueLoop.code.IsBoundary 1 := .next .zero (by decide)
  have htwo : valueLoop.code.IsBoundary 2 := .next hone (by decide)
  exact ⟨2, htwo, by decide +kernel, by decide +kernel⟩

/-- All runs of the loop keep to its report, whatever the dice say. -/
theorem valueLoop_sound : valueLoop.code.StaticJumps ∧ ∃ r, valueLoop.report = .ok r ∧
    ∀ dice, (∀ k c, (valueLoop.machine 1024).Passes Machine.values dice k c →
        ∃ entry ∈ r.entryDepths, (entry.1 : Int) = c.pc) ∧
      ∀ steps, (valueLoop.machine 1024).run Machine.values steps (.start dice) = .stop ∨
        (valueLoop.machine 1024).run Machine.values steps (.start dice) = .stepLimit ∨
        (valueLoop.machine 1024).run Machine.values steps (.start dice) = .stackOverflow := by
  obtain ⟨s, hs⟩ := exists_run_valueLoop
  have hw : valueLoop.instructionSet = .ofRules (.ofHardfork .cancun) := rfl
  refine ⟨staticJumps_valueLoop, _, report_of_run_eq_ok hs, fun dice => ?_⟩
  obtain ⟨hpasses, hhalts⟩ := staticJumps_sound hw staticJumps_valueLoop
    (report_of_run_eq_ok hs) Machine.values dice 1024
  refine ⟨fun k c hc => ?_, hhalts⟩
  obtain ⟨hreported, -, hinside⟩ := hpasses k c hc
  exact hreported (hinside rfl (by decide))

end Walk

end EvmFlow
