import EvmFlow.Proofs.Alignment
import EvmFlow.Proofs.Extension

/-!
# The end of the code

A walk can be strict about the end of the code or not (`Walk.ending`). The
difference only shows at a path that runs off the end. Until one does, the two
walks go in lock step. A strict walk stops there, at an offset that is just the
size of the code, for no instruction that is followed reaches past the end.

A path that runs off the end comes from an instruction that was expanded, be it
a conditional jump at the last byte (`Walk.fallsOff`). So what the strict walk
says of code that the other one accepts can be read off the report: the same,
unless one of the offsets reported has nothing behind it.

* `Walk.Reachable.exists_parent`: every open path but the first goes on from a
  known offset;
* `Walk.report_ending`: the strict walk says the same, or that the code ends;
* `Walk.strictEnd_exact`: which of the two it says.
-/

namespace EvmFlow.Walk

variable (w : Walk)

/-- The walk over the same code that is strict about its end or not. -/
abbrev ending (strict : Bool) : Walk := w.under w.instructionSet w.stackLimit strict

/-- Control can go on behind the instruction at `pc`, and the code ends there. -/
def fallsOff (pc : Int) : Bool :=
  (w.instructionSet.get? (w.code.opcode pc)).any fun i =>
    i.kind != .jump && i.kind != .terminal && pc + i.width == w.code.size

variable {w} {s : State} {p q : Path} {others : List Path} {i : Instruction}
  {e : Expansion}

theorem fallsOff_iff {pc : Int} : w.fallsOff pc = true ↔
    ∃ i, w.instructionSet.get? (w.code.opcode pc) = some i ∧ i.kind ≠ .jump ∧
      i.kind ≠ .terminal ∧ pc + i.width = w.code.size := by
  simp only [fallsOff, Option.any_eq_true, Bool.and_eq_true, bne_iff_ne, beq_iff_eq, and_assoc]

/-! ## Lock step -/

/-- A strict walk does what the other one does, unless the path being followed
    has run off the end of the code. -/
theorem step_ending (s : State) (p : Path) (others : List Path) :
    (w.ending true).step s p others = (w.ending false).step s p others ∨
      ∃ v, (∃ pc : Int, w.code.size ≤ pc ∧ 0 < w.code.size ∧ v = .codeTruncated pc w.code.size) ∧
        (w.ending true).step s p others = .error v := by
  rw [step, step]
  by_cases hpc : p.pc < w.code.size
  · rw [if_pos (show p.pc < (w.ending true).code.size from hpc),
      if_pos (show p.pc < (w.ending false).code.size from hpc)]
    exact .inl rfl
  · rw [if_neg (show ¬p.pc < (w.ending true).code.size from hpc),
      if_neg (show ¬p.pc < (w.ending false).code.size from hpc), checkEnd, checkEnd]
    rcases Nat.eq_zero_or_pos w.code.size with hzero | hpos
    · -- nobody is strict about code that is empty
      rw [if_neg fun h => Nat.ne_of_gt h.2 hzero, if_neg fun h => Nat.ne_of_gt h.2 hzero]
      exact .inl rfl
    · rw [if_pos ⟨rfl, hpos⟩]
      exact .inr ⟨_, ⟨p.pc, Int.not_lt.1 hpc, hpos, rfl⟩, rfl⟩

/-- A strict walk says what the other one says, or that the code ends. -/
theorem report_ending (hset : w.instructionSet.IsRegular) :
    (w.ending true).report = (w.ending false).report ∨ (0 < w.code.size ∧
      (w.ending true).report = .error (.codeTruncated w.code.size w.code.size)) := by
  rcases run_eq_or_excused (w := w.ending true) hset.isForward step_ending with
    hrun | ⟨v, ⟨pc, hle, hpos, rfl⟩, hrun⟩
  · rw [report, report, hrun]
    exact .inl rfl
  · have hreport := report_of_run_eq_error hrun
    refine .inr ⟨hpos, ?_⟩
    -- violations are not found past the end of the code
    rcases placed_of_report_eq_error (w := w.ending true) hset hreport with ⟨-, hlt⟩ | ⟨heq, -⟩
    · exact absurd hlt (Int.not_lt.2 hle)
    · have hend : pc = w.code.size := heq
      rw [hreport, hend]

/-- The states that a strict walk comes to are states of the other one. -/
theorem reachable_of_strict (h : (w.ending true).Reachable s) : (w.ending false).Reachable s := by
  refine Reachable.under (w := w.ending true) (fun s p others t hstep => ?_) h
  rcases step_ending s p others with heq | ⟨v, -, herror⟩
  · exact heq.symm.trans hstep
  · cases hstep.symm.trans herror

/-! ## Paths that run off the end -/

/-- Every open path but the one that starts the walk goes on from a known
    offset. -/
theorem Reachable.exists_parent (h : w.Reachable s) : ∀ q ∈ s.paths,
    q = .start ∨ ∃ p i e v, w.Follows p i e ∧ q ∈ e.next ∧ s.visit? p.pc = some v := by
  induction h with
  | start =>
    intro q hq
    exact .inl (List.mem_singleton.1 hq)
  | @step s t p others _ hs hstep ih =>
    intro q hq
    rw [hs] at ih
    -- what was open before keeps its parent, as known offsets stay known
    have hold : q ∈ others →
        q = .start ∨ ∃ p i e v, w.Follows p i e ∧ q ∈ e.next ∧ t.visit? p.pc = some v := by
      intro hothers
      rcases ih q (List.mem_cons_of_mem _ hothers) with hstart | ⟨p', i, e, v, hf, hnext, hv⟩
      · exact .inl hstart
      · exact .inr ⟨p', i, e, v, hf, hnext, visit?_of_step hstep hv⟩
    rcases step_inversion hstep with ⟨-, -, rfl⟩ | ⟨-, -, -, rfl⟩ | ⟨-, i, e, hf, rfl⟩
    · exact hold hq
    · exact hold hq
    · rcases List.mem_append.1 hq with hnext | hothers
      · exact .inr ⟨p, i, e, _, hf, hnext, (State.visit?_enter ..).trans (if_pos rfl)⟩
      · exact hold hothers

/-- A path that runs off the end goes on from an instruction with nothing behind
    it. -/
theorem Follows.fallsOff (hset : w.instructionSet.IsRegular) (hf : w.Follows p i e)
    (hq : q ∈ e.next) (hpc : q.pc = w.code.size) : w.fallsOff p.pc = true := by
  have hdest : ∀ {d : Int}, w.code.isJumpDest d = true → d ≠ w.code.size := fun hd =>
    Int.ne_of_lt (Code.of_isJumpDest hd).2.1
  refine fallsOff_iff.2 ⟨i, hf.get?, ?_⟩
  cases hf.leads hset with
  | jump _ _ hd =>
    cases List.mem_singleton.1 hq
    exact absurd hpc (hdest hd)
  | jumpi hk _ hd =>
    rcases List.mem_cons.1 hq with rfl | hq
    · exact ⟨by rw [hk]; decide, by rw [hk]; decide, hpc⟩
    · cases List.mem_singleton.1 hq
      exact absurd hpc (hdest hd)
  | terminal => cases hq
  | straight hk hterminal =>
    cases List.mem_singleton.1 hq
    exact ⟨fun hk' => (by rw [hk'] at hk; cases hk), hterminal, hpc⟩

/-- Code that a strict walk accepts has something behind each reported
    instruction. -/
theorem not_fallsOff_of_strict (hset : w.instructionSet.IsRegular)
    (hs : (w.ending true).run .start = .ok s) {pc : Nat} {depth : Int}
    (h : (pc, depth) ∈ (s.report w.code.size).entryDepths) : w.fallsOff pc = false := by
  refine Bool.eq_false_iff.2 fun hoff => ?_
  obtain ⟨i, hi, hjump, hterminal, hend⟩ := fallsOff_iff.1 hoff
  have hr := (of_run_eq_ok (w := w.ending true) hset.isForward .start hs).1
  obtain ⟨v, hv, -⟩ := hr.mem_entryDepths.1 h
  obtain ⟨i', hcert⟩ := certified_of_run (w := w.ending true) hset hs hv
  cases hi.symm.trans hcert.get?
  rcases hcert.behind hjump hterminal with ⟨-, hlenient⟩ | ⟨u, hu, -⟩
  · cases hlenient
  · -- no offset past the end is known
    exact absurd (hr.pc_lt hu) (Int.not_lt.2 (Int.le_of_eq hend.symm))

/-- If a strict walk stops at the end of code that the other one accepts, a
    reported instruction has nothing behind it. -/
theorem exists_fallsOff (hset : w.instructionSet.IsRegular) (hpos : 0 < w.code.size)
    (hs : (w.ending false).run .start = .ok s)
    (hstrict : (w.ending true).report = .error (.codeTruncated w.code.size w.code.size)) :
    ∃ entry ∈ (s.report w.code.size).entryDepths, w.fallsOff entry.1 = true := by
  obtain ⟨t, q, others, ht, hpaths, hstep⟩ :=
    of_run_eq_error (w := w.ending true) hset.isForward .start (of_report_eq_error hstrict)
  have hq : q ∈ t.paths := hpaths ▸ List.mem_cons_self
  have hpc : q.pc = w.code.size := (pc_of_step_eq_error hstep).symm
  rcases (reachable_of_strict ht).exists_parent q hq with rfl | ⟨p, i, e, v, hf, hnext, hv⟩
  · exact absurd (Int.ofNat_inj.1 hpc) (Nat.ne_of_lt hpos)
  · -- the other walk comes to this state as well, and goes on to its end
    have hends := endsIn_run (w := w.ending false) hset.isForward (reachable_of_strict ht)
    have hknown := hends.visit?_eq_some ((reachable_of_strict ht).run_eq.trans hs) hv
    obtain ⟨i', hcert⟩ := certified_of_run (w := w.ending false) hset hs hknown
    have hr := (of_run_eq_ok (w := w.ending false) hset.isForward .start hs).1
    obtain ⟨entry, hentry, heq⟩ := (hr.exists_entry_iff hcert.inside.1).2 ⟨v, hknown⟩
    exact ⟨entry, hentry, heq ▸ Follows.fallsOff (w := w.ending false) hset hf hnext hpc⟩

/-- Being strict about the end of the code changes nothing if the code is empty.
    Else, if the walk that is not strict accepts the code, the strict one gives
    the same report, unless a reported instruction has nothing behind it, in
    which case it says that the code ends. What else is wrong with the code it
    says as well, unless it says that the code ends. -/
theorem strictEnd_exact {rules : Rules} (hw : w.instructionSet = .ofRules rules) :
    (w.code.size = 0 → (w.ending true).report = (w.ending false).report) ∧
    (0 < w.code.size →
      (∀ r, (w.ending false).report = .ok r → (w.ending true).report =
        if r.entryDepths.any (fun entry => w.fallsOff entry.1) then
          .error (.codeTruncated w.code.size w.code.size)
        else .ok r) ∧
      ∀ v, (w.ending false).report = .error v → (w.ending true).report = .error v ∨
        (w.ending true).report = .error (.codeTruncated w.code.size w.code.size)) := by
  have hset : w.instructionSet.IsRegular := hw ▸ InstructionSet.isRegular_ofRules rules
  refine ⟨fun hzero => ?_, fun hpos => ⟨fun r hr => ?_, fun v hv => ?_⟩⟩
  · rcases report_ending hset with heq | ⟨hpos, -⟩
    · exact heq
    · exact absurd hzero (Nat.ne_of_gt hpos)
  · rcases report_ending hset with heq | ⟨-, htruncated⟩
    · obtain ⟨s, hs, rfl⟩ := of_report_eq_ok (heq.trans hr)
      rw [if_neg, heq, hr]
      intro hany
      obtain ⟨entry, hentry, hoff⟩ := List.any_eq_true.1 hany
      exact Bool.false_ne_true ((not_fallsOff_of_strict hset hs hentry).symm.trans hoff)
    · obtain ⟨s, hs, rfl⟩ := of_report_eq_ok hr
      rw [if_pos (List.any_eq_true.2 (exists_fallsOff hset hpos hs htruncated)), htruncated]
  · rcases report_ending hset with heq | ⟨-, htruncated⟩
    · exact .inl (heq.trans hv)
    · exact .inr htruncated

/-- A loop that ends with its conditional jump. -/
def openLoop : Walk :=
  ⟨.ofRules (.ofHardfork .cancun), .ofBytes #[0x5b, 0x34, 0x60, 0x00, 0x57], 1024, false⟩

/-- When the loop is left, the code ends, which a strict walk does not accept. The
    same loop with a stop behind it gives the same report either way. -/
theorem strictEnd_openLoop :
    (∃ r, openLoop.report = .ok r ∧ r.entryDepths.any (fun entry => openLoop.fallsOff entry.1) ∧
      (openLoop.ending true).report = .error (.codeTruncated 5 5)) ∧
    ∃ r, (valueLoop.ending false).report = .ok r ∧ (valueLoop.ending true).report = .ok r := by
  have hopen : openLoop.instructionSet = .ofRules (.ofHardfork .cancun) := rfl
  have hvalue : valueLoop.instructionSet = .ofRules (.ofHardfork .cancun) := rfl
  constructor
  · obtain ⟨s, hs, hoff⟩ := exists_run_eq_ok_of_test (w := openLoop.ending false) (s := .start) 10
      (fun s => (s.report 5).entryDepths.any fun entry => openLoop.fallsOff entry.1) (by decide +kernel)
    have hr := report_of_run_eq_ok hs
    have hstrict := ((strictEnd_exact hopen).2 (by decide)).1 _ hr
    exact ⟨_, hr, hoff, hstrict.trans (if_pos hoff)⟩
  · obtain ⟨s, hs, hoff⟩ := exists_run_eq_ok_of_test (w := valueLoop.ending false) (s := .start)
      10 (fun s => !(s.report 6).entryDepths.any fun entry => valueLoop.fallsOff entry.1)
      (by decide +kernel)
    have hr := report_of_run_eq_ok hs
    have hstrict := ((strictEnd_exact hvalue).2 (by decide)).1 _ hr
    have hnone : ¬(s.report 6).entryDepths.any (fun entry => valueLoop.fallsOff entry.1) = true :=
      Bool.eq_false_iff.1 (Bool.not_eq_true' _ ▸ hoff)
    exact ⟨_, hr, hstrict.trans (if_neg hnone)⟩

end EvmFlow.Walk
