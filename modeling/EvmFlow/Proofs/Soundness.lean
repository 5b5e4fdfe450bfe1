import EvmFlow.Proofs.Certificate

/-!
# Runs of accepted code

A run of accepted code stays on the certificate as long as its jumps go where
the walk expected them to: it passes known offsets, with at least the height
they are known with, until it runs off the end of the code (`Walk.Tracks`). On
the way it meets no fault, for the certificate provides each instruction with
its items and each jump with its destination.

The walk follows a jump once, to the constant it finds on top of the first path
that comes there. A later path that brings as many items is not followed on,
even if it brings another constant. So a run can come to a known jump with
another destination on top, and *stray* (`Walk.Strays`). A run of accepted code
ends in a fault if and only if it strays and ends in a fault from there
(`Walk.isFault_run_iff_strays`).
-/

namespace EvmFlow

/-- The halts that the walk is to rule out. -/
def Halt.IsFault (h : Halt) : Prop :=
  h = .invalidInstruction ∨ h = .invalidJump ∨ h = .stackUnderflow

instance (h : Halt) : Decidable h.IsFault := inferInstanceAs (Decidable (_ ∨ _))

namespace Walk

variable (w : Walk)

variable {σ : Type}

/-- The state `c` of a run is on the certificate: its offset is known with at
    most its height, or it has run off the end of the code and may do so. -/
def Tracks (s : State) (c : Machine.State σ) : Prop :=
  s.KnownBelow c.pc c.stack.length ∨
    (c.pc = w.code.size ∧ (0 < w.code.size → w.strictEnd = false))

/-- A run strays at the state `c`: its offset is known with at most its height,
    but the jump that stands there goes elsewhere than is known of it. -/
def Strays (s : State) (c : Machine.State σ) : Prop :=
  ∃ v i, s.visit? c.pc = some v ∧ v.height ≤ c.stack.length ∧
    w.instructionSet.get? (w.code.opcode c.pc) = some i ∧ i.Jumps (c.stack.getD 1 0 != 0) ∧
    v.target ≠ some (c.stack.getD 0 0)

variable {w} {s : State} {draw : σ → Int × σ} {source : σ} {c c' : Machine.State σ}
  {stackLimit : Int}

/-! ## Steps on the certificate -/

theorem heightAfter_mono {i : Instruction} {a b : Int} (h : a ≤ b) :
    i.heightAfter a ≤ i.heightAfter b := by
  rw [Instruction.heightAfter, Instruction.heightAfter]
  omega

theorem State.KnownBelow.mono {pc a b : Int} (h : s.KnownBelow pc a) (hab : a ≤ b) :
    s.KnownBelow pc b := by
  obtain ⟨v, hv, hle⟩ := h
  exact ⟨v, hv, Int.le_trans hle hab⟩

/-- A jump that goes where it is known to go comes to a jump destination that is
    reported and known. -/
theorem known_of_target_eq (hset : w.instructionSet.IsRegular)
    (hs : w.run .start = .ok s) {v : Visit} (hv : s.visit? c.pc = some v)
    (hle : v.height ≤ c.stack.length) {i : Instruction}
    (hi : w.instructionSet.get? (w.code.opcode c.pc) = some i) (hk : i.kind.isJump = true)
    (htop : v.target = some (c.stack.getD 0 0)) :
    ∃ d : Nat, c.stack.getD 0 0 = d ∧ w.code.isJumpDest d = true ∧
      d ∈ (s.report w.code.size).jumpDestinations ∧
      s.KnownBelow d (i.heightAfter c.stack.length) := by
  obtain ⟨i', hcert⟩ := certified_of_run hset hs hv
  cases hi.symm.trans hcert.get?
  obtain ⟨d, htarget, hd, hmem, hknown⟩ := hcert.jump hk
  have heq : c.stack.getD 0 0 = d := Option.some.inj (htop.symm.trans htarget)
  exact ⟨d, heq, hd, hmem, hknown.mono (heightAfter_mono hle)⟩

theorem target_of_not_strays (hstray : ¬w.Strays s c) {v : Visit} (hv : s.visit? c.pc = some v)
    (hle : v.height ≤ c.stack.length) {i : Instruction}
    (hi : w.instructionSet.get? (w.code.opcode c.pc) = some i)
    (hj : i.Jumps (c.stack.getD 1 0 != 0)) : v.target = some (c.stack.getD 0 0) :=
  Classical.not_not.1 fun hne => hstray ⟨v, i, hv, hle, hi, hj, hne⟩

/-- A jump that does not stray goes to the destination that is known of it. -/
theorem exists_target (hset : w.instructionSet.IsRegular)
    (hs : w.run .start = .ok s) {v : Visit} (hv : s.visit? c.pc = some v)
    (hle : v.height ≤ c.stack.length) (hstray : ¬w.Strays s c) {i : Instruction}
    (hi : w.instructionSet.get? (w.code.opcode c.pc) = some i)
    (hj : i.Jumps (c.stack.getD 1 0 != 0)) :
    ∃ d : Nat, c.stack.getD 0 0 = d ∧ w.code.isJumpDest d = true ∧
      d ∈ (s.report w.code.size).jumpDestinations ∧ s.KnownBelow d (i.heightAfter c.stack.length) :=
  known_of_target_eq hset hs hv hle hi hj.isJump (target_of_not_strays hstray hv hle hi hj)

/-- A step from the certificate stays on it, whichever branch it takes, if a jump
    goes where it is known to go. -/
theorem Tracks.of_stepTaking (hset : w.instructionSet.IsRegular)
    (hs : w.run .start = .ok s) (hc : w.Tracks s c) {taken : Bool}
    (htarget : ∀ v i, s.visit? c.pc = some v → v.height ≤ c.stack.length →
      w.instructionSet.get? (w.code.opcode c.pc) = some i → i.Jumps taken →
      v.target = some (c.stack.getD 0 0))
    (hstep : (w.machine stackLimit).stepTaking draw taken c = .ok c') : w.Tracks s c' := by
  obtain ⟨hinside, i, hi, henough, -, hexec⟩ := Machine.of_stepTaking_eq_ok hstep
  rcases hc with ⟨v, hv, hle⟩ | ⟨hend, -⟩
  · obtain ⟨i', hcert⟩ := certified_of_run hset hs hv
    cases hcert.get?.symm.trans hi
    obtain ⟨hlen, ⟨hj, hpc, -⟩ | ⟨hj, hterminal, hpc⟩⟩ :=
      Machine.of_execute_eq_ok (hset _ _ hi) henough hexec
    · -- the destination is the known one, where the certificate goes on
      obtain ⟨d, htop, -, -, hknown⟩ :=
        known_of_target_eq hset hs hv hle hi hj.isJump (htarget v i hv hle hi hj)
      rw [← hlen, ← htop, ← hpc] at hknown
      exact .inl hknown
    · rcases hcert.behind (fun hk => hj (.inl hk)) hterminal with ⟨hend, hstrict⟩ | hknown
      · exact .inr ⟨hpc.trans hend, fun _ => hstrict⟩
      · have := hknown.mono (heightAfter_mono hle)
        rw [← hlen, ← hpc] at this
        exact .inl this
  · exact absurd hinside (Int.not_lt.2 (Int.le_of_eq hend.symm))

theorem Tracks.of_step (hset : w.instructionSet.IsRegular)
    (hs : w.run .start = .ok s) (hc : w.Tracks s c) (hstray : ¬w.Strays s c)
    (hstep : (w.machine stackLimit).step draw c = .ok c') : w.Tracks s c' :=
  hc.of_stepTaking hset hs (fun _ _ hv hle => target_of_not_strays hstray hv hle) hstep

/-- A step on the certificate that does not stray ends the run without a fault,
    or stays on the certificate. -/
theorem Tracks.step_cases (hset : w.instructionSet.IsRegular)
    (hs : w.run .start = .ok s) (hc : w.Tracks s c) (hstray : ¬w.Strays s c) :
    (∃ h, (w.machine stackLimit).step draw c = .error h ∧ ¬h.IsFault) ∨
      ∃ c', (w.machine stackLimit).step draw c = .ok c' ∧ w.Tracks s c' := by
  cases hstep : (w.machine stackLimit).step draw c with
  | ok c' => exact .inr ⟨c', rfl, hc.of_step hset hs hstray hstep⟩
  | error h =>
    refine .inl ⟨h, rfl, ?_⟩
    rcases hc with ⟨v, hv, hle⟩ | ⟨hpc, -⟩
    · obtain ⟨i, hcert⟩ := certified_of_run hset hs hv
      have henough : i.consumes ≤ c.stack.length := Int.le_trans hcert.enough hle
      rw [Machine.step, Machine.stepTaking_eq hcert.inside.2 hcert.get? henough] at hstep
      split at hstep
      · -- the stack overflows, which is not a fault
        cases hstep
        decide
      · rcases Machine.of_execute_eq_error (hset _ _ hcert.get?) henough hstep with
          ⟨-, rfl⟩ | ⟨hj, hd, -⟩
        · decide
        · -- an invalid jump, but the destination on top is a known one
          obtain ⟨d, htop, hd', -⟩ := exists_target hset hs hv hle hstray hcert.get? hj
          have : w.code.isJumpDest (c.stack.getD 0 0) = false := hd
          rw [htop, hd'] at this
          cases this
    · rw [Machine.step, Machine.stepTaking_of_le (Int.le_of_eq hpc.symm)] at hstep
      cases hstep
      decide

theorem tracks_start (hset : w.instructionSet.IsRegular) (hs : w.run .start = .ok s) :
    w.Tracks s (.start source) := by
  rcases Nat.eq_zero_or_pos w.code.size with hzero | hpos
  · exact .inr ⟨by rw [hzero]; rfl, fun hpos => absurd hzero (Nat.ne_of_gt hpos)⟩
  · obtain ⟨hr, hnil⟩ := of_run_eq_ok hset.isForward .start hs
    obtain ⟨v, hv, hheight, -⟩ := hr.known_zero hnil hpos
    exact .inl ⟨v, hv, Int.le_of_eq hheight⟩

/-- A run stays on the certificate until it strays. -/
theorem tracks_or_strays (hset : w.instructionSet.IsRegular)
    (hs : w.run .start = .ok s) {k : Nat}
    (hc : (w.machine stackLimit).Passes draw source k c) :
    w.Tracks s c ∨
      ∃ j < k, ∃ b, (w.machine stackLimit).Passes draw source j b ∧ w.Strays s b :=
  hc.holds_or_leaves (tracks_start hset hs) fun _ _ hb hstray => hb.of_step hset hs hstray

/-- A run of accepted code that ends in a fault has strayed. -/
theorem exists_strays_of_isFault (hset : w.instructionSet.IsRegular)
    (hs : w.run .start = .ok s) {steps : Nat}
    (hfault : ((w.machine stackLimit).run draw steps (.start source)).IsFault) :
    ∃ k < steps, ∃ c, (w.machine stackLimit).Passes draw source k c ∧ w.Strays s c := by
  refine Machine.exists_leaves_of_run (tracks_start hset hs)
    (fun _ _ hb hstray => hb.of_step hset hs hstray) (fun b h hb hstray hstep => ?_)
    (by decide) hfault
  rcases hb.step_cases hset hs hstray with ⟨h', herror, hh⟩ | ⟨b', hok, -⟩
  · cases hstep.symm.trans herror
    exact hh
  · cases hstep.symm.trans hok

/-- A run of accepted code ends in a fault if and only if it strays and ends in
    a fault from there. -/
theorem isFault_run_iff_strays {rules : Rules} (hw : w.instructionSet = .ofRules rules)
    (hs : w.run .start = .ok s) (draw : σ → Int × σ) (source : σ)
    (stackLimit : Int) (steps : Nat) :
    ((w.machine stackLimit).run draw steps (.start source)).IsFault ↔
      ∃ k < steps, ∃ c, (w.machine stackLimit).Passes draw source k c ∧ w.Strays s c ∧
        ((w.machine stackLimit).run draw (steps - k) c).IsFault := by
  constructor
  · intro hfault
    obtain ⟨k, hk, c, hc, hstray⟩ :=
      exists_strays_of_isFault (hw ▸ InstructionSet.isRegular_ofRules rules) hs hfault
    refine ⟨k, hk, c, hc, hstray, ?_⟩
    rwa [← Machine.run_of_passes hc, Nat.add_sub_cancel' (Nat.le_of_lt hk)]
  · rintro ⟨k, hk, c, hc, -, hfault⟩
    rwa [← Nat.add_sub_cancel' (Nat.le_of_lt hk), Machine.run_of_passes hc]

/-- A block that returns to the offset on the stack, entered first with a jump
    destination and then with an offset that is none. -/
def sharedReturn : Walk :=
  ⟨.ofRules (.ofHardfork .cancun),
    .ofBytes #[0x60, 0x04, 0x5b, 0x56, 0x5b, 0x5f, 0x60, 0x02, 0x56], 1024, false⟩

/-- The code with the shared return is accepted, although it runs into an
    invalid jump, to which it strays. -/
theorem sharedReturn_strays : ∃ s, sharedReturn.run .start = .ok s ∧
    (sharedReturn.machine 1024).run (fun _ => (0, ())) 10 (.start ()) = .invalidJump ∧
    ∃ k < 10, ∃ c, (sharedReturn.machine 1024).Passes (fun _ => (0, ())) () k c ∧
      sharedReturn.Strays s c ∧
      ((sharedReturn.machine 1024).run (fun _ => (0, ())) (10 - k) c).IsFault := by
  obtain ⟨s, hs⟩ : ∃ s, sharedReturn.run .start = .ok s :=
    exists_run_eq_ok 10 (by decide +kernel)
  have hrun : (sharedReturn.machine 1024).run (fun _ => (0, ())) 10 (.start ()) = .invalidJump := by
    decide +kernel
  have hw : sharedReturn.instructionSet = .ofRules (.ofHardfork .cancun) := rfl
  refine ⟨s, hs, hrun, (isFault_run_iff_strays hw hs _ _ _ _).1 ?_⟩
  rw [hrun]
  decide

end Walk

end EvmFlow
