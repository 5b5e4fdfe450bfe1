import EvmFlow.Machine
import EvmFlow.Proofs.Effect

/-!
# Runs of the machine

The states that a run passes through (`Machine.Passes`), and what a step of a
machine with a regular instruction set does. An instruction that *jumps* goes
to the destination on top of the stack, all others go on behind themselves,
and either way the height of the stack changes as the instruction says.

* `Machine.run_of_passes`, `Machine.exists_passes_of_run`: a run goes on from
  each state it passes, and ends at one of them or after its last step;
* `Machine.exists_leaves_of_run`: what every step keeps unless it leaves holds
  along a run until it has left;
* `Machine.stepTaking_eq`: a step where there are enough items;
* `Machine.execute_of_jumps`, `Machine.execute_of_not_jumps`: the two ways in
  which an instruction is executed, in terms of its effect on the stack.
-/

namespace EvmFlow

/-- Control goes to the destination on top of the stack, a conditional jump
    being taken or not as `taken` says. -/
def Instruction.Jumps (i : Instruction) (taken : Bool) : Prop :=
  i.kind = .jump ∨ (i.kind = .jumpi ∧ taken = true)

instance (i : Instruction) (taken : Bool) : Decidable (i.Jumps taken) :=
  inferInstanceAs (Decidable (_ ∨ _))

theorem Instruction.Jumps.isJump {i : Instruction} {taken : Bool} (h : i.Jumps taken) :
    i.kind.isJump = true := by
  rcases h with hk | ⟨hk, -⟩
  · rw [hk]
    rfl
  · rw [hk]
    rfl

namespace Machine

variable {σ : Type} (draw : σ → Int × σ) (m : Machine)

/-- The states that a run passes through, with the number of steps taken. -/
inductive Passes (source : σ) : Nat → State σ → Prop
  | start : Passes source 0 (.start source)
  | step {k : Nat} {s t : State σ} : Passes source k s → m.step draw s = .ok t →
      Passes source (k + 1) t

variable {draw m} {source : σ} {s t : State σ} {k n : Nat} {h : Halt}

/-! ## Runs -/

theorem run_of_step_ok (hs : m.step draw s = .ok t) : m.run draw (n + 1) s = m.run draw n t := by
  rw [run, hs]

theorem run_of_step_error (hs : m.step draw s = .error h) : m.run draw (n + 1) s = h := by
  rw [run, hs]

/-- A run goes on from each state it passes. -/
theorem run_of_passes (hs : m.Passes draw source k s) :
    m.run draw (k + n) (.start source) = m.run draw n s := by
  induction hs generalizing n with
  | start => rw [Nat.zero_add]
  | step _ hstep ih => rw [Nat.add_right_comm, Nat.add_assoc, ih, run_of_step_ok hstep]

/-- A run from a state it passes ends after its last step, or at a state it
    passes. -/
theorem exists_passes_of_run_from (hs : m.Passes draw source k s) (hrun : m.run draw n s = h) :
    h = .stepLimit ∨ ∃ j < k + n, ∃ t, m.Passes draw source j t ∧ m.step draw t = .error h := by
  -- each step taken leaves one step less and passes one state more
  induction n generalizing k s with
  | zero => exact .inl hrun.symm
  | succ n ih =>
    cases hstep : m.step draw s with
    | error h' =>
      rw [run_of_step_error hstep] at hrun
      exact .inr ⟨k, by omega, s, hs, hrun ▸ hstep⟩
    | ok t =>
      rw [run_of_step_ok hstep] at hrun
      rcases ih (hs.step hstep) hrun with hlimit | ⟨j, hj, hhalt⟩
      · exact .inl hlimit
      · exact .inr ⟨j, by omega, hhalt⟩

/-- A run ends after its last step, or at a state it passes. -/
theorem exists_passes_of_run (hrun : m.run draw n (.start source) = h) :
    h = .stepLimit ∨ ∃ k < n, ∃ t, m.Passes draw source k t ∧ m.step draw t = .error h := by
  have := exists_passes_of_run_from .start hrun
  rwa [Nat.zero_add] at this

section Leaves

variable {P Q : State σ → Prop} (hstart : P (.start source))
  (hnext : ∀ s t, P s → ¬Q s → m.step draw s = .ok t → P t)

include hstart hnext

/-- What every step keeps unless it leaves by `Q` holds of all states that a run
    passes until it has left. -/
theorem Passes.holds_or_leaves (hs : m.Passes draw source k s) :
    P s ∨ ∃ j < k, ∃ t, m.Passes draw source j t ∧ Q t := by
  induction hs with
  | start => exact .inl hstart
  | @step k s t hs hstep ih =>
    rcases ih with hP | ⟨j, hj, hleave⟩
    · by_cases hQ : Q s
      · exact .inr ⟨k, Nat.lt_succ_self k, s, hs, hQ⟩
      · exact .inl (hnext s t hP hQ hstep)
    · exact .inr ⟨j, Nat.lt_succ_of_lt hj, hleave⟩

/-- A run that ends as no state with `P` does has left. -/
theorem exists_leaves_of_run {H : Halt → Prop}
    (hhalt : ∀ s h, P s → ¬Q s → m.step draw s = .error h → ¬H h) (hlimit : ¬H .stepLimit)
    (hrun : H (m.run draw n (.start source))) :
    ∃ k < n, ∃ s, m.Passes draw source k s ∧ Q s := by
  rcases exists_passes_of_run rfl with hend | ⟨k, hk, s, hs, hstep⟩
  · rw [hend] at hrun
    exact absurd hrun hlimit
  · -- the run ends at `s`, so it leaves there, unless it has left before
    rcases hs.holds_or_leaves hstart hnext with hP | ⟨j, hj, hleave⟩
    · exact ⟨k, hk, s, hs, Classical.not_not.1 fun hQ => hhalt s _ hP hQ hstep hrun⟩
    · exact ⟨j, Nat.lt_trans hj hk, hleave⟩

end Leaves

/-! ## Steps -/

variable {taken : Bool} {i : Instruction} {opcode : UInt8}

/-- A step where there are enough items. -/
theorem stepTaking_eq (hpc : s.pc < m.code.size)
    (hi : m.instructionSet.get? (m.code.opcode s.pc) = some i)
    (henough : i.consumes ≤ s.stack.length) : m.stepTaking draw taken s =
      if m.stackLimit < i.heightAfter s.stack.length then .error .stackOverflow
      else m.execute draw taken s i := by
  rw [stepTaking, if_pos hpc, hi]
  exact if_neg (Int.not_lt.2 henough)

/-- A step where there are enough items and there is room. -/
theorem step_eq_execute (hpc : s.pc < m.code.size)
    (hi : m.instructionSet.get? (m.code.opcode s.pc) = some i)
    (henough : i.consumes ≤ s.stack.length) (hroom : i.heightAfter s.stack.length ≤ m.stackLimit) :
    m.step draw s = m.execute draw (s.stack.getD 1 0 != 0) s i := by
  rw [step, stepTaking_eq hpc hi henough, if_neg (Int.not_lt.2 hroom)]

theorem stepTaking_of_le (hpc : m.code.size ≤ s.pc) :
    m.stepTaking draw taken s = .error .stop :=
  if_neg (Int.not_lt.2 hpc)

/-- What a step that is taken was checked for. -/
theorem of_stepTaking_eq_ok (hs : m.stepTaking draw taken s = .ok t) :
    s.pc < m.code.size ∧ ∃ i, m.instructionSet.get? (m.code.opcode s.pc) = some i ∧
      i.consumes ≤ s.stack.length ∧ i.heightAfter s.stack.length ≤ m.stackLimit ∧
      m.execute draw taken s i = .ok t := by
  rw [stepTaking] at hs
  split at hs
  · next hpc =>
    refine ⟨hpc, ?_⟩
    split at hs
    · cases hs
    · next i hi =>
      split at hs
      · cases hs
      · next henough =>
        split at hs
        · cases hs
        · next hroom => exact ⟨i, hi, Int.not_lt.1 henough, Int.not_lt.1 hroom, hs⟩
  · cases hs

/-- The fresh items stand on top of the stack. -/
theorem produce_eq (k : Nat) (stack : List Int) (source : σ) : produce draw k stack source =
    ((produce draw k [] source).1 ++ stack, (produce draw k [] source).2) := by
  induction k generalizing stack source with
  | zero => rfl
  | succ k ih =>
    rw [produce, produce, ih, ih [(draw source).1], List.append_assoc]
    rfl

theorem length_produce (k : Nat) (source : σ) : (produce draw k [] source).1.length = k := by
  induction k generalizing source with
  | zero => rfl
  | succ k ih => rw [produce, produce_eq, List.length_append, ih, List.length_singleton]

theorem execute_of_terminal (hk : i.kind = .terminal) :
    m.execute draw taken s i = .error .stop := by
  rw [execute, hk]

/-- An instruction that jumps goes to the destination on top of the stack. -/
theorem execute_of_jumps (hj : i.Jumps taken) (literal : Int) (fresh : List Int) :
    m.execute draw taken s i =
      m.jumpTo (s.stack.getD 0 0) (i.effect literal fresh s.stack) s.source := by
  rcases hj with hk | ⟨hk, rfl⟩
  · rw [execute, Instruction.effect, hk]
  · rw [execute, Instruction.effect, hk]
    rfl

/-- An instruction that neither jumps nor ends the run goes on behind itself. -/
theorem execute_of_not_jumps (hi : i.IsRegular opcode) (henough : i.consumes ≤ s.stack.length)
    (hj : ¬i.Jumps taken) (hterminal : i.kind ≠ .terminal) :
    m.execute draw taken s i = .ok ⟨s.pc + i.width,
      i.effect (m.code.word (s.pc + 1) i.immediateLength.toNat : Int)
        (produce draw i.freshCount [] s.source).1 s.stack,
      (produce draw i.freshCount [] s.source).2⟩ := by
  have heffect := hi.effect
  rw [execute, Instruction.effect, Instruction.freshCount]
  cases hk : i.kind with rw [hk, Kind.HasEffect] at heffect
  | plain =>
    rw [if_pos rfl, produce_eq]
  | push => rfl
  | dup =>
    have hlt : (i.consumes - 1).toNat < s.stack.length := by omega
    simp only [List.getD_eq_getElem?_getD, List.getElem?_eq_getElem hlt, Option.getD_some,
      Option.toList_some, List.singleton_append]
    rfl
  | swap =>
    have hlt : (i.consumes - 1).toNat < s.stack.length := by omega
    simp only [exchange_eq_set hlt 0]
    rfl
  | pop => rfl
  | jump => exact absurd (.inl hk) hj
  | jumpi =>
    -- if it were taken, it would jump
    rw [if_neg fun htaken => hj (.inr ⟨hk, htaken⟩)]
    rfl
  | jumpdest => rfl
  | terminal => exact absurd hk hterminal

/-- What an instruction that was executed did: it went to the jump destination
    on top of the stack or on behind itself, and changed the height as it
    says. -/
theorem of_execute_eq_ok (hi : i.IsRegular opcode) (henough : i.consumes ≤ s.stack.length)
    (hs : m.execute draw taken s i = .ok t) :
    (t.stack.length : Int) = i.heightAfter s.stack.length ∧
      ((i.Jumps taken ∧ t.pc = s.stack.getD 0 0 ∧ m.code.isJumpDest t.pc = true) ∨
        (¬i.Jumps taken ∧ i.kind ≠ .terminal ∧ t.pc = s.pc + i.width)) := by
  by_cases hterminal : i.kind = .terminal
  · rw [execute_of_terminal hterminal] at hs
    cases hs
  by_cases hj : i.Jumps taken
  · rw [execute_of_jumps hj 0 (produce draw i.freshCount [] s.source).1, jumpTo] at hs
    split at hs
    · next hd =>
      cases hs
      exact ⟨i.length_effect hi henough (length_produce _ _) hterminal, .inl ⟨hj, rfl, hd⟩⟩
    · cases hs
  · rw [execute_of_not_jumps hi henough hj hterminal] at hs
    cases hs
    exact ⟨i.length_effect hi henough (length_produce _ _) hterminal, .inr ⟨hj, hterminal, rfl⟩⟩

/-- An instruction that cannot be executed ends the run, or jumps to an offset
    that is no jump destination. -/
theorem of_execute_eq_error (hi : i.IsRegular opcode) (henough : i.consumes ≤ s.stack.length)
    (hs : m.execute draw taken s i = .error h) :
    (i.kind = .terminal ∧ h = .stop) ∨
      (i.Jumps taken ∧ m.code.isJumpDest (s.stack.getD 0 0) = false ∧ h = .invalidJump) := by
  by_cases hterminal : i.kind = .terminal
  · rw [execute_of_terminal hterminal] at hs
    cases hs
    exact .inl ⟨hterminal, rfl⟩
  by_cases hj : i.Jumps taken
  · rw [execute_of_jumps hj 0 [], jumpTo] at hs
    split at hs
    · cases hs
    · next hd =>
      cases hs
      exact .inr ⟨hj, Bool.eq_false_iff.2 hd, rfl⟩
  · rw [execute_of_not_jumps hi henough hj hterminal] at hs
    cases hs

end Machine

end EvmFlow
