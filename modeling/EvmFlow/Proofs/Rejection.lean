import EvmFlow.Proofs.Realisation

/-!
# Every violation is met by a run

When the walk reports a violation, what is wrong is not only wrong on paper.
There is a sequence of choices for the conditional jumps with which a run
comes to the offset of the violation, whatever values its plain instructions
produce, and there it finds what the violation says (`Walk.Witnessed`).

The violation is found at a path that may have waited in the state since long
ago. But all that is needed of it is that it is a path that the walk follows,
and these are realised. A path that came to a known offset with too few items
needs a second run, the one of the path from which the offset was expanded.

* `Walk.step_error_inversion`: what a step can find wrong;
* `Walk.witnessed_of_report_eq_error`: every violation is witnessed.
-/

namespace EvmFlow.Walk

variable (w : Walk)

/-- The instruction that stands at an offset of the code. -/
def StandsAt (pc : Int) (i : Instruction) : Prop :=
  ∃ b, w.code.byte? pc = some b ∧ w.instructionSet.get? b = some i

/-- What a violation says of a run that has come to its offset with `items` on
    the stack and `count` values produced, in a block that began with height
    `base`.

    There are three ways to have too few items: the instruction consumes more;
    another run came here with more; or the run ends here, at a terminal
    instruction or past the code, with less than its block began with. -/
def Finds (base : Int) (items : List Item) (count : Nat) : Violation → Prop
  | .invalidInstruction pc opcode =>
    ∃ b, w.code.byte? pc = some b ∧ (b.toNat : Int) = opcode ∧ w.instructionSet.get? b = none
  | .codeTruncated pc codeLength => codeLength = w.code.size ∧
    ((pc = w.code.size ∧ 0 < w.code.size ∧ w.strictEnd = true) ∨
      ∃ i, w.StandsAt pc i ∧ i.kind = .push ∧ w.code.size < pc + i.width)
  | .unresolvedDynamicJump pc =>
    ∃ i, w.StandsAt pc i ∧ i.kind.isJump = true ∧ ∃ k < count, items.head? = some (.produced k)
  | .invalidJumpDestination pc d =>
    ∃ i, w.StandsAt pc i ∧ i.kind.isJump = true ∧ items.head? = some (.constant d) ∧
      w.code.isJumpDest d = false
  | .stackOverflow pc limit resulting => limit = w.stackLimit ∧ limit < resulting ∧
    ∃ i, w.StandsAt pc i ∧ i.consumes ≤ items.length ∧ i.heightAfter items.length = resulting
  | .stackUnderflow pc required available => available < required ∧
    ((∃ i, w.StandsAt pc i ∧ i.consumes = required ∧ items.length = available) ∨
      (∃ i, w.StandsAt pc i ∧ items.length = available ∧ ∃ choices base' items' count',
        w.Arrives choices pc base' items' count' ∧ items'.length = required) ∨
      (base = required ∧ ((pc = w.code.size ∧ items.length = available) ∨
        ∃ i, w.StandsAt pc i ∧ i.kind = .terminal ∧ i.consumes ≤ items.length ∧
          i.heightAfter items.length = available)))

/-- Some choices bring a run to the offset of the violation, whatever values
    are produced, and there it finds what the violation says. -/
def Witnessed (v : Violation) : Prop :=
  ∃ choices base items count, w.Arrives choices v.pc base items count ∧ w.Finds base items count v

/-! ## What a step can find wrong -/

variable {w} {s : State} {p : Path} {others : List Path} {i : Instruction}
  {v : Violation}

theorem bind_eq_error {α β : Type} {x : Except Violation α} {f : α → Except Violation β}
    (h : x >>= f = .error v) : x = .error v ∨ ∃ a, x = .ok a ∧ f a = .error v := by
  cases x with
  | error u =>
    cases h
    exact .inl rfl
  | ok a => exact .inr ⟨a, rfl, h⟩

theorem of_checkExit_eq_error {pc height base : Int} (h : checkExit pc height base = .error v) :
    height < base ∧ v = .stackUnderflow pc base height := by
  rw [checkExit] at h
  split at h
  · next hlt =>
    cases h
    exact ⟨hlt, rfl⟩
  · cases h

theorem of_immediate_eq_error {code : Code} {pc : Int} (h : i.immediate code pc = .error v) :
    code.size < pc + i.width ∧ v = .codeTruncated pc code.size := by
  rw [Instruction.immediate] at h
  split at h
  · next hlt =>
    cases h
    exact ⟨hlt, rfl⟩
  · cases h

theorem of_destination_eq_error (h : w.destination p = .error v) :
    (p.shadow.pop.1 = none ∧ v = .unresolvedDynamicJump p.pc) ∨
      ∃ d, p.shadow.pop.1 = some d ∧ w.code.isJumpDest d = false ∧
        v = .invalidJumpDestination p.pc d := by
  rw [destination] at h
  split at h
  · next hd =>
    cases h
    exact .inl ⟨hd, rfl⟩
  · next d hd =>
    split at h
    · cases h
    · next hdest =>
      cases h
      exact .inr ⟨d, hd, (Bool.not_eq_true _).mp hdest, rfl⟩

theorem of_checkEnd_eq_error (h : w.checkEnd p = .error v) :
    (w.strictEnd = true ∧ 0 < w.code.size ∧ v = .codeTruncated p.pc w.code.size) ∨
      checkExit p.pc p.height p.base = .error v := by
  rw [checkEnd] at h
  split at h
  · next hstrict =>
    cases h
    exact .inl ⟨hstrict.1, hstrict.2, rfl⟩
  · exact .inr h

/-- What can be wrong with an instruction. -/
theorem of_expand_eq_error (h : w.expand p i = .error v) :
    (p.height < i.consumes ∧ v = .stackUnderflow p.pc i.consumes p.height) ∨
      (i.consumes ≤ p.height ∧
        ((w.stackLimit < i.heightAfter p.height ∧
            v = .stackOverflow p.pc w.stackLimit (i.heightAfter p.height)) ∨
          (i.kind.isJump = true ∧ w.destination p = .error v) ∨
          i.immediate w.code p.pc = .error v ∨
          (i.terminal = true ∧
            checkExit p.pc (i.heightAfter p.height) p.base = .error v))) := by
  rw [expand] at h
  split at h
  · next hlt =>
    cases h
    exact .inl ⟨hlt, rfl⟩
  · next hle =>
    refine .inr ⟨Int.not_lt.1 hle, ?_⟩
    simp only at h
    split at h
    · next hlt =>
      cases h
      exact .inl ⟨hlt, rfl⟩
    · -- once the height is right, each kind has its own checks
      split at h
      · next hk =>
        rcases bind_eq_error h with hd | ⟨d, -, hd⟩
        · exact .inr (.inl ⟨by rw [hk]; rfl, hd⟩)
        · cases hd
      · next hk =>
        rcases bind_eq_error h with hd | ⟨d, -, hd⟩
        · exact .inr (.inl ⟨by rw [hk]; rfl, hd⟩)
        · cases hd
      · rcases bind_eq_error h with hv | ⟨value, -, h⟩
        · exact .inr (.inr (.inl hv))
        · split at h
          · next hterminal =>
            rcases bind_eq_error h with hexit | ⟨-, -, h⟩
            · exact .inr (.inr (.inr ⟨hterminal, hexit⟩))
            · cases h
          · cases h

/-- What a step can find wrong: the end of the path past the code, an opcode
    without instruction, too few items at a known offset, or something about
    the instruction. -/
theorem step_error_inversion (h : w.step s p others = .error v) :
    (w.code.size ≤ p.pc ∧ w.checkEnd p = .error v) ∨
      (p.pc < w.code.size ∧
        ((w.instructionSet.get? (w.code.opcode p.pc) = none ∧
            v = .invalidInstruction p.pc (w.code.opcode p.pc).toNat) ∨
          ∃ i, w.instructionSet.get? (w.code.opcode p.pc) = some i ∧
            ((∃ u, s.visit? p.pc = some u ∧ p.height < u.height ∧
                v = .stackUnderflow p.pc u.height p.height) ∨
              w.expand p i = .error v))) := by
  rw [step] at h
  split at h
  · next hpc =>
    refine .inr ⟨hpc, ?_⟩
    rcases bind_eq_error h with hdecode | ⟨i, hdecode, h⟩
    · rw [InstructionSet.decode] at hdecode
      split at hdecode
      · cases hdecode
      · next hnone =>
        cases hdecode
        exact .inl ⟨hnone, rfl⟩
    · refine .inr ⟨i, get?_of_decode hdecode, ?_⟩
      split at h
      · next u hu =>
        split at h
        · next hlt =>
          cases h
          exact .inl ⟨u, hu, hlt, rfl⟩
        · cases h
      · rcases bind_eq_error h with he | ⟨e, -, h⟩
        · exact .inr he
        · cases h
  · next hpc =>
    rcases bind_eq_error h with hend | ⟨-, -, h⟩
    · exact .inl ⟨Int.not_lt.1 hpc, hend⟩
    · cases h

/-! ## Violations are witnessed -/

namespace IsPath

/-- The instruction at the head of a path stands in the code. -/
theorem standsAt (hset : w.instructionSet.IsRegular) (h : w.IsPath p) (hpc : p.pc < w.code.size)
    (hi : w.instructionSet.get? (w.code.opcode p.pc) = some i) : w.StandsAt p.pc i :=
  ⟨_, Code.byte?_eq_some (h.isBoundary hset).nonneg hpc, hi⟩

theorem pc_eq_size (hset : w.instructionSet.IsRegular) (h : w.IsPath p)
    (hpc : w.code.size ≤ p.pc) : p.pc = w.code.size :=
  Int.le_antisymm (h.pc_le hset) hpc

end IsPath

namespace Realises

variable {choices : List Bool} {items : List Item} {count : Nat}

/-- What is wrong at the end of a path past the code. -/
theorem finds_of_checkEnd (h : w.Realises choices items count p) (hpc : p.pc = w.code.size)
    (herror : w.checkEnd p = .error v) : v.pc = p.pc ∧ w.Finds p.base items count v := by
  rcases of_checkEnd_eq_error herror with ⟨hstrict, hsize, rfl⟩ | hexit
  · exact ⟨rfl, rfl, .inl ⟨hpc, hsize, hstrict⟩⟩
  · obtain ⟨hlt, rfl⟩ := of_checkExit_eq_error hexit
    exact ⟨rfl, hlt, .inr (.inr ⟨rfl, .inl ⟨hpc, h.height.symm⟩⟩)⟩

/-- What is wrong with the destination of a jump. -/
theorem finds_of_destination (h : w.Realises choices items count p) (hi : w.StandsAt p.pc i)
    (hk : i.kind.isJump = true) (hpos : 0 < p.height) (herror : w.destination p = .error v) :
    v.pc = p.pc ∧ w.Finds p.base items count v := by
  rcases of_destination_eq_error herror with ⟨hd, rfl⟩ | ⟨d, hd, hdest, rfl⟩
  · exact ⟨rfl, i, hi, hk, h.head?_eq_produced hpos hd⟩
  · exact ⟨rfl, i, hi, hk, h.head?_eq_constant hd, hdest⟩

/-- What is wrong with the instruction at the head of a path. -/
theorem finds_of_expand (h : w.Realises choices items count p) (hi : w.StandsAt p.pc i)
    (hreg : i.IsRegular (w.code.opcode p.pc)) (hpc : p.pc < w.code.size)
    (herror : w.expand p i = .error v) : v.pc = p.pc ∧ w.Finds p.base items count v := by
  rcases of_expand_eq_error herror with
    ⟨hlt, rfl⟩ | ⟨hle, ⟨hlt, rfl⟩ | ⟨hk, hd⟩ | hvalue | ⟨ht, hexit⟩⟩
  · exact ⟨rfl, hlt, .inl ⟨i, hi, rfl, h.height.symm⟩⟩
  · exact ⟨rfl, rfl, hlt, i, hi, h.height ▸ hle, by rw [h.height]⟩
  · exact h.finds_of_destination hi hk (Int.lt_of_lt_of_le (hreg.consumes_pos hk) hle) hd
  · obtain ⟨hlt, rfl⟩ := of_immediate_eq_error hvalue
    -- an instruction of one byte ends inside the code
    have hpush : i.kind = .push := hreg.kind_eq_push (by omega)
    exact ⟨rfl, rfl, .inr ⟨i, hi, hpush, hlt⟩⟩
  · obtain ⟨hlt, rfl⟩ := of_checkExit_eq_error hexit
    exact ⟨rfl, hlt, .inr (.inr ⟨rfl, .inr ⟨i, hi, hreg.terminal_iff.1 ht, h.height ▸ hle,
      by rw [h.height]⟩⟩)⟩

end Realises

/-- What a step finds wrong is found by the run that follows the path. -/
theorem witnessed_of_step (hset : w.instructionSet.IsRegular) (hs : w.Reachable s)
    (hp : p ∈ s.paths) (herror : w.step s p others = .error v) : w.Witnessed v := by
  have hpath := hs.isPath p hp
  obtain ⟨choices, items, count, h⟩ := hpath.realised hset
  suffices hfinds : v.pc = p.pc ∧ w.Finds p.base items count v from
    ⟨choices, p.base, items, count, hfinds.1 ▸ h.arrives, hfinds.2⟩
  rcases step_error_inversion herror with ⟨hpc, hend⟩ |
    ⟨hpc, ⟨hnone, rfl⟩ | ⟨i, hi, ⟨u, hu, hlt, rfl⟩ | hexpand⟩⟩
  · exact h.finds_of_checkEnd (hpath.pc_eq_size hset hpc) hend
  · exact ⟨rfl, _, Code.byte?_eq_some (hpath.isBoundary hset).nonneg hpc, rfl, hnone⟩
  · -- the other run is that of the path from which the offset was expanded
    obtain ⟨q, j, e, hq, ho⟩ := hs.exists_origin hu
    obtain ⟨choices', items', count', h'⟩ := ho.isPath.realised hset
    have hrequired : (items'.length : Int) = u.height := by
      rw [ho.visit, ← h'.height]
    exact ⟨rfl, hlt, .inr (.inl ⟨i, hpath.standsAt hset hpc hi, h.height.symm, choices', q.base,
      items', count', hq ▸ h'.arrives, hrequired⟩)⟩
  · exact h.finds_of_expand (hpath.standsAt hset hpc hi) (hset _ _ hi) hpc hexpand

/-- Every violation that the walk reports is witnessed: some choices bring a
    run to its offset, whatever values are produced, and there it finds what
    the violation says. -/
theorem witnessed_of_report_eq_error {rules : Rules} (hw : w.instructionSet = .ofRules rules)
    (h : w.report = .error v) : w.Witnessed v := by
  have hset : w.instructionSet.IsRegular := hw ▸ InstructionSet.isRegular_ofRules rules
  obtain ⟨s, p, others, hs, hpaths, hstep⟩ :=
    of_run_eq_error hset.isForward .start (of_report_eq_error h)
  exact witnessed_of_step hset hs (hpaths ▸ List.mem_cons_self) hstep

/-- Code of two blocks. One stops at once; the other, to which the jump on a
    value goes, drops the item that it began with before it stops. -/
def spentItem : Walk :=
  ⟨.ofRules (.ofHardfork .cancun),
    .ofBytes #[0x34, 0x34, 0x60, 0x06, 0x57, 0x00, 0x5b, 0x50, 0x00], 1024, false⟩

theorem report_spentItem : spentItem.report = .error (.stackUnderflow 8 1 0) :=
  report_of_run_eq_error (run_eq_error 20 (by decide +kernel))

theorem witnessed_spentItem : spentItem.report = .error (.stackUnderflow 8 1 0) ∧
    spentItem.Witnessed (.stackUnderflow 8 1 0) := by
  have hw : spentItem.instructionSet = .ofRules (.ofHardfork .cancun) := rfl
  exact ⟨report_spentItem, witnessed_of_report_eq_error hw report_spentItem⟩

end EvmFlow.Walk
