import EvmFlow.Proofs.Paths

/-!
# The certificate of an accepted walk

When the walk finds no violation, what it knows of the offsets is a
*certificate* of the code. Every known offset holds an instruction with enough
items below it and enough room above it, and control goes on from it only to
offsets that are known with at most the height it leaves behind
(`Walk.Certified`). The certificate can be checked offset by offset, without
walking again, and holds of all codes that are accepted
(`Walk.certified_of_accepted`).
-/

namespace EvmFlow.Walk

variable (w : Walk)

/-- The offset `pc` is known with at most the height `height`. -/
def State.KnownBelow (s : State) (pc height : Int) : Prop :=
  ∃ v, s.visit? pc = some v ∧ v.height ≤ height

/-- What the certificate says of the offset `pc`, known by `v`, at which the
    instruction `i` stands. -/
structure Certified (s : State) (pc : Int) (v : Visit) (i : Instruction) : Prop where
  /-- The offset is inside the code. -/
  inside : 0 ≤ pc ∧ pc < w.code.size
  /-- Its opcode has an instruction. -/
  get? : w.instructionSet.get? (w.code.opcode pc) = some i
  /-- There are enough items for it. -/
  enough : i.consumes ≤ v.height
  /-- There is room for what it leaves behind. -/
  room : i.heightAfter v.height ≤ w.stackLimit
  /-- The literal of a push is inside the code. -/
  literal : i.kind = .push → pc + i.width ≤ w.code.size
  /-- A jump has a destination, which is reported and known. -/
  jump : i.kind.isJump = true → ∃ d : Nat, v.target = some (d : Int) ∧
    w.code.isJumpDest d = true ∧ d ∈ (s.report w.code.size).jumpDestinations ∧
    s.KnownBelow d (i.heightAfter v.height)
  /-- Where control goes on behind the instruction, the offset is known, or the
      code ends there and may do so. -/
  behind : i.kind ≠ .jump → i.kind ≠ .terminal →
    (pc + i.width = w.code.size ∧ w.strictEnd = false) ∨
      s.KnownBelow (pc + i.width) (i.heightAfter v.height)
  /-- At a terminal instruction, the block has kept what it began with. -/
  exit : i.kind = .terminal → 0 ≤ i.heightAfter v.depth
  /-- Where a block runs off the end of the code, it has done so too. -/
  fallOff : i.kind.isJump = false → i.kind ≠ .terminal → pc + i.width = w.code.size →
    0 ≤ i.heightAfter v.depth

variable {w} {s : State}

/-! ## The start of the code -/

/-- Offset zero is expanded first, with an empty stack. -/
theorem Reachable.start_or_known (h : w.Reachable s) (hsize : 0 < w.code.size) :
    s = .start ∨ ∃ target, s.visit? 0 = some ⟨0, 0, target⟩ := by
  induction h with
  | start => exact .inl rfl
  | @step s t p others hr hs hstep ih =>
    rcases ih with rfl | ⟨target, hv⟩
    · -- the first step: its path is the one that starts the walk
      cases hs
      right
      rcases step_inversion hstep with ⟨hpc, -, -⟩ | ⟨v, hv, -, -⟩ | ⟨-, i, e, hf, rfl⟩
      · exact absurd hpc (Int.not_le.2 (Int.natCast_pos.2 hsize))
      · rw [State.visit?_start] at hv
        cases hv
      · exact ⟨e.target, (State.visit?_enter ..).trans (if_pos rfl)⟩
    · exact .inr ⟨target, visit?_of_step hstep hv⟩

/-! ## Known offsets -/

theorem of_checkEnd_eq_ok {p : Path} (h : w.checkEnd p = .ok ()) :
    (0 < w.code.size → w.strictEnd = false) ∧ p.base ≤ p.height := by
  rw [checkEnd] at h
  split at h
  · cases h
  · next hstrict =>
    refine ⟨fun hsize => ?_, of_checkExit_eq_ok h⟩
    exact Bool.eq_false_iff.2 fun ht => hstrict ⟨ht, hsize⟩

/-- When no path is open, a path that has come to an offset of the code has
    come to a known one. -/
theorem Accounted.known {p : Path} (hs : s.paths = []) (h : w.Accounted s p)
    (hpc : p.pc < w.code.size) : s.KnownBelow p.pc p.height := by
  rcases h with hmem | ⟨hle, -⟩ | hknown
  · rw [hs] at hmem
    cases hmem
  · exact absurd hpc (Int.not_lt.2 hle)
  · exact hknown

/-- When no path is open, a path that has run off the end of the code was
    allowed to. -/
theorem Accounted.fellOff {p : Path} (hr : w.Reachable s) (hs : s.paths = [])
    (h : w.Accounted s p) (hpc : w.code.size ≤ p.pc) :
    (0 < w.code.size → w.strictEnd = false) ∧ p.base ≤ p.height := by
  rcases h with hmem | ⟨-, hend⟩ | ⟨v, hv, -⟩
  · rw [hs] at hmem
    cases hmem
  · exact of_checkEnd_eq_ok hend
  · exact absurd (hr.pc_lt hv) (Int.not_lt.2 hpc)

/-! ## The certificate -/

variable {pc : Int} {v : Visit} {p : Path} {i : Instruction} {e : Expansion}

namespace Origin

theorem height (h : w.Origin s v p i e) : v.height = p.height := by rw [h.visit]

/-- The depth after an instruction, from the path it was expanded from. -/
theorem heightAfter_depth (h : w.Origin s v p i e) :
    i.heightAfter v.depth = i.heightAfter p.height - p.base := by
  have hdepth : v.depth = p.height - p.base := by rw [h.visit]
  rw [hdepth, Instruction.heightAfter, Instruction.heightAfter]
  omega

/-- A known jump has a destination, which is reported and known. -/
theorem jump (hset : w.instructionSet.IsRegular) (hr : w.Reachable s) (hs : s.paths = [])
    (hv : s.visit? p.pc = some v) (h : w.Origin s v p i e) (hk : i.kind.isJump = true) :
    ∃ d : Nat, v.target = some (d : Int) ∧ w.code.isJumpDest d = true ∧
      d ∈ (s.report w.code.size).jumpDestinations ∧ s.KnownBelow d (i.heightAfter v.height) := by
  obtain ⟨d, -, hd, htarget, q, hq, rfl, hheight⟩ := (h.follows.leads hset).exists_dest hk
  obtain ⟨hnonneg, hlt, -⟩ := Code.of_isJumpDest hd
  obtain ⟨k, hk⟩ := Int.eq_ofNat_of_zero_le hnonneg
  have htarget' : v.target = some (k : Int) := by rw [h.visit, htarget, hk]
  refine ⟨k, htarget', hk ▸ hd, hr.mem_jumpDestinations.2 ⟨p.pc, v, hv, htarget'⟩, ?_⟩
  -- the path at the destination is accounted for, and no path is open
  rw [h.height, ← hheight, ← hk]
  exact (h.next q hq).known hs hlt

/-- Where control goes on behind an instruction, a path does so. Its block is
    the same, except behind a jump. -/
theorem exists_behind (hset : w.instructionSet.IsRegular) (h : w.Origin s v p i e)
    (hjump : i.kind ≠ .jump) (hterminal : i.kind ≠ .terminal) :
    ∃ q, w.IsPath q ∧ w.Accounted s q ∧ q.pc = p.pc + i.width ∧
      q.height = i.heightAfter p.height ∧ (i.kind.isJump = false → q.base = p.base) := by
  have hnext : ∃ q ∈ e.next, q.pc = p.pc + i.width ∧ q.height = i.heightAfter p.height ∧
      (i.kind.isJump = false → q.base = p.base) := by
    cases h.follows.leads hset with
    | jump hk => exact absurd hk hjump
    | jumpi hk => exact ⟨_, List.mem_cons_self, rfl, rfl, fun hk' => by rw [hk] at hk'; cases hk'⟩
    | terminal hk => exact absurd hk hterminal
    | straight => exact ⟨_, List.mem_singleton_self _, rfl, rfl, fun _ => rfl⟩
  obtain ⟨q, hq, hbehind⟩ := hnext
  exact ⟨q, h.isPath.next h.follows hq, h.next q hq, hbehind⟩

/-- Behind a known instruction the code ends, or the offset is known. -/
theorem behind (hset : w.instructionSet.IsRegular) (hr : w.Reachable s) (hs : s.paths = [])
    (h : w.Origin s v p i e) (hjump : i.kind ≠ .jump) (hterminal : i.kind ≠ .terminal) :
    (p.pc + i.width = w.code.size ∧ w.strictEnd = false) ∨
      s.KnownBelow (p.pc + i.width) (i.heightAfter v.height) := by
  obtain ⟨q, hpath, hq, hpc, hheight, -⟩ := h.exists_behind hset hjump hterminal
  rw [h.height, ← hpc, ← hheight]
  -- paths do not pass the end of the code, so the path is inside or right at it
  rcases Int.lt_or_eq_of_le (hpath.pc_le hset) with hlt | heq
  · exact .inr (hq.known hs hlt)
  · have hsize : (0 : Int) < w.code.size :=
      Int.lt_of_le_of_lt (h.isPath.isBoundary hset).nonneg h.follows.inside
    exact .inl ⟨heq, (hq.fellOff hr hs (Int.le_of_eq heq.symm)).1 (Int.natCast_pos.1 hsize)⟩

/-- Where a block runs off the end of the code, it has kept what it began
    with. -/
theorem fallOff (hset : w.instructionSet.IsRegular) (hr : w.Reachable s) (hs : s.paths = [])
    (h : w.Origin s v p i e) (hjump : i.kind.isJump = false) (hterminal : i.kind ≠ .terminal)
    (hend : p.pc + i.width = w.code.size) : 0 ≤ i.heightAfter v.depth := by
  have hkind : i.kind ≠ .jump := fun hk => by rw [hk] at hjump; cases hjump
  obtain ⟨q, -, hq, hpc, hheight, hbase⟩ := h.exists_behind hset hkind hterminal
  have hle := (hq.fellOff hr hs (Int.le_of_eq (hpc.trans hend).symm)).2
  rw [hheight, hbase hjump] at hle
  rw [h.heightAfter_depth]
  exact Int.sub_nonneg_of_le hle

/-- At the end of the walk, what is known of an offset is certified. -/
theorem certified (hset : w.instructionSet.IsRegular) (hr : w.Reachable s) (hs : s.paths = [])
    (hv : s.visit? p.pc = some v) (h : w.Origin s v p i e) : w.Certified s p.pc v i where
  inside := ⟨(h.isPath.isBoundary hset).nonneg, h.follows.inside⟩
  get? := h.follows.get?
  enough := h.height ▸ h.follows.consumes_le
  room := h.height ▸ h.follows.heightAfter_le
  literal hk := by
    cases h.follows.leads hset with
    | jump hk' => cases hk.symm.trans hk'
    | jumpi hk' => cases hk.symm.trans hk'
    | terminal hk' => cases hk.symm.trans hk'
    | straight _ _ hle => exact hle
  jump := h.jump hset hr hs hv
  behind := h.behind hset hr hs
  exit hk := by
    rw [h.heightAfter_depth]
    cases h.follows.leads hset with
    | jump hk' => cases hk.symm.trans hk'
    | jumpi hk' => cases hk.symm.trans hk'
    | terminal _ hexit => exact Int.sub_nonneg_of_le hexit
    | straight _ hterminal => exact absurd hk hterminal
  fallOff := h.fallOff hset hr hs

end Origin

/-- At the end of a walk under a regular instruction set, all that is known is
    certified. -/
theorem certified_of_run (hset : w.instructionSet.IsRegular)
    (h : w.run .start = .ok s) (hv : s.visit? pc = some v) :
    ∃ i, w.Certified s pc v i := by
  obtain ⟨hr, hs⟩ := of_run_eq_ok hset.isForward .start h
  obtain ⟨p, i, e, rfl, ho⟩ := hr.exists_origin hv
  exact ⟨i, ho.certified hset hr hs hv⟩

/-- At the end of a walk over code that is not empty, offset zero is known with
    an empty stack. -/
theorem Reachable.known_zero (h : w.Reachable s) (hs : s.paths = []) (hsize : 0 < w.code.size) :
    ∃ v, s.visit? 0 = some v ∧ v.height = 0 ∧ v.depth = 0 := by
  rcases h.start_or_known hsize with rfl | ⟨target, hv⟩
  · cases hs
  · exact ⟨_, hv, rfl, rfl⟩

/-- An accepted code leaves a certificate: offset zero is known with an empty
    stack, and all that is known is certified. -/
theorem certified_of_accepted {rules : Rules} (hw : w.instructionSet = .ofRules rules)
    (h : w.run .start = .ok s) :
    (0 < w.code.size → ∃ v, s.visit? 0 = some v ∧ v.height = 0 ∧ v.depth = 0) ∧
      ∀ pc v, s.visit? pc = some v → ∃ i, w.Certified s pc v i := by
  have hset : w.instructionSet.IsRegular := hw ▸ InstructionSet.isRegular_ofRules rules
  obtain ⟨hr, hs⟩ := of_run_eq_ok hset.isForward .start h
  exact ⟨hr.known_zero hs, fun _ _ => certified_of_run hset h⟩

/-- A loop that goes on while the value of the call is not zero. -/
def valueLoop : Walk :=
  ⟨.ofRules (.ofHardfork .cancun), .ofBytes #[0x5b, 0x34, 0x60, 0x00, 0x57, 0x00], 1024, true⟩

theorem exists_run_valueLoop : ∃ s, valueLoop.run .start = .ok s :=
  exists_run_eq_ok 10 (by decide +kernel)

/-- The loop is accepted, and leaves a certificate. -/
theorem certified_valueLoop : ∃ s, valueLoop.run .start = .ok s ∧
    (∃ v, s.visit? 0 = some v ∧ v.height = 0 ∧ v.depth = 0) ∧
      ∀ pc v, s.visit? pc = some v → ∃ i, valueLoop.Certified s pc v i := by
  obtain ⟨s, hs⟩ := exists_run_valueLoop
  obtain ⟨hzero, hall⟩ := certified_of_accepted (w := valueLoop) rfl hs
  exact ⟨s, hs, hzero (by decide), hall⟩

end EvmFlow.Walk
