import EvmFlow.Walk

/-!
# States of the walk

The states that the walk comes to (`Walk.Reachable`), and the paths that it
follows in them (`Walk.IsPath`): the path that starts the walk, and those that
go on from a path whose instruction was followed.

A path never gets lost. It is open, or it ended past the code, or its offset
is known with at most its height: it is *accounted for* (`Walk.Accounted`).
What was accounted for stays so, whatever step the walk takes. So when no path
is open any more, all paths that go on from the expanded offsets have ended.

* `Walk.step_inversion` says what a step can do, `Walk.step_of_follows`,
  `Walk.step_of_known` and `Walk.step_of_le` when it does so;
* `Walk.Reachable.exists_origin`: every known offset was expanded from a path,
  and all paths that go on from it are accounted for;
* `Walk.Reachable.mem_entryDepths`, `Walk.Reachable.mem_jumpDestinations`: what
  is reported of the offsets is what is known of them.
-/

namespace EvmFlow.Walk

variable (w : Walk)

/-- The states that the walk comes to. -/
inductive Reachable : State → Prop
  | start : Reachable .start
  | step {s t : State} {p : Path} {others : List Path} : Reachable s →
      s.paths = p :: others → w.step s p others = .ok t → Reachable t

/-- The instruction at the head of a path is `i`, and following it leads to
    `e`. -/
structure Follows (p : Path) (i : Instruction) (e : Expansion) : Prop where
  inside : p.pc < w.code.size
  get? : w.instructionSet.get? (w.code.opcode p.pc) = some i
  expand : w.expand p i = .ok e

/-- The paths that the walk follows. -/
inductive IsPath : Path → Prop
  | start : IsPath .start
  | next {p q : Path} {i : Instruction} {e : Expansion} : IsPath p → w.Follows p i e →
      q ∈ e.next → IsPath q

/-- A path is open, or has ended past the code, or has come to an offset that
    is known with at most its height. -/
def Accounted (s : State) (p : Path) : Prop :=
  p ∈ s.paths ∨ (w.code.size ≤ p.pc ∧ w.checkEnd p = .ok ()) ∨
    ∃ v, s.visit? p.pc = some v ∧ v.height ≤ p.height

/-- An offset known by `v` was expanded from the path `p`, and the paths that
    go on from it are accounted for. -/
structure Origin (s : State) (v : Visit) (p : Path) (i : Instruction)
    (e : Expansion) : Prop where
  isPath : w.IsPath p
  follows : w.Follows p i e
  visit : v = ⟨p.height - p.base, p.height, e.target⟩
  next : ∀ q ∈ e.next, w.Accounted s q

variable {w} {s t : State} {p q : Path} {others : List Path}

/-! ## Paths are accounted for -/

theorem get?_of_decode {pc : Int} {i : Instruction}
    (h : w.instructionSet.decode w.code pc = .ok i) :
    w.instructionSet.get? (w.code.opcode pc) = some i := by
  rw [InstructionSet.decode] at h
  split at h
  · next hi =>
    cases h
    exact hi
  · cases h

/-- What a step can do: the path ends past the code, or at a known offset, or
    its instruction is followed. -/
theorem step_inversion (h : w.step s p others = .ok t) :
    (w.code.size ≤ p.pc ∧ w.checkEnd p = .ok () ∧ t = s.close others) ∨
      (∃ v, s.visit? p.pc = some v ∧ v.height ≤ p.height ∧ t = s.close others) ∨
      (s.visit? p.pc = none ∧ ∃ i e, w.Follows p i e ∧ t = s.enter p i e others) := by
  rcases step_cases h with hend | ⟨hpc, i, hi, hknown | ⟨hv, e, he, ht⟩⟩
  · exact .inl hend
  · exact .inr (.inl hknown)
  · exact .inr (.inr ⟨hv, i, e, ⟨hpc, get?_of_decode hi, he⟩, ht⟩)

theorem decode_of_get? {pc : Int} {i : Instruction}
    (h : w.instructionSet.get? (w.code.opcode pc) = some i) :
    w.instructionSet.decode w.code pc = .ok i := by
  rw [InstructionSet.decode, h]

/-- An instruction that can be followed is followed, where nothing is known. -/
theorem step_of_follows {i : Instruction} {e : Expansion} (hv : s.visit? p.pc = none)
    (hf : w.Follows p i e) : w.step s p others = .ok (s.enter p i e others) := by
  rw [step, if_pos hf.inside, decode_of_get? hf.get?, hv]
  simp only [hf.expand, bind, Except.bind]
  rfl

/-- A path that brings as many items as are known ends at a known offset. -/
theorem step_of_known {i : Instruction} {v : Visit} (hpc : p.pc < w.code.size)
    (hi : w.instructionSet.get? (w.code.opcode p.pc) = some i) (hv : s.visit? p.pc = some v)
    (hle : v.height ≤ p.height) : w.step s p others = .ok (s.close others) := by
  rw [step, if_pos hpc, decode_of_get? hi, hv]
  simp only [bind, Except.bind, if_neg (Int.not_lt.2 hle)]
  rfl

/-- A path that may run off the end of the code ends there. -/
theorem step_of_le (hpc : w.code.size ≤ p.pc) (hend : w.checkEnd p = .ok ()) :
    w.step s p others = .ok (s.close others) := by
  rw [step, if_neg (Int.not_lt.2 hpc), hend]
  rfl

/-- What is known stays known. -/
theorem visit?_of_step (h : w.step s p others = .ok t) {pc : Int} {v : Visit}
    (hv : s.visit? pc = some v) : t.visit? pc = some v := by
  rcases step_inversion h with ⟨-, -, rfl⟩ | ⟨-, -, -, rfl⟩ | ⟨hnone, i, e, hf, rfl⟩
  · rw [State.visit?_close, hv]
  · rw [State.visit?_close, hv]
  · have hne : pc ≠ p.pc := fun he => by rw [he, hnone] at hv; cases hv
    rw [State.visit?_enter, if_neg hne, hv]

/-- The path being followed is accounted for after the step. -/
theorem accounted_head_of_step (h : w.step s p others = .ok t) : w.Accounted t p := by
  rcases step_inversion h with ⟨hpc, hend, rfl⟩ | ⟨v, hv, hle, rfl⟩ | ⟨-, i, e, hf, rfl⟩
  · exact .inr (.inl ⟨hpc, hend⟩)
  · exact .inr (.inr ⟨v, by rw [State.visit?_close, hv], hle⟩)
  · exact .inr (.inr ⟨_, by rw [State.visit?_enter, if_pos rfl], Int.le_refl _⟩)

theorem mem_paths_of_step (h : w.step s p others = .ok t) (hq : q ∈ others) : q ∈ t.paths := by
  rcases step_inversion h with ⟨-, -, rfl⟩ | ⟨-, -, -, rfl⟩ | ⟨-, i, e, -, rfl⟩
  · exact hq
  · exact hq
  · exact List.mem_append_right e.next hq

/-- What was accounted for stays so. -/
theorem Accounted.step (hs : s.paths = p :: others) (h : w.step s p others = .ok t)
    (hq : w.Accounted s q) : w.Accounted t q := by
  rcases hq with hmem | hend | ⟨v, hv, hle⟩
  · -- an open path stays open, unless it is the one being followed
    rw [hs] at hmem
    rcases List.mem_cons.1 hmem with rfl | hothers
    · exact accounted_head_of_step h
    · exact .inl (mem_paths_of_step h hothers)
  · exact .inr (.inl hend)
  · exact .inr (.inr ⟨v, visit?_of_step h hv, hle⟩)

namespace Reachable

/-- The open paths are paths that the walk follows. -/
theorem isPath (h : w.Reachable s) : ∀ p ∈ s.paths, w.IsPath p := by
  induction h with
  | start =>
    intro p hp
    cases List.mem_singleton.1 hp
    exact .start
  | step _ hs hstep ih =>
    intro q hq
    rw [hs] at ih
    -- what is open now was open before, or goes on from the path followed
    rcases step_inversion hstep with ⟨-, -, rfl⟩ | ⟨-, -, -, rfl⟩ | ⟨-, i, e, hf, rfl⟩
    · exact ih q (List.mem_cons_of_mem _ hq)
    · exact ih q (List.mem_cons_of_mem _ hq)
    · rcases List.mem_append.1 hq with hnext | hothers
      · exact (ih _ List.mem_cons_self).next hf hnext
      · exact ih q (List.mem_cons_of_mem _ hothers)

/-- Every known offset was expanded from a path, and all paths that go on from
    it are accounted for. -/
theorem exists_origin (h : w.Reachable s) {pc : Int} {v : Visit} (hv : s.visit? pc = some v) :
    ∃ p i e, p.pc = pc ∧ w.Origin s v p i e := by
  induction h generalizing v with
  | start =>
    rw [State.visit?_start] at hv
    cases hv
  | @step s t p others hr hs hstep ih =>
    -- an offset known before the step keeps its origin
    have hold : s.visit? pc = some v → ∃ p i e, p.pc = pc ∧ w.Origin t v p i e := by
      intro hv'
      obtain ⟨p, i, e, hpc, ho⟩ := ih hv'
      exact ⟨p, i, e, hpc, ho.isPath, ho.follows, ho.visit,
        fun q hq => (ho.next q hq).step hs hstep⟩
    rcases step_inversion hstep with ⟨-, -, rfl⟩ | ⟨-, -, -, rfl⟩ | ⟨-, i, e, hf, rfl⟩
    · exact hold (by rwa [State.visit?_close] at hv)
    · exact hold (by rwa [State.visit?_close] at hv)
    · rw [State.visit?_enter] at hv
      split at hv
      · next hpc =>
        cases hv
        exact ⟨p, i, e, hpc.symm, hr.isPath p (hs ▸ List.mem_cons_self), hf, rfl,
          fun q hq => .inl (List.mem_append_left others hq)⟩
      · exact hold hv

end Reachable

/-! ## What is reported -/

/-- Only jumps have a target, the destination. -/
theorem Follows.target_eq_some_iff {i : Instruction} {e : Expansion} (hf : w.Follows p i e)
    {d : Int} : e.target = some d ↔ i.kind.isJump = true ∧ w.destination p = .ok d := by
  rcases (expand_cases hf.expand).2.2 with ⟨hk, d', hd, rfl⟩ | ⟨hk, d', hd, rfl⟩ |
    ⟨hk, value, -, ⟨-, -, rfl⟩ | ⟨-, rfl⟩⟩
  · simp [hk, hd, Kind.isJump]
  · simp [hk, hd, Kind.isJump]
  · simp [hk]
  · simp [hk]

/-- A jump destination is an offset of the code. -/
theorem destination_nonneg {d : Int} (h : w.destination p = .ok d) : 0 ≤ d := by
  refine Int.not_lt.1 fun hd => ?_
  have hj := (of_destination_eq_ok h).2
  rw [Code.isJumpDest_of_neg hd] at hj
  cases hj

/-- The destination of a jump is added when its offset is expanded. -/
theorem Follows.mem_destinations_enter {i : Instruction} {e : Expansion} (hf : w.Follows p i e)
    {d : Nat} : d ∈ (s.enter p i e others).destinations ↔
      e.target = some (d : Int) ∨ d ∈ s.destinations := by
  rw [State.enter]
  cases htarget : e.target with
  | none => simp
  | some d' =>
    have hnonneg := destination_nonneg (hf.target_eq_some_iff.1 htarget).2
    simp only [Std.TreeSet.mem_insert, Std.compare_eq_iff_eq, Option.some.injEq]
    exact or_congr_left ⟨fun h => by omega, fun h => by omega⟩

namespace Reachable

theorem pc_lt (h : w.Reachable s) {pc : Int} {v : Visit} (hv : s.visit? pc = some v) :
    pc < w.code.size := by
  obtain ⟨p, i, e, rfl, ho⟩ := h.exists_origin hv
  exact ho.follows.inside

theorem target_nonneg (h : w.Reachable s) {pc d : Int} {v : Visit} (hv : s.visit? pc = some v)
    (hd : v.target = some d) : 0 ≤ d := by
  obtain ⟨p, i, e, -, ho⟩ := h.exists_origin hv
  rw [ho.visit] at hd
  exact destination_nonneg (ho.follows.target_eq_some_iff.1 hd).2

/-- The offsets reported are the known ones of the code, each with its
    depth. -/
theorem mem_entryDepths (h : w.Reachable s) {k : Nat} {depth : Int} :
    (k, depth) ∈ (s.report w.code.size).entryDepths ↔
      ∃ v, s.visit? k = some v ∧ v.depth = depth := by
  refine s.visited.mem_depths.trans ⟨fun hk => hk.2, fun hk => ⟨?_, hk⟩⟩
  obtain ⟨v, hv, -⟩ := hk
  exact Int.ofNat_lt.1 (h.pc_lt hv)

/-- An offset is reported if and only if it is known. -/
theorem exists_entry_iff (h : w.Reachable s) {pc : Int} (hpc : 0 ≤ pc) :
    (∃ entry ∈ (s.report w.code.size).entryDepths, (entry.1 : Int) = pc) ↔
      ∃ v, s.visit? pc = some v := by
  constructor
  · rintro ⟨⟨k, depth⟩, hmem, rfl⟩
    obtain ⟨v, hv, -⟩ := h.mem_entryDepths.1 hmem
    exact ⟨v, hv⟩
  · rintro ⟨v, hv⟩
    obtain ⟨k, rfl⟩ := Int.eq_ofNat_of_zero_le hpc
    exact ⟨(k, v.depth), h.mem_entryDepths.2 ⟨v, hv, rfl⟩, rfl⟩

theorem mem_destinations (h : w.Reachable s) {d : Nat} :
    d ∈ s.destinations ↔ ∃ pc v, s.visit? pc = some v ∧ v.target = some (d : Int) := by
  induction h with
  | start =>
    refine iff_of_false Std.TreeSet.not_mem_emptyc ?_
    rintro ⟨pc, v, hv, -⟩
    rw [State.visit?_start] at hv
    cases hv
  | @step s t p others _ _ hstep ih =>
    rcases step_inversion hstep with ⟨-, -, rfl⟩ | ⟨-, -, -, rfl⟩ | ⟨-, i, e, hf, rfl⟩
    · exact ih
    · exact ih
    · rw [hf.mem_destinations_enter, ih]
      constructor
      · rintro (htarget | ⟨pc, v, hv, htarget⟩)
        · exact ⟨p.pc, _, (State.visit?_enter ..).trans (if_pos rfl), htarget⟩
        · exact ⟨pc, v, visit?_of_step hstep hv, htarget⟩
      · rintro ⟨pc, v, hv, htarget⟩
        rw [State.visit?_enter] at hv
        split at hv
        · cases hv
          exact .inl htarget
        · exact .inr ⟨pc, v, hv, htarget⟩

/-- The destinations reported are those of known jumps. -/
theorem mem_jumpDestinations (h : w.Reachable s) {d : Nat} :
    d ∈ (s.report w.code.size).jumpDestinations ↔
      ∃ pc v, s.visit? pc = some v ∧ v.target = some (d : Int) :=
  Std.TreeSet.mem_toList.trans h.mem_destinations

end Reachable

end EvmFlow.Walk
