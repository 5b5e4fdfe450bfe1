import EvmFlow.Proofs.Certificate

/-!
# The walk is linear

An offset is expanded when a path comes to it and nothing is known of it yet.
The walk expands no offset twice, so the number of its steps is linear in the
size of the code, and its report can be read off the paths that it has
expanded. To this end a state is taken together with the paths whose offsets
were expanded on the way to it (`Walk.Trace`). What the state keeps of them,
the counters, the table and the destinations, is accounted for by induction on
the way.

* `Walk.Trace.nodup`: no offset is expanded twice;
* `Walk.Trace.visit?_iff`, `Walk.Trace.count_eq`: what is known is what was
  expanded, and counted as often;
* `Walk.Trace.explored_eq`: each conditional jump adds one path;
* `Walk.walk_linear`: the end of the walk, and what its report says.
-/

namespace EvmFlow.Walk

variable (w : Walk)

/-- The walk comes to a state, having expanded the given paths, the last one
    first. -/
inductive Trace : List Path → State → Prop
  | start : Trace [] .start
  | close {expanded others : List Path} {s : State} {p : Path} : Trace expanded s →
      s.paths = p :: others → w.step s p others = .ok (s.close others) →
      Trace expanded (s.close others)
  | enter {expanded others : List Path} {s : State} {p : Path} {i : Instruction} {e : Expansion} :
      Trace expanded s → s.paths = p :: others → s.visit? p.pc = none → w.Follows p i e →
      Trace (p :: expanded) (s.enter p i e others)

/-- The paths whose offset is expanded next, even if a violation is found there:
    the one being followed, if it has come to an offset of the code of which
    nothing is known. -/
def opened (s : State) : List Path :=
  match s.paths with
  | [] => []
  | p :: _ => if p.pc < w.code.size ∧ s.visit? p.pc = none then [p] else []

variable {w} {s : State} {p q : Path} {others expanded : List Path} {i : Instruction}
  {e : Expansion}

/-- The walk leaves a trace. -/
theorem Reachable.exists_trace (h : w.Reachable s) : ∃ expanded, w.Trace expanded s := by
  induction h with
  | start => exact ⟨[], .start⟩
  | @step s t p others _ hs hstep ih =>
    obtain ⟨expanded, htrace⟩ := ih
    rcases step_inversion hstep with ⟨-, -, rfl⟩ | ⟨-, -, -, rfl⟩ | ⟨hnone, i, e, hf, rfl⟩
    · exact ⟨expanded, htrace.close hs hstep⟩
    · exact ⟨expanded, htrace.close hs hstep⟩
    · exact ⟨p :: expanded, htrace.enter hs hnone hf⟩

theorem mem_opened (h : p ∈ w.opened s) : w.opened s = [p] ∧ s.visit? p.pc = none := by
  rw [opened] at h ⊢
  split at h
  · cases h
  · split at h
    · next ho =>
      cases List.mem_singleton.1 h
      exact ⟨if_pos ho, ho.2⟩
    · cases h

/-- All paths that go on have the height after the instruction. -/
theorem Follows.height_next (hf : w.Follows p i e) :
    ∀ q ∈ e.next, q.height = i.heightAfter p.height := by
  rcases (expand_cases hf.expand).2.2 with ⟨-, d, -, rfl⟩ | ⟨-, d, -, rfl⟩ |
    ⟨-, value, -, ⟨-, -, rfl⟩ | ⟨-, rfl⟩⟩ <;> simp

/-- The destination of a jump is where a path goes on. -/
theorem Follows.exists_next_of_target (hf : w.Follows p i e) {d : Int} (h : e.target = some d) :
    ∃ q ∈ e.next, q.pc = d := by
  rcases (expand_cases hf.expand).2.2 with ⟨-, d', -, rfl⟩ | ⟨-, d', -, rfl⟩ |
    ⟨-, value, -, ⟨-, -, rfl⟩ | ⟨-, rfl⟩⟩
  · exact ⟨_, List.mem_singleton_self _, Option.some.inj h⟩
  · exact ⟨_, List.mem_cons_of_mem _ (List.mem_singleton_self _), Option.some.inj h⟩
  · cases h
  · cases h

variable (others e) in
/-- The greatest height so far is kept, if jumps leave fewer items behind than
    they find. -/
theorem le_maxHeight_enter {opcode : UInt8} (hi : i.IsRegular opcode)
    (h : p.height ≤ s.maxHeight) : s.maxHeight ≤ (s.enter p i e others).maxHeight ∧
      i.heightAfter p.height ≤ (s.enter p i e others).maxHeight := by
  rw [State.maxHeight_enter]
  split
  · next hk => exact ⟨Int.le_refl _, Int.le_trans (hi.heightAfter_le hk p.height) h⟩
  · exact ⟨Int.le_max_left .., Int.le_max_right ..⟩

/-! ## Accounting -/

namespace Trace

theorem reachable (h : w.Trace expanded s) : w.Reachable s := by
  induction h with
  | start => exact .start
  | close _ hs hstep ih => exact ih.step hs hstep
  | enter _ hs hnone hf ih => exact ih.step hs (step_of_follows hnone hf)

theorem isPath (h : w.Trace expanded s) : ∀ p ∈ expanded, w.IsPath p := by
  induction h with
  | start => simp
  | close _ _ _ ih => exact ih
  | enter htrace hs _ _ ih =>
    exact List.forall_mem_cons.2 ⟨htrace.reachable.isPath _ (hs ▸ List.mem_cons_self), ih⟩

/-- What was expanded was followed. -/
theorem follows (h : w.Trace expanded s) : ∀ p ∈ expanded, ∃ i e, w.Follows p i e := by
  induction h with
  | start => simp
  | close _ _ _ ih => exact ih
  | enter _ _ _ hf ih => exact List.forall_mem_cons.2 ⟨⟨_, _, hf⟩, ih⟩

/-- Each offset expanded is counted. -/
theorem count_eq (h : w.Trace expanded s) : s.visited.count = expanded.length := by
  induction h with
  | start => rfl
  | close _ _ _ ih => exact ih
  | enter _ _ _ _ ih => exact congrArg (· + 1) ih

/-- Every path that was opened has been closed or is open, and each conditional
    jump has opened one. -/
theorem explored_eq (h : w.Trace expanded s) :
    s.explored + s.paths.length = 1 + expanded.countP fun p => w.isFork p.pc := by
  induction h with
  | start => rfl
  | @close expanded others s p _ hs _ ih =>
    rw [hs, List.length_cons] at ih
    rw [← ih, State.explored_close, State.paths_close]
    omega
  | @enter expanded others s p i e _ hs _ hf ih =>
    have hnext := hf.length_next
    rw [hs, List.length_cons] at ih
    rw [State.explored_enter, State.paths_enter, List.length_append, List.countP_cons]
    omega

/-- What is known is what was expanded. -/
theorem visit?_iff (h : w.Trace expanded s) {pc : Int} {v : Visit} :
    s.visit? pc = some v ↔ ∃ p ∈ expanded, p.pc = pc ∧ ∃ i e, w.Follows p i e ∧
      v = ⟨p.height - p.base, p.height, e.target⟩ := by
  induction h with
  | start => simp
  | close _ _ _ ih => exact ih
  | @enter expanded others s p i e _ _ hnone hf ih =>
    rw [State.visit?_enter]
    constructor
    · intro hv
      split at hv
      · next heq => exact ⟨p, List.mem_cons_self, heq.symm, i, e, hf, (Option.some.inj hv).symm⟩
      · obtain ⟨q, hq, hvisit⟩ := ih.1 hv
        exact ⟨q, List.mem_cons_of_mem _ hq, hvisit⟩
    · rintro ⟨q, hq, hpc, j, f, hfollows, hvisit⟩
      rcases List.mem_cons.1 hq with rfl | hq
      · -- the instruction at an offset and where it leads are determined
        cases hf.get?.symm.trans hfollows.get?
        cases hf.expand.symm.trans hfollows.expand
        exact (if_pos hpc.symm).trans (congrArg some hvisit.symm)
      · have hv := ih.2 ⟨q, hq, hpc, j, f, hfollows, hvisit⟩
        have hne : pc ≠ p.pc := fun heq => by rw [heq, hnone] at hv; cases hv
        exact (if_neg hne).trans hv

/-- Nothing is known of an offset before it is expanded. -/
theorem notMem_of_visit? (h : w.Trace expanded s) {pc : Int} (hv : s.visit? pc = none) :
    pc ∉ expanded.map Path.pc := by
  intro hmem
  obtain ⟨p, hp, rfl⟩ := List.mem_map.1 hmem
  obtain ⟨i, e, hf⟩ := h.follows p hp
  cases hv.symm.trans (h.visit?_iff.2 ⟨p, hp, rfl, i, e, hf, rfl⟩)

/-- No offset is expanded twice. -/
theorem nodup (h : w.Trace expanded s) : (expanded.map Path.pc).Nodup := by
  induction h with
  | start => exact List.nodup_nil
  | close _ _ _ ih => exact ih
  | enter htrace _ hnone _ ih => exact List.nodup_cons.2 ⟨htrace.notMem_of_visit? hnone, ih⟩

/-- Nor is one of which a violation is found. -/
theorem nodup_opened (h : w.Trace expanded s) :
    ((w.opened s ++ expanded).map Path.pc).Nodup := by
  cases ho : w.opened s with
  | nil => exact h.nodup
  | cons p rest =>
    obtain ⟨hone, hnone⟩ := mem_opened (ho ▸ List.mem_cons_self)
    cases hone.symm.trans ho
    exact List.nodup_cons.2 ⟨h.notMem_of_visit? hnone, h.nodup⟩

/-- The greatest height is that of the start, or that after an instruction. -/
theorem maxHeight_cases (h : w.Trace expanded s) : s.maxHeight = 0 ∨
    ∃ p ∈ expanded, ∃ i e, w.Follows p i e ∧ s.maxHeight = i.heightAfter p.height := by
  induction h with
  | start => exact .inl rfl
  | close _ _ _ ih => exact ih
  | @enter expanded others s p i e _ _ _ hf ih =>
    have hkept : s.maxHeight = 0 ∨ ∃ q ∈ p :: expanded, ∃ i e, w.Follows q i e ∧
        s.maxHeight = i.heightAfter q.height :=
      ih.imp_right fun ⟨q, hq, hheight⟩ => ⟨q, List.mem_cons_of_mem _ hq, hheight⟩
    rw [State.maxHeight_enter]
    split
    · exact hkept
    · rcases Int.le_total (i.heightAfter p.height) s.maxHeight with hle | hle
      · rwa [Int.max_eq_left hle]
      · exact .inr ⟨p, List.mem_cons_self, i, e, hf, Int.max_eq_right hle⟩

/-- No height is greater than the greatest one so far, neither of an open path
    nor where an offset was expanded. -/
theorem le_maxHeight (hset : w.instructionSet.IsRegular) (h : w.Trace expanded s) :
    (∀ q ∈ s.paths, q.height ≤ s.maxHeight) ∧
      ∀ p ∈ expanded, ∀ i, w.instructionSet.get? (w.code.opcode p.pc) = some i →
        p.height ≤ s.maxHeight ∧ i.heightAfter p.height ≤ s.maxHeight := by
  induction h with
  | start => simp [State.start, Path.start]
  | close _ hs _ ih =>
    rw [hs] at ih
    exact ⟨fun q hq => ih.1 q (List.mem_cons_of_mem _ hq), ih.2⟩
  | @enter expanded others s p i e _ hs _ hf ih =>
    rw [hs] at ih
    have hp := ih.1 p List.mem_cons_self
    obtain ⟨hmax, hafter⟩ := le_maxHeight_enter others e (hset _ _ hf.get?) hp
    refine ⟨fun q hq => ?_, List.forall_mem_cons.2 ⟨fun j hj => ?_, fun q hq j hj => ?_⟩⟩
    · rcases List.mem_append.1 hq with hnext | hothers
      · rw [hf.height_next q hnext]
        exact hafter
      · exact Int.le_trans (ih.1 q (List.mem_cons_of_mem _ hothers)) hmax
    · cases hj.symm.trans hf.get?
      exact ⟨Int.le_trans hp hmax, hafter⟩
    · obtain ⟨hheight, hheight'⟩ := ih.2 q hq j hj
      exact ⟨Int.le_trans hheight hmax, Int.le_trans hheight' hmax⟩

end Trace

/-! ## The report -/

section Report

variable (w) (expanded)

/-- What the report says of the paths that were expanded. -/
structure Linear (r : Report) : Prop where
  /-- As many offsets were visited as paths were expanded. -/
  counted : r.instructionsVisited = expanded.length
  /-- As many depths are reported. -/
  visited : r.instructionsVisited = r.entryDepths.length
  /-- These are no more than the code has bytes. -/
  visited_le : r.instructionsVisited ≤ w.code.size
  /-- No offset is reported twice. -/
  ascending : (r.entryDepths.map Prod.fst).Pairwise (· < ·)
  /-- The depths are those with which the offsets were expanded. -/
  entries : ∀ (pc : Nat) (depth : Int), (pc, depth) ∈ r.entryDepths ↔
    ∃ p ∈ expanded, p.pc = pc ∧ p.height - p.base = depth
  /-- There is one path, and another one for each conditional jump. -/
  paths : r.pathsExplored = 1 + r.entryDepths.countP fun entry => w.isFork entry.1
  /-- No destination is reported twice. -/
  destinations : r.jumpDestinations.Pairwise (· < ·)
  /-- The destinations are those that the jumps expanded were resolved to. -/
  resolved : ∀ d : Nat, d ∈ r.jumpDestinations ↔
    ∃ p ∈ expanded, ∃ i, w.instructionSet.get? (w.code.opcode p.pc) = some i ∧
      i.kind.isJump = true ∧ w.destination p = .ok (d : Int)
  /-- Each of them is a jump destination of the code, and was expanded. -/
  known : ∀ d ∈ r.jumpDestinations, w.code.isJumpDest d = true ∧
    ∃ depth, (d, depth) ∈ r.entryDepths

/-- The height reported is the greatest with which an offset was expanded or
    that its instruction left behind, and within the limit. -/
structure Peak (r : Report) : Prop where
  le : ∀ p ∈ expanded, ∀ i, w.instructionSet.get? (w.code.opcode p.pc) = some i →
    p.height ≤ r.maxStackHeight ∧ i.heightAfter p.height ≤ r.maxStackHeight
  attained : 0 < w.code.size → ∃ p ∈ expanded, ∃ i,
    w.instructionSet.get? (w.code.opcode p.pc) = some i ∧
      (r.maxStackHeight = p.height ∨ r.maxStackHeight = i.heightAfter p.height)
  empty : w.code.size = 0 → r.maxStackHeight = 0
  limit : r.maxStackHeight ≤ w.stackLimit

end Report

namespace VisitedTable

variable (table : VisitedTable) (size : Nat)

theorem length_depths_le : (table.depths size).length ≤ size := by
  rw [depths]
  exact Nat.le_trans (List.length_filterMap_le ..) (Nat.le_of_eq List.length_range)

/-- The offsets are reported in ascending order. -/
theorem pairwise_depths : ((table.depths size).map Prod.fst).Pairwise (· < ·) := by
  refine List.pairwise_map.2 (List.pairwise_lt_range.filterMap _ fun a b hlt x hx y hy => ?_)
  obtain ⟨v, -, rfl⟩ := Option.map_eq_some_iff.1 hx
  obtain ⟨u, -, rfl⟩ := Option.map_eq_some_iff.1 hy
  exact hlt

end VisitedTable

namespace Trace

theorem mem_entryDepths (h : w.Trace expanded s) {pc : Nat} {depth : Int} :
    (pc, depth) ∈ (s.report w.code.size).entryDepths ↔
      ∃ p ∈ expanded, p.pc = pc ∧ p.height - p.base = depth := by
  rw [h.reachable.mem_entryDepths]
  constructor
  · rintro ⟨v, hv, rfl⟩
    obtain ⟨p, hp, hpc, i, e, -, rfl⟩ := h.visit?_iff.1 hv
    exact ⟨p, hp, hpc, rfl⟩
  · rintro ⟨p, hp, hpc, rfl⟩
    obtain ⟨i, e, hf⟩ := h.follows p hp
    exact ⟨_, h.visit?_iff.2 ⟨p, hp, hpc, i, e, hf, rfl⟩, rfl⟩

/-- The offsets reported are those expanded, in another order. -/
theorem perm_entryDepths (hset : w.instructionSet.IsForward) (h : w.Trace expanded s) :
    ((s.report w.code.size).entryDepths.map fun entry => (entry.1 : Int)).Perm
      (expanded.map Path.pc) := by
  have hdepths : ((s.report w.code.size).entryDepths.map fun entry => (entry.1 : Int)).Nodup :=
    List.pairwise_map.2 ((List.pairwise_map.1 (s.visited.pairwise_depths w.code.size)).imp
      fun hlt heq => Nat.ne_of_lt hlt (Int.ofNat_inj.1 heq))
  refine (List.perm_ext_iff_of_nodup hdepths h.nodup).2 fun pc => ?_
  rw [List.mem_map, List.mem_map]
  constructor
  · rintro ⟨⟨k, depth⟩, hmem, rfl⟩
    obtain ⟨p, hp, hpc, -⟩ := h.mem_entryDepths.1 hmem
    exact ⟨p, hp, hpc⟩
  · rintro ⟨p, hp, rfl⟩
    obtain ⟨k, hk⟩ := Int.eq_ofNat_of_zero_le ((h.isPath p hp).nonneg hset)
    exact ⟨(k, p.height - p.base), h.mem_entryDepths.2 ⟨p, hp, hk, rfl⟩, hk.symm⟩

/-- The destinations reported are those that were resolved. -/
theorem mem_jumpDestinations (h : w.Trace expanded s) {d : Nat} :
    d ∈ (s.report w.code.size).jumpDestinations ↔
      ∃ p ∈ expanded, ∃ i, w.instructionSet.get? (w.code.opcode p.pc) = some i ∧
        i.kind.isJump = true ∧ w.destination p = .ok (d : Int) := by
  rw [h.reachable.mem_jumpDestinations]
  constructor
  · rintro ⟨pc, v, hv, htarget⟩
    obtain ⟨p, hp, -, i, e, hf, rfl⟩ := h.visit?_iff.1 hv
    exact ⟨p, hp, i, hf.get?, hf.target_eq_some_iff.1 htarget⟩
  · rintro ⟨p, hp, i, hi, hk, hd⟩
    obtain ⟨j, e, hf⟩ := h.follows p hp
    cases hi.symm.trans hf.get?
    exact ⟨p.pc, _, h.visit?_iff.2 ⟨p, hp, rfl, i, e, hf, rfl⟩, hf.target_eq_some_iff.2 ⟨hk, hd⟩⟩

/-- The report of a walk under a forward instruction set. -/
theorem linear (hset : w.instructionSet.IsForward) (h : w.Trace expanded s) (hs : s.paths = []) :
    w.Linear expanded (s.report w.code.size) := by
  have hperm := h.perm_entryDepths hset
  have hvisited : s.visited.count = (s.report w.code.size).entryDepths.length := by
    have hlength := hperm.length_eq
    rw [List.length_map, List.length_map] at hlength
    exact h.count_eq.trans hlength.symm
  have hpaths : s.explored =
      1 + (s.report w.code.size).entryDepths.countP fun entry => w.isFork entry.1 := by
    have hforks := hperm.countP_eq w.isFork
    rw [List.countP_map, List.countP_map] at hforks
    have hexplored := h.explored_eq
    rw [hs, List.length_nil, Nat.add_zero] at hexplored
    exact hexplored.trans (congrArg (1 + ·) hforks.symm)
  exact {
    counted := h.count_eq
    visited := hvisited
    visited_le := Nat.le_trans (Nat.le_of_eq hvisited) (s.visited.length_depths_le w.code.size)
    ascending := s.visited.pairwise_depths w.code.size
    entries := fun _ _ => h.mem_entryDepths
    paths := hpaths
    destinations := Std.TreeSet.ordered_toList.imp Nat.compare_eq_lt.1
    resolved := fun _ => h.mem_jumpDestinations
    known := by
      intro d hd
      -- the path at the destination is accounted for, and no path is open
      obtain ⟨pc, v, hv, htarget⟩ := h.reachable.mem_jumpDestinations.1 hd
      obtain ⟨p, i, e, -, ho⟩ := h.reachable.exists_origin hv
      rw [ho.visit] at htarget
      have hdest := (of_destination_eq_ok (ho.follows.target_eq_some_iff.1 htarget).2).2
      obtain ⟨q, hq, hqd⟩ := ho.follows.exists_next_of_target htarget
      obtain ⟨u, hu, -⟩ := (ho.next q hq).known hs (hqd ▸ (Code.of_isJumpDest hdest).2.1)
      exact ⟨hdest, u.depth, h.reachable.mem_entryDepths.2 ⟨u, hqd ▸ hu, rfl⟩⟩ }

/-- The height reported by a walk under a regular instruction set. -/
theorem peak (hset : w.instructionSet.IsRegular) (hlimit : 0 ≤ w.stackLimit)
    (h : w.Trace expanded s) (hs : s.paths = []) :
    w.Peak expanded (s.report w.code.size) where
  le := (h.le_maxHeight hset).2
  attained hsize := by
    rcases h.maxHeight_cases with hzero | ⟨p, hp, i, e, hf, hmax⟩
    · -- nothing is higher than the start, where the stack is empty
      obtain ⟨v, hv, hheight, -⟩ := h.reachable.known_zero hs hsize
      obtain ⟨p, hp, -, i, e, hf, rfl⟩ := h.visit?_iff.1 hv
      exact ⟨p, hp, i, hf.get?, .inl (hzero.trans hheight.symm)⟩
    · exact ⟨p, hp, i, hf.get?, .inr hmax⟩
  empty hsize := by
    rcases h.maxHeight_cases with hzero | ⟨p, hp, i, e, hf, -⟩
    · exact hzero
    · -- no path is inside empty code
      have hinside := hf.inside
      have hnonneg := (h.isPath p hp).nonneg hset.isForward
      omega
  limit := by
    rcases h.maxHeight_cases with hzero | ⟨p, hp, i, e, hf, hmax⟩
    · exact Int.le_trans (Int.le_of_eq hzero) hlimit
    · exact Int.le_trans (Int.le_of_eq hmax) hf.heightAfter_le

end Trace

/-- If no instruction goes back, the walk ends within two steps for each byte of
    the code and two more. However far it has come, and even where it finds a
    violation, it has expanded no offset twice. If it finds none, its report is
    that of what it has expanded, and under the rules of a hardfork the height
    reported is the greatest one. -/
theorem walk_linear (w : Walk) (hset : w.instructionSet.IsForward) :
    w.runFor (2 * w.code.size + 2) .start = some (w.run .start) ∧
    (∀ s, w.Reachable s → (∃ expanded, w.Trace expanded s) ∧
      ∀ expanded, w.Trace expanded s → ((w.opened s ++ expanded).map Path.pc).Nodup) ∧
    ∀ r, w.report = .ok r → ∃ expanded s, w.Trace expanded s ∧ w.run .start = .ok s ∧
      s.report w.code.size = r ∧ w.Linear expanded r ∧
      ∀ rules, w.instructionSet = .ofRules rules → 0 ≤ w.stackLimit → w.Peak expanded r := by
  refine ⟨runFor_eq_some hset .start ?_, fun s hs => ⟨hs.exists_trace, fun _ h => h.nodup_opened⟩,
    fun r hreport => ?_⟩
  · have hle := w.unvisited_le .start
    have hlength : State.start.paths.length = 1 := rfl
    omega
  · obtain ⟨s, hrun, rfl⟩ := of_report_eq_ok hreport
    obtain ⟨hr, hs⟩ := of_run_eq_ok hset .start hrun
    obtain ⟨expanded, htrace⟩ := hr.exists_trace
    refine ⟨expanded, s, htrace, hrun, rfl, htrace.linear hset hs, fun rules hrules hlimit => ?_⟩
    exact htrace.peak (hrules ▸ InstructionSet.isRegular_ofRules rules) hlimit hs

/-- The loop is walked within its 14 steps, and its report is the one of what
    was expanded. -/
theorem valueLoop_linear : valueLoop.instructionSet.IsForward ∧
    valueLoop.runFor 14 .start = some (valueLoop.run .start) ∧
      ∃ r expanded s, valueLoop.report = .ok r ∧ valueLoop.Trace expanded s ∧
        valueLoop.Linear expanded r ∧ valueLoop.Peak expanded r := by
  have hset : valueLoop.instructionSet.IsForward := (InstructionSet.isRegular_ofRules _).isForward
  obtain ⟨s, hs⟩ := exists_run_valueLoop
  have hreport := report_of_run_eq_ok hs
  obtain ⟨hends, -, hlinear⟩ := walk_linear valueLoop hset
  obtain ⟨expanded, t, htrace, -, -, hr, hpeak⟩ := hlinear _ hreport
  exact ⟨hset, hends, _, expanded, t, hreport, htrace, hr, hpeak _ rfl (by decide)⟩

end EvmFlow.Walk
