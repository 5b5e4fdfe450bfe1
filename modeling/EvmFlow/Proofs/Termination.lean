import EvmFlow.Proofs.Reachable
import EvmFlow.Proofs.Regular

/-!
# The end of the walk

The walk ends in a state without open paths, or at a path whose step is a
violation (`Walk.EndsIn`). If no instruction goes back, it does so in a number
of steps that is linear in the size of the code. A path is then never before
the code, and every step uses up some of a budget: two for each offset of the
code that has not been expanded, and one for each open path.

* `Walk.EndsIn.run_eq`: the outcome is what the walk ends in;
* `Walk.runFor` breaks the walk off after a number of steps, and
  `Walk.runFor_eq_some` says how many are enough;
* `Walk.of_run_eq_ok`, `Walk.of_run_eq_error`: the last state of the walk.
-/

namespace EvmFlow.Walk

variable (w : Walk)

/-- The walk goes on from a state until it ends, with what it ends in. -/
inductive EndsIn : State → Except Violation State → Prop
  | done {s : State} : s.paths = [] → EndsIn s (.ok s)
  | stop {s : State} {p : Path} {others : List Path} {v : Violation} : s.paths = p :: others →
      w.step s p others = .error v → EndsIn s (.error v)
  | next {s t : State} {p : Path} {others : List Path} {r : Except Violation State} :
      s.paths = p :: others → w.step s p others = .ok t → EndsIn t r → EndsIn s r

/-- The walk broken off after a number of steps: none if it has not ended by
    then. -/
def runFor : (steps : Nat) → State → Option (Except Violation State)
  | 0, _ => none
  | k + 1, s =>
    match s.paths with
    | [] => some (.ok s)
    | p :: others =>
      match w.step s p others with
      | .error v => some (.error v)
      | .ok t => runFor k t

/-- A conditional jump stands at the offset. -/
def isFork (pc : Int) : Bool :=
  (w.instructionSet.get? (w.code.opcode pc)).any fun i => i.kind == .jumpi

/-- The number of offsets of the code that have not been expanded. -/
def unvisited (s : State) : Nat :=
  ((List.range w.code.size).filter fun pc : Nat => (s.visit? pc).isNone).length

variable {w} {s t : State} {p q : Path} {others : List Path} {i : Instruction} {e : Expansion}
  {r : Except Violation State} {v : Violation}

/-! ## The outcome -/

theorem run_of_ok (hs : s.paths = p :: others) (h : w.step s p others = .ok t) :
    w.run s = w.run t := by
  rw [run, hs]
  simp only [h]

/-- The outcome of the walk is what it ends in. -/
theorem EndsIn.run_eq (h : w.EndsIn s r) : w.run s = r := by
  induction h with
  | done hs => rw [run, hs]
  | stop hs hstep =>
    rw [run, hs]
    simp only [hstep]
  | next hs hstep _ ih => exact (run_of_ok hs hstep).trans ih

/-- The walk goes on from each state it comes to. -/
theorem Reachable.run_eq (h : w.Reachable s) : w.run s = w.run .start := by
  induction h with
  | start => rfl
  | step _ hs hstep ih => exact (run_of_ok hs hstep).symm.trans ih

/-- What the walk ends in: a state without open paths, or a violation at the
    path being followed. -/
theorem EndsIn.cases (h : w.EndsIn s r) (hs : w.Reachable s) :
    (∃ t, r = .ok t ∧ w.Reachable t ∧ t.paths = []) ∨
      ∃ v t p others, r = .error v ∧ w.Reachable t ∧ t.paths = p :: others ∧
        w.step t p others = .error v := by
  induction h with
  | done hnil => exact .inl ⟨_, rfl, hs, hnil⟩
  | stop hcons hstep => exact .inr ⟨_, _, _, _, rfl, hs, hcons, hstep⟩
  | next hcons hstep _ ih => exact ih (hs.step hcons hstep)

theorem report_of_run_eq_ok (h : w.run .start = .ok s) : w.report = .ok (s.report w.code.size) := by
  rw [report, h]
  rfl

theorem report_of_run_eq_error (h : w.run .start = .error v) : w.report = .error v := by
  rw [report, h]
  rfl

/-- A report is that of the state in which the walk ends. -/
theorem of_report_eq_ok {r : Report} (h : w.report = .ok r) :
    ∃ s, w.run .start = .ok s ∧ s.report w.code.size = r := by
  cases hrun : w.run .start with
  | error v => cases h.symm.trans (report_of_run_eq_error hrun)
  | ok s =>
    cases h.symm.trans (report_of_run_eq_ok hrun)
    exact ⟨s, rfl, rfl⟩

theorem of_report_eq_error (h : w.report = .error v) : w.run .start = .error v := by
  cases hrun : w.run .start with
  | error u =>
    cases h.symm.trans (report_of_run_eq_error hrun)
    rfl
  | ok s => cases h.symm.trans (report_of_run_eq_ok hrun)

/-! ## A number of steps -/

/-- A walk that is not broken off ends. -/
theorem endsIn_of_runFor {steps : Nat} (h : w.runFor steps s = some r) : w.EndsIn s r := by
  induction steps generalizing s with
  | zero => cases h
  | succ k ih =>
    rw [runFor] at h
    split at h
    · next hnil =>
      cases h
      exact .done hnil
    · next hcons =>
      split at h
      · next hstep =>
        cases h
        exact .stop hcons hstep
      · next hstep => exact .next hcons hstep (ih h)

/-- The walk ends in a state that passes a test. -/
theorem exists_run_eq_ok_of_test (steps : Nat) (test : State → Bool)
    (h : (w.runFor steps s).any
      (fun r => match r with | .ok t => test t | .error _ => false) = true) :
    ∃ t, w.run s = .ok t ∧ test t = true := by
  obtain ⟨r, hr, htest⟩ := (Option.any_eq_true _ _).1 h
  cases r with
  | error v => cases htest
  | ok t => exact ⟨t, (endsIn_of_runFor hr).run_eq, htest⟩

theorem exists_run_eq_ok (steps : Nat) (h : (w.runFor steps s).any Except.isOk = true) :
    ∃ t, w.run s = .ok t := by
  obtain ⟨r, hr, hok⟩ := (Option.any_eq_true _ _).1 h
  cases r with
  | error v => cases hok
  | ok t => exact ⟨t, (endsIn_of_runFor hr).run_eq⟩

theorem run_eq_error (steps : Nat)
    (h : (w.runFor steps s).any
      (fun r => match r with | .ok _ => false | .error u => u = v) = true) :
    w.run s = .error v := by
  obtain ⟨r, hr, herror⟩ := (Option.any_eq_true _ _).1 h
  cases r with
  | error u => exact of_decide_eq_true herror ▸ (endsIn_of_runFor hr).run_eq
  | ok t => cases herror

/-! ## Forward instruction sets -/

/-- No path comes before the code. -/
theorem IsPath.nonneg (hset : w.instructionSet.IsForward) (h : w.IsPath p) : 0 ≤ p.pc := by
  induction h with
  | start => exact Int.le_refl 0
  | @next p q i e _ hf hq ih =>
    have hbehind : 0 ≤ p.pc + i.width := by
      have himmediate := hset _ _ hf.get?
      rw [Instruction.width]
      omega
    rcases (expand_cases hf.expand).2.2 with ⟨-, d, hd, rfl⟩ | ⟨-, d, hd, rfl⟩ |
      ⟨-, value, -, ⟨-, -, rfl⟩ | ⟨-, rfl⟩⟩
    · cases List.mem_singleton.1 hq
      exact destination_nonneg hd
    · rcases List.mem_cons.1 hq with rfl | hq
      · exact hbehind
      · cases List.mem_singleton.1 hq
        exact destination_nonneg hd
    · cases hq
    · cases List.mem_singleton.1 hq
      exact hbehind

theorem isFork_eq (hi : w.instructionSet.get? (w.code.opcode p.pc) = some i) :
    w.isFork p.pc = (i.kind == .jumpi) := by
  rw [isFork, hi, Option.any_some]

/-- An instruction that is followed ends its path, goes on with it, or splits it
    in two if it is a conditional jump. -/
theorem Follows.length_next (hf : w.Follows p i e) :
    (if e.next.isEmpty then 1 else 0) + e.next.length = 1 + (if w.isFork p.pc then 1 else 0) := by
  rw [isFork_eq hf.get?]
  rcases (expand_cases hf.expand).2.2 with ⟨hk, d, -, rfl⟩ | ⟨hk, d, -, rfl⟩ | ⟨hk, value, -, hnext⟩
  · simp [hk]
  · simp [hk]
  · have hjumpi : (i.kind == .jumpi) = false := by
      cases hkind : i.kind <;> rw [hkind] at hk <;> first | rfl | cases hk
    rcases hnext with ⟨-, -, rfl⟩ | ⟨-, rfl⟩ <;> simp [hjumpi]

variable (w) in
theorem unvisited_le (s : State) : w.unvisited s ≤ w.code.size := by
  rw [unvisited]
  exact Nat.le_trans (List.length_filter_le ..) (Nat.le_of_eq List.length_range)

/-- Expanding an offset of the code leaves fewer to expand. -/
theorem unvisited_enter_lt (h₀ : 0 ≤ p.pc) (hpc : p.pc < w.code.size) (hv : s.visit? p.pc = none) :
    w.unvisited (s.enter p i e others) < w.unvisited s := by
  obtain ⟨pc, hk⟩ := Int.eq_ofNat_of_zero_le h₀
  -- what is left is what there was, without the offset itself
  have hrest : ((List.range w.code.size).filter fun k : Nat =>
      ((s.enter p i e others).visit? k).isNone) =
      ((List.range w.code.size).filter fun k : Nat => (s.visit? k).isNone).filter (· != pc) := by
    rw [List.filter_filter]
    refine List.filter_congr fun k _ => ?_
    rw [State.visit?_enter, hk]
    by_cases hkpc : k = pc
    · rw [if_pos (Int.ofNat_inj.2 hkpc), bne_eq_false_iff_eq.2 hkpc]
      rfl
    · rw [if_neg fun h => hkpc (Int.ofNat_inj.1 h), bne_iff_ne.2 hkpc, Bool.true_and]
  rw [unvisited, hrest, unvisited]
  refine List.length_filter_lt_length_iff_exists.2 ⟨pc, List.mem_filter.2 ⟨?_, ?_⟩, ?_⟩
  · exact List.mem_range.2 (Int.ofNat_lt.1 (hk ▸ hpc))
  · rw [← hk, hv, Option.isNone_none]
  · rw [bne_self_eq_false]
    exact Bool.false_ne_true

/-- Every step uses up some of the budget. -/
theorem budget_lt_of_step (hset : w.instructionSet.IsForward) (hr : w.Reachable s)
    (hs : s.paths = p :: others) (h : w.step s p others = .ok t) :
    2 * w.unvisited t + t.paths.length < 2 * w.unvisited s + s.paths.length := by
  rw [hs, List.length_cons]
  have hclose : 2 * w.unvisited (s.close others) + (s.close others).paths.length =
      2 * w.unvisited s + others.length := rfl
  rcases step_inversion h with ⟨-, -, rfl⟩ | ⟨-, -, -, rfl⟩ | ⟨hnone, i, e, hf, rfl⟩
  · omega
  · omega
  · have hpc := (hr.isPath p (hs ▸ List.mem_cons_self)).nonneg hset
    have hless : w.unvisited (s.enter p i e others) < w.unvisited s :=
      unvisited_enter_lt hpc hf.inside hnone
    have hnext := hf.length_next
    have hpaths : (s.enter p i e others).paths.length = e.next.length + others.length :=
      List.length_append
    split at hnext <;> split at hnext <;> omega

theorem exists_runFor (hset : w.instructionSet.IsForward) {steps : Nat} (hr : w.Reachable s)
    (h : 2 * w.unvisited s + s.paths.length < steps) : ∃ r, w.runFor steps s = some r := by
  induction steps generalizing s with
  | zero => exact absurd h (Nat.not_lt_zero _)
  | succ k ih =>
    rw [runFor]
    split
    · exact ⟨_, rfl⟩
    · next p others hcons =>
      split
      · exact ⟨_, rfl⟩
      · next hstep =>
        have hless := budget_lt_of_step hset hr hcons hstep
        exact ih (hr.step hcons hstep) (by omega)

/-- The walk has ended when its budget is used up. -/
theorem runFor_eq_some (hset : w.instructionSet.IsForward) {steps : Nat} (hr : w.Reachable s)
    (h : 2 * w.unvisited s + s.paths.length < steps) : w.runFor steps s = some (w.run s) := by
  obtain ⟨r, hrun⟩ := exists_runFor hset hr h
  rw [hrun, (endsIn_of_runFor hrun).run_eq]

/-- The walk ends. -/
theorem endsIn_run (hset : w.instructionSet.IsForward) (hr : w.Reachable s) :
    w.EndsIn s (w.run s) :=
  endsIn_of_runFor (runFor_eq_some hset hr (Nat.lt_succ_self _))

/-- The walk ends in a state without open paths. -/
theorem of_run_eq_ok (hset : w.instructionSet.IsForward) (hs : w.Reachable s)
    (h : w.run s = .ok t) : w.Reachable t ∧ t.paths = [] := by
  rcases (endsIn_run hset hs).cases hs with ⟨t', hok, ht⟩ | ⟨v, _, _, _, herror, -⟩
  · cases h.symm.trans hok
    exact ht
  · cases h.symm.trans herror

/-- A walk that finds a violation finds it at the path being followed. -/
theorem of_run_eq_error (hset : w.instructionSet.IsForward) (hs : w.Reachable s)
    (h : w.run s = .error v) : ∃ t p others, w.Reachable t ∧ t.paths = p :: others ∧
      w.step t p others = .error v := by
  rcases (endsIn_run hset hs).cases hs with ⟨t, hok, -⟩ | ⟨u, t, p, others, herror, ht⟩
  · cases h.symm.trans hok
  · cases h.symm.trans herror
    exact ⟨t, p, others, ht⟩

end EvmFlow.Walk
