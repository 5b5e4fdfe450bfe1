import EvmFlow.Proofs.Overflow
import EvmFlow.Proofs.Realisation

/-!
# Depths

The report of a walk gives a depth for each offset that was expanded. It is
the height over the base of the block on the path that came there first, so it
can be negative, and other paths may come there with other depths. But it is
never made up: some choices for the conditional jumps bring a run to the
offset, whatever values its plain instructions produce, and there the stack is
by just so many items higher than it was right after the last jump.

In code whose jumps all stand behind a push no jump can go elsewhere than the
walk expected, whichever branches a run chooses. So there the offsets reported
are all that runs come to.

* `Machine.Reaches.holds`: what every step keeps, whichever branch it takes,
  holds of all states that choices lead to;
* `Walk.arrives_of_mem_entryDepths`: the depths are those of runs;
* `Walk.tracks_of_reaches`: the offsets reported are all that are reached;
* `Walk.entryDepths_exact`: the two together.
-/

namespace EvmFlow

namespace Machine

variable {m : Machine} {values : Nat → Int} {choices : List Bool} {base : Int} {c : State Nat}

/-- What every step keeps, whichever branch it takes, holds of all states that
    choices lead to. -/
theorem Reaches.holds {P : State Nat → Prop} (hstart : P (.start 0))
    (hstep : ∀ taken s t, P s → m.stepTaking (sequence values) taken s = .ok t → P t)
    (h : m.Reaches values choices base c) : P c := by
  induction h with
  | start => exact hstart
  | straight _ _ _ hs ih => exact hstep false _ _ ih hs
  | jump _ _ _ hs ih => exact hstep false _ _ ih hs
  | branch taken _ _ _ hs ih => exact hstep taken _ _ ih hs

end Machine

namespace Walk

variable {w : Walk} {s : State} {limit : Int} {values : Nat → Int}
  {choices : List Bool} {base : Int} {c : Machine.State Nat}

/-! ## More room -/

/-- A step for which there is room is taken when there is more. -/
theorem stepTaking_of_le_limit {σ : Type} {draw : σ → Int × σ} {taken : Bool} {a b : Int}
    {c c' : Machine.State σ} (hab : a ≤ b)
    (h : (w.machine a).stepTaking draw taken c = .ok c') :
    (w.machine b).stepTaking draw taken c = .ok c' := by
  obtain ⟨hpc, i, hi, henough, hroom, hexec⟩ := Machine.of_stepTaking_eq_ok h
  have hroom' : i.heightAfter c.stack.length ≤ (w.machine b).stackLimit := Int.le_trans hroom hab
  rw [Machine.stepTaking_eq (m := w.machine b) hpc hi henough, if_neg (Int.not_lt.2 hroom')]
  exact hexec

/-- What choices lead to is reached by the same choices when there is more
    room. -/
theorem reaches_of_le_limit {a b : Int} (hab : a ≤ b)
    (h : (w.machine a).Reaches values choices base c) :
    (w.machine b).Reaches values choices base c := by
  induction h with
  | start => exact .start
  | straight _ hi hk hs ih => exact ih.straight hi hk (stepTaking_of_le_limit hab hs)
  | jump _ hi hk hs ih => exact ih.jump hi hk (stepTaking_of_le_limit hab hs)
  | branch taken _ hi hk hs ih => exact ih.branch taken hi hk (stepTaking_of_le_limit hab hs)

/-! ## Reported offsets are reached -/

/-- Some choices bring a run to a reported offset, whatever values are produced,
    and the depth is the height there over the one its block began with. -/
theorem arrives_of_mem_entryDepths (hset : w.instructionSet.IsRegular)
    (hs : w.run .start = .ok s) {pc : Nat} {depth : Int}
    (h : (pc, depth) ∈ (s.report w.code.size).entryDepths) :
    ∃ choices base items count, w.Arrives choices pc base items count ∧
      depth = items.length - base := by
  have hr := (of_run_eq_ok hset.isForward .start hs).1
  obtain ⟨v, hv, rfl⟩ := hr.mem_entryDepths.1 h
  obtain ⟨p, i, e, hpc, ho⟩ := hr.exists_origin hv
  obtain ⟨choices, items, count, hrealises⟩ := ho.isPath.realised hset
  refine ⟨choices, p.base, items, count, hpc ▸ hrealises.arrives, ?_⟩
  rw [ho.visit, ← hrealises.height]

/-! ## Reached offsets are reported -/

/-- If all jumps stand behind a push, the states that choices lead to are on the
    certificate. -/
theorem tracks_of_reaches (hset : w.instructionSet.IsRegular)
    (hs : w.run .start = .ok s) (hcode : w.code.StaticJumps)
    (hc : (w.machine limit).Reaches values choices base c) : w.Tracks s c := by
  suffices h : (w.machine limit).Poised c ∧ w.Tracks s c from h.2
  refine hc.holds (P := fun c => (w.machine limit).Poised c ∧ w.Tracks s c)
    ⟨Machine.poised_start, tracks_start hset hs⟩ ?_
  rintro taken a b ⟨hpoised, htracks⟩ hstep
  refine ⟨hpoised.of_stepTaking hset hstep, htracks.of_stepTaking hset hs ?_ hstep⟩
  -- the literal of the push is on top, which is where the walk went as well
  intro v i hv _ hi hj
  exact target_eq_top hset hs hcode hpoised hv hi hj.isJump

/-- The depths reported are heights over the last jump on runs that some choices
    lead to, whatever values are produced. If all jumps stand behind a push, the
    offsets reported are those inside the code that some choices lead to,
    whatever values are produced and however much more room there is. -/
theorem entryDepths_exact {rules : Rules} (hw : w.instructionSet = .ofRules rules) {r : Report}
    (hr : w.report = .ok r) :
    (∀ pc depth, (pc, depth) ∈ r.entryDepths → ∃ (choices : List Bool) (base height : Int),
      depth = height - base ∧ ∀ values, ∃ c,
        (w.machine w.stackLimit).Reaches values choices base c ∧
          c.pc = pc ∧ c.stack.length = height) ∧
    (w.code.StaticJumps → ∀ limit, w.stackLimit ≤ limit → ∀ (values : Nat → Int) (pc : Int),
      (∃ entry ∈ r.entryDepths, (entry.1 : Int) = pc) ↔
        pc < w.code.size ∧ ∃ choices base c,
          (w.machine limit).Reaches values choices base c ∧ c.pc = pc) := by
  have hset : w.instructionSet.IsRegular := hw ▸ InstructionSet.isRegular_ofRules rules
  obtain ⟨s, hs, rfl⟩ := of_report_eq_ok hr
  refine ⟨fun pc depth h => ?_, fun hcode limit hlimit values pc => ⟨?_, ?_⟩⟩
  · obtain ⟨choices, base, items, count, harrives, hdepth⟩ := arrives_of_mem_entryDepths hset hs h
    refine ⟨choices, base, items.length, hdepth, fun values => ⟨_, harrives values, rfl, ?_⟩⟩
    rw [List.length_map]
  · rintro ⟨⟨k, depth⟩, h, rfl⟩
    have hlt := (s.visited.mem_depths.1 h).1
    obtain ⟨choices, base, items, count, harrives, -⟩ := arrives_of_mem_entryDepths hset hs h
    exact ⟨Int.ofNat_lt.2 hlt, choices, base, _, reaches_of_le_limit hlimit (harrives values), rfl⟩
  · rintro ⟨hpc, choices, base, c, hc, rfl⟩
    exact (tracks_of_reaches hset hs hcode hc).reported hset hs hpc

/-- The offset at which two branches meet is reported with a negative depth: the
    path that comes there first has dropped an item of its block. Choices lead
    there, and to all other reported offsets but to no more. -/
theorem entryDepths_lateRise : ∃ r, (lateRise 3).report = .ok r ∧ (6, -1) ∈ r.entryDepths ∧
    (∃ (choices : List Bool) (base height : Int), -1 = height - base ∧ ∀ values, ∃ c,
      ((lateRise 3).machine 3).Reaches values choices base c ∧ c.pc = 6 ∧
        c.stack.length = height) ∧
    ∀ (values : Nat → Int) (pc : Int), (∃ entry ∈ r.entryDepths, (entry.1 : Int) = pc) ↔
      pc < 10 ∧ ∃ choices base c,
        ((lateRise 3).machine 1024).Reaches values choices base c ∧ c.pc = pc := by
  obtain ⟨s, hs, hmem⟩ : ∃ s, (lateRise 3).run .start = .ok s ∧
      decide ((6, -1) ∈ s.visited.depths 10) = true :=
    exists_run_eq_ok_of_test 20 (fun s => decide ((6, -1) ∈ s.visited.depths 10))
      (by decide +kernel)
  have hw : (lateRise 3).instructionSet = .ofRules (.ofHardfork .cancun) := rfl
  have hr := report_of_run_eq_ok hs
  obtain ⟨hdepths, hkeys⟩ := entryDepths_exact hw hr
  have hentry : (6, -1) ∈ (s.report (lateRise 3).code.size).entryDepths := of_decide_eq_true hmem
  exact ⟨_, hr, hentry, hdepths 6 (-1) hentry,
    hkeys lateRise.staticJumps 1024 (by decide)⟩

end Walk

end EvmFlow
