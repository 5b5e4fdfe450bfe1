import Mathlib.Data.List.Chain
import EvmFlow.Proofs.Termination
import EvmFlow.Proofs.Regular

/-!
# Walks under wider terms

The same code can be walked over under another instruction set and other
limits (`Walk.under`). If the instruction set only has more instructions
(`InstructionSet.Extends`), the stack has more room, and paths may run off the
end of the code where they could before, then the two walks go in lock step:
they do the same at each state, unless the first one stops at a violation that
the wider terms *relieve* (`Walk.Relieved`).

So an accepted code stays accepted, with the same report. Later hardforks only
add instructions, so under equal limits a verdict can only change from one
hardfork to a later one if it was that an opcode has no instruction
(`Walk.report_mono`).
-/

namespace EvmFlow

namespace InstructionSet

/-- The set has all instructions of another. -/
def Extends (set base : InstructionSet) : Prop :=
  ∀ opcode i, base.get? opcode = some i → set.get? opcode = some i

/-- Where the smaller set has an instruction, the larger set has the same. -/
theorem Extends.decode_eq {set base : InstructionSet} (h : set.Extends base) (code : Code)
    (pc : Int) :
    base.decode code pc = set.decode code pc ∨
      base.decode code pc = .error (.invalidInstruction pc (code.opcode pc).toNat) := by
  rw [decode, decode]
  cases hget : base.get? (code.opcode pc) with
  | none => exact .inr rfl
  | some i =>
    rw [h _ i hget]
    exact .inl rfl

end InstructionSet

/-! ## Lock step -/

namespace Walk

variable (w : Walk)

/-- The walk over the same code under another instruction set and other
    limits. -/
abbrev under (set : InstructionSet) (limit : Int) (strict : Bool) : Walk :=
  ⟨set, w.code, limit, strict⟩

/-- The violations that may go away when there are more instructions, a stack
    limit of `limit`, and the end of the code is treated as `strict` says. -/
inductive Relieved (limit : Int) (strict : Bool) : Violation → Prop
  | instruction (pc opcode : Int) : Relieved limit strict (.invalidInstruction pc opcode)
  | room (pc resulting : Int) : w.stackLimit < limit →
      Relieved limit strict (.stackOverflow pc w.stackLimit resulting)
  | ending (pc : Int) : w.strictEnd = true → strict = false →
      Relieved limit strict (.codeTruncated pc w.code.size)

variable {w} {set : InstructionSet} {limit : Int} {strict : Bool} {s : State} {p : Path}
  {others : List Path} {i : Instruction}

/-- Two walks over the same code end in the same way if they do the same at each
    state, unless the first stops at a violation that is excused. -/
theorem EndsIn.under {excused : Violation → Prop}
    (hstep : ∀ (s : State) p others,
      w.step s p others = (w.under set limit strict).step s p others ∨
        ∃ v, excused v ∧ w.step s p others = .error v)
    {r : Except Violation State} (h : w.EndsIn s r) :
    (w.under set limit strict).EndsIn s r ∨ ∃ v, excused v ∧ r = .error v := by
  induction h with
  | done hnil => exact .inl (.done hnil)
  | @stop s p others v hcons herror =>
    rcases hstep s p others with heq | ⟨u, hu, herror'⟩
    · exact .inl (.stop hcons (heq.symm.trans herror))
    · cases herror.symm.trans herror'
      exact .inr ⟨v, hu, rfl⟩
  | @next s t p others r hcons hok _ ih =>
    rcases hstep s p others with heq | ⟨u, -, herror⟩
    · exact ih.imp_left (.next hcons (heq.symm.trans hok))
    · cases hok.symm.trans herror

/-- The same for walks that end. -/
theorem run_eq_or_excused {excused : Violation → Prop} (hset : w.instructionSet.IsForward)
    (hstep : ∀ (s : State) p others,
      w.step s p others = (w.under set limit strict).step s p others ∨
        ∃ v, excused v ∧ w.step s p others = .error v) :
    w.run .start = (w.under set limit strict).run .start ∨
      ∃ v, excused v ∧ w.run .start = .error v :=
  ((endsIn_run hset .start).under hstep).imp_left fun h => h.run_eq.symm

/-- If each step of a walk is one of the other as well, so are the states that it
    comes to. -/
theorem Reachable.under (hstep : ∀ (s : State) p others t,
      w.step s p others = .ok t → (w.under set limit strict).step s p others = .ok t)
    (h : w.Reachable s) : (w.under set limit strict).Reachable s := by
  induction h with
  | start => exact .start
  | step _ hs h ih => exact ih.step hs (hstep _ _ _ _ h)

/-- With more room, what an instruction leads to stays the same, unless it left
    too many items. -/
theorem expand_under (hlimit : w.stackLimit ≤ limit) :
    w.expand p i = (w.under set limit strict).expand p i ∨
      ∃ v, w.Relieved limit strict v ∧ w.expand p i = .error v := by
  rw [expand, expand]
  by_cases hconsumes : p.height < i.consumes
  · rw [if_pos hconsumes, if_pos hconsumes]
    exact .inl rfl
  rw [if_neg hconsumes, if_neg hconsumes]
  by_cases hroom : w.stackLimit < i.heightAfter p.height
  · -- too many items for the first limit, and maybe not for the other
    rw [if_pos hroom]
    rcases Int.lt_or_eq_of_le hlimit with hlt | rfl
    · exact .inr ⟨_, .room p.pc _ hlt, rfl⟩
    · rw [if_pos (show (w.under set w.stackLimit strict).stackLimit < _ from hroom)]
      exact .inl rfl
  · have hroom' : ¬(w.under set limit strict).stackLimit < i.heightAfter p.height :=
      fun h => hroom (Int.lt_of_le_of_lt hlimit h)
    rw [if_neg hroom, if_neg hroom']
    exact .inl rfl

/-- A path that may run off the end of the code still may. -/
theorem checkEnd_under (hstrict : strict = true → w.strictEnd = true) :
    w.checkEnd p = (w.under set limit strict).checkEnd p ∨
      ∃ v, w.Relieved limit strict v ∧ w.checkEnd p = .error v := by
  by_cases hsame : w.strictEnd = strict
  · rw [← hsame]
    exact .inl rfl
  · -- the end is treated differently, so it was strict and is so no longer
    have hlenient : strict = false :=
      Bool.eq_false_iff.2 fun h => hsame ((hstrict h).trans h.symm)
    rw [hlenient] at hsame ⊢
    rw [checkEnd, checkEnd]
    split
    · exact .inr ⟨_, .ending p.pc (Bool.not_eq_false _ ▸ hsame) rfl, rfl⟩
    · exact .inl rfl

/-- A step stays the same under wider terms, unless it found a violation that
    they relieve. -/
theorem step_under (hset : set.Extends w.instructionSet) (hlimit : w.stackLimit ≤ limit)
    (hstrict : strict = true → w.strictEnd = true) (s : State) (p : Path)
    (others : List Path) :
    w.step s p others = (w.under set limit strict).step s p others ∨
      ∃ v, w.Relieved limit strict v ∧ w.step s p others = .error v := by
  rw [step, step]
  by_cases hpc : p.pc < w.code.size
  · rw [if_pos hpc, if_pos (show p.pc < (w.under set limit strict).code.size from hpc)]
    rcases hset.decode_eq w.code p.pc with hdecode | hdecode
    · rw [hdecode]
      cases set.decode w.code p.pc with
      | error v => exact .inl rfl
      | ok i =>
        simp only [bind, Except.bind]
        split
        · exact .inl rfl
        · rcases expand_under hlimit with hexpand | ⟨v, hv, hexpand⟩
          · rw [hexpand]
            exact .inl rfl
          · rw [hexpand]
            exact .inr ⟨v, hv, rfl⟩
    · rw [hdecode]
      exact .inr ⟨_, .instruction _ _, rfl⟩
  · rw [if_neg hpc, if_neg (show ¬p.pc < (w.under set limit strict).code.size from hpc)]
    rcases checkEnd_under hstrict with hend | ⟨v, hv, hend⟩
    · rw [hend]
      exact .inl rfl
    · rw [hend]
      exact .inr ⟨v, hv, rfl⟩

/-- The outcome stays the same under wider terms, unless it was a violation that
    they relieve. -/
theorem report_under (hforward : w.instructionSet.IsForward) (hset : set.Extends w.instructionSet)
    (hlimit : w.stackLimit ≤ limit) (hstrict : strict = true → w.strictEnd = true) :
    w.report = (w.under set limit strict).report ∨
      ∃ v, w.Relieved limit strict v ∧ w.report = .error v := by
  rcases run_eq_or_excused hforward (step_under hset hlimit hstrict) with hrun | ⟨v, hv, hrun⟩
  · rw [report, report, hrun]
    exact .inl rfl
  · exact .inr ⟨v, hv, report_of_run_eq_error hrun⟩

end Walk

/-! ## Later hardforks -/

namespace Catalogue

/-- The catalogue has one entry for each opcode. -/
theorem eq_of_opcode_eq {e e' : Entry} (he : e ∈ entries) (he' : e' ∈ entries)
    (h : e.opcode = e'.opcode) : e = e' := by
  have hchain : (entries.map (·.opcode.toNat)).IsChain (· < ·) := by decide +kernel
  have hascending := List.pairwise_map.1 (List.isChain_iff_pairwise.1 hchain)
  have : Std.Symm fun e e' : Entry => e.opcode = e'.opcode → e = e' :=
    ⟨fun _ _ h heq => (h heq.symm).symm⟩
  have hdistinct : entries.Pairwise fun e e' => e.opcode = e'.opcode → e = e' :=
    hascending.imp fun hlt heq => absurd (congrArg UInt8.toNat heq) (Nat.ne_of_lt hlt)
  exact hdistinct.forall_of_forall (fun _ _ _ => rfl) he he' h

end Catalogue

theorem Hardfork.isAtLeast_mono {h₁ h₂ target : Hardfork} (h : h₁ ≤ h₂)
    (htarget : h₁.isAtLeast target = true) : h₂.isAtLeast target = true :=
  decide_eq_true (Nat.le_trans (of_decide_eq_true htarget) h)

namespace InstructionSet

/-- What is in effect under a hardfork is in effect under later ones. -/
theorem isEnabled_mono {h₁ h₂ : Hardfork} (h : h₁ ≤ h₂) (overrides : Rules.Overrides)
    {e : Catalogue.Entry} (he : isEnabled (.ofHardfork h₁ overrides) e = true) :
    isEnabled (.ofHardfork h₂ overrides) e = true := by
  rw [isEnabled] at he ⊢
  split at he
  · -- the switch is overridden in the same way, or follows the hardfork
    next hpush =>
    rw [if_pos hpush]
    rw [Rules.ofHardfork] at he ⊢
    cases hoverride : overrides.hasPush0 with
    | none =>
      rw [hoverride] at he
      exact Hardfork.isAtLeast_mono h he
    | some b =>
      rw [hoverride] at he
      exact he
  · next hpush =>
    rw [if_neg hpush]
    exact Hardfork.isAtLeast_mono h he

/-- Rules under which more is in effect have more instructions. -/
theorem extends_of_isEnabled {rules₁ rules₂ : Rules}
    (h : ∀ e, isEnabled rules₁ e = true → isEnabled rules₂ e = true) :
    (ofRules rules₂).Extends (ofRules rules₁) := by
  intro opcode i hi
  rw [get?_ofRules] at hi ⊢
  obtain ⟨e, he, rfl⟩ := Option.map_eq_some_iff.1 hi
  have hmem := List.mem_of_find?_eq_some he
  have hfound := List.find?_some he
  rw [Bool.and_eq_true, beq_iff_eq] at hfound
  -- under the other rules an entry of this opcode is found, and it is the same
  have hsome : (Catalogue.entries.find? fun e => e.opcode == opcode && isEnabled rules₂ e).isSome :=
    List.find?_isSome.2 ⟨e, hmem, by rw [hfound.1, beq_self_eq_true, h e hfound.2]; rfl⟩
  obtain ⟨e', he'⟩ := Option.isSome_iff_exists.1 hsome
  have hfound' := List.find?_some he'
  rw [Bool.and_eq_true, beq_iff_eq] at hfound'
  rw [enabled?, he', Catalogue.eq_of_opcode_eq (List.mem_of_find?_eq_some he') hmem
    (hfound'.1.trans hfound.1.symm)]
  rfl

/-- Later hardforks only add instructions. -/
theorem extends_ofHardfork {h₁ h₂ : Hardfork} (h : h₁ ≤ h₂) (overrides : Rules.Overrides) :
    (ofRules (.ofHardfork h₂ overrides)).Extends (ofRules (.ofHardfork h₁ overrides)) :=
  extends_of_isEnabled fun _ => isEnabled_mono h overrides

end InstructionSet

/-! ## Verdicts -/

namespace Walk

/-- Verdicts are monotone. Code that is accepted, under instructions that do not
    go back, is accepted with the same report if there are more instructions,
    more room, and paths may still run off its end. A later hardfork only adds
    instructions, and under equal limits it changes no other verdict than that
    an opcode has none. -/
theorem report_mono (code : Code) :
    (∀ (set₁ set₂ : InstructionSet) (limit₁ limit₂ : Int) (strict₁ strict₂ : Bool) (r : Report),
      set₁.IsForward → set₂.Extends set₁ → limit₁ ≤ limit₂ → (strict₂ = true → strict₁ = true) →
      report ⟨set₁, code, limit₁, strict₁⟩ = .ok r →
      report ⟨set₂, code, limit₂, strict₂⟩ = .ok r) ∧
    ∀ (h₁ h₂ : Hardfork) (overrides : Rules.Overrides), h₁ ≤ h₂ →
      (InstructionSet.ofRules (.ofHardfork h₂ overrides)).Extends
        (.ofRules (.ofHardfork h₁ overrides)) ∧
      ∀ (limit : Int) (strict : Bool),
        (∀ pc opcode, report ⟨.ofRules (.ofHardfork h₁ overrides), code, limit, strict⟩ ≠
          .error (.invalidInstruction pc opcode)) →
        report ⟨.ofRules (.ofHardfork h₂ overrides), code, limit, strict⟩ =
          report ⟨.ofRules (.ofHardfork h₁ overrides), code, limit, strict⟩ := by
  refine ⟨fun set₁ set₂ limit₁ limit₂ strict₁ strict₂ r hforward hset hlimit hstrict hr => ?_,
    fun h₁ h₂ overrides h => ⟨InstructionSet.extends_ofHardfork h overrides,
      fun limit strict hvalid => ?_⟩⟩
  · rcases report_under (w := ⟨set₁, code, limit₁, strict₁⟩) hforward hset hlimit
      hstrict with heq | ⟨v, -, herror⟩
    · exact heq.symm.trans hr
    · cases hr.symm.trans herror
  · rcases report_under (w := ⟨_, code, limit, strict⟩)
      (InstructionSet.isRegular_ofRules _).isForward
      (InstructionSet.extends_ofHardfork h overrides) (Int.le_refl limit) id with
      heq | ⟨v, hv, herror⟩
    · exact heq.symm
    · -- with equal limits only a missing instruction is relieved
      cases hv with
      | instruction pc opcode => exact absurd herror (hvalid pc opcode)
      | room _ _ hlt => exact absurd hlt (Int.lt_irrefl limit)
      | ending _ hstrict hlenient => cases hstrict.symm.trans hlenient

/-- Code that shifts the value of the call by itself. -/
def shiftedValue : Code := .ofBytes #[0x34, 0x34, 0x1b, 0x50, 0x00]

/-- The shift came with one hardfork and is there in later ones: what the walk
    says of it then, with room for the two values or without, is said again. -/
theorem report_shiftedValue :
    (∃ r, report ⟨.ofRules (.ofHardfork .constantinople), shiftedValue, 2, true⟩ = .ok r ∧
      report ⟨.ofRules (.ofHardfork .cancun), shiftedValue, 1024, false⟩ = .ok r) ∧
    report ⟨.ofRules (.ofHardfork .constantinople), shiftedValue, 1, true⟩ =
      .error (.stackOverflow 1 1 2) ∧
    report ⟨.ofRules (.ofHardfork .cancun), shiftedValue, 1, true⟩ =
      .error (.stackOverflow 1 1 2) := by
  obtain ⟨hwider, hlater⟩ := report_mono shiftedValue
  obtain ⟨hextends, hsame⟩ := hlater .constantinople .cancun {} (by decide)
  have hfew : report ⟨.ofRules (.ofHardfork .constantinople), shiftedValue, 1, true⟩ =
      .error (.stackOverflow 1 1 2) :=
    report_of_run_eq_error (run_eq_error 10 (by decide +kernel))
  refine ⟨?_, hfew, ?_⟩
  · obtain ⟨s, hs⟩ : ∃ s, run ⟨.ofRules (.ofHardfork .constantinople), shiftedValue, 2, true⟩
        .start = .ok s := exists_run_eq_ok 10 (by decide +kernel)
    have hr := report_of_run_eq_ok hs
    exact ⟨_, hr, hwider _ _ 2 1024 true false _ (InstructionSet.isRegular_ofRules _).isForward
      hextends (by decide) (by decide) hr⟩
  · refine (hsame 1 true fun pc opcode h => ?_).trans hfew
    cases hfew.symm.trans h

end Walk

end EvmFlow
