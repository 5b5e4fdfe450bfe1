import EvmFlow.Proofs.Boundary
import EvmFlow.Proofs.Termination
import EvmFlow.Proofs.Runs

/-!
# Paths under a regular instruction set

Under a regular instruction set a path only goes forward or to a jump
destination, so it never comes before the code, and an instruction that is
followed has its literal inside the code.

* `Walk.Follows.leads`, `Walk.Leads.follows`: where an instruction leads;
* `Walk.IsPath.isBoundary`: paths stay at the boundaries of instructions.
-/

namespace EvmFlow.Walk

/-- The machine on which the code that is walked over runs. -/
def machine (w : Walk) (stackLimit : Int) : Machine := ⟨w.instructionSet, w.code, stackLimit⟩

variable {w : Walk} {p : Path} {i : Instruction} {e : Expansion}

theorem of_immediate_eq_ok {code : Code} {pc : Int} {value : Nat}
    (h : i.immediate code pc = .ok value) :
    pc + i.width ≤ code.size ∧ value = code.word (pc + 1) i.immediateLength.toNat := by
  rw [Instruction.immediate] at h
  split at h
  · cases h
  · next hle =>
    cases h
    exact ⟨Int.not_lt.1 hle, rfl⟩

theorem of_checkExit_eq_ok {pc height base : Int} (h : checkExit pc height base = .ok ()) :
    base ≤ height := by
  rw [checkExit] at h
  split at h
  · cases h
  · next hle => exact Int.not_lt.1 hle

/-- The paths that go on from an instruction, according to its kind. -/
inductive Leads (w : Walk) (p : Path) (i : Instruction) : Expansion → Prop
  | jump {d : Int} : i.kind = .jump → p.shadow.pop.1 = some d → w.code.isJumpDest d = true →
      Leads w p i ⟨some d, [⟨d, i.heightAfter p.height, i.heightAfter p.height, p.shadow.pop.2⟩]⟩
  | jumpi {d : Int} : i.kind = .jumpi → p.shadow.pop.1 = some d → w.code.isJumpDest d = true →
      Leads w p i ⟨some d, [⟨p.pc + i.width, i.heightAfter p.height, i.heightAfter p.height,
        p.shadow.pop.2.drop 1⟩, ⟨d, i.heightAfter p.height, i.heightAfter p.height,
        p.shadow.pop.2.drop 1⟩]⟩
  | terminal : i.kind = .terminal → p.base ≤ i.heightAfter p.height → Leads w p i ⟨none, []⟩
  | straight : i.kind.isJump = false → i.kind ≠ .terminal → p.pc + i.width ≤ w.code.size →
      Leads w p i ⟨none, [⟨p.pc + i.width, i.heightAfter p.height, p.base,
        p.shadow.apply i (w.code.word (p.pc + 1) i.immediateLength.toNat)⟩]⟩

/-- A jump leads to a path at its destination, the constant that was on top. -/
theorem Leads.exists_dest (h : w.Leads p i e) (hk : i.kind.isJump = true) :
    ∃ d, p.shadow.pop.1 = some d ∧ w.code.isJumpDest d = true ∧ e.target = some d ∧
      ∃ q ∈ e.next, q.pc = d ∧ q.height = i.heightAfter p.height := by
  cases h with
  | jump _ hd hdest => exact ⟨_, hd, hdest, rfl, _, List.mem_singleton_self _, rfl, rfl⟩
  | jumpi _ hd hdest =>
    exact ⟨_, hd, hdest, rfl, _, List.mem_cons_of_mem _ (List.mem_singleton_self _), rfl, rfl⟩
  | terminal hk' =>
    rw [hk'] at hk
    cases hk
  | straight hk' => cases hk.symm.trans hk'

/-- A terminal instruction leads nowhere. -/
theorem Leads.ne_terminal {q : Path} (h : w.Leads p i e) (hq : q ∈ e.next) :
    i.kind ≠ .terminal := by
  intro hk
  cases h with
  | jump hk' => cases hk.symm.trans hk'
  | jumpi hk' => cases hk.symm.trans hk'
  | terminal => cases hq
  | straight _ hk' => exact hk' hk

namespace Follows

theorem isRegular (hset : w.instructionSet.IsRegular) (h : w.Follows p i e) :
    i.IsRegular (w.code.opcode p.pc) :=
  hset _ _ h.get?

theorem consumes_le (h : w.Follows p i e) : i.consumes ≤ p.height :=
  (expand_cases h.expand).1

theorem heightAfter_le (h : w.Follows p i e) : i.heightAfter p.height ≤ w.stackLimit :=
  (expand_cases h.expand).2.1

/-- Where an instruction leads. -/
theorem leads (hset : w.instructionSet.IsRegular) (h : w.Follows p i e) : w.Leads p i e := by
  have hterminal := (h.isRegular hset).terminal_iff
  rcases (expand_cases h.expand).2.2 with ⟨hk, d, hd, rfl⟩ | ⟨hk, d, hd, rfl⟩ |
    ⟨hk, value, hvalue, ⟨hends, hexit, rfl⟩ | ⟨hgoes, rfl⟩⟩
  · exact .jump hk (of_destination_eq_ok hd).1 (of_destination_eq_ok hd).2
  · exact .jumpi hk (of_destination_eq_ok hd).1 (of_destination_eq_ok hd).2
  · exact .terminal (hterminal.1 hends) (of_checkExit_eq_ok hexit)
  · obtain ⟨hle, rfl⟩ := of_immediate_eq_ok hvalue
    refine .straight hk (fun hkind => ?_) hle
    cases hgoes.symm.trans (hterminal.2 hkind)

end Follows

/-- An instruction that leads on is followed, if there are enough items and
    there is room. -/
theorem Leads.follows (hset : w.instructionSet.IsRegular) (hpc : p.pc < w.code.size)
    (hget : w.instructionSet.get? (w.code.opcode p.pc) = some i) (henough : i.consumes ≤ p.height)
    (hroom : i.heightAfter p.height ≤ w.stackLimit) (h : w.Leads p i e) : w.Follows p i e := by
  refine ⟨hpc, hget, ?_⟩
  have hi := hset _ _ hget
  simp only [expand, if_neg (Int.not_lt.2 henough), if_neg (Int.not_lt.2 hroom)]
  cases h with
  | jump hk hd hdest => simp only [hk, destination, hd, if_pos hdest]; rfl
  | jumpi hk hd hdest => simp only [hk, destination, hd, if_pos hdest]; rfl
  | terminal hk hexit =>
    have hle : p.pc + i.width ≤ w.code.size := by
      rw [hi.width_eq_one (by rw [hk]; decide)]
      exact Int.add_one_le_of_lt hpc
    simp only [hk, Instruction.immediate, if_neg (Int.not_lt.2 hle), hi.terminal_iff.2 hk,
      checkExit, if_neg (Int.not_lt.2 hexit)]
    rfl
  | straight hk hterminal hle =>
    have hgoes : i.terminal = false :=
      Bool.eq_false_iff.2 fun h => hterminal (hi.terminal_iff.1 h)
    simp only [Instruction.immediate, if_neg (Int.not_lt.2 hle), hgoes]
    split
    · next hk' => rw [hk'] at hk; cases hk
    · next hk' => rw [hk'] at hk; cases hk
    · rfl

namespace IsPath

/-- Paths stay at the boundaries of instructions, and do not pass the end of
    the code. -/
theorem isBoundary_and_le (hset : w.instructionSet.IsRegular) (h : w.IsPath p) :
    w.code.IsBoundary p.pc ∧ p.pc ≤ w.code.size := by
  induction h with
  | start => exact ⟨.zero, Int.natCast_nonneg _⟩
  | @next p q i e _ hf hq ih =>
    have hi := hf.isRegular hset
    have hbehind : w.code.IsBoundary (p.pc + i.width) := hi.width ▸ ih.1.next hf.inside
    have hdest : ∀ {d : Int}, w.code.isJumpDest d = true →
        w.code.IsBoundary d ∧ d ≤ w.code.size := fun hd =>
      ⟨Code.isBoundary_of_isJumpDest hd, Int.le_of_lt (Code.of_isJumpDest hd).2.1⟩
    cases hf.leads hset with
    | jump _ _ hd =>
      cases List.mem_singleton.1 hq
      exact hdest hd
    | jumpi hk _ hd =>
      rcases List.mem_cons.1 hq with rfl | hq
      · -- a jump is one byte long, so the offset behind it is not past the end
        have hwidth := hi.width_eq_one (by rw [hk]; decide)
        rw [hwidth] at hbehind ⊢
        exact ⟨hbehind, Int.add_one_le_of_lt hf.inside⟩
      · cases List.mem_singleton.1 hq
        exact hdest hd
    | terminal => cases hq
    | straight _ _ hle =>
      cases List.mem_singleton.1 hq
      exact ⟨hbehind, hle⟩

theorem isBoundary (hset : w.instructionSet.IsRegular) (h : w.IsPath p) :
    w.code.IsBoundary p.pc :=
  (h.isBoundary_and_le hset).1

theorem pc_le (hset : w.instructionSet.IsRegular) (h : w.IsPath p) : p.pc ≤ w.code.size :=
  (h.isBoundary_and_le hset).2

end IsPath

end EvmFlow.Walk
