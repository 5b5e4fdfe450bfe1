import EvmFlow.Code

/-!
# Instruction boundaries

The sweep of a code stands, one after the other, at the *boundaries* of its
instructions: at offset zero, and behind each instruction that it finds inside
the code (`Code.IsBoundary`). All other offsets hold push data.

* `Code.IsBoundary.eq_of_add_eq`: an instruction is behind one instruction
  only, as the boundaries come one after the other;
* `Code.IsBoundary.add_le_of_lt`: instructions do not overlap;
* `Code.isJumpDest_iff`: the jump destinations are the boundaries at which
  their opcode stands.
-/

namespace EvmFlow.Code

variable (code : Code)

/-- An offset at which the sweep stands. -/
inductive IsBoundary : Int → Prop
  | zero : IsBoundary 0
  | next {pc : Int} : IsBoundary pc → pc < code.size →
      IsBoundary (pc + sweepWidth (code.opcode pc))

/-- The offset at which the sweep stands after `k` instructions, if it goes on
    past the end of the code. -/
def boundary : (k : Nat) → Int
  | 0 => 0
  | k + 1 => boundary k + sweepWidth (code.opcode (boundary k))

/-- The offset holds push data: it is inside an instruction that the sweep
    finds, behind its opcode. -/
def IsPushData (pc : Int) : Prop :=
  ∃ b, code.IsBoundary b ∧ b < code.size ∧ b < pc ∧ pc < b + sweepWidth (code.opcode b)

variable {code}

theorem boundary_lt_succ (k : Nat) : code.boundary k < code.boundary (k + 1) := by
  have hpos := sweepWidth_pos (code.opcode (code.boundary k))
  rw [boundary]
  omega

theorem boundary_lt_boundary {j k : Nat} (h : j < k) : code.boundary j < code.boundary k := by
  induction h with
  | refl => exact boundary_lt_succ j
  | step _ ih => exact Int.lt_trans ih (boundary_lt_succ _)

theorem boundary_le_boundary {j k : Nat} (h : j ≤ k) : code.boundary j ≤ code.boundary k := by
  rcases Nat.lt_or_eq_of_le h with hlt | rfl
  · exact Int.le_of_lt (boundary_lt_boundary hlt)
  · exact Int.le_refl _

theorem boundary_inj {j k : Nat} (h : code.boundary j = code.boundary k) : j = k := by
  rcases Nat.lt_trichotomy j k with hlt | heq | hlt
  · exact absurd h (Int.ne_of_lt (boundary_lt_boundary hlt))
  · exact heq
  · exact absurd h.symm (Int.ne_of_lt (boundary_lt_boundary hlt))

namespace IsBoundary

/-- The boundaries are numbered in the order of the sweep. -/
theorem exists_eq_boundary {pc : Int} (h : code.IsBoundary pc) : ∃ k, pc = code.boundary k := by
  induction h with
  | zero => exact ⟨0, rfl⟩
  | next _ _ ih =>
    obtain ⟨k, rfl⟩ := ih
    exact ⟨k + 1, rfl⟩

theorem nonneg {pc : Int} (h : code.IsBoundary pc) : 0 ≤ pc := by
  induction h with
  | zero => exact Int.le_refl 0
  | next _ _ ih => exact Int.add_nonneg ih (Int.natCast_nonneg _)

/-- No instruction ends at offset zero. -/
theorem add_ne_zero {pc : Int} (h : code.IsBoundary pc) :
    pc + sweepWidth (code.opcode pc) ≠ 0 := by
  have hpos := sweepWidth_pos (code.opcode pc)
  have := h.nonneg
  omega

/-- Two instructions that end at the same offset are the same. -/
theorem eq_of_add_eq {p q : Int} (hp : code.IsBoundary p) (hq : code.IsBoundary q)
    (h : p + sweepWidth (code.opcode p) = q + sweepWidth (code.opcode q)) : p = q := by
  obtain ⟨j, rfl⟩ := hp.exists_eq_boundary
  obtain ⟨k, rfl⟩ := hq.exists_eq_boundary
  have hsucc : code.boundary (j + 1) = code.boundary (k + 1) := h
  rw [Nat.succ.inj (boundary_inj hsucc)]

/-- An instruction ends before the next ones begin. -/
theorem add_le_of_lt {p q : Int} (hp : code.IsBoundary p) (hq : code.IsBoundary q) (h : p < q) :
    p + sweepWidth (code.opcode p) ≤ q := by
  obtain ⟨j, rfl⟩ := hp.exists_eq_boundary
  obtain ⟨k, rfl⟩ := hq.exists_eq_boundary
  have hjk : j < k := Nat.lt_of_not_le fun hkj => Int.not_lt.2 (boundary_le_boundary hkj) h
  exact boundary_le_boundary hjk

/-- No instruction begins in push data. -/
theorem not_isPushData {pc : Int} (h : code.IsBoundary pc) : ¬code.IsPushData pc := by
  rintro ⟨b, hb, -, hlt, hinside⟩
  exact Int.not_lt.2 (hb.add_le_of_lt h hlt) hinside

end IsBoundary

/-! ## Jump destinations -/

theorem opcode_natCast {pc : Nat} (h : pc < code.bytes.size) :
    code.opcode pc = code.bytes[pc] := by
  rw [opcode, byte?_natCast, Array.getElem?_eq_getElem h, Option.getD_some]

/-- Inside the code the opcode is a byte of it. -/
theorem byte?_eq_some {pc : Int} (h₀ : 0 ≤ pc) (h : pc < code.size) :
    code.byte? pc = some (code.opcode pc) := by
  obtain ⟨k, rfl⟩ := Int.eq_ofNat_of_zero_le h₀
  have hk : k < code.bytes.size := Int.ofNat_lt.1 h
  rw [opcode_natCast hk, byte?_natCast, Array.getElem?_eq_getElem hk]

/-- An offset that is marked after a sweep was marked before it, or is a
    boundary at which the sweep found a jump destination. -/
theorem of_mem_sweepFrom {pc : Nat} {marks : Array Bool} (hpc : code.IsBoundary pc) {d : Nat}
    (h : (sweepFrom code.bytes pc marks).getD d false = true) :
    marks.getD d false = true ∨
      (d < code.size ∧ code.opcode d = jumpDestOpcode ∧ code.IsBoundary d) := by
  induction pc, marks using sweepFrom.induct code.bytes with
  | case1 pc marks hlt ih =>
    rw [sweepFrom, dif_pos hlt] at h
    have hop := opcode_natCast hlt
    have hnext : code.IsBoundary ((pc + sweepWidth code.bytes[pc] : Nat) : Int) := by
      have := hpc.next (Int.ofNat_lt.2 hlt)
      rwa [hop] at this
    rcases ih hnext h with hmark | hd
    · split at hmark
      · -- the mark is an old one, or the one set at `pc`
        next hjump =>
        by_cases hpd : pc = d
        · subst hpd
          exact .inr ⟨hlt, hop.trans hjump, hpc⟩
        · rw [Array.getD_eq_getD_getElem?, Array.getElem?_setIfInBounds_ne hpd,
            ← Array.getD_eq_getD_getElem?] at hmark
          exact .inl hmark
      · exact .inl hmark
    · exact .inr hd
  | case2 pc marks hlt =>
    rw [sweepFrom, dif_neg hlt] at h
    exact .inl h

/-- A jump destination is an offset of the code, and stands at a boundary. -/
theorem of_isJumpDest {d : Int} (h : code.isJumpDest d = true) :
    0 ≤ d ∧ d < code.size ∧ code.opcode d = jumpDestOpcode ∧ code.IsBoundary d := by
  match d, h with
  | .ofNat d, h =>
    have hmark : code.marks.getD d false = true := h
    rw [code.marks_eq, sweep] at hmark
    rcases of_mem_sweepFrom .zero hmark with hold | ⟨hlt, hop, hd⟩
    · rw [Array.getD_eq_getD_getElem?, Array.getElem?_replicate] at hold
      split at hold <;> cases hold
    · exact ⟨Int.natCast_nonneg d, Int.ofNat_lt.2 hlt, hop, hd⟩

theorem isBoundary_of_isJumpDest {d : Int} (h : code.isJumpDest d = true) : code.IsBoundary d :=
  (of_isJumpDest h).2.2.2

theorem getD_setIfInBounds {marks : Array Bool} {pc d : Nat} (h : marks.getD d false = true) :
    (marks.setIfInBounds pc true).getD d false = true := by
  rw [Array.getD_eq_getD_getElem?] at h ⊢
  rw [Array.getElem?_setIfInBounds]
  split
  · next heq =>
    split
    · rfl
    · next hle =>
      rw [← heq, Array.getElem?_eq_none (Nat.le_of_not_lt hle)] at h
      cases h
  · exact h

/-- The sweep keeps the marks that it finds. -/
theorem getD_sweepFrom_of_getD {bytes : Array UInt8} {pc d : Nat} {marks : Array Bool}
    (h : marks.getD d false = true) : (sweepFrom bytes pc marks).getD d false = true := by
  induction pc, marks using sweepFrom.induct bytes with
  | case1 pc marks hlt ih =>
    rw [sweepFrom, dif_pos hlt]
    apply ih
    split
    · exact getD_setIfInBounds h
    · exact h
  | case2 pc marks hlt =>
    rw [sweepFrom, dif_neg hlt]
    exact h

/-- The sweep marks the jump destinations at the boundaries that lie ahead. -/
theorem getD_sweepFrom {pc : Nat} {marks : Array Bool} (hpc : code.IsBoundary pc)
    (hmarks : marks.size = code.size) {d : Nat} (hle : pc ≤ d) (hlt : d < code.size)
    (hd : code.IsBoundary d) (hop : code.opcode d = jumpDestOpcode) :
    (sweepFrom code.bytes pc marks).getD d false = true := by
  induction pc, marks using sweepFrom.induct code.bytes with
  | case1 pc marks hpc' ih =>
    rw [sweepFrom, dif_pos hpc']
    have hopcode := opcode_natCast hpc'
    rcases Nat.lt_or_eq_of_le hle with hbefore | rfl
    · have hnext := hpc.next (Int.ofNat_lt.2 hpc')
      have hnext_le := hpc.add_le_of_lt hd (Int.ofNat_lt.2 hbefore)
      rw [hopcode] at hnext hnext_le
      refine ih hnext ?_ (Int.ofNat_le.1 hnext_le)
      split
      · rw [Array.size_setIfInBounds, hmarks]
      · exact hmarks
    · -- the sweep stands at the jump destination, and sets the mark
      refine getD_sweepFrom_of_getD ?_
      rw [if_pos (hopcode.symm.trans hop), Array.getD_eq_getD_getElem?,
        Array.getElem?_setIfInBounds_self_of_lt (hmarks ▸ hlt)]
      rfl
  | case2 pc marks hpc' => exact absurd (Nat.lt_of_le_of_lt hle hlt) hpc'

/-- The jump destinations are the boundaries of the code at which their opcode
    stands. -/
theorem isJumpDest_iff {d : Int} : code.isJumpDest d = true ↔
    code.IsBoundary d ∧ d < code.size ∧ code.opcode d = jumpDestOpcode := by
  constructor
  · intro h
    obtain ⟨-, hlt, hop, hd⟩ := of_isJumpDest h
    exact ⟨hd, hlt, hop⟩
  · rintro ⟨hd, hlt, hop⟩
    obtain ⟨k, rfl⟩ := Int.eq_ofNat_of_zero_le hd.nonneg
    rw [isJumpDest_natCast, code.marks_eq, sweep]
    exact getD_sweepFrom .zero Array.size_replicate (Nat.zero_le k) (Int.ofNat_lt.1 hlt) hd hop

end EvmFlow.Code
