import EvmFlow.Proofs.Boundary

/-!
# Where jumps may lead

The boundaries of a code are the smallest set of offsets that holds zero and
goes on behind each instruction (`Code.ContainsStarts`), where a push
instruction is followed by as many bytes of push data as its opcode says
(`Code.literalLength`). Inside the code an offset is either a boundary or push
data (`Code.isBoundary_or_isPushData`), so the boundaries can also be told by
the pushes before them.

The sweep goes from left to right, so whether it stands at an offset is decided
by the bytes before it (`Code.IsBoundary.of_byte?_eq`).

* `Code.jumpDests_exact`: the jump destinations are the bytes `0x5b` that are
  boundaries, or that no push reaches over, and the bytes behind them do not
  matter.
-/

namespace EvmFlow.Code

/-- The number of bytes behind an opcode that are its push data. -/
def literalLength (opcode : UInt8) : Nat :=
  if 0x60 ≤ opcode ∧ opcode ≤ 0x7f then opcode.toNat - 0x5f else 0

variable (code : Code)

/-- A set of offsets that holds zero and, with each offset inside the code, the
    one behind the instruction there. -/
structure ContainsStarts (offsets : Int → Prop) : Prop where
  zero : offsets 0
  behind {p : Int} {opcode : UInt8} : offsets p → code.byte? p = some opcode →
    offsets (p + 1 + literalLength opcode)

/-- The byte at `p` is the opcode of a push of `n` bytes. -/
def HoldsPush (p : Int) (n : Nat) : Prop :=
  ∃ opcode, code.byte? p = some opcode ∧ 0x60 ≤ opcode ∧ opcode ≤ 0x7f ∧ n = opcode.toNat - 0x5f

variable {code} {other : Code} {p pc : Int} {opcode : UInt8}

/-! ## The smallest set -/

theorem sweepWidth_eq (opcode : UInt8) : sweepWidth opcode = 1 + literalLength opcode := by
  rw [sweepWidth, literalLength]
  split
  · next h =>
    have hle : 0x60 ≤ opcode.toNat := UInt8.le_iff_toNat_le.1 h.1
    omega
  · rfl

theorem byte?_eq_some_iff : code.byte? p = some opcode ↔
    0 ≤ p ∧ p < code.size ∧ code.opcode p = opcode := by
  constructor
  · intro h
    match p, h with
    | .ofNat k, h =>
      obtain ⟨hlt, -⟩ := Array.getElem?_eq_some_iff.1 h
      exact ⟨Int.natCast_nonneg k, Int.ofNat_lt.2 hlt, by rw [Code.opcode, h, Option.getD_some]⟩
  · rintro ⟨hnonneg, hlt, rfl⟩
    exact byte?_eq_some hnonneg hlt

theorem containsStarts_isBoundary : code.ContainsStarts code.IsBoundary where
  zero := .zero
  behind := by
    intro p opcode hp hbyte
    obtain ⟨-, hlt, rfl⟩ := byte?_eq_some_iff.1 hbyte
    have hnext := hp.next hlt
    rwa [sweepWidth_eq, Int.natCast_add, ← Int.add_assoc] at hnext

/-- The boundaries are in every set that goes on behind each instruction. -/
theorem ContainsStarts.of_isBoundary {offsets : Int → Prop} (h : code.ContainsStarts offsets)
    (hpc : code.IsBoundary pc) : offsets pc := by
  induction hpc with
  | zero => exact h.zero
  | next hp hlt ih =>
    rw [sweepWidth_eq, Int.natCast_add, ← Int.add_assoc]
    exact h.behind ih (byte?_eq_some hp.nonneg hlt)

/-! ## Boundaries and push data -/

/-- The sweep leaves no gap: what is not a boundary is push data. -/
theorem isBoundary_or_isPushData (hnonneg : 0 ≤ pc) (hlt : pc < code.size) :
    code.IsBoundary pc ∨ code.IsPushData pc := by
  obtain ⟨k, rfl⟩ := Int.eq_ofNat_of_zero_le hnonneg
  induction k with
  | zero => exact .inl .zero
  | succ k ih =>
    -- the instruction that holds the byte before goes on, or ends there
    obtain ⟨b, hb, hsize, hle, hinside⟩ : ∃ b, code.IsBoundary b ∧ b < code.size ∧ b ≤ (k : Int) ∧
        (k : Int) < b + sweepWidth (code.opcode b) := by
      rcases ih (Int.natCast_nonneg k) (by omega) with hk | ⟨b, hb, hsize, hbefore, hinside⟩
      · have hpos := sweepWidth_pos (code.opcode k)
        exact ⟨k, hk, by omega, Int.le_refl _, by omega⟩
      · exact ⟨b, hb, hsize, Int.le_of_lt hbefore, hinside⟩
    by_cases hend : ((k + 1 : Nat) : Int) = b + sweepWidth (code.opcode b)
    · exact .inl (hend ▸ hb.next hsize)
    · exact .inr ⟨b, hb, hsize, by omega, by omega⟩

/-- Push data is what a push reaches over. -/
theorem isPushData_iff :
    code.IsPushData pc ↔ ∃ p n, code.IsBoundary p ∧ p < pc ∧ code.HoldsPush p n ∧ pc ≤ p + n := by
  constructor
  · rintro ⟨p, hp, hlt, hbefore, hinside⟩
    rw [sweepWidth_eq, literalLength] at hinside
    split at hinside
    · next hpush =>
      exact ⟨p, _, hp, hbefore, ⟨_, byte?_eq_some hp.nonneg hlt, hpush.1, hpush.2, rfl⟩, by omega⟩
    · omega
  · rintro ⟨p, n, hp, hbefore, ⟨opcode, hbyte, hlow, hhigh, rfl⟩, hreach⟩
    obtain ⟨-, hlt, rfl⟩ := byte?_eq_some_iff.1 hbyte
    refine ⟨p, hp, hlt, hbefore, ?_⟩
    rw [sweepWidth_eq, literalLength, if_pos ⟨hlow, hhigh⟩]
    omega

/-- Inside the code the boundaries are the offsets that no push reaches over. -/
theorem isBoundary_iff_of_lt (hnonneg : 0 ≤ pc) (hlt : pc < code.size) : code.IsBoundary pc ↔
    ¬∃ p n, code.IsBoundary p ∧ p < pc ∧ code.HoldsPush p n ∧ pc ≤ p + n := by
  rw [← isPushData_iff]
  exact ⟨IsBoundary.not_isPushData, (isBoundary_or_isPushData hnonneg hlt).resolve_right⟩

/-! ## What decides about an offset -/

/-- The sweep comes to an offset by the bytes before it. -/
theorem IsBoundary.of_byte?_eq (hpc : code.IsBoundary pc)
    (h : ∀ q < pc, other.byte? q = code.byte? q) : other.IsBoundary pc := by
  induction hpc with
  | zero => exact .zero
  | @next p hp hlt ih =>
    have hpos := sweepWidth_pos (code.opcode p)
    have hbyte := h p (by omega)
    rw [byte?_eq_some hp.nonneg hlt] at hbyte
    obtain ⟨-, hlt', hopcode⟩ := byte?_eq_some_iff.1 hbyte
    have hp' : other.IsBoundary p := ih fun q hq => h q (by omega)
    exact hopcode ▸ hp'.next hlt'

theorem isJumpDest_iff_byte? : code.isJumpDest pc = true ↔
    0 ≤ pc ∧ pc < code.size ∧ code.byte? pc = some 0x5b ∧ code.IsBoundary pc := by
  rw [isJumpDest_iff]
  constructor
  · rintro ⟨hpc, hlt, hopcode⟩
    exact ⟨hpc.nonneg, hlt, byte?_eq_some_iff.2 ⟨hpc.nonneg, hlt, hopcode⟩, hpc⟩
  · rintro ⟨-, hlt, hbyte, hpc⟩
    exact ⟨hpc, hlt, (byte?_eq_some_iff.1 hbyte).2.2⟩

theorem isJumpDest_of_byte?_eq (h : ∀ q ≤ pc, other.byte? q = code.byte? q)
    (hdest : code.isJumpDest pc = true) : other.isJumpDest pc = true := by
  obtain ⟨-, -, hbyte, hpc⟩ := isJumpDest_iff_byte?.1 hdest
  have hbyte' : other.byte? pc = some 0x5b := (h pc (Int.le_refl pc)).trans hbyte
  obtain ⟨hnonneg, hlt, -⟩ := byte?_eq_some_iff.1 hbyte'
  exact isJumpDest_iff_byte?.2
    ⟨hnonneg, hlt, hbyte', hpc.of_byte?_eq fun q hq => h q (Int.le_of_lt hq)⟩

/-- In the code of any bytes, the boundaries are the smallest set that goes on
    behind each instruction; the jump destinations are the offsets of the bytes
    `0x5b` among them, or, equivalently, of those that no push at a boundary
    reaches over; and the bytes behind an offset do not matter to it. -/
theorem jumpDests_exact (bytes : Array UInt8) :
    ((ofBytes bytes).ContainsStarts (ofBytes bytes).IsBoundary ∧
      ∀ offsets, (ofBytes bytes).ContainsStarts offsets →
        ∀ pc, (ofBytes bytes).IsBoundary pc → offsets pc) ∧
    ∀ pc : Int,
      ((ofBytes bytes).isJumpDest pc = true ↔
        0 ≤ pc ∧ pc < bytes.size ∧ (ofBytes bytes).byte? pc = some 0x5b ∧
          (ofBytes bytes).IsBoundary pc) ∧
      ((ofBytes bytes).isJumpDest pc = true ↔
        0 ≤ pc ∧ pc < bytes.size ∧ (ofBytes bytes).byte? pc = some 0x5b ∧
          ¬∃ p n, (ofBytes bytes).IsBoundary p ∧ p < pc ∧ (ofBytes bytes).HoldsPush p n ∧
            pc ≤ p + n) ∧
      ∀ others : Array UInt8,
        (∀ q ≤ pc, (ofBytes others).byte? q = (ofBytes bytes).byte? q) →
          (ofBytes others).isJumpDest pc = (ofBytes bytes).isJumpDest pc := by
  refine ⟨⟨containsStarts_isBoundary, fun _ h _ => h.of_isBoundary⟩, fun pc =>
    ⟨isJumpDest_iff_byte?, ?_, fun others h => ?_⟩⟩
  · rw [isJumpDest_iff_byte?]
    refine and_congr_right fun hnonneg => and_congr_right fun hlt => and_congr_right fun _ => ?_
    exact isBoundary_iff_of_lt hnonneg hlt
  · exact Bool.eq_iff_iff.2
      ⟨isJumpDest_of_byte?_eq fun q hq => (h q hq).symm, isJumpDest_of_byte?_eq h⟩

/-- Two codes that begin with a push of `0x5b` and a jump destination. In one a
    push follows that the end of the code cuts off. -/
theorem jumpDests_sharedStart :
    (∀ q ≤ (2 : Int), (ofBytes #[0x60, 0x5b, 0x5b, 0x61, 0x5b]).byte? q =
      (ofBytes #[0x60, 0x5b, 0x5b, 0x00]).byte? q) ∧
    (ofBytes #[0x60, 0x5b, 0x5b, 0x00]).isJumpDest 2 = true ∧
    (ofBytes #[0x60, 0x5b, 0x5b, 0x61, 0x5b]).isJumpDest 2 = true := by
  have hshared : ∀ q ≤ (2 : Int), (ofBytes #[0x60, 0x5b, 0x5b, 0x61, 0x5b]).byte? q =
      (ofBytes #[0x60, 0x5b, 0x5b, 0x00]).byte? q := by
    intro q hq
    by_cases hneg : q < 0
    · rw [byte?_of_neg hneg, byte?_of_neg hneg]
    · obtain rfl | rfl | rfl : q = 0 ∨ q = 1 ∨ q = 2 := by omega
      all_goals rfl
  have hdest : (ofBytes #[0x60, 0x5b, 0x5b, 0x00]).isJumpDest 2 = true := by decide +kernel
  exact ⟨hshared, hdest,
    (((jumpDests_exact #[0x60, 0x5b, 0x5b, 0x00]).2 2).2.2 _ hshared).trans hdest⟩

end EvmFlow.Code
