import EvmFlow.Proofs.BlockLayout

/-!
# Generated programs are well formed

Whatever the dice show, the blocks of a generated program are proper
(`Generator.yields_blocks`): they hold few instructions, none of which jumps, and
their endings jump to one of the blocks only. So the program assembles to resolved
code that is short enough not to overflow the stack.

* `Generator.program_wellFormed`: the program of every seed assembles, its jumps
  stand behind the push of a jump destination, and all that the walk may find wrong
  is that there are too few items on the stack.
-/

namespace EvmFlow.Generator

open Assembly InstructionSet

/-! ## What the dice can show -/

/-- Whatever the dice, the result has the property. -/
def Yields {α : Type} (x : StateM Dice α) (P : α → Prop) : Prop := ∀ dice, P (x.run dice).1

section Yields

variable {α β : Type} {x : StateM Dice α} {f : α → StateM Dice β} {P : α → Prop} {Q : β → Prop}

theorem yields_pure {a : α} (h : P a) : Yields (pure a) P := fun _ => h

theorem Yields.bind (hx : Yields x P) (hf : ∀ a, P a → Yields (f a) Q) : Yields (x >>= f) Q :=
  fun dice => hf _ (hx dice) (x.run dice).2

theorem Yields.mono {Q : α → Prop} (hx : Yields x P) (h : ∀ a, P a → Q a) : Yields x Q :=
  fun dice => h _ (hx dice)

theorem yields_any (x : StateM Dice α) : Yields x fun _ => True := fun _ => trivial

theorem yields_roll {bound : Nat} (h : 0 < bound) : Yields (roll bound) (· < bound) :=
  fun dice => dice.roll_lt h

theorem Yields.times (hx : Yields x P) (k : Nat) :
    Yields (times x k) fun as => as.length = k ∧ ∀ a ∈ as, P a := by
  induction k with
  | zero => exact yields_pure ⟨rfl, by simp⟩
  | succ k ih =>
    refine hx.bind fun a ha => ih.bind fun as has => yields_pure ?_
    exact ⟨by rw [List.length_cons, has.1], List.forall_mem_cons.2 ⟨ha, has.2⟩⟩

end Yields

/-! ## Proper blocks -/

/-- An instruction that does not jump makes a proper item with any literal of one
    byte. -/
theorem isProper_item {i : Instruction} {literal : Nat} (hi : i ∈ instructionSet.instructions)
    (hk : i.kind.isJump = false) (hliteral : 0 < i.immediateLength → literal < 256) :
    Item.IsProper ⟨i.name, i.immediateLength.toNat, literal⟩ := by
  have hlength : i.immediateLength.toNat ≤ 32 := by
    obtain ⟨e, -, rfl⟩ := exists_entry hi
    exact Nat.le_of_lt_succ e.immediate.isLt
  have hsize (value : Nat) : (i.bytes value).length = 1 + i.immediateLength.toNat := by
    rw [Instruction.length_bytes, Nat.add_comm]
  have hle : 1 + i.immediateLength.toNat ≤ 33 := by omega
  by_cases hpos : 0 < i.immediateLength
  · have hline : Item.line ⟨i.name, i.immediateLength.toNat, literal⟩ = render (i, literal) :=
      if_pos (show 0 < i.immediateLength.toNat by omega)
    have hlt : literal < Nat.pow 256 i.immediateLength.toNat := by
      calc literal < Nat.pow 256 1 := hliteral hpos
        _ ≤ Nat.pow 256 i.immediateLength.toNat := Nat.pow_le_pow_right (by decide) (by omega)
    have hfits : instructionSet.Fits (i, literal) := ⟨mem_instructions_iff.1 hi, hlt⟩
    exact ⟨i, literal, hline ▸ isLine_render hfits hpos, hk, hsize literal, hle⟩
  · have hline : Item.line ⟨i.name, i.immediateLength.toNat, literal⟩ = i.name :=
      if_neg (show ¬0 < i.immediateLength.toNat by omega)
    exact ⟨i, 0, by rw [hline]; exact isLine_name hi, hk, hsize 0, hle⟩

theorem isProper_head : Item.head.IsProper :=
  isProper_item (mem_instructions (i := jumpDest) (by decide)) rfl fun h => by cases h

theorem isProper_of_mem_pool {kinds : List Kind} (hkinds : ∀ k ∈ kinds, k.isJump = false)
    {i : Instruction} (h : i ∈ pool kinds) {literal : Nat}
    (hliteral : 0 < i.immediateLength → literal < 256) :
    Item.IsProper ⟨i.name, i.immediateLength.toNat, literal⟩ := by
  obtain ⟨hi, hchosen⟩ := List.mem_filter.1 h
  rw [Bool.and_eq_true, List.contains_iff_mem] at hchosen
  exact isProper_item hi (hkinds _ hchosen.2) hliteral

theorem yields_item : Yields item Item.IsProper := by
  refine (yields_any _).bind fun k _ => (yields_any _).bind fun j _ => ?_
  split
  · exact yields_pure isProper_head
  · next i hi =>
    have hproper : ∀ literal, (0 < i.immediateLength → literal < 256) →
        Item.IsProper ⟨i.name, i.immediateLength.toNat, literal⟩ := by
      have hmem := List.mem_of_getElem? hi
      split at hmem
      · exact fun _ => isProper_of_mem_pool (by decide) hmem
      · split at hmem
        · exact fun _ => isProper_of_mem_pool (by decide) hmem
        · exact fun _ => isProper_of_mem_pool (by decide) hmem
    dsimp only
    split
    · exact (yields_roll (by decide)).bind fun literal hlt =>
        yields_pure (hproper literal fun _ => hlt)
    · next hnot =>
      exact (yields_any _).bind fun literal _ =>
        yields_pure (hproper literal fun hpos => absurd hpos hnot)

theorem yields_ending {count : Nat} (h : 0 < count) :
    Yields (ending count) (Ending.IsProper count) := by
  refine (yields_any _).bind fun k _ => ?_
  split
  · exact (yields_roll h).bind fun _ ht => yields_pure ht
  · exact (yields_roll h).bind fun _ ht => yields_pure ht
  · exact yields_pure trivial
  · exact yields_pure trivial

theorem yields_block {count : Nat} (h : 0 < count) :
    Yields (block count) (Block.IsProper count) := by
  refine (yields_roll (by decide)).bind fun length hlength => ?_
  refine (yields_item.times length).bind fun body hbody => ?_
  refine (yields_ending h).bind fun last hlast => yields_pure ?_
  exact ⟨by rw [hbody.1]; omega, hbody.2, hlast⟩

/-- There are at most four blocks, and all are proper. -/
theorem yields_blocks : Yields blocks fun blocks =>
    blocks.length ≤ 4 ∧ ∀ b ∈ blocks, b.IsProper blocks.length := by
  refine (yields_roll (by decide)).bind fun k hk => ?_
  have hcount : 0 < 1 + k := by omega
  refine ((yields_block hcount).times (1 + k)).mono fun blocks hblocks => ?_
  rw [hblocks.1]
  exact ⟨by omega, hblocks.2⟩

/-! ## Programs -/

/-- The program of every seed assembles. Each of its jumps is right behind the push
    of an offset at which a jump destination stands in the code, as a line of the
    program and as an instruction of the code. The walk of the code gives a report, or
    finds too few items on the stack. -/
theorem program_wellFormed (seed : Int) :
    ∃ code : Code, assemble (program seed) = .ok code.bytes.toList ∧
      (∀ k, (program seed)[k]? = some "JUMP" ∨ (program seed)[k]? = some "JUMPI" →
        ∃ j d, k = j + 1 ∧
          (program seed)[j]? = some ("PUSH2 0x" ++ String.ofList (Text.numeral 16 (d : Nat))) ∧
          code.isJumpDest d = true) ∧
      (∀ pc, code.IsBoundary pc → pc < code.size → Code.IsJump (code.opcode pc) →
        ∃ b, code.IsBoundary b ∧ code.opcode b = 0x61 ∧ b + 3 = pc ∧
          code.isJumpDest (code.word (b + 1) 2) = true) ∧
      ((∃ r, Walk.report ⟨instructionSet, code, 1024, false⟩ = .ok r) ∨
        ∃ pc required available, Walk.report ⟨instructionSet, code, 1024, false⟩ =
          .error (.stackUnderflow pc required available)) := by
  obtain ⟨hlength, hproper⟩ := yields_blocks (.ofSeed seed)
  rw [program]
  generalize (blocks.run (.ofSeed seed)).1 = blocks at hlength hproper
  have hheads : ∀ d ∈ offsets 0 blocks, d < 65536 := fun d hd => by
    have hle := le_of_mem_offsets hproper hd
    omega
  obtain ⟨listing, hlaid⟩ := exists_laid hheads ((length_offsets 0 blocks).symm ▸ hproper)
  have hguarded := hlaid.guarded
  obtain ⟨hassemble, hfits⟩ := assemble_eq hguarded.writes
  have hlists : instructionSet.Lists (.ofBytes (bytes listing).toArray) (0 : Nat) listing :=
    lists_bytes hfits
  have hdest : ∀ d ∈ offsets 0 blocks, (Code.ofBytes (bytes listing).toArray).isJumpDest d = true :=
    fun d hd => hlaid.isJumpDest hlists .zero hd
  refine ⟨.ofBytes (bytes listing).toArray, hassemble, fun k hk => ?_,
    fun pc hpc hlt hjump => ?_, ?_⟩
  · obtain ⟨j, d, hd, hkj, hline⟩ := hguarded.exists_destination hk
    exact ⟨j, d, hkj, hline, hdest d hd⟩
  · obtain ⟨b, hb, hop, hbehind, hmem⟩ :=
      hguarded.exists_push hlists .zero hpc hpc.nonneg hlt hjump
    exact ⟨b, hb, hop, hbehind, hdest _ hmem⟩
  · have hlimit : ((Code.ofBytes (bytes listing).toArray).size : Int) < 1024 := by
      have hsize := hlaid.length_le hproper
      rw [Code.size_ofBytes, List.size_toArray]
      omega
    have hreport := Walk.report_of_resolves (w := ⟨instructionSet, _, 1024, false⟩)
      (isRegular_ofRules _) (addsAtMostOne_ofRules _) (hguarded.resolves hlists hdest) rfl hlimit
    refine hreport.imp_right ?_
    rintro ⟨_, hv, pc, required, available, rfl⟩
    exact ⟨pc, required, available, hv⟩

theorem program_jumpAhead : program 129 = ["JUMPDEST", "PUSH2 0x5", "JUMP", "JUMPDEST"] := by
  decide +kernel

theorem assemble_jumpAhead : assemble ["JUMPDEST", "PUSH2 0x5", "JUMP", "JUMPDEST"] =
    .ok [0x5b, 0x61, 0x00, 0x05, 0x56, 0x5b] := by
  have hhead := isLine_name (mem_instructions (i := jumpDest) (by decide))
  have hheads : ∀ d ∈ [0, 5], d < 65536 := by decide
  have hjump := guarded_jump hheads (show 1 < [0, 5].length by decide) (i := jumpAlways) (by decide)
  exact (assemble_eq (Guarded.plain hhead rfl (hjump.append (.plain hhead rfl .nil))).writes).1

theorem program_wellFormed_jumpAhead :
    (program 129)[2]? = some "JUMP" ∧
    ∃ code : Code, assemble (program 129) = .ok code.bytes.toList ∧
      (∃ j d, 2 = j + 1 ∧
        (program 129)[j]? = some ("PUSH2 0x" ++ String.ofList (Text.numeral 16 (d : Nat))) ∧
        code.isJumpDest d = true) ∧
      ∃ b, code.opcode b = 0x61 ∧ b + 3 = 4 ∧ code.isJumpDest (code.word (b + 1) 2) = true := by
  have hjump : (program 129)[2]? = some "JUMP" := by rw [program_jumpAhead]; rfl
  obtain ⟨code, hassemble, hjumps, hpushes, -⟩ := program_wellFormed 129
  refine ⟨hjump, code, hassemble, hjumps 2 (.inl hjump), ?_⟩
  have hcode : code = .ofBytes #[0x5b, 0x61, 0x00, 0x05, 0x56, 0x5b] := by
    rw [program_jumpAhead, assemble_jumpAhead] at hassemble
    exact Code.ext (Array.toList_inj.1 (Except.ok.inj hassemble).symm)
  subst hcode
  have hfour : (Code.ofBytes #[0x5b, 0x61, 0x00, 0x05, 0x56, 0x5b]).IsBoundary 4 :=
    (Code.IsBoundary.zero.next (by decide)).next (by decide)
  obtain ⟨b, -, hpush⟩ := hpushes 4 hfour (by decide) (by decide)
  exact ⟨b, hpush⟩

end EvmFlow.Generator
