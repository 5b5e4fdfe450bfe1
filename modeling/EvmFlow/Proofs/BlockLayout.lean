import EvmFlow.Generator
import EvmFlow.Proofs.Disassembly
import EvmFlow.Proofs.Resolved

/-!
# The layout of blocks

The lines of a block write its instructions, headed by a jump destination, and
assemble to as many bytes as the block is said to take (`Generator.Laid`). So the
heads of the blocks stand where their offsets say (`Generator.Laid.isJumpDest`).

A jump is written only right behind the push of such an offset
(`Generator.Guarded`), both in the lines and in what they assemble to. So code that
decodes to what the lines write is resolved (`Generator.Guarded.resolves`).
-/

namespace EvmFlow

/-! ## Listings and boundaries -/

namespace InstructionSet

/-- The instruction with its literal stands at an offset of the code. -/
structure Stands (set : InstructionSet) (code : Code) (pc : Int) (i : Instruction)
    (value : Nat) : Prop where
  inside : pc < code.size
  get? : set.get? (code.opcode pc) = some i
  opcode_eq : code.opcode pc = i.opcode
  isRegular : i.IsRegular i.opcode
  value_eq : value = code.word (pc + 1) i.immediateLength.toNat
  add_width_le : pc + i.width ≤ code.size

variable {set : InstructionSet} {code : Code} {rules : Rules} {i : Instruction} {value : Nat}
  {pc q : Int} {listing rest : List (Instruction × Nat)}

theorem Stands.width_eq (h : set.Stands code pc i value) :
    i.width = Code.sweepWidth (code.opcode pc) := by
  rw [h.opcode_eq, h.isRegular.width]

theorem Stands.isBoundary (h : set.Stands code pc i value) (hpc : code.IsBoundary pc) :
    code.IsBoundary (pc + i.width) :=
  h.width_eq ▸ hpc.next h.inside

/-- An instruction is followed by the next boundary. -/
theorem Stands.eq_or_le (h : set.Stands code pc i value) (hpc : code.IsBoundary pc)
    (hq : code.IsBoundary q) (hle : pc ≤ q) : q = pc ∨ pc + i.width ≤ q := by
  rcases Int.lt_or_eq_of_le hle with hlt | heq
  · exact .inr (h.width_eq ▸ hpc.add_le_of_lt hq hlt)
  · exact .inl heq.symm

/-- A listing tells what stands first, and goes on behind it. -/
theorem Lists.of_cons (h : (ofRules rules).Lists code pc ((i, value) :: listing)) :
    (ofRules rules).Stands code pc i value ∧ (ofRules rules).Lists code (pc + i.width) listing := by
  cases h with
  | next hlt hdecode hvalue hrest =>
    have hget := decode_eq_ok_iff.1 hdecode
    have hop := opcode_eq_of_get? hget
    obtain ⟨hle, hvalue⟩ := Walk.of_immediate_eq_ok hvalue
    exact ⟨⟨hlt, hget, hop.symm, hop ▸ isRegular_ofRules rules _ i hget, hvalue, hle⟩, hrest⟩

/-- Behind the first instructions the listing goes on with the other ones. -/
theorem Lists.of_append (h : (ofRules rules).Lists code pc (listing ++ rest))
    (hpc : code.IsBoundary pc) : code.IsBoundary (pc + (bytes listing).length) ∧
      (ofRules rules).Lists code (pc + (bytes listing).length) rest := by
  induction listing generalizing pc with
  | nil =>
    rw [bytes_nil, List.length_nil, Int.natCast_zero, Int.add_zero]
    exact ⟨hpc, h⟩
  | cons x listing ih =>
    obtain ⟨i, value⟩ := x
    obtain ⟨hstands, hrest⟩ := h.of_cons
    have hwidth := width_eq hstands.get?
    have hlength : pc + ((bytes ((i, value) :: listing)).length : Int) =
        pc + i.width + (bytes listing).length := by
      rw [bytes_cons, List.length_append, Instruction.length_bytes, hwidth]
      omega
    rw [hlength]
    exact ih hrest (hstands.isBoundary hpc)

/-- An instruction of a listing stands at each boundary. -/
theorem Lists.decodes (h : (ofRules rules).Lists code pc listing) (hpc : code.IsBoundary pc)
    (hq : code.IsBoundary q) (hle : pc ≤ q) (hlt : q < code.size) :
    ∃ i, (ofRules rules).get? (code.opcode q) = some i ∧ q + i.width ≤ code.size := by
  induction listing generalizing pc with
  | nil =>
    cases h
    omega
  | cons x listing ih =>
    obtain ⟨hstands, hrest⟩ := h.of_cons
    rcases hstands.eq_or_le hpc hq hle with rfl | hle
    · exact ⟨_, hstands.get?, hstands.add_width_le⟩
    · exact ih hrest (hstands.isBoundary hpc) hle

end InstructionSet

namespace Assembly

variable {i j : Instruction} {value value' : Nat} {text : String}

/-- A line is a line of one instruction only. -/
theorem IsLine.unique (h : IsLine text i value) (h' : IsLine text j value') : i = j := by
  have hbytes := Except.ok.inj (h.line_eq.symm.trans h'.line_eq)
  have hget := h.fits.get?
  rw [List.head_eq_of_cons_eq hbytes, h'.fits.get?] at hget
  exact (Option.some.inj hget).symm

/-- The mnemonic alone is a line. -/
theorem isLine_name (h : i ∈ instructionSet.instructions) : IsLine i.name i 0 := by
  have hline := IsLine.bare h (show ∀ c ∈ [], c ∈ Text.blanks by simp)
    (show ∀ c ∈ [], c ∈ Text.blanks by simp)
  rwa [List.nil_append, List.append_nil, String.ofList_toList] at hline

end Assembly

namespace Generator

open Assembly InstructionSet

/-! ## Guarded jumps -/

/-- The instruction that heads a block. -/
def jumpDest : Instruction := ⟨0x5b, "JUMPDEST", 0, 0, false, 0, false, .jumpdest⟩

/-- The instruction that pushes a destination. -/
def push2 : Instruction := ⟨0x61, "PUSH2", 0, 1, true, 2, false, .push⟩

/-- The instruction that jumps always. -/
def jumpAlways : Instruction := ⟨0x56, "JUMP", 1, 0, false, 0, false, .jump⟩

/-- The instruction that jumps on a condition. -/
def jumpIf : Instruction := ⟨0x57, "JUMPI", 2, 0, false, 0, false, .jumpi⟩

/-- The instruction that ends the run. -/
def halt : Instruction := ⟨0x00, "STOP", 0, 0, false, 0, true, .terminal⟩

/-- The instructions that stand between the bodies of blocks. -/
def frame : List Instruction := [jumpDest, push2, jumpAlways, jumpIf, halt]

theorem mem_instructions {i : Instruction} (h : i ∈ frame) : i ∈ instructionSet.instructions := by
  have hall : ∀ i ∈ frame, enabled? (.ofHardfork .cancun) i.opcode = some i := by decide +kernel
  exact mem_instructions_iff.2 ((get?_ofRules _ _).trans (hall i h))

/-- The lines of the jumps are no lines of other instructions. -/
theorem isJump_of_isLine {text : String} {i : Instruction} {value : Nat}
    (h : IsLine text i value) (htext : text = "JUMP" ∨ text = "JUMPI") : i.kind.isJump = true := by
  rcases htext with rfl | rfl
  · rw [h.unique (isLine_name (mem_instructions (i := jumpAlways) (by decide)))]
    rfl
  · rw [h.unique (isLine_name (mem_instructions (i := jumpIf) (by decide)))]
    rfl

/-- Lines and the listing that they write, in which each jump stands right behind
    the push of one of the offsets. -/
inductive Guarded (heads : List Nat) : List String → List (Instruction × Nat) → Prop
  | nil : Guarded heads [] []
  | plain {text : String} {i : Instruction} {value : Nat} {lines : List String}
      {listing : List (Instruction × Nat)} : IsLine text i value → i.kind.isJump = false →
      Guarded heads lines listing → Guarded heads (text :: lines) ((i, value) :: listing)
  | jump {i : Instruction} {d : Nat} {lines : List String} {listing : List (Instruction × Nat)} :
      d ∈ heads → IsLine (destination d).line push2 d → IsLine i.name i 0 →
      Guarded heads lines listing →
      Guarded heads ((destination d).line :: i.name :: lines) ((push2, d) :: (i, 0) :: listing)

namespace Guarded

variable {heads : List Nat} {lines lines' : List String}
  {listing listing' : List (Instruction × Nat)} {code : Code} {pc q : Int}

theorem append (h : Guarded heads lines listing) (h' : Guarded heads lines' listing') :
    Guarded heads (lines ++ lines') (listing ++ listing') := by
  induction h with
  | nil => exact h'
  | plain hline hk _ ih => exact .plain hline hk ih
  | jump hd hpush hline _ ih => exact .jump hd hpush hline ih

theorem writes (h : Guarded heads lines listing) : Writes lines listing := by
  induction h with
  | nil => exact .nil
  | plain hline _ _ ih => exact .cons hline ih
  | jump _ hpush hline _ ih => exact .cons hpush (.cons hline ih)

/-- The line before a jump pushes one of the offsets. -/
theorem exists_destination (h : Guarded heads lines listing) {k : Nat}
    (hk : lines[k]? = some "JUMP" ∨ lines[k]? = some "JUMPI") :
    ∃ j, ∃ d ∈ heads, k = j + 1 ∧ lines[j]? = some (destination d).line := by
  induction h generalizing k with
  | nil => rcases hk with hk | hk <;> cases hk
  | plain hline hkind _ ih =>
    cases k with
    | zero =>
      have hjump := isJump_of_isLine hline (hk.imp Option.some.inj Option.some.inj)
      cases hkind.symm.trans hjump
    | succ k =>
      obtain ⟨j, d, hd, rfl, hj⟩ := ih hk
      exact ⟨j + 1, d, hd, rfl, hj⟩
  | @jump i d _ _ hd hpush _ _ ih =>
    rcases k with _ | _ | k
    · have hjump := isJump_of_isLine hpush (hk.imp Option.some.inj Option.some.inj)
      cases hjump
    · exact ⟨0, d, hd, rfl, rfl⟩
    · obtain ⟨j, d, hd, rfl, hj⟩ := ih hk
      exact ⟨j + 2, d, hd, rfl, hj⟩

/-- In code with this listing each jump is right behind the push of one of the
    offsets. -/
theorem exists_push (h : Guarded heads lines listing) (hl : instructionSet.Lists code pc listing)
    (hpc : code.IsBoundary pc) (hq : code.IsBoundary q) (hle : pc ≤ q) (hlt : q < code.size)
    (hjump : Code.IsJump (code.opcode q)) :
    ∃ b, code.IsBoundary b ∧ code.opcode b = 0x61 ∧ b + 3 = q ∧ code.word (b + 1) 2 ∈ heads := by
  induction h generalizing pc with
  | nil =>
    cases hl
    omega
  | plain _ hk _ ih =>
    obtain ⟨hstands, hrest⟩ := hl.of_cons
    rcases hstands.eq_or_le hpc hq hle with rfl | hle
    · rw [hstands.opcode_eq, ← hstands.isRegular.jump_iff, hk] at hjump
      cases hjump
    · exact ih hrest (hstands.isBoundary hpc) hle
  | @jump i d _ _ hd _ _ _ ih =>
    obtain ⟨hpush, hrest⟩ := hl.of_cons
    have hop : code.opcode pc = 0x61 := hpush.opcode_eq
    rcases hpush.eq_or_le hpc hq hle with rfl | hle
    · rw [hop] at hjump
      exact absurd hjump (by decide)
    · have hnext := hpush.isBoundary hpc
      obtain ⟨hstands, hrest⟩ := hrest.of_cons
      rcases hstands.eq_or_le hnext hq hle with rfl | hle
      · have hvalue : d = code.word (pc + 1) 2 := hpush.value_eq
        exact ⟨pc, hpc, hop, rfl, hvalue ▸ hd⟩
      · exact ih hrest (hstands.isBoundary hnext) hle

/-- Code with this listing is resolved if the offsets are jump destinations. -/
theorem resolves (h : Guarded heads lines listing) (hl : instructionSet.Lists code 0 listing)
    (hheads : ∀ d ∈ heads, code.isJumpDest d = true) : instructionSet.Resolves code where
  decodes _ hpc hlt := hl.decodes .zero hpc hpc.nonneg hlt
  jumps _ hpc hlt hjump := by
    obtain ⟨b, hb, hop, hbehind, hmem⟩ := h.exists_push hl .zero hpc hpc.nonneg hlt hjump
    refine ⟨b, hb, ?_⟩
    rw [Code.literal, hop]
    exact ⟨by decide, hbehind, hheads _ hmem⟩

end Guarded

/-! ## Proper blocks -/

/-- An item whose line assembles to as many bytes as the item is said to take, and
    does not jump. -/
def Item.IsProper (item : Item) : Prop :=
  ∃ i value, IsLine item.line i value ∧ i.kind.isJump = false ∧
    (i.bytes value).length = item.size ∧ item.size ≤ 33

/-- An ending that jumps, if at all, to one of `count` blocks. -/
def Ending.IsProper (count : Nat) : Ending → Prop
  | jump target | jumpi target => target < count
  | stop | fallThrough => True

/-- A block of at most six items that jumps, if at all, to one of `count` blocks. -/
structure Block.IsProper (count : Nat) (b : Block) : Prop where
  length_le : b.body.length ≤ 6
  body : ∀ item ∈ b.body, item.IsProper
  ending : b.ending.IsProper count

variable {heads : List Nat} {count : Nat} {b : Block} {blocks : List Block} {items : List Item}

theorem totalSize_le (h : ∀ item ∈ items, item.IsProper) : totalSize items ≤ 33 * items.length := by
  induction items with
  | nil => exact Nat.le_refl _
  | cons item items ih =>
    obtain ⟨⟨_, _, -, -, -, hle⟩, hitems⟩ := List.forall_mem_cons.1 h
    have hrest := ih hitems
    rw [totalSize, List.length_cons]
    omega

theorem Block.IsProper.size_le (h : b.IsProper count) : b.size ≤ 203 := by
  have hbody := totalSize_le h.body
  have hlength := h.length_le
  have hending : b.ending.size ≤ 4 := by cases b.ending <;> simp [Ending.size]
  rw [Block.size]
  omega

theorem length_offsets (start : Nat) (blocks : List Block) :
    (offsets start blocks).length = blocks.length := by
  induction blocks generalizing start with
  | nil => rfl
  | cons b blocks ih => rw [offsets, List.length_cons, List.length_cons, ih]

theorem le_of_mem_offsets (h : ∀ b ∈ blocks, b.IsProper count) {start d : Nat}
    (hd : d ∈ offsets start blocks) : d ≤ start + 203 * blocks.length := by
  induction blocks generalizing start with
  | nil => cases hd
  | cons b blocks ih =>
    obtain ⟨hb, hblocks⟩ := List.forall_mem_cons.1 h
    have hsize := hb.size_le
    rw [List.length_cons]
    rcases List.mem_cons.1 hd with rfl | hd
    · omega
    · have hle := ih hblocks hd
      omega

/-! ## Lines of blocks -/

theorem exists_guarded_items (heads : List Nat) (h : ∀ item ∈ items, item.IsProper) :
    ∃ listing, Guarded heads (items.map Item.line) listing ∧
      (bytes listing).length = totalSize items := by
  induction items with
  | nil => exact ⟨[], .nil, rfl⟩
  | cons item items ih =>
    obtain ⟨⟨i, value, hline, hk, hsize, -⟩, hitems⟩ := List.forall_mem_cons.1 h
    obtain ⟨listing, hlisting, hlength⟩ := ih hitems
    refine ⟨(i, value) :: listing, .plain hline hk hlisting, ?_⟩
    rw [bytes_cons, List.length_append, hsize, hlength, totalSize]

section

variable (hheads : ∀ d ∈ heads, d < 65536)
include hheads

/-- A jump to the head of a block, behind the push of its offset. -/
theorem guarded_jump {target : Nat} (htarget : target < heads.length) {i : Instruction}
    (hi : i ∈ frame) :
    Guarded heads [(destination (heads.getD target 0)).line, i.name]
      [(push2, heads.getD target 0), (i, 0)] := by
  have hd : heads.getD target 0 ∈ heads := by
    rw [List.getD_eq_getElem?_getD, List.getElem?_eq_getElem htarget]
    exact List.getElem_mem htarget
  have hfits : instructionSet.Fits (push2, heads.getD target 0) :=
    ⟨mem_instructions_iff.1 (mem_instructions (i := push2) (by decide)), hheads _ hd⟩
  exact .jump hd (isLine_render hfits (by decide)) (isLine_name (mem_instructions hi)) .nil

theorem exists_guarded_ending {ending : Ending} (h : ending.IsProper heads.length) :
    ∃ listing, Guarded heads (ending.lines heads) listing ∧
      (bytes listing).length = ending.size := by
  cases ending with
  | jump target =>
    exact ⟨_, guarded_jump hheads h (i := jumpAlways) (by decide), rfl⟩
  | jumpi target =>
    exact ⟨_, guarded_jump hheads h (i := jumpIf) (by decide), rfl⟩
  | stop =>
    have hhalt := isLine_name (mem_instructions (i := halt) (by decide))
    exact ⟨_, .plain hhalt rfl .nil, rfl⟩
  | fallThrough => exact ⟨[], .nil, rfl⟩

end

/-- Listings of blocks, one after the other, each headed by a jump destination and
    taking as many bytes as its block is said to take. -/
inductive Laid (heads : List Nat) : List Block → List (Instruction × Nat) → Prop
  | nil : Laid heads [] []
  | cons {b : Block} {blocks : List Block} {listing rest : List (Instruction × Nat)} :
      Guarded heads (b.lines heads) ((jumpDest, 0) :: listing) →
      (bytes ((jumpDest, 0) :: listing)).length = b.size → Laid heads blocks rest →
      Laid heads (b :: blocks) ((jumpDest, 0) :: listing ++ rest)

theorem exists_laid (hheads : ∀ d ∈ heads, d < 65536)
    (h : ∀ b ∈ blocks, b.IsProper heads.length) : ∃ listing, Laid heads blocks listing := by
  induction blocks with
  | nil => exact ⟨[], .nil⟩
  | cons b blocks ih =>
    obtain ⟨hb, hblocks⟩ := List.forall_mem_cons.1 h
    obtain ⟨rest, hrest⟩ := ih hblocks
    obtain ⟨body, hbody, hbodyLength⟩ := exists_guarded_items heads hb.body
    obtain ⟨last, hlast, hlastLength⟩ := exists_guarded_ending hheads hb.ending
    have hhead := isLine_name (mem_instructions (i := jumpDest) (by decide))
    refine ⟨_, .cons (.plain hhead rfl (hbody.append hlast)) ?_ hrest⟩
    rw [bytes_cons, bytes_append, List.length_append, List.length_append, hbodyLength, hlastLength,
      Block.size, ← Nat.add_assoc]
    rfl

namespace Laid

variable {listing : List (Instruction × Nat)} {code : Code}

theorem guarded (h : Laid heads blocks listing) :
    Guarded heads (blocks.flatMap (Block.lines heads)) listing := by
  induction h with
  | nil => exact .nil
  | cons hb _ _ ih =>
    rw [List.flatMap_cons]
    exact hb.append ih

theorem length_le (h : Laid heads blocks listing) (hblocks : ∀ b ∈ blocks, b.IsProper count) :
    (bytes listing).length ≤ 203 * blocks.length := by
  induction h with
  | nil => exact Nat.le_refl _
  | cons _ hlength _ ih =>
    obtain ⟨hb, hblocks⟩ := List.forall_mem_cons.1 hblocks
    have hsize := hb.size_le
    have hrest := ih hblocks
    rw [bytes_append, List.length_append, hlength, List.length_cons]
    omega

/-- The heads of the blocks are jump destinations of code with this listing. -/
theorem isJumpDest (h : Laid heads blocks listing) {start : Nat}
    (hl : instructionSet.Lists code start listing) (hstart : code.IsBoundary start) {d : Nat}
    (hd : d ∈ offsets start blocks) : code.isJumpDest d = true := by
  induction h generalizing start with
  | nil => cases hd
  | cons _ hlength _ ih =>
    rcases List.mem_cons.1 hd with rfl | hd
    · obtain ⟨hstands, -⟩ := hl.of_cons
      exact Code.isJumpDest_iff.2 ⟨hstart, hstands.inside, hstands.opcode_eq⟩
    · obtain ⟨hnext, hrest⟩ := hl.of_append hstart
      rw [hlength] at hnext hrest
      exact ih hrest hnext hd

end Laid

end Generator

end EvmFlow
