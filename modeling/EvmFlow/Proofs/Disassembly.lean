import EvmFlow.Proofs.Operands
import EvmFlow.Proofs.Paths

/-!
# Assembling and decoding undo each other

Decoding code from offset zero on gives a *listing*, the instructions of the code
with their literals, if it ends exactly with the code (`InstructionSet.Lists`).
That is so if the code consists of the bytes of these instructions, one after the
other (`InstructionSet.Lists.drop_eq`). The lines of an assembly text write a listing
as well (`Assembly.Writes`), and assemble to the same bytes, because no two
instructions have the same mnemonic.

* `Assembly.assemble_eq`: lines assemble to the bytes of what they write;
* `Assembly.assembly_inverse`: code that is assembled is listed as what its lines
  write, and code that has a listing is assembled from it.
-/

namespace EvmFlow

/-- The bytes of an instruction with a literal. -/
def Instruction.bytes (i : Instruction) (value : Nat) : List UInt8 :=
  i.opcode :: Code.literalBytes i.immediateLength.toNat value

@[simp] theorem Instruction.length_bytes (i : Instruction) (value : Nat) :
    (i.bytes value).length = i.immediateLength.toNat + 1 := by
  rw [bytes, List.length_cons, Code.length_literalBytes]

/-! ## Listings -/

namespace InstructionSet

/-- Decoding from an offset on gives these instructions with their literals, and
    ends with the code. -/
inductive Lists (set : InstructionSet) (code : Code) : Int → List (Instruction × Nat) → Prop
  | done : Lists set code code.size []
  | next {pc : Int} {i : Instruction} {value : Nat} {listing : List (Instruction × Nat)} :
      pc < code.size → set.decode code pc = .ok i → i.immediate code pc = .ok value →
      Lists set code (pc + i.width) listing → Lists set code pc ((i, value) :: listing)

/-- The set has the instruction, and the literal is not too large for it. -/
structure Fits (set : InstructionSet) (x : Instruction × Nat) : Prop where
  get? : set.get? x.1.opcode = some x.1
  lt : x.2 < Nat.pow 256 x.1.immediateLength.toNat

/-- The bytes of a listing. -/
def bytes (listing : List (Instruction × Nat)) : List UInt8 :=
  listing.flatMap fun x => x.1.bytes x.2

variable {set : InstructionSet} {code : Code} {i : Instruction} {opcode : UInt8} {rules : Rules}
  {listing listing' : List (Instruction × Nat)} {pc : Int} {k : Nat}

@[simp] theorem bytes_nil : bytes [] = [] := rfl

@[simp] theorem bytes_cons (i : Instruction) (value : Nat) (listing : List (Instruction × Nat)) :
    bytes ((i, value) :: listing) = i.bytes value ++ bytes listing :=
  List.flatMap_cons

@[simp] theorem bytes_append (listing listing' : List (Instruction × Nat)) :
    bytes (listing ++ listing') = bytes listing ++ bytes listing' :=
  List.flatMap_append

/-- Decoding is determined by the code. -/
theorem Lists.unique (h : set.Lists code pc listing) (h' : set.Lists code pc listing') :
    listing = listing' := by
  induction h generalizing listing' with
  | done =>
    generalize hend : (code.size : Int) = pc at h'
    cases h' with
    | done => rfl
    | next hlt => omega
  | next hlt hdecode hvalue _ ih =>
    cases h' with
    | done => omega
    | next _ hdecode' hvalue' hrest =>
      cases hdecode.symm.trans hdecode'
      cases hvalue.symm.trans hvalue'
      rw [ih hrest]

theorem decode_eq_ok_iff : set.decode code pc = .ok i ↔ set.get? (code.opcode pc) = some i :=
  ⟨Walk.get?_of_decode (w := ⟨set, code, 0, false⟩),
    Walk.decode_of_get? (w := ⟨set, code, 0, false⟩)⟩

theorem opcode_eq_of_get? (h : (ofRules rules).get? opcode = some i) : i.opcode = opcode := by
  rw [get?_ofRules] at h
  obtain ⟨e, -, rfl, rfl⟩ := of_enabled?_eq_some h
  rfl

theorem width_eq (h : (ofRules rules).get? opcode = some i) :
    i.width = ((i.immediateLength.toNat + 1 : Nat) : Int) := by
  have hpos := (isRegular_ofRules rules opcode i h).width_pos
  rw [Instruction.width] at hpos ⊢
  omega

/-- The bytes from an offset on are those of the instruction there and the bytes
    behind it. -/
theorem drop_eq_append (hop : i.opcode = code.opcode k)
    (hinside : k + (i.immediateLength.toNat + 1) ≤ code.size) :
    code.bytes.toList.drop k = i.bytes (code.word ((k : Int) + 1) i.immediateLength.toNat) ++
      code.bytes.toList.drop (k + (i.immediateLength.toNat + 1)) := by
  have hk : k < code.bytes.size := Nat.lt_of_lt_of_le (by omega) hinside
  have hword := Code.literalBytes_word (show k + 1 + i.immediateLength.toNat ≤ code.size by omega)
  have hsplit := List.take_append_drop i.immediateLength.toNat (code.bytes.toList.drop (k + 1))
  rw [List.drop_drop, ← hword] at hsplit
  rw [List.drop_eq_getElem_cons (by simpa using hk), Array.getElem_toList, ← Code.opcode_natCast hk,
    ← hop, ← hsplit, Nat.add_comm i.immediateLength.toNat, ← Nat.add_assoc]
  rfl

/-- The instructions of a listing follow one another in the code. -/
theorem Lists.drop_eq (h : (ofRules rules).Lists code pc listing) (hpc : pc = k) :
    code.bytes.toList.drop k = bytes listing ∧ ∀ x ∈ listing, (ofRules rules).Fits x := by
  induction h generalizing k with
  | done =>
    rw [← Int.ofNat_inj.1 hpc]
    exact ⟨List.drop_eq_nil_of_le (Nat.le_of_eq code.bytes.length_toList), by simp⟩
  | @next pc i value listing hlt hdecode hvalue _ ih =>
    subst hpc
    have hget := decode_eq_ok_iff.1 hdecode
    have hop := opcode_eq_of_get? hget
    obtain ⟨hinside, rfl⟩ := Walk.of_immediate_eq_ok hvalue
    rw [width_eq hget] at hinside ih
    obtain ⟨hrest, hfits⟩ := ih (k := k + (i.immediateLength.toNat + 1)) rfl
    rw [← hop] at hget
    refine ⟨?_, List.forall_mem_cons.2 ⟨⟨hget, Code.word_lt code (k + 1) _⟩, hfits⟩⟩
    rw [drop_eq_append hop (Int.ofNat_le.1 hinside), hrest, bytes_cons]

theorem opcode_of_drop_eq {b : UInt8} {rest : List UInt8}
    (h : code.bytes.toList.drop k = b :: rest) : k < code.size ∧ b = code.opcode k := by
  have hlength := congrArg List.length h
  rw [List.length_drop, Array.length_toList, List.length_cons] at hlength
  have hk : k < code.bytes.size := by omega
  rw [List.drop_eq_getElem_cons (by simpa using hk), Array.getElem_toList] at h
  exact ⟨hk, by rw [Code.opcode_natCast hk, List.head_eq_of_cons_eq h]⟩

/-- Instructions that follow one another in the code are its listing. -/
theorem lists_of_drop_eq (hk : k ≤ code.size) (hdrop : code.bytes.toList.drop k = bytes listing)
    (hfits : ∀ x ∈ listing, (ofRules rules).Fits x) : (ofRules rules).Lists code k listing := by
  induction listing generalizing k with
  | nil =>
    have hle : code.size ≤ k := by simpa [Code.size] using List.drop_eq_nil_iff.1 hdrop
    rw [Nat.le_antisymm hk hle]
    exact .done
  | cons x listing ih =>
    obtain ⟨i, value⟩ := x
    obtain ⟨⟨hget, hlt⟩, hfits⟩ := List.forall_mem_cons.1 hfits
    obtain ⟨hk, hop⟩ := opcode_of_drop_eq hdrop
    have hinside : k + (i.immediateLength.toNat + 1) ≤ code.bytes.size := by
      have hlength := congrArg List.length hdrop
      rw [bytes_cons, List.length_drop, Array.length_toList, List.length_append,
        Instruction.length_bytes] at hlength
      omega
    -- the same bytes, so the same literal
    rw [bytes_cons, drop_eq_append hop hinside] at hdrop
    obtain ⟨hbytes, hrest⟩ := List.append_inj hdrop (by simp)
    have hvalue : code.word ((k : Int) + 1) i.immediateLength.toNat = value :=
      Code.literalBytes_inj (Code.word_lt code (k + 1) _) hlt (List.tail_eq_of_cons_eq hbytes)
    have hwidth := width_eq hget
    refine .next (Int.ofNat_lt.2 hk) (decode_eq_ok_iff.2 (hop ▸ hget)) ?_
      (hwidth ▸ ih hinside hrest hfits)
    rw [Instruction.immediate, hvalue, if_neg]
    rw [hwidth]
    exact Int.not_lt.2 (Int.ofNat_le.2 hinside)

/-- The bytes of a listing are code with this listing. -/
theorem lists_bytes (hfits : ∀ x ∈ listing, (ofRules rules).Fits x) :
    (ofRules rules).Lists (.ofBytes (bytes listing).toArray) (0 : Nat) listing :=
  lists_of_drop_eq (Nat.zero_le _) rfl hfits

/-! ## Mnemonics -/

theorem mem_instructions_iff :
    i ∈ (ofRules rules).instructions ↔ (ofRules rules).get? i.opcode = some i := by
  rw [instructions, List.mem_filterMap]
  constructor
  · rintro ⟨_, hmem, rfl⟩
    obtain ⟨k, hk, hslot⟩ := Vector.mem_iff_getElem.1 (Vector.mem_toList_iff.1 hmem)
    have hget : (ofRules rules).get? (UInt8.ofNat k) = some i := by
      simpa only [get?, UInt8.toNat_ofNat_of_lt' hk] using hslot
    rwa [opcode_eq_of_get? hget]
  · intro h
    exact ⟨some i, Vector.mem_toList_iff.2 (h ▸ Vector.getElem_mem i.opcode.toNat_lt), rfl⟩

theorem exists_entry (h : i ∈ (ofRules rules).instructions) :
    ∃ e ∈ Catalogue.entries, e.instruction = i := by
  rw [mem_instructions_iff, get?_ofRules] at h
  obtain ⟨e, he, -, hi⟩ := of_enabled?_eq_some h
  exact ⟨e, he, hi⟩

end InstructionSet

/-- No two entries of the catalogue have the same mnemonic. -/
theorem Catalogue.eq_of_name_eq {e e' : Entry} (he : e ∈ entries) (he' : e' ∈ entries)
    (h : e.name = e'.name) : e = e' := by
  have hfind : ∀ e ∈ entries, (entries.find? fun e' => e'.name == e.name) = some e := by
    decide +kernel
  have hsome := hfind e' he'
  rw [← h, hfind e he] at hsome
  exact Option.some.inj hsome

/-- A mnemonic is a word, and does not stand for a single byte. -/
theorem Catalogue.isWord_name {e : Entry} (he : e ∈ entries) :
    e.name.toList ≠ [] ∧ (∀ c ∈ e.name.toList, c ∉ Text.blanks) ∧ e.name ≠ "RAW" := by
  have hall : ∀ e ∈ entries, e.name.toList ≠ [] ∧
      (e.name.toList.all fun c => !Text.isBlank c) = true ∧ e.name ≠ "RAW" := by
    decide +kernel
  obtain ⟨hne, hblank, hraw⟩ := hall e he
  refine ⟨hne, fun c hc hmem => ?_, hraw⟩
  have hnot := List.all_eq_true.1 hblank c hc
  rw [Text.isBlank_iff.2 hmem] at hnot
  cases hnot

namespace Assembly

open Text Text.Hex InstructionSet

variable {i : Instruction} {value : Nat} {text : String} {lines : List String}
  {listing : List (Instruction × Nat)}

theorem instruction?_name (h : i ∈ instructionSet.instructions) : instruction? i.name = some i := by
  refine named?_name h fun j hj hname => ?_
  obtain ⟨e, he, rfl⟩ := exists_entry h
  obtain ⟨e', he', rfl⟩ := exists_entry hj
  rw [Catalogue.eq_of_name_eq he' he hname]

theorem isWord_name (h : i ∈ instructionSet.instructions) :
    i.name.toList ≠ [] ∧ (∀ c ∈ i.name.toList, c ∉ blanks) ∧ i.name ≠ "RAW" := by
  obtain ⟨e, he, rfl⟩ := exists_entry h
  exact Catalogue.isWord_name he

/-! ## Lines -/

/-- A line of an instruction with a literal: the mnemonic alone, for the literal
    zero, or the mnemonic and the hexadecimal digits of the literal, no more than
    there is room for, after the mark or without it. -/
inductive IsLine : String → Instruction → Nat → Prop
  | bare {i : Instruction} {lead trail : List Char} : i ∈ instructionSet.instructions →
      (∀ c ∈ lead, c ∈ blanks) → (∀ c ∈ trail, c ∈ blanks) →
      IsLine (String.ofList (lead ++ (i.name.toList ++ trail))) i 0
  | operand {i : Instruction} {lead gap mark digits trail : List Char} :
      i ∈ instructionSet.instructions → 0 < i.immediateLength →
      (∀ c ∈ lead, c ∈ blanks) → (∀ c ∈ gap, c ∈ blanks) → gap ≠ [] →
      (∀ c ∈ trail, c ∈ blanks) → IsMark mark → (∀ c ∈ digits, c ∈ alphabet) →
      mark ++ digits ≠ [] → digits.length ≤ 2 * i.immediateLength →
      IsLine (String.ofList (lead ++ (i.name.toList ++ (gap ++ (mark ++ digits ++ trail))))) i
        (reading 16 digits)

/-- Lines that write a listing, one for each instruction. -/
inductive Writes : List String → List (Instruction × Nat) → Prop
  | nil : Writes [] []
  | cons {text : String} {lines : List String} {i : Instruction} {value : Nat}
      {listing : List (Instruction × Nat)} : IsLine text i value → Writes lines listing →
      Writes (text :: lines) ((i, value) :: listing)

/-- The line that is shown for an instruction with its literal. -/
def render (x : Instruction × Nat) : String :=
  x.1.name ++ " 0x" ++ String.ofList (numeral 16 x.2)

theorem line_of_words (hi : i ∈ instructionSet.instructions) {rest : List (List Char)}
    (h : words text.toList = i.name.toList :: rest) : line text =
      .ok (i.opcode :: immediate (rest.getD 0 defaultOperand) i.immediateLength.toNat) := by
  rw [line, h, List.getD_cons_zero, List.getD_cons_succ, String.ofList_toList]
  simp only [if_neg (isWord_name hi).2.2, instruction?_name hi]

theorem immediate_defaultOperand (n : Nat) :
    immediate defaultOperand n = Code.literalBytes n 0 := by
  cases n with
  | zero => rfl
  | succ n =>
    have hmark : IsMark ['0', 'x'] := .inr rfl
    have hdigits : ∀ c ∈ ['0', '0'], c ∈ alphabet := mem_alphabet_of_all (by decide)
    have hlength : ['0', '0'].length ≤ 2 * (n + 1) := Nat.mul_le_mul_left 2 (Nat.succ_pos n)
    have hzero : reading 16 ['0', '0'] = 0 := rfl
    rw [← hzero, ← immediate_eq_literalBytes hmark hdigits hlength]
    rfl

theorem IsLine.line_eq (h : IsLine text i value) : line text = .ok (i.bytes value) := by
  cases h with
  | @bare _ lead trail hi hlead htrail =>
    obtain ⟨hne, hword, -⟩ := isWord_name hi
    have hwords : words (lead ++ (i.name.toList ++ trail)) = [i.name.toList] := by
      rw [words_blank_append hlead, words_single hne hword htrail]
    rw [← String.toList_ofList (l := lead ++ _)] at hwords
    rw [line_of_words hi hwords, List.getD_nil, immediate_defaultOperand, Instruction.bytes]
  | @operand _ lead gap mark digits trail hi _ hlead hgap hsome htrail hmark hdigits hne hlength =>
    obtain ⟨hname, hword, -⟩ := isWord_name hi
    have hwords : words (lead ++ (i.name.toList ++ (gap ++ (mark ++ digits ++ trail)))) =
        [i.name.toList, mark ++ digits] := by
      rw [words_blank_append hlead, words_word_append hname hword hgap hsome,
        words_single hne (not_mem_blanks hmark hdigits) htrail]
    rw [← String.toList_ofList (l := lead ++ _)] at hwords
    rw [line_of_words hi hwords, List.getD_cons_zero,
      immediate_eq_literalBytes hmark hdigits (by omega), Instruction.bytes]

theorem IsLine.fits (h : IsLine text i value) : instructionSet.Fits (i, value) := by
  cases h with
  | bare hi => exact ⟨mem_instructions_iff.1 hi, Nat.pow_pos (by decide)⟩
  | operand hi _ _ _ _ _ _ hdigits _ hlength =>
    refine ⟨mem_instructions_iff.1 hi, ?_⟩
    calc _ < Nat.pow 16 _ := reading_lt hdigits
      _ ≤ Nat.pow 16 (2 * i.immediateLength.toNat) := Nat.pow_le_pow_right (by decide) (by omega)
      _ = Nat.pow 256 i.immediateLength.toNat := Nat.pow_mul ..

/-- Lines assemble to the bytes of what they write. -/
theorem assemble_eq (h : Writes lines listing) :
    assemble lines = .ok (bytes listing) ∧ ∀ x ∈ listing, instructionSet.Fits x := by
  induction h with
  | nil => exact ⟨rfl, by simp⟩
  | cons hline _ ih =>
    refine ⟨?_, List.forall_mem_cons.2 ⟨hline.fits, ih.2⟩⟩
    rw [assemble, hline.line_eq, ih.1]
    rfl

/-! ## Both directions -/

/-- What is shown has no blanks around, and one between the mnemonic and the
    literal. -/
theorem render_eq (i : Instruction) (value : Nat) :
    render (i, value) = String.ofList
      ([] ++ (i.name.toList ++ ([' '] ++ (['0', 'x'] ++ Nat.toDigits 16 value ++ [])))) := by
  refine String.toList_inj.1 ?_
  rw [render, String.toList_append, String.toList_append, String.toList_ofList (l := _ ++ _),
    String.toList_ofList (l := numeral 16 value), List.append_nil, List.append_assoc]
  rfl

theorem space_isBlank : ∀ c ∈ [' '], c ∈ blanks := by
  rintro c hc
  rw [List.mem_singleton.1 hc]
  decide

/-- What is shown for an instruction with an immediate is one of its lines. -/
theorem isLine_render (h : instructionSet.Fits (i, value)) (hpos : 0 < i.immediateLength) :
    IsLine (render (i, value)) i value := by
  have hlength : (Nat.toDigits 16 value).length ≤ 2 * i.immediateLength.toNat := by
    rw [Nat.length_toDigits_le_iff (by decide) (by omega), Nat.pow_mul]
    exact h.lt
  have hi : i ∈ instructionSet.instructions := mem_instructions_iff.2 h.get?
  have hnone : ∀ c ∈ [], c ∈ blanks := by simp
  have hmark : IsMark ['0', 'x'] := .inr rfl
  have hdigits : ∀ c ∈ Nat.toDigits 16 value, c ∈ alphabet := fun c hc =>
    mem_alphabet_of_mem_toDigits hc
  have hline := IsLine.operand hi hpos hnone space_isBlank (by simp) hnone hmark hdigits (by simp)
    (by omega)
  rwa [reading_toDigits (by decide) (by decide), ← render_eq] at hline

/-- What is shown for an instruction assembles to its bytes, also if the
    instruction has no room for the literal that is shown. -/
theorem line_render (h : instructionSet.Fits (i, value)) :
    line (render (i, value)) = .ok (i.bytes value) := by
  by_cases hpos : 0 < i.immediateLength
  · exact (isLine_render h hpos).line_eq
  · have hi := mem_instructions_iff.2 h.get?
    obtain ⟨hne, hword, -⟩ := isWord_name hi
    have hwords := words_word_append hne hword space_isBlank (by simp)
      (['0', 'x'] ++ Nat.toDigits 16 value ++ [])
    rw [← List.nil_append (i.name.toList ++ _), ← String.toList_ofList (l := [] ++ _),
      ← render_eq] at hwords
    rw [line_of_words hi hwords, Instruction.bytes, show i.immediateLength.toNat = 0 by omega]
    rfl

theorem assemble_map_render (h : ∀ x ∈ listing, instructionSet.Fits x) :
    assemble (listing.map render) = .ok (bytes listing) := by
  induction listing with
  | nil => rfl
  | cons x listing ih =>
    obtain ⟨hx, hlisting⟩ := List.forall_mem_cons.1 h
    rw [List.map_cons, assemble, line_render hx, ih hlisting]
    rfl

/-- Lines that write a listing assemble to code that decodes to this listing and
    no other, up to its end. Conversely, code that decodes to a listing is assembled
    from the lines that are shown for it. -/
theorem assembly_inverse :
    (∀ lines listing, Writes lines listing → ∃ bytes, assemble lines = .ok bytes ∧
      ∀ other, instructionSet.Lists (.ofBytes bytes.toArray) 0 other ↔ other = listing) ∧
    (∀ code listing, instructionSet.Lists code 0 listing →
      assemble (listing.map render) = .ok code.bytes.toList) := by
  constructor
  · intro lines listing h
    obtain ⟨hbytes, hfits⟩ := assemble_eq h
    refine ⟨_, hbytes, fun other => ⟨fun hother => hother.unique (lists_bytes hfits), ?_⟩⟩
    rintro rfl
    exact lists_bytes hfits
  · intro code listing h
    obtain ⟨hdrop, hfits⟩ := h.drop_eq (k := 0) rfl
    rw [assemble_map_render hfits, ← hdrop, List.drop_zero]

/-- The instructions `PUSH3 0xabc`, `PUSH2 0x0` and `ADD`. -/
def sumListing : List (Instruction × Nat) :=
  [(⟨0x62, "PUSH3", 0, 1, true, 3, false, .push⟩, 0xabc),
    (⟨0x61, "PUSH2", 0, 1, true, 2, false, .push⟩, 0),
    (⟨0x01, "ADD", 2, 1, false, 0, false, .plain⟩, 0)]

theorem fits_sumListing : ∀ x ∈ sumListing, instructionSet.Fits x := by
  have hall : ∀ x ∈ sumListing, enabled? (.ofHardfork .cancun) x.1.opcode = some x.1 ∧
      x.2 < Nat.pow 256 x.1.immediateLength.toNat := by decide +kernel
  exact fun x hx => ⟨(get?_ofRules _ _).trans (hall x hx).1, (hall x hx).2⟩

/-- An odd number of digits of both cases, a push without an operand, and blanks
    around. -/
theorem writes_sumListing : Writes ["PUSH3 0xAbC", "PUSH2", " ADD"] sumListing := by
  have hmem : ∀ x ∈ sumListing, x.1 ∈ instructionSet.instructions := fun x hx =>
    mem_instructions_iff.2 (fits_sumListing x hx).get?
  have hnone : ∀ c ∈ [], c ∈ blanks := by simp
  have hmark : IsMark ['0', 'x'] := .inr rfl
  have hdigits : ∀ c ∈ ['A', 'b', 'C'], c ∈ alphabet := mem_alphabet_of_all (by decide)
  exact .cons (.operand (hmem _ (.head _)) (by decide) hnone space_isBlank (by simp) hnone hmark
    hdigits (by simp) (by decide))
    (.cons (.bare (hmem _ (.tail _ (.head _))) hnone hnone)
      (.cons (.bare (hmem _ (.tail _ (.tail _ (.head _)))) space_isBlank hnone) .nil))

theorem assembly_inverse_sumListing :
    (∃ bytes, assemble ["PUSH3 0xAbC", "PUSH2", " ADD"] = .ok bytes ∧
      ∀ other, instructionSet.Lists (.ofBytes bytes.toArray) 0 other ↔ other = sumListing) ∧
    assemble (sumListing.map render) = .ok [0x62, 0x00, 0x0a, 0xbc, 0x61, 0x00, 0x00, 0x01] :=
  ⟨assembly_inverse.1 _ _ writes_sumListing,
    assembly_inverse.2 (.ofBytes #[0x62, 0x00, 0x0a, 0xbc, 0x61, 0x00, 0x00, 0x01]) _
      (lists_of_drop_eq (Nat.zero_le _) (by decide) fits_sumListing)⟩

end Assembly

end EvmFlow
