import EvmFlow.Assembly
import EvmFlow.Proofs.Boundary
import EvmFlow.Proofs.CodeText
import EvmFlow.Proofs.Numerals

/-!
# Literals and their operands

A literal of `n` bytes stands in code with its most significant byte first
(`Code.literalBytes`), and the decoder reads it back from there
(`Code.literalBytes_word`). In an assembly line it is written as an operand of
hexadecimal digits, which stands behind the mnemonic as a word of its own. The
assembler fills the digits up with zeros and cuts them into pairs, and this gives
the same bytes (`Assembly.immediate_eq_literalBytes`).

* `Text.words_word_append`: the words of a line are cut at its blanks;
* `Assembly.immediate_eq_literalBytes`: the operand of a literal assembles to the
  bytes of the literal.
-/

namespace EvmFlow

/-! ## Words -/

namespace Text

variable {blank word text : List Char}

theorem words_blank_append (h : ∀ c ∈ blank, c ∈ blanks) (text : List Char) :
    words (blank ++ text) = words text := by
  induction blank with
  | nil => rfl
  | cons c blank ih =>
    obtain ⟨hc, hblank⟩ := List.forall_mem_cons.1 h
    rw [← ih hblank, words, words, List.cons_append, List.splitOnP_cons_eq_if_modifyHead,
      if_pos (isBlank_iff.2 hc)]
    rfl

theorem isBlank_eq_false (h : ∀ c ∈ word, c ∉ blanks) : ∀ c ∈ word, isBlank c = false :=
  fun c hc => Bool.eq_false_iff.2 fun hblank => h c hc (isBlank_iff.1 hblank)

section Word

variable (hne : word ≠ []) (hword : ∀ c ∈ word, c ∉ blanks) (hblank : ∀ c ∈ blank, c ∈ blanks)
include hne hword hblank

/-- A word ends at the first blank behind it. -/
theorem words_word_append (hsome : blank ≠ []) (text : List Char) :
    words (word ++ (blank ++ text)) = word :: words text := by
  cases blank with
  | nil => exact absurd rfl hsome
  | cons c blank =>
    obtain ⟨hc, hblank⟩ := List.forall_mem_cons.1 hblank
    rw [← words_blank_append hblank text, words, List.cons_append,
      List.splitOnP_append_cons_of_forall_mem (isBlank_eq_false hword) c (isBlank_iff.2 hc),
      List.filter_cons_of_pos (by simpa using hne)]
    rfl

theorem words_single : words (word ++ blank) = [word] := by
  by_cases hsome : blank = []
  · rw [hsome, List.append_nil, words, List.splitOnP_eq_singleton (isBlank_eq_false hword),
      List.filter_cons_of_pos (by simpa using hne)]
    rfl
  · rw [← List.append_nil blank, words_word_append hne hword hblank hsome]
    rfl

end Word

end Text

/-! ## Literals -/

namespace Code

/-- The bytes of a literal of a given length, the most significant one first. -/
def literalBytes : (length value : Nat) → List UInt8
  | 0, _ => []
  | n + 1, value => literalBytes n (value / 256) ++ [UInt8.ofNat (value % 256)]

variable {code : Code} {n : Nat}

@[simp] theorem length_literalBytes (n value : Nat) : (literalBytes n value).length = n := by
  induction n generalizing value with
  | zero => rfl
  | succ n ih => rw [literalBytes, List.length_append, ih, List.length_singleton]

/-- A literal that gets one more byte. -/
theorem literalBytes_succ (n value : Nat) (b : UInt8) :
    literalBytes (n + 1) (256 * value + b.toNat) = literalBytes n value ++ [b] := by
  have hb := b.toNat_lt
  rw [literalBytes, show (256 * value + b.toNat) / 256 = value by omega,
    show (256 * value + b.toNat) % 256 = b.toNat by omega, UInt8.ofNat_toNat]

theorem literalBytes_inj {value value' : Nat} (h : value < Nat.pow 256 n)
    (h' : value' < Nat.pow 256 n) (heq : literalBytes n value = literalBytes n value') :
    value = value' := by
  induction n generalizing value value' with
  | zero => exact (Nat.lt_one_iff.1 h).trans (Nat.lt_one_iff.1 h').symm
  | succ n ih =>
    change _ < Nat.pow 256 n * 256 at h h'
    obtain ⟨hupper, hlast⟩ := List.append_inj heq (by simp)
    have hmod (k : Nat) : (UInt8.ofNat (k % 256)).toNat = k % 256 :=
      UInt8.toNat_ofNat_of_lt' (Nat.mod_lt k (by decide))
    have hlast := congrArg UInt8.toNat (List.cons.inj hlast).1
    rw [hmod, hmod] at hlast
    have hdiv := ih (by omega) (by omega) hupper
    omega

theorem word_lt (code : Code) (start : Int) (n : Nat) : code.word start n < Nat.pow 256 n := by
  induction n with
  | zero => exact Nat.zero_lt_one
  | succ n ih =>
    have hb := (code.opcode (start + n)).toNat_lt
    change 256 * code.word start n + _ < Nat.pow 256 n * 256
    omega

/-- What the decoder reads is the literal of the bytes that stand there. -/
theorem literalBytes_word {start : Nat} (h : start + n ≤ code.size) :
    literalBytes n (code.word start n) = (code.bytes.toList.drop start).take n := by
  induction n with
  | zero => rfl
  | succ n ih =>
    have hlt : start + n < code.bytes.size := h
    have hcast : (start : Int) + (n : Int) = ((start + n : Nat) : Int) := rfl
    rw [word, literalBytes_succ, ih (by omega), hcast, opcode_natCast hlt, List.take_add_one,
      List.getElem?_drop, List.getElem?_eq_getElem (by simpa using hlt)]
    rfl

end Code

/-! ## Operands -/

namespace Text.Hex

open Code

variable {text : List Char} {bytes : List UInt8}

theorem mem_alphabet_of_all (h : (text.all fun c => decide (c ∈ alphabet)) = true) :
    ∀ c ∈ text, c ∈ alphabet :=
  fun c hc => of_decide_eq_true (List.all_eq_true.1 h c hc)

/-- Reading digit pairs goes on with the bytes that they write. -/
theorem literalBytes_foldl (h : bytes? text = some bytes) (n value : Nat) :
    literalBytes (n + bytes.length)
        (text.foldl (fun n c => 16 * n + (digitValue? c).getD 0) value) =
      literalBytes n value ++ bytes := by
  induction text using bytes?.induct generalizing bytes n value with
  | case1 =>
    cases h
    rw [List.append_nil]
    rfl
  | case2 => cases h
  | case3 hi lo text ih =>
    obtain ⟨b, rest, hb, hrest, rfl⟩ := of_bytes?_cons_cons h
    obtain ⟨hhi, hlo⟩ := byte?_eq_some_iff.1 hb
    have hpair : 16 * (16 * value + b.toNat / 16) + b.toNat % 16 = 256 * value + b.toNat := by omega
    rw [List.foldl_cons, List.foldl_cons, digitValue?_eq_some_iff.2 hhi,
      digitValue?_eq_some_iff.2 hlo, Option.getD_some, Option.getD_some, hpair, List.length_cons,
      Nat.add_comm rest.length, ← Nat.add_assoc, ih hrest, literalBytes_succ, List.append_assoc]
    rfl

theorem literalBytes_reading (h : bytes? text = some bytes) :
    literalBytes bytes.length (reading 16 text) = bytes := by
  have hfold := literalBytes_foldl h 0 0
  rwa [Nat.zero_add] at hfold

theorem reading_lt {digits : List Char} (h : ∀ c ∈ digits, c ∈ alphabet) :
    reading 16 digits < Nat.pow 16 digits.length := by
  have hfold : ∀ value, digits.foldl (fun n c => 16 * n + (digitValue? c).getD 0) value <
      (value + 1) * Nat.pow 16 digits.length := by
    induction digits with
    | nil => simp
    | cons c digits ih =>
      intro value
      obtain ⟨hc, hdigits⟩ := List.forall_mem_cons.1 h
      obtain ⟨n, hn⟩ := exists_digitValue? hc
      have hlt := (of_digitValue? hn).1
      rw [List.foldl_cons, hn, Option.getD_some]
      calc _ < (16 * value + n + 1) * Nat.pow 16 digits.length := ih hdigits _
        _ ≤ (value + 1) * 16 * Nat.pow 16 digits.length := Nat.mul_le_mul_right _ (by omega)
        _ = (value + 1) * (Nat.pow 16 digits.length * 16) := by
          rw [Nat.mul_assoc, Nat.mul_comm 16]
  have hzero := hfold 0
  rwa [Nat.zero_add, Nat.one_mul] at hzero

/-- Two digits begin with the number that they write. -/
theorem byte?_leadingHex {hi lo : Char} (hhi : hi ∈ alphabet) (hlo : lo ∈ alphabet) :
    byte? hi lo = some (LeadingHex.byte [hi, lo]) := by
  have hall : (alphabet.all fun hi => alphabet.all fun lo =>
      byte? hi lo == some (LeadingHex.byte [hi, lo])) = true := by decide +kernel
  exact beq_iff_eq.1 (List.all_eq_true.1 (List.all_eq_true.1 hall hi hhi) lo hlo)

/-- Cutting digits into pairs gives the bytes that they write. -/
theorem map_leadingHex (h : bytes? text = some bytes) :
    ((List.range bytes.length).map fun k => LeadingHex.byte ((text.drop (2 * k)).take 2)) =
      bytes := by
  induction text using bytes?.induct generalizing bytes with
  | case1 =>
    cases h
    rfl
  | case2 => cases h
  | case3 hi lo text ih =>
    obtain ⟨b, rest, hb, hrest, rfl⟩ := of_bytes?_cons_cons h
    obtain ⟨hhi, hlo, -⟩ := of_byte? hb
    rw [byte?_leadingHex hhi hlo] at hb
    rw [List.length_cons, List.range_succ_eq_map, List.map_cons, List.map_map]
    exact (congrArg (List.cons _) (ih hrest)).trans
      (congrArg (List.cons · rest) (Option.some.inj hb))

end Text.Hex

namespace Assembly

open Text Text.Hex

variable {mark digits : List Char} {n : Nat}

/-- Digits take one place each. -/
theorem places_of_mem_alphabet (h : ∀ c ∈ digits, c ∈ alphabet) : places digits = digits := by
  have hplace : ∀ c ∈ alphabet, ¬0xffff < c.toNat := forall_alphabet (by decide)
  induction digits with
  | nil => rfl
  | cons c digits ih =>
    obtain ⟨hc, hdigits⟩ := List.forall_mem_cons.1 h
    rw [places, List.flatMap_cons, if_neg (hplace c hc), ← places, ih hdigits]
    rfl

/-- The operand of a literal assembles to the bytes of the literal. -/
theorem immediate_eq_literalBytes (hmark : IsMark mark) (h : ∀ c ∈ digits, c ∈ alphabet)
    (hlength : digits.length ≤ 2 * n) :
    immediate (mark ++ digits) n = Code.literalBytes n (reading 16 digits) := by
  have hfilled : (zeroFilled (2 * n) digits).length = 2 * n ∧
      ∀ c ∈ zeroFilled (2 * n) digits, c ∈ alphabet := by
    refine ⟨?_, fun c hc => ?_⟩
    · rw [zeroFilled, List.length_append, List.length_replicate]
      omega
    · rcases List.mem_append.1 hc with hc | hc
      · rw [List.eq_of_mem_replicate hc]
        decide
      · exact h c hc
  obtain ⟨bytes, hbytes, rfl⟩ := exists_bytes?_iff.2 hfilled
  rw [immediate, withoutMark_append hmark h, places_of_mem_alphabet h]
  exact (map_leadingHex hbytes).trans
    (by rw [← reading_zeroFilled (2 * bytes.length), literalBytes_reading hbytes])

end Assembly

end EvmFlow
