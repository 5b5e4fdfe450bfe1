import EvmFlow.Command.Outcome
import EvmFlow.Proofs.HexText

/-!
# The texts that write code

A text writes code by digit pairs, one for each byte (`Text.Hex.Writes`), after
the mark `0x` or without it. Each digit is written in either case
(`Text.Hex.IsDigitOf`), and blanks are put in anywhere, also inside the mark and
between the digits of a pair (`Text.Spaced`). There are 25 blank characters
(`Text.blanks`), none of which is a digit or part of the mark, so that dropping
them gives the mark and the digits back (`Text.spaced_iff`).

* `Text.Hex.bytes?_eq_some_iff`: digit pairs are read as what they write;
* `Code.codeText_exact`: the texts that write code, what they write, and what is
  said of the others.
-/

namespace EvmFlow

namespace Text

/-- The blank characters. -/
def blanks : List Char :=
  [0x09, 0x0a, 0x0b, 0x0c, 0x0d, 0x20, 0xa0, 0x1680, 0x2000, 0x2001, 0x2002, 0x2003, 0x2004,
    0x2005, 0x2006, 0x2007, 0x2008, 0x2009, 0x200a, 0x2028, 0x2029, 0x202f, 0x205f, 0x3000,
    0xfeff].map Char.ofNat

/-- The second text is the first one with blanks put in. -/
inductive Spaced : List Char → List Char → Prop
  | nil : Spaced [] []
  | char {c : Char} {text spaced : List Char} : Spaced text spaced →
      Spaced (c :: text) (c :: spaced)
  | blank {c : Char} {text spaced : List Char} : c ∈ blanks → Spaced text spaced →
      Spaced text (c :: spaced)

/-! ## Blanks -/

section Blanks

variable {c : Char} {text spaced : List Char}

theorem isBlank_iff : isBlank c = true ↔ c ∈ blanks := by
  have hcodes : c ∈ blanks ↔ c.toNat ∈ blanks.map Char.toNat := by
    refine ⟨List.mem_map_of_mem, fun h => ?_⟩
    obtain ⟨d, hd, hdc⟩ := List.mem_map.1 h
    rwa [← Char.toNat_inj.1 hdc]
  have hlist : blanks.map Char.toNat = [0x09, 0x0a, 0x0b, 0x0c, 0x0d, 0x20, 0xa0, 0x1680, 0x2000,
      0x2001, 0x2002, 0x2003, 0x2004, 0x2005, 0x2006, 0x2007, 0x2008, 0x2009, 0x200a, 0x2028,
      0x2029, 0x202f, 0x205f, 0x3000, 0xfeff] := by decide
  have hcontrols (n : Nat) : 0x09 ≤ n ∧ n ≤ 0x0d ↔
      n = 0x09 ∨ n = 0x0a ∨ n = 0x0b ∨ n = 0x0c ∨ n = 0x0d := by omega
  have hspaces (n : Nat) : 0x2000 ≤ n ∧ n ≤ 0x200a ↔
      n = 0x2000 ∨ n = 0x2001 ∨ n = 0x2002 ∨ n = 0x2003 ∨ n = 0x2004 ∨ n = 0x2005 ∨ n = 0x2006 ∨
        n = 0x2007 ∨ n = 0x2008 ∨ n = 0x2009 ∨ n = 0x200a := by omega
  rw [hcodes, hlist]
  simp only [isBlank, Bool.or_eq_true, Bool.and_eq_true, decide_eq_true_eq, beq_iff_eq, hcontrols,
    hspaces, or_assoc, List.mem_cons, List.not_mem_nil, or_false]

theorem withoutBlanks_eq_filter (text : List Char) :
    withoutBlanks text = text.filter (· ∉ blanks) := by
  refine List.filter_congr fun c _ => ?_
  rw [Bool.eq_iff_iff, Bool.not_eq_true', ← Bool.not_eq_true, isBlank_iff, decide_eq_true_eq]

/-- Putting blanks in and dropping all blanks is dropping the blanks. -/
theorem Spaced.withoutBlanks_eq (h : Spaced text spaced) :
    withoutBlanks spaced = withoutBlanks text := by
  induction h with
  | nil => rfl
  | @char c _ _ _ ih => rw [withoutBlanks, withoutBlanks, List.filter_cons, List.filter_cons,
      ← withoutBlanks, ← withoutBlanks, ih]
  | blank hc _ ih =>
    rw [withoutBlanks, List.filter_cons_of_neg (by simpa using isBlank_iff.2 hc), ← withoutBlanks, ih]

/-- Any text is the one without its blanks, with blanks put in. -/
theorem spaced_withoutBlanks (spaced : List Char) : Spaced (withoutBlanks spaced) spaced := by
  induction spaced with
  | nil => exact .nil
  | cons c spaced ih =>
    by_cases hc : isBlank c = true
    · rw [withoutBlanks, List.filter_cons_of_neg (by simpa using hc)]
      exact .blank (isBlank_iff.1 hc) ih
    · rw [withoutBlanks, List.filter_cons_of_pos (by simpa using hc)]
      exact .char ih

/-- Dropping the blanks undoes what was put in. -/
theorem spaced_iff (h : ∀ c ∈ text, c ∉ blanks) :
    Spaced text spaced ↔ withoutBlanks spaced = text := by
  constructor
  · intro hspaced
    rw [hspaced.withoutBlanks_eq, withoutBlanks_eq_filter, List.filter_eq_self]
    exact fun c hc => decide_eq_true (h c hc)
  · rintro rfl
    exact spaced_withoutBlanks spaced

end Blanks

/-! ## Digit pairs -/

namespace Hex

/-- The digits in ascending order, with lower-case letters. -/
def lowerDigits : List Char := "0123456789abcdef".toList

/-- The digits in ascending order, with upper-case letters. -/
def upperDigits : List Char := "0123456789ABCDEF".toList

/-- The digit of the value `n`, in one of its cases. -/
def IsDigitOf (n : Nat) (c : Char) : Prop :=
  lowerDigits[n]? = some c ∨ upperDigits[n]? = some c

instance (n : Nat) (c : Char) : Decidable (IsDigitOf n c) :=
  inferInstanceAs (Decidable (_ ∨ _))

/-- Digits that write bytes: a pair for each byte, the upper half first. -/
inductive Writes : List Char → List UInt8 → Prop
  | nil : Writes [] []
  | cons {hi lo : Char} {digits : List Char} {b : UInt8} {bytes : List UInt8} :
      IsDigitOf (b.toNat / 16) hi → IsDigitOf (b.toNat % 16) lo → Writes digits bytes →
      Writes (hi :: lo :: digits) (b :: bytes)

/-- The mark `0x`, or nothing. -/
def IsMark (mark : List Char) : Prop := mark = [] ∨ mark = ['0', 'x']

/-- A text of digits in pairs, after the mark or without it. -/
def IsPaired (text : List Char) : Prop :=
  ∃ mark digits, IsMark mark ∧ text = mark ++ digits ∧ digits.length % 2 = 0 ∧
    ∀ c ∈ digits, c ∈ alphabet

variable {c hi lo : Char} {n : Nat} {b : UInt8} {bytes : List UInt8} {mark digits text : List Char}

theorem digitValue?_eq_some_iff : digitValue? c = some n ↔ IsDigitOf n c := by
  constructor
  · intro h
    have hall : ∀ c ∈ alphabet, ∀ n, digitValue? c = some n → IsDigitOf n c :=
      forall_alphabet (by decide)
    exact hall c (isDigit_iff.1 (Option.isSome_of_eq_some h)) n h
  · intro h
    have hlower : ∀ n : Fin 16, digitValue? (lowerDigits.get n) = some n.val := by decide
    have hupper : ∀ n : Fin 16, digitValue? (upperDigits.get n) = some n.val := by decide
    rcases h with h | h
    · obtain ⟨hn, rfl⟩ := List.getElem?_eq_some_iff.1 h
      exact hlower ⟨n, hn⟩
    · obtain ⟨hn, rfl⟩ := List.getElem?_eq_some_iff.1 h
      exact hupper ⟨n, hn⟩

theorem byte?_eq_some_iff :
    byte? hi lo = some b ↔ IsDigitOf (b.toNat / 16) hi ∧ IsDigitOf (b.toNat % 16) lo := by
  rw [← digitValue?_eq_some_iff, ← digitValue?_eq_some_iff, byte?]
  constructor
  · intro h
    obtain ⟨m, hm, h⟩ := Option.bind_eq_some_iff.1 h
    obtain ⟨n, hn, h⟩ := Option.bind_eq_some_iff.1 h
    have hm16 := (of_digitValue? hm).1
    have hn16 := (of_digitValue? hn).1
    cases h
    have hb : (UInt8.ofNat (16 * m + n)).toNat = 16 * m + n :=
      UInt8.toNat_ofNat_of_lt (by change _ < 256; omega)
    rw [hb, hm, hn]
    exact ⟨congrArg some (by omega), congrArg some (by omega)⟩
  · rintro ⟨hhi, hlo⟩
    rw [hhi, hlo]
    show some (UInt8.ofNat (16 * (b.toNat / 16) + b.toNat % 16)) = some b
    rw [Nat.div_add_mod, UInt8.ofNat_toNat]

/-- Digit pairs are read as the bytes that they write. -/
theorem bytes?_eq_some_iff : bytes? digits = some bytes ↔ Writes digits bytes := by
  constructor
  · intro h
    induction digits using bytes?.induct generalizing bytes with
    | case1 =>
      cases h
      exact .nil
    | case2 => cases h
    | case3 hi lo digits ih =>
      obtain ⟨b, rest, hb, hrest, rfl⟩ := of_bytes?_cons_cons h
      obtain ⟨hhi, hlo⟩ := byte?_eq_some_iff.1 hb
      exact .cons hhi hlo (ih hrest)
  · intro h
    induction h with
    | nil => rfl
    | cons hhi hlo _ ih =>
      rw [bytes?, byte?_eq_some_iff.2 ⟨hhi, hlo⟩, ih]
      rfl

theorem Writes.mem_alphabet (h : Writes digits bytes) : ∀ c ∈ digits, c ∈ alphabet :=
  (exists_bytes?_iff.1 ⟨bytes, bytes?_eq_some_iff.2 h, rfl⟩).2

/-- Digits do not begin with the mark. -/
theorem withoutMark_of_mem_alphabet (h : ∀ c ∈ digits, c ∈ alphabet) :
    withoutMark digits = digits := by
  rw [withoutMark.eq_def]
  split
  · exact absurd (h 'x' (by simp)) (by decide)
  · rfl

theorem withoutMark_append (hmark : IsMark mark) (h : ∀ c ∈ digits, c ∈ alphabet) :
    withoutMark (mark ++ digits) = digits := by
  rcases hmark with rfl | rfl
  · exact withoutMark_of_mem_alphabet h
  · rfl

theorem exists_mark (text : List Char) : ∃ mark, IsMark mark ∧ text = mark ++ withoutMark text := by
  rw [withoutMark.eq_def]
  split
  · exact ⟨_, .inr rfl, rfl⟩
  · exact ⟨_, .inl rfl, rfl⟩

theorem bytes?_withoutMark_iff : bytes? (withoutMark text) = some bytes ↔
    ∃ mark digits, IsMark mark ∧ text = mark ++ digits ∧ Writes digits bytes := by
  constructor
  · intro h
    obtain ⟨mark, hmark, htext⟩ := exists_mark text
    exact ⟨mark, _, hmark, htext, bytes?_eq_some_iff.1 h⟩
  · rintro ⟨mark, digits, hmark, rfl, hwrites⟩
    rw [withoutMark_append hmark hwrites.mem_alphabet]
    exact bytes?_eq_some_iff.2 hwrites

/-- Some bytes are written if the digits are in pairs. -/
theorem exists_bytes?_withoutMark_iff :
    (∃ bytes, bytes? (withoutMark text) = some bytes) ↔ IsPaired text := by
  constructor
  · rintro ⟨bytes, h⟩
    obtain ⟨mark, hmark, htext⟩ := exists_mark text
    obtain ⟨hlength, hall⟩ := exists_bytes?_iff.1 ⟨bytes, h, rfl⟩
    exact ⟨mark, _, hmark, htext, by omega, hall⟩
  · rintro ⟨mark, digits, hmark, rfl, hlength, hall⟩
    obtain ⟨bytes, hbytes, -⟩ := exists_bytes?_iff.2
      ⟨show digits.length = 2 * (digits.length / 2) by omega, hall⟩
    exact ⟨bytes, by rw [withoutMark_append hmark hall, hbytes]⟩

/-- Neither the mark nor a digit is blank. -/
theorem not_mem_blanks (hmark : IsMark mark) (h : ∀ c ∈ digits, c ∈ alphabet) :
    ∀ c ∈ mark ++ digits, c ∉ blanks := by
  have hdigits : ∀ c ∈ alphabet, c ∉ blanks := forall_alphabet (by decide)
  intro c hc
  rcases List.mem_append.1 hc with hc | hc
  · rcases hmark with rfl | rfl
    · cases hc
    · rcases List.mem_cons.1 hc with rfl | hc
      · decide
      · rw [List.mem_singleton.1 hc]
        decide
  · exact hdigits c (h c hc)

end Hex

end Text

namespace Code

open Text Text.Hex

variable {bytes : Array UInt8} {text : String}

theorem ofHex?_eq_some_iff : ofHex? text = some (ofBytes bytes) ↔
    bytes? (withoutMark (withoutBlanks text.toList)) = some bytes.toList := by
  rw [ofHex?, Option.map_eq_some_iff]
  constructor
  · rintro ⟨read, hread, hcode⟩
    have hbytes : read.toArray = bytes := congrArg Code.bytes hcode
    rw [hread, ← hbytes]
  · intro h
    exact ⟨bytes.toList, h, by rw [Array.toArray_toList]⟩

theorem exists_ofHex?_iff : (∃ code, ofHex? text = some code) ↔ IsPaired (withoutBlanks text.toList) := by
  rw [← exists_bytes?_withoutMark_iff, ofHex?]
  simp only [Option.map_eq_some_iff]
  exact ⟨fun ⟨_, bytes, h, _⟩ => ⟨bytes, h⟩, fun ⟨bytes, h⟩ => ⟨_, bytes, h, rfl⟩⟩

/-- A text writes code if without its blanks it is digits in pairs, after the
    mark or without it. It then writes the bytes of these pairs in order; so
    the texts that write given bytes are their digits in any case, after the
    mark or without it, with blanks put in anywhere. Any other text is refused
    as malformed. -/
theorem codeText_exact (text : String) :
    ((∃ code, ofHex? text = some code) ↔ IsPaired (text.toList.filter (· ∉ blanks))) ∧
    (∀ bytes : Array UInt8, ofHex? text = some (ofBytes bytes) ↔
      ∃ mark digits, IsMark mark ∧ text.toList.filter (· ∉ blanks) = mark ++ digits ∧
        Writes digits bytes.toList) ∧
    (∀ bytes : Array UInt8, ofHex? text = some (ofBytes bytes) ↔
      ∃ mark digits, IsMark mark ∧ Writes digits bytes.toList ∧
        Spaced (mark ++ digits) text.toList) ∧
    ∀ context, Command.load context (.hex text) = .error .malformedCode ↔
      ¬IsPaired (text.toList.filter (· ∉ blanks)) := by
  rw [← withoutBlanks_eq_filter, ← exists_ofHex?_iff]
  refine ⟨Iff.rfl, fun bytes => ?_, fun bytes => ?_, fun context => ?_⟩
  · rw [ofHex?_eq_some_iff, bytes?_withoutMark_iff]
  · rw [ofHex?_eq_some_iff, bytes?_withoutMark_iff]
    refine exists_congr fun mark => exists_congr fun digits => and_congr_right fun hmark => ?_
    rw [and_comm]
    refine and_congr_right fun hwrites => ?_
    exact (spaced_iff (not_mem_blanks hmark hwrites.mem_alphabet)).symm
  · rw [← Option.isSome_iff_exists, Option.not_isSome_iff_eq_none, Command.load, Command.load.ofText]
    split
    · next hnone => exact iff_of_true rfl hnone
    · next code hsome =>
      rw [hsome]
      exact iff_of_false (fun h => by cases h) (Option.some_ne_none code)

/-- Blanks inside the mark and inside a digit pair, and digits of both cases. -/
example : ofHex? "0\tx6 0\n5 B5b" = some (ofBytes #[0x60, 0x5b, 0x5b]) := rfl

end Code

end EvmFlow
