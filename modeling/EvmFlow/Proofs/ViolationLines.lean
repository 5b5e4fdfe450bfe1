import EvmFlow.Proofs.Numerals
import EvmFlow.Violation

/-!
# The lines that show violations

A violation is shown as one line: its kind, the offset, and what was found
there. A kind is one word and a number has neither a blank nor a colon, so the
line falls into these parts in one way only (`Violation.line_inj`). What was
found is told by numbers between fixed words, and is again cut in one way only
(`Violation.eq_of_detail_eq`).

* `Violation.message_exact`: a violation is determined by its line, which has no
  line break.
-/

namespace EvmFlow

namespace Text

/-- The characters that break a line. -/
def lineBreaks : List Char := [0x0a, 0x0b, 0x0c, 0x0d, 0x85, 0x2028, 0x2029].map Char.ofNat

/-- A text of letters, digits, punctuation and spaces. -/
def IsPlain (text : String) : Prop := ∀ c ∈ text.toList, ' ' ≤ c ∧ c ≤ '~'

theorem isPlain_of_all {text : String}
    (h : (text.toList.all fun c => ' ' ≤ c ∧ c ≤ '~') = true) : IsPlain text := fun c hc =>
  of_decide_eq_true (List.all_eq_true.1 h c hc)

theorem IsPlain.append {s t : String} (hs : IsPlain s) (ht : IsPlain t) : IsPlain (s ++ t) := by
  intro c hc
  rw [String.toList_append] at hc
  exact (List.mem_append.1 hc).elim (hs c) (ht c)

theorem IsPlain.not_mem_lineBreaks {text : String} (h : IsPlain text) :
    ∀ c ∈ text.toList, c ∉ lineBreaks := by
  have hall : (lineBreaks.all fun c => ¬(' ' ≤ c ∧ c ≤ '~')) = true := by decide
  intro c hc hbreak
  exact of_decide_eq_true (List.all_eq_true.1 hall c hbreak) (h c hc)

/-- What holds of the sign and of the digits holds of all characters of a
    numeral. -/
theorem forall_numeral {base : Nat} {p : Char → Prop} (hbase : 1 < base) (hle : base ≤ 16)
    (hminus : p '-') (hdigits : ∀ d : Fin 16, p (Nat.digitChar d)) (n : Int) :
    ∀ c ∈ numeral base n, p c := by
  cases n with
  | ofNat n => exact forall_toDigits hbase hle hdigits
  | negSucc n => exact List.forall_mem_cons.2 ⟨hminus, forall_toDigits hbase hle hdigits⟩

theorem forall_decimal {p : Char → Prop} (hminus : p '-')
    (hdigits : ∀ d : Fin 16, p (Nat.digitChar d)) (n : Int) : ∀ c ∈ (decimal n).toList, p c := by
  rw [decimal, String.toList_ofList]
  exact forall_numeral (by decide) (by decide) hminus hdigits n

theorem isPlain_decimal (n : Int) : IsPlain (decimal n) :=
  forall_decimal (by decide) (by decide) n

theorem space_not_mem_decimal (n : Int) : ' ' ∉ (decimal n).toList := fun h =>
  forall_decimal (p := (· ≠ ' ')) (by decide) (by decide) n ' ' h rfl

theorem colon_not_mem_decimal (n : Int) : ':' ∉ (decimal n).toList := fun h =>
  forall_decimal (p := (· ≠ ':')) (by decide) (by decide) n ':' h rfl

/-- Two texts around a separator are determined, if the character that begins
    the separator is not in the first of them. -/
theorem separated_inj {separator before before' behind behind' : String} {c : Char}
    (hc : separator.toList.head? = some c) (h : c ∉ before.toList) (h' : c ∉ before'.toList)
    (heq : before ++ (separator ++ behind) = before' ++ (separator ++ behind')) :
    before = before' ∧ behind = behind' := by
  obtain ⟨rest, hrest⟩ := List.head?_eq_some_iff.1 hc
  have hlist := congrArg String.toList heq
  simp only [String.toList_append, hrest, List.cons_append] at hlist
  obtain ⟨hbefore, hbehind⟩ := append_cons_inj h h' hlist
  exact ⟨String.toList_inj.1 hbefore, String.toList_inj.1 (List.append_cancel_left hbehind)⟩

end Text

namespace Violation

open Text

variable {v w : Violation}

/-! ## Parts of a line -/

/-- The names of the kinds. -/
def kinds : List String :=
  ["InvalidInstruction", "CodeTruncated", "UnresolvedDynamicJump", "InvalidJumpDestination",
    "StackUnderflow", "StackOverflow"]

theorem kind_mem_kinds (v : Violation) : v.kind ∈ kinds := by
  cases v <;> simp [kind, kinds]

theorem isPlain_kind (v : Violation) : IsPlain v.kind := by
  have hall : ∀ kind ∈ kinds, (kind.toList.all fun c => ' ' ≤ c ∧ c ≤ '~') = true := by decide
  exact isPlain_of_all (hall v.kind (kind_mem_kinds v))

theorem space_not_mem_kind (v : Violation) : ' ' ∉ v.kind.toList := by
  have hall : ∀ kind ∈ kinds, ' ' ∉ kind.toList := by decide
  exact hall v.kind (kind_mem_kinds v)

/-- A line falls into kind, offset and detail in one way only. -/
theorem line_inj {kind kind' detail detail' : String} {m n : Int} (h : ' ' ∉ kind.toList)
    (h' : ' ' ∉ kind'.toList)
    (heq : kind ++ " at pc " ++ decimal m ++ ": " ++ detail =
      kind' ++ " at pc " ++ decimal n ++ ": " ++ detail') :
    kind = kind' ∧ m = n ∧ detail = detail' := by
  simp only [String.append_assoc] at heq
  obtain ⟨hkind, hrest⟩ := separated_inj rfl h h' heq
  obtain ⟨hpc, hdetail⟩ :=
    separated_inj rfl (colon_not_mem_decimal m) (colon_not_mem_decimal n) hrest
  exact ⟨hkind, decimal_inj hpc, hdetail⟩

theorem opcodeText_inj {m n : Int} (h : opcodeText m = opcodeText n) : m = n := by
  rw [opcodeText, opcodeText, String.append_right_inj] at h
  exact zeroFilled_numeral_inj (by decide) (by decide) (String.ofList_injective h)

/-- A number before a separator that begins with a space is determined. -/
theorem decimal_append_inj {separator behind behind' : String} {m n : Int}
    (hspace : separator.toList.head? = some ' ')
    (h : decimal m ++ (separator ++ behind) = decimal n ++ (separator ++ behind')) :
    m = n ∧ behind = behind' := by
  obtain ⟨hnumber, hbehind⟩ :=
    separated_inj hspace (space_not_mem_decimal m) (space_not_mem_decimal n) h
  exact ⟨decimal_inj hnumber, hbehind⟩

/-- What was found is determined by its text, once the kind and the offset are
    known. -/
theorem eq_of_detail_eq (hkind : v.kind = w.kind) (hpc : v.pc = w.pc) (h : v.detail = w.detail) :
    v = w := by
  unfold detail at h
  cases v <;> cases w
  case invalidInstruction.invalidInstruction =>
    simp only [String.append_left_inj, String.append_right_inj] at h
    cases hpc
    rw [opcodeText_inj h]
  case codeTruncated.codeTruncated =>
    simp only [String.append_right_inj] at h
    cases hpc
    rw [decimal_inj h]
  case unresolvedDynamicJump.unresolvedDynamicJump =>
    cases hpc
    rfl
  case invalidJumpDestination.invalidJumpDestination =>
    simp only [String.append_left_inj, String.append_right_inj] at h
    cases hpc
    rw [decimal_inj h]
  case stackUnderflow.stackUnderflow =>
    simp only [String.append_assoc, String.append_right_inj] at h
    obtain ⟨rfl, hbehind⟩ := decimal_append_inj rfl h
    cases hpc
    rw [decimal_inj ((String.append_left_inj _).1 hbehind)]
  case stackOverflow.stackOverflow =>
    simp only [String.append_assoc, String.append_right_inj] at h
    obtain ⟨rfl, hbehind⟩ := decimal_append_inj rfl h
    cases hpc
    rw [decimal_inj hbehind]
  -- two kinds have different names
  all_goals simp [kind] at hkind

/-! ## Lines -/

theorem isPlain_opcodeText (opcode : Int) : IsPlain (opcodeText opcode) := by
  have hdigits : ∀ c ∈ numeral 16 opcode, ' ' ≤ c ∧ c ≤ '~' :=
    forall_numeral (by decide) (by decide) (by decide) (by decide) opcode
  refine (isPlain_of_all (by decide)).append fun c hc => ?_
  rw [String.toList_ofList, zeroFilled] at hc
  rcases List.mem_append.1 hc with hc | hc
  · rw [List.eq_of_mem_replicate hc]
    decide
  · exact hdigits c hc

theorem isPlain_detail (v : Violation) : IsPlain v.detail := by
  cases v with
  | invalidInstruction pc opcode =>
    exact ((isPlain_of_all (by decide)).append (isPlain_opcodeText opcode)).append
      (isPlain_of_all (by decide))
  | codeTruncated pc codeLength =>
    exact (isPlain_of_all (by decide)).append (isPlain_decimal codeLength)
  | unresolvedDynamicJump pc =>
    show IsPlain "jump destination is not a constant"
    exact isPlain_of_all (by decide)
  | invalidJumpDestination pc destination =>
    exact ((isPlain_of_all (by decide)).append (isPlain_decimal destination)).append
      (isPlain_of_all (by decide))
  | stackUnderflow pc required available =>
    exact ((((isPlain_of_all (by decide)).append (isPlain_decimal required)).append
      (isPlain_of_all (by decide))).append (isPlain_decimal available)).append
      (isPlain_of_all (by decide))
  | stackOverflow pc limit resulting =>
    exact (((isPlain_of_all (by decide)).append (isPlain_decimal resulting)).append
      (isPlain_of_all (by decide))).append (isPlain_decimal limit)

theorem isPlain_message (v : Violation) : IsPlain v.message :=
  ((((isPlain_kind v).append (isPlain_of_all (by decide))).append (isPlain_decimal v.pc)).append
    (isPlain_of_all (by decide))).append (isPlain_detail v)

/-- A violation is determined by its line, with all its fields. The line is one
    of the six kinds, the offset and the detail, which it tells apart in one way
    only, and it has no line break. -/
theorem message_exact (v : Violation) :
    (∀ w : Violation, v.message = w.message ↔ v = w) ∧
    v.kind ∈ kinds ∧
    v.message = v.kind ++ " at pc " ++ decimal v.pc ++ ": " ++ v.detail ∧
    (∀ (kind detail : String) (n : Int), ' ' ∉ kind.toList →
      v.message = kind ++ " at pc " ++ decimal n ++ ": " ++ detail →
      kind = v.kind ∧ n = v.pc ∧ detail = v.detail) ∧
    ∀ c ∈ v.message.toList, c ∉ lineBreaks := by
  refine ⟨fun w => ⟨fun h => ?_, congrArg message⟩, kind_mem_kinds v, rfl,
    fun kind detail n hkind h => ?_, (isPlain_message v).not_mem_lineBreaks⟩
  · obtain ⟨hkind, hpc, hdetail⟩ := line_inj (space_not_mem_kind v) (space_not_mem_kind w) h
    exact eq_of_detail_eq hkind hpc hdetail
  · exact line_inj hkind (space_not_mem_kind v) h.symm

/-- Two opcodes that differ in their sign only. The sign takes the place of the
    zero that is filled in. -/
theorem message_signedOpcode :
    (invalidInstruction (-1) (-10)).message =
      "InvalidInstruction" ++ " at pc " ++ decimal (-1) ++ ": " ++ "opcode 0x-a is not defined" ∧
    (invalidInstruction (-1) (-10)).message ≠ (invalidInstruction (-1) 10).message ∧
    "opcode 0x-a is not defined" = (invalidInstruction (-1) (-10)).detail ∧
    Char.ofNat 0x0a ∉ (invalidInstruction (-1) (-10)).message.toList := by
  have hline : (invalidInstruction (-1) (-10)).message =
      "InvalidInstruction" ++ " at pc " ++ decimal (-1) ++ ": " ++
        "opcode 0x-a is not defined" := by
    decide +kernel
  obtain ⟨hinj, -, -, hparts, hbreak⟩ := message_exact (invalidInstruction (-1) (-10))
  exact ⟨hline, fun h => absurd ((hinj _).1 h) (by decide),
    (hparts _ _ _ (by decide) hline).2.2, fun h => hbreak _ h (by decide)⟩

end Violation

end EvmFlow
