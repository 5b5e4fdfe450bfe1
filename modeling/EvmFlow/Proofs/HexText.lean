import EvmFlow.Text.Hex

/-!
# What hexadecimal text writes

There are 22 hexadecimal digits, for the six letters have two cases
(`Text.Hex.alphabet`). A text of them writes bytes if their number is even, and
then it is the lower-case text of these bytes, up to the case of its letters.

* `Text.Hex.exists_bytes?_iff`: the texts that write a number of bytes;
* `Text.Hex.digits_of_bytes?`: what is written is shown in lower case.
-/

namespace EvmFlow.Text.Hex

/-- The hexadecimal digits, the letters in either case. -/
def alphabet : List Char := "0123456789abcdefABCDEF".toList

variable {c hi lo : Char} {n : Nat} {text : List Char} {bytes : List UInt8}

/-- What holds of all digits can be checked one by one. -/
theorem forall_alphabet {p : Char → Prop} [DecidablePred p]
    (h : (alphabet.all fun c => decide (p c)) = true) : ∀ c ∈ alphabet, p c :=
  fun c hc => of_decide_eq_true (List.all_eq_true.1 h c hc)

theorem isDigit_iff : isDigit c = true ↔ c ∈ alphabet := by
  -- no digit comes after the letter f, so there are few characters to look at
  have hsmall : ∀ n : Fin 103, isDigit (Char.ofNat n) = true ↔ Char.ofNat n ∈ alphabet := by
    decide +kernel
  by_cases hc : c.toNat < 103
  · rw [← c.ofNat_toNat]
    exact hsmall ⟨c.toNat, hc⟩
  · have hle : ∀ d : Char, d.toNat < 103 → ¬c ≤ d := fun d hd hcd =>
      hc (Nat.lt_of_le_of_lt (UInt32.le_iff_toNat_le.1 (Char.le_def.1 hcd)) hd)
    have hmem : ∀ d ∈ alphabet, d.toNat < 103 := forall_alphabet (by decide)
    refine iff_of_false ?_ fun h => hc (hmem c h)
    simp [isDigit, digitValue?, hle '9' (by decide), hle 'f' (by decide), hle 'F' (by decide)]

/-- A digit stands for a value below sixteen, whose digit it is in lower case. -/
theorem of_digitValue? (h : digitValue? c = some n) : n < 16 ∧ digit n = c.toLower := by
  have hall : ∀ c ∈ alphabet, ∀ n, digitValue? c = some n → n < 16 ∧ digit n = c.toLower :=
    forall_alphabet (by decide)
  exact hall c (isDigit_iff.1 (Option.isSome_of_eq_some h)) n h

theorem exists_digitValue? (h : c ∈ alphabet) : ∃ n, digitValue? c = some n :=
  Option.isSome_iff_exists.1 (isDigit_iff.2 h)

/-! ## Bytes -/

theorem of_byte? {b : UInt8} (h : byte? hi lo = some b) :
    hi ∈ alphabet ∧ lo ∈ alphabet ∧ pair b = [hi.toLower, lo.toLower] := by
  rw [byte?] at h
  obtain ⟨m, hm, h⟩ := Option.bind_eq_some_iff.1 h
  obtain ⟨n, hn, h⟩ := Option.bind_eq_some_iff.1 h
  obtain ⟨hm16, hhi⟩ := of_digitValue? hm
  obtain ⟨hn16, hlo⟩ := of_digitValue? hn
  cases h
  have hb : (UInt8.ofNat (16 * m + n)).toNat = 16 * m + n :=
    UInt8.toNat_ofNat_of_lt (by change _ < 256; omega)
  refine ⟨isDigit_iff.1 (Option.isSome_of_eq_some hm), isDigit_iff.1 (Option.isSome_of_eq_some hn), ?_⟩
  rw [pair, hb, show (16 * m + n) / 16 = m by omega, show (16 * m + n) % 16 = n by omega, hhi, hlo]

theorem exists_byte? (hhi : hi ∈ alphabet) (hlo : lo ∈ alphabet) : ∃ b, byte? hi lo = some b := by
  obtain ⟨m, hm⟩ := exists_digitValue? hhi
  obtain ⟨n, hn⟩ := exists_digitValue? hlo
  exact ⟨_, by rw [byte?, hm, hn]; rfl⟩

theorem of_bytes?_cons_cons (h : bytes? (hi :: lo :: text) = some bytes) :
    ∃ b rest, byte? hi lo = some b ∧ bytes? text = some rest ∧ bytes = b :: rest := by
  rw [bytes?] at h
  obtain ⟨b, hb, h⟩ := Option.bind_eq_some_iff.1 h
  obtain ⟨rest, hrest, h⟩ := Option.bind_eq_some_iff.1 h
  cases h
  exact ⟨b, rest, hb, hrest, rfl⟩

/-- What a text writes is shown as the text in lower case. -/
theorem digits_of_bytes? (h : bytes? text = some bytes) : digits bytes = text.map Char.toLower := by
  induction text using bytes?.induct generalizing bytes with
  | case1 =>
    cases h
    rfl
  | case2 => cases h
  | case3 hi lo text ih =>
    obtain ⟨b, rest, hb, hrest, rfl⟩ := of_bytes?_cons_cons h
    rw [digits, List.flatMap_cons, (of_byte? hb).2.2, ← digits, ih hrest]
    rfl

/-- The texts that write bytes are those of an even number of digits. -/
theorem exists_bytes?_iff :
    (∃ bytes, bytes? text = some bytes ∧ bytes.length = n) ↔
      text.length = 2 * n ∧ ∀ c ∈ text, c ∈ alphabet := by
  induction text using bytes?.induct generalizing n with
  | case1 => cases n <;> simp
  | case2 c =>
    refine iff_of_false (fun ⟨bytes, h, _⟩ => by cases h) fun h => ?_
    have := h.1
    rw [List.length_singleton] at this
    omega
  | case3 hi lo text ih =>
    constructor
    · rintro ⟨bytes, h, rfl⟩
      obtain ⟨b, rest, hb, hrest, rfl⟩ := of_bytes?_cons_cons h
      obtain ⟨hlength, hall⟩ := ih.1 ⟨rest, hrest, rfl⟩
      obtain ⟨hhi, hlo, -⟩ := of_byte? hb
      simp only [List.length_cons, List.forall_mem_cons]
      exact ⟨by omega, hhi, hlo, hall⟩
    · rintro ⟨hlength, hall⟩
      simp only [List.length_cons, List.forall_mem_cons] at hlength hall
      obtain ⟨hhi, hlo, hall⟩ := hall
      obtain ⟨k, rfl⟩ : ∃ k, n = k + 1 := ⟨n - 1, by omega⟩
      obtain ⟨b, hb⟩ := exists_byte? hhi hlo
      obtain ⟨rest, hrest, hk⟩ := ih.2 ⟨show text.length = 2 * k by omega, hall⟩
      exact ⟨b :: rest, by rw [bytes?, hb, hrest]; rfl, by rw [List.length_cons, hk]⟩

end EvmFlow.Text.Hex
