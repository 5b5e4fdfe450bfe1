import EvmFlow.Proofs.HexText
import EvmFlow.Text.Numeral

/-!
# What numerals write

The digits of a number in a base up to sixteen can be read back
(`Text.reading_toDigits`), and zeros before them do not change what is read. So
an integer is determined by its numeral, even if that is filled up with zeros: a
minus sign is no digit, so it tells which zeros are filled in before it.

* `Text.zeroFilled_numeral_inj`, `Text.decimal_inj`: an integer is determined by
  its numeral;
* `Text.append_cons_inj`: a text is determined by what stands before and behind
  the first place of a character.
-/

namespace EvmFlow.Text

/-- The number that digits write in a base. -/
def reading (base : Nat) (digits : List Char) : Nat :=
  digits.foldl (fun n c => base * n + (Hex.digitValue? c).getD 0) 0

variable {base k n : Nat} {c : Char} {digits : List Char}

/-! ## Digits -/

/-- What holds of the sixteen digits holds of all digits of a number. -/
theorem forall_toDigits {p : Char → Prop} (hbase : 1 < base) (hle : base ≤ 16)
    (h : ∀ d : Fin 16, p (Nat.digitChar d)) : ∀ c ∈ Nat.toDigits base n, p c := by
  induction n using Nat.strongRecOn with
  | ind n ih =>
    intro c hc
    rw [Nat.toDigits_eq_if hbase] at hc
    split at hc
    · next hlt =>
      rw [List.mem_singleton.1 hc]
      exact h ⟨n, Nat.lt_of_lt_of_le hlt hle⟩
    · next hge =>
      rcases List.mem_append.1 hc with hc | hc
      · exact ih (n / base) (Nat.div_lt_self (by omega) hbase) c hc
      · rw [List.mem_singleton.1 hc]
        exact h ⟨n % base, Nat.lt_of_lt_of_le (Nat.mod_lt n (by omega)) hle⟩

theorem mem_alphabet_of_mem_toDigits (h : c ∈ Nat.toDigits 16 n) : c ∈ Hex.alphabet :=
  forall_toDigits (by decide) (by decide) (by decide) c h

theorem digitValue?_digitChar (h : n < 16) : Hex.digitValue? (Nat.digitChar n) = some n := by
  have hall : ∀ d : Fin 16, Hex.digitValue? (Nat.digitChar d) = some d.val := by decide
  exact hall ⟨n, h⟩

theorem reading_concat (digits : List Char) (c : Char) :
    reading base (digits ++ [c]) = base * reading base digits + (Hex.digitValue? c).getD 0 :=
  List.foldl_append

/-- The digits of a number write the number. -/
theorem reading_toDigits (hbase : 1 < base) (hle : base ≤ 16) (n : Nat) :
    reading base (Nat.toDigits base n) = n := by
  induction n using Nat.strongRecOn with
  | ind n ih =>
    rw [Nat.toDigits_eq_if hbase]
    split
    · next hlt =>
      have hdigit := digitValue?_digitChar (Nat.lt_of_lt_of_le hlt hle)
      rw [reading, List.foldl_cons, List.foldl_nil, hdigit, Nat.mul_zero, Nat.zero_add]
      rfl
    · next hge =>
      have hdigit := digitValue?_digitChar
        (Nat.lt_of_lt_of_le (Nat.mod_lt n (show 0 < base by omega)) hle)
      rw [reading_concat, ih (n / base) (Nat.div_lt_self (by omega) hbase), hdigit]
      exact Nat.div_add_mod n base

/-- Zeros before the digits do not count. -/
theorem reading_replicate_append (k : Nat) (digits : List Char) :
    reading base (List.replicate k '0' ++ digits) = reading base digits := by
  induction k with
  | zero => rfl
  | succ k ih =>
    rw [List.replicate_succ, List.cons_append, reading, List.foldl_cons]
    exact ih

theorem reading_zeroFilled (width : Nat) (digits : List Char) :
    reading base (zeroFilled width digits) = reading base digits :=
  reading_replicate_append ..

/-! ## Numerals -/

/-- A text is determined by what stands before and behind the first place of a
    character. -/
theorem append_cons_inj {before before' behind behind' : List Char} (h : c ∉ before)
    (h' : c ∉ before') (heq : before ++ c :: behind = before' ++ c :: behind') :
    before = before' ∧ behind = behind' := by
  induction before generalizing before' with
  | nil =>
    cases before' with
    | nil => exact ⟨rfl, List.tail_eq_of_cons_eq heq⟩
    | cons d rest =>
      cases heq
      exact absurd List.mem_cons_self h'
  | cons d rest ih =>
    cases before' with
    | nil =>
      cases heq
      exact absurd List.mem_cons_self h
    | cons d' rest' =>
      rw [List.cons_append, List.cons_append, List.cons.injEq] at heq
      obtain ⟨rfl, hrest⟩ := ih (fun hc => h (List.mem_cons_of_mem _ hc))
        (fun hc => h' (List.mem_cons_of_mem _ hc)) heq.2
      exact ⟨by rw [heq.1], hrest⟩

section Numeral

variable (hbase : 1 < base) (hle : base ≤ 16)
include hbase hle

/-- The minus sign stands only before negative numbers, however many zeros are
    filled in. -/
theorem minus_mem_zeroFilled_iff {width : Nat} {m : Int} :
    '-' ∈ zeroFilled width (numeral base m) ↔ m < 0 := by
  have hdigits (n : Nat) : '-' ∉ Nat.toDigits base n := fun h =>
    forall_toDigits (p := (· ≠ '-')) hbase hle (by decide) '-' h rfl
  rw [zeroFilled, List.mem_append]
  cases m with
  | ofNat n =>
    refine iff_of_false ?_ (by simp)
    rintro (h | h)
    · exact absurd (List.eq_of_mem_replicate h) (by decide)
    · exact hdigits n h
  | negSucc n => exact iff_of_true (.inr List.mem_cons_self) (Int.negSucc_lt_zero n)

theorem zeroFilled_numeral_inj {width : Nat} {m n : Int}
    (h : zeroFilled width (numeral base m) = zeroFilled width (numeral base n)) : m = n := by
  have hsign : m < 0 ↔ n < 0 := by
    rw [← minus_mem_zeroFilled_iff hbase hle, h, minus_mem_zeroFilled_iff hbase hle]
  cases m with
  | ofNat m =>
    cases n with
    | ofNat n =>
      have hread := congrArg (reading base) h
      simp only [reading_zeroFilled, numeral, reading_toDigits hbase hle] at hread
      rw [hread]
    | negSucc n => exact absurd (hsign.2 (Int.negSucc_lt_zero n)) (by simp)
  | negSucc m =>
    cases n with
    | ofNat n => exact absurd (hsign.1 (Int.negSucc_lt_zero m)) (by simp)
    | negSucc n =>
      -- the zeros stand before the minus sign, the digits behind it
      have hzeros (j : Nat) : '-' ∉ List.replicate j '0' := fun hj =>
        absurd (List.eq_of_mem_replicate hj) (by decide)
      have hdigits := congrArg (reading base) (append_cons_inj (hzeros _) (hzeros _) h).2
      rw [reading_toDigits hbase hle, reading_toDigits hbase hle] at hdigits
      rw [Nat.succ.inj hdigits]

end Numeral

theorem decimal_inj {m n : Int} (h : decimal m = decimal n) : m = n := by
  have hnumeral : numeral 10 m = numeral 10 n := String.ofList_injective h
  exact zeroFilled_numeral_inj (by decide) (by decide) (congrArg (zeroFilled 0) hnumeral)

end EvmFlow.Text
