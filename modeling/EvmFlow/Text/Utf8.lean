/-!
# Reading UTF-8

Bytes are read as UTF-8. A byte that cannot go on the sequence before it ends
that sequence, and an unfinished or impossible sequence reads as one
replacement character. A byte order mark is a character like any other.

* `Text.Utf8.decode_encoded`: reading undoes encoding.
-/

namespace EvmFlow.Text.Utf8

/-- The character in place of bytes that encode none. -/
def replacement : Char := '�'

/-- Reads `k` continuation bytes, the first of them between `lo` and `hi`, on
    top of the bits read so far. Gives a character and the bytes left. -/
def continued (lo hi : UInt8) (bits : Nat) : (k : Nat) → List UInt8 → Char × List UInt8
  | 0, rest => (Char.ofNat bits, rest)
  | _ + 1, [] => (replacement, [])
  | k + 1, b :: rest =>
    if lo ≤ b ∧ b ≤ hi then continued 0x80 0xbf (64 * bits + (b.toNat - 0x80)) k rest
    else (replacement, b :: rest)

/-- Reads the character that starts with the byte `b`. -/
def character (b : UInt8) (rest : List UInt8) : Char × List UInt8 :=
  if b < 0x80 then (Char.ofNat b.toNat, rest)
  else if b < 0xc2 then (replacement, rest)
  else if b < 0xe0 then continued 0x80 0xbf (b.toNat - 0xc0) 1 rest
  else if b = 0xe0 then continued 0xa0 0xbf 0 2 rest
  else if b = 0xed then continued 0x80 0x9f 0xd 2 rest
  else if b < 0xf0 then continued 0x80 0xbf (b.toNat - 0xe0) 2 rest
  else if b = 0xf0 then continued 0x90 0xbf 0 3 rest
  else if b < 0xf4 then continued 0x80 0xbf (b.toNat - 0xf0) 3 rest
  else if b = 0xf4 then continued 0x80 0x8f 4 3 rest
  else (replacement, rest)

theorem length_continued_le (lo hi : UInt8) (bits k : Nat) (rest : List UInt8) :
    (continued lo hi bits k rest).2.length ≤ rest.length := by
  fun_induction continued lo hi bits k rest <;> simp_all
  omega

theorem length_character_le (b : UInt8) (rest : List UInt8) :
    (character b rest).2.length ≤ rest.length := by
  unfold character
  repeat' split
  all_goals first | exact Nat.le_refl _ | exact length_continued_le ..

/-- The characters that bytes encode. -/
def decode : List UInt8 → List Char
  | [] => []
  | b :: rest => (character b rest).1 :: decode (character b rest).2
termination_by bytes => bytes.length
decreasing_by
  have := length_character_le b rest
  simp only [List.length_cons]
  omega

/-! ## Characters that were encoded -/

section

variable {n bits k : Nat} {rest : List UInt8}

theorem continued_ofNat {lo hi : UInt8} (hlo : lo.toNat ≤ n) (hhi : n ≤ hi.toNat) :
    continued lo hi bits (k + 1) (UInt8.ofNat n :: rest) =
      continued 0x80 0xbf (64 * bits + (n - 0x80)) k rest := by
  have hn : (UInt8.ofNat n).toNat = n :=
    UInt8.toNat_ofNat_of_lt' (Nat.lt_of_le_of_lt hhi hi.toNat_lt)
  have hrange : lo ≤ UInt8.ofNat n ∧ UInt8.ofNat n ≤ hi := by
    rw [UInt8.le_iff_toNat_le, UInt8.le_iff_toNat_le, hn]
    exact ⟨hlo, hhi⟩
  rw [continued, if_pos hrange, hn]

theorem character_ofNat (h : n < 256) : character (UInt8.ofNat n) rest =
    if n < 0x80 then (Char.ofNat n, rest)
    else if n < 0xc2 then (replacement, rest)
    else if n < 0xe0 then continued 0x80 0xbf (n - 0xc0) 1 rest
    else if n = 0xe0 then continued 0xa0 0xbf 0 2 rest
    else if n = 0xed then continued 0x80 0x9f 0xd 2 rest
    else if n < 0xf0 then continued 0x80 0xbf (n - 0xe0) 2 rest
    else if n = 0xf0 then continued 0x90 0xbf 0 3 rest
    else if n < 0xf4 then continued 0x80 0xbf (n - 0xf0) 3 rest
    else if n = 0xf4 then continued 0x80 0x8f 4 3 rest
    else (replacement, rest) := by
  have hn : (UInt8.ofNat n).toNat = n := UInt8.toNat_ofNat_of_lt' h
  simp only [character, UInt8.lt_iff_toNat_lt, ← UInt8.toNat_inj, hn, UInt8.reduceToNat]

/-- The first byte of two. -/
theorem character_two {x y : Nat} (hx : 2 ≤ x ∧ x < 32) (hy : 0x80 ≤ y ∧ y ≤ 0xbf) :
    character (UInt8.ofNat (x + 0xc0)) (UInt8.ofNat y :: rest) =
      continued 0x80 0xbf (64 * x + (y - 0x80)) 0 rest := by
  rw [character_ofNat (by omega), if_neg (by omega), if_neg (by omega), if_pos (by omega),
    Nat.add_sub_cancel, continued_ofNat hy.1 hy.2]

/-- The first byte of three, where the second one tells apart what could have
    been shorter, and surrogates. -/
theorem character_three {x y : Nat} (hx : x < 16) (hy : 0x80 ≤ y ∧ y ≤ 0xbf)
    (hlong : x = 0 → 0xa0 ≤ y) (hsurrogate : x = 0xd → y ≤ 0x9f) :
    character (UInt8.ofNat (x + 0xe0)) (UInt8.ofNat y :: rest) =
      continued 0x80 0xbf (64 * x + (y - 0x80)) 1 rest := by
  rw [character_ofNat (by omega), if_neg (by omega), if_neg (by omega), if_neg (by omega)]
  split
  · next h =>
    obtain rfl : x = 0 := by omega
    exact continued_ofNat (hlong rfl) hy.2
  · split
    · next h =>
      obtain rfl : x = 0xd := by omega
      exact continued_ofNat hy.1 (hsurrogate rfl)
    · rw [if_pos (by omega), Nat.add_sub_cancel, continued_ofNat hy.1 hy.2]

/-- The first byte of four, where the second one tells apart what could have
    been shorter, and what is too great. -/
theorem character_four {x y : Nat} (hx : x ≤ 4) (hy : 0x80 ≤ y ∧ y ≤ 0xbf)
    (hlong : x = 0 → 0x90 ≤ y) (hgreat : x = 4 → y ≤ 0x8f) :
    character (UInt8.ofNat (x + 0xf0)) (UInt8.ofNat y :: rest) =
      continued 0x80 0xbf (64 * x + (y - 0x80)) 2 rest := by
  rw [character_ofNat (by omega), if_neg (by omega), if_neg (by omega), if_neg (by omega),
    if_neg (by omega), if_neg (by omega), if_neg (by omega)]
  split
  · next h =>
    obtain rfl : x = 0 := by omega
    exact continued_ofNat (hlong rfl) hy.2
  · split
    · rw [Nat.add_sub_cancel, continued_ofNat hy.1 hy.2]
    · next h =>
      obtain rfl : x = 4 := by omega
      exact continued_ofNat hy.1 (hgreat rfl)

end

/-- What encodes a character is read as that character. -/
theorem exists_character_eq (c : Char) (rest : List UInt8) : ∃ b tail,
    String.utf8EncodeChar c = b :: tail ∧ character b (tail ++ rest) = (c, rest) := by
  have hvalid : c.val.toNat < 0xd800 ∨ 0xdfff < c.val.toNat ∧ c.val.toNat < 0x110000 := c.valid
  have hdone : ∀ {bits}, bits = c.val.toNat → continued 0x80 0xbf bits 0 rest = (c, rest) := by
    rintro bits rfl
    exact congrArg (·, rest) (Char.ofNat_toNat c)
  have hnext : ∀ {bits k y} {tail : List UInt8}, 0x80 ≤ y → y ≤ 0xbf →
      continued 0x80 0xbf bits (k + 1) (UInt8.ofNat y :: tail) =
        continued 0x80 0xbf (64 * bits + (y - 0x80)) k tail := fun hlo hhi =>
    continued_ofNat hlo hhi
  rw [String.utf8EncodeChar]
  generalize c.val.toNat = v at hvalid hdone
  split
  · refine ⟨_, _, rfl, ?_⟩
    rw [character_ofNat (by omega), if_pos (by omega)]
    exact hdone rfl
  split
  · refine ⟨_, _, rfl, (character_two ?_ ?_).trans (hdone ?_)⟩ <;> omega
  split
  · refine ⟨_, _, rfl, (character_three ?_ ?_ ?_ ?_).trans ((hnext ?_ ?_).trans (hdone ?_))⟩ <;>
      omega
  · refine ⟨_, _, rfl, (character_four ?_ ?_ ?_ ?_).trans
      ((hnext ?_ ?_).trans ((hnext ?_ ?_).trans (hdone ?_)))⟩ <;> omega

/-- Reading undoes encoding. -/
theorem decode_encoded (text : String) : decode text.toUTF8.data.toList = text.toList := by
  have hbytes : text.toUTF8.data.toList = text.toList.flatMap String.utf8EncodeChar := by
    obtain ⟨cs, rfl⟩ : ∃ cs, text = .ofList cs := ⟨text.toList, String.ofList_toList.symm⟩
    rw [String.toUTF8_eq_toByteArray, String.toByteArray_ofList, List.utf8Encode,
      List.data_toByteArray, String.toList_ofList]
  rw [hbytes]
  induction text.toList with
  | nil => rw [List.flatMap_nil, decode]
  | cons c cs ih =>
    obtain ⟨b, tail, hencode, hread⟩ := exists_character_eq c (cs.flatMap String.utf8EncodeChar)
    rw [List.flatMap_cons, hencode, List.cons_append, decode, hread, ih]

end EvmFlow.Text.Utf8
