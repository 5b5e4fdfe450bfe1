/-!
# Hexadecimal text

Bytes as pairs of hexadecimal digits.

* `digitValue?` reads a digit of either case, `digit` writes one in lower case;
* `bytes?` reads a text of digit pairs, `digits` writes bytes that way, and
  what is written reads back (`bytes?_digits`);
* `render` shows bytes, and no two sequences of bytes in the same way
  (`render_inj`).
-/

namespace EvmFlow.Text.Hex

/-- The value of a hexadecimal digit of either case. -/
def digitValue? (c : Char) : Option Nat :=
  if '0' ≤ c ∧ c ≤ '9' then some (c.toNat - '0'.toNat)
  else if 'a' ≤ c ∧ c ≤ 'f' then some (c.toNat - 'a'.toNat + 10)
  else if 'A' ≤ c ∧ c ≤ 'F' then some (c.toNat - 'A'.toNat + 10)
  else none

/-- A hexadecimal digit of either case. -/
def isDigit (c : Char) : Bool := (digitValue? c).isSome

/-- The lower-case digit of a value below sixteen. -/
def digit (n : Nat) : Char :=
  if n < 10 then Char.ofNat ('0'.toNat + n) else Char.ofNat ('a'.toNat + (n - 10))

/-- The byte written by two digits, the upper half first. -/
def byte? (hi lo : Char) : Option UInt8 := do
  let h ← digitValue? hi
  let l ← digitValue? lo
  return UInt8.ofNat (16 * h + l)

/-- The bytes of a text that consists of digit pairs. -/
def bytes? : List Char → Option (List UInt8)
  | [] => some []
  | [_] => none
  | hi :: lo :: rest => do
    let b ← byte? hi lo
    let bs ← bytes? rest
    return b :: bs

/-- The two lower-case digits of a byte. -/
def pair (b : UInt8) : List Char := [digit (b.toNat / 16), digit (b.toNat % 16)]

/-- The lower-case digit pairs of a sequence of bytes. -/
def digits (bytes : List UInt8) : List Char := bytes.flatMap pair

/-- Bytes in lower case after the mark `0x`. -/
def render (bytes : List UInt8) : String := "0x" ++ String.ofList (digits bytes)

/-- A text without the mark `0x` at its start, if it has one. -/
def withoutMark : List Char → List Char
  | '0' :: 'x' :: rest => rest
  | text => text

@[simp] theorem bytes?_nil : bytes? [] = some [] := rfl

@[simp] theorem digits_nil : digits [] = [] := rfl

@[simp] theorem digits_cons (b : UInt8) (bytes : List UInt8) :
    digits (b :: bytes) = digit (b.toNat / 16) :: digit (b.toNat % 16) :: digits bytes := rfl

theorem digitValue?_digit {n : Nat} (h : n < 16) : digitValue? (digit n) = some n := by
  have : ∀ k : Fin 16, digitValue? (digit k) = some k.val := by decide
  exact this ⟨n, h⟩

theorem byte?_digit (b : UInt8) :
    byte? (digit (b.toNat / 16)) (digit (b.toNat % 16)) = some b := by
  have hb := b.toNat_lt
  rw [byte?, digitValue?_digit (by omega), digitValue?_digit (by omega)]
  show some (UInt8.ofNat (16 * (b.toNat / 16) + b.toNat % 16)) = some b
  rw [Nat.div_add_mod, UInt8.ofNat_toNat]

/-- Reading the written digits gives the bytes back. -/
theorem bytes?_digits (bytes : List UInt8) : bytes? (digits bytes) = some bytes := by
  induction bytes with
  | nil => rfl
  | cons b bytes ih => simp [bytes?, byte?_digit, ih]

theorem toList_render (bytes : List UInt8) :
    (render bytes).toList = '0' :: 'x' :: digits bytes := by
  rw [render, String.toList_append, String.toList_ofList (l := digits bytes)]
  rfl

/-- Bytes are told apart by how they are shown. -/
theorem render_inj {bytes other : List UInt8} (h : render bytes = render other) :
    bytes = other := by
  have hdigits : digits bytes = digits other := by
    have hlist := congrArg String.toList h
    rw [toList_render, toList_render] at hlist
    exact (List.cons.inj (List.cons.inj hlist).2).2
  exact Option.some.inj ((bytes?_digits bytes).symm.trans (hdigits ▸ bytes?_digits other))

end EvmFlow.Text.Hex
