import EvmFlow.Text.Hex

/-!
# Addresses

The address of an account: twenty bytes. It is written as the mark `0x` and
forty hexadecimal digits, in either case, and shown in lower case.
-/

namespace EvmFlow

/-- The address of an account. -/
structure Address where
  /-- The bytes. -/
  bytes : List UInt8
  /-- There are twenty. -/
  length_eq : bytes.length = 20
  deriving DecidableEq, Repr

namespace Address

/-- The address that twenty bytes make up. -/
def ofBytes? (bytes : List UInt8) : Option Address :=
  if h : bytes.length = 20 then some ⟨bytes, h⟩ else none

/-- The address that a text writes. -/
def ofText? (text : String) : Option Address :=
  match text.toList with
  | '0' :: 'x' :: digits => (Text.Hex.bytes? digits).bind ofBytes?
  | _ => none

/-- What is said of a text that writes no address. -/
def malformed (text : String) : String := "Invalid address " ++ text

/-- The text that shows an address. -/
def toText (address : Address) : String := Text.Hex.render address.bytes

/-- Addresses are told apart by the texts that show them. -/
theorem toText_inj {a b : Address} : a.toText = b.toText ↔ a = b := by
  refine ⟨fun h => ?_, congrArg toText⟩
  obtain ⟨bytes, hlength⟩ := a
  obtain ⟨other, hother⟩ := b
  cases Text.Hex.render_inj h
  rfl

end Address

end EvmFlow
