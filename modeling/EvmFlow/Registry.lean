import EvmFlow.Address

/-!
# The registry of deployed code

Code is stored under an address once and for all: an address that has code
keeps it. The registry is keyed by the texts that show addresses, of which
there is one for each address. What it holds is seen through `Registry.get?`.
-/

namespace EvmFlow

/-- The deployed code, with one pair for each address that has some. -/
structure Registry where
  /-- The texts of the addresses, and their code. -/
  codes : List (String × Array UInt8)
  /-- No text occurs twice. -/
  nodup : (codes.map Prod.fst).Nodup
  deriving DecidableEq, Repr

namespace Registry

/-- The registry without any code. -/
def empty : Registry := ⟨[], .nil⟩

variable (r : Registry)

/-- The code at an address. -/
def get? (address : Address) : Option (Array UInt8) := r.codes.lookup address.toText

/-- There is code at an address. -/
def contains (address : Address) : Bool := (r.get? address).isSome

/-- The number of addresses with code. -/
def count : Nat := r.codes.length

variable {r}

/-- The text of an address without code is not among those of the registry. -/
theorem notMem_of_contains {address : Address} (h : ¬r.contains address) :
    address.toText ∉ r.codes.map Prod.fst := by
  intro hmem
  obtain ⟨⟨text, code⟩, hc, htext⟩ := List.mem_map.1 hmem
  have hnone : r.codes.lookup address.toText = none := by
    rwa [contains, get?, Bool.not_eq_true, Option.isSome_eq_false_iff,
      Option.isNone_iff_eq_none] at h
  exact bne_iff_ne.1 (List.lookup_eq_none_iff.1 hnone _ hc) htext.symm

variable (r)

/-- Stores code at an address, unless there is some already. -/
def put? (address : Address) (bytes : Array UInt8) : Option Registry :=
  if h : r.contains address then none
  else some ⟨(address.toText, bytes) :: r.codes, List.nodup_cons.2 ⟨notMem_of_contains h, r.nodup⟩⟩

@[simp] theorem get?_empty (address : Address) : empty.get? address = none := rfl

variable {r}

/-- Code is stored where there is none, and nowhere else. -/
theorem get?_of_put? {s : Registry} {address : Address} {bytes : Array UInt8}
    (h : r.put? address bytes = some s) (a : Address) :
    s.get? a = if a = address then some bytes else r.get? a := by
  unfold put? at h
  split at h
  · cases h
  · cases h
    by_cases ha : a = address
    · rw [if_pos ha, get?, ha, List.lookup_cons, beq_self_eq_true]
    · have htext : a.toText ≠ address.toText := fun h => ha (Address.toText_inj.1 h)
      rw [if_neg ha, get?, get?, List.lookup_cons, beq_eq_false_iff_ne.2 htext]

end Registry

end EvmFlow
