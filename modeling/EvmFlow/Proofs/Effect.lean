import EvmFlow.Proofs.Regular
import EvmFlow.Shadow

/-!
# Effects on a stack

What an instruction does to a stack does not depend on what the items are: it
moves them, drops them, and puts its literal or fresh items on top
(`Instruction.effect`). So the effect goes through any map of the items
(`Instruction.map_effect`), and the shadow of a stack is affected in the same
way as the stack (`Shadow.slots_apply`).
-/

namespace EvmFlow

variable {α β : Type}

/-- Exchanges the top of a stack with the item `k` places below it. -/
def exchange (stack : List α) (k : Nat) : List α :=
  match stack[0]?, stack[k]? with
  | some a, some b => (stack.set 0 b).set k a
  | _, _ => stack

namespace Instruction

variable (i : Instruction)

/-- The number of fresh items that an instruction puts on the stack. -/
def freshCount : Nat := if i.kind = .plain then i.produces.toNat else 0

/-- The stack after an instruction, given its literal and its fresh items. -/
def effect (literal : α) (fresh stack : List α) : List α :=
  match i.kind with
  | .plain => fresh ++ stack.drop i.consumes.toNat
  | .push => literal :: stack
  | .dup => stack[(i.consumes - 1).toNat]?.toList ++ stack
  | .swap => exchange stack (i.consumes - 1).toNat
  | .pop => stack.drop 1
  | .jump => stack.drop 1
  | .jumpi => stack.drop 2
  | .jumpdest => stack
  | .terminal => stack

end Instruction

theorem map_exchange (f : α → β) (stack : List α) (k : Nat) :
    (exchange stack k).map f = exchange (stack.map f) k := by
  rw [exchange, exchange, List.getElem?_map, List.getElem?_map]
  cases stack[0]? with
  | none => rfl
  | some a =>
    cases stack[k]? with
    | none => rfl
    | some b =>
      simp only [Option.map_some, List.map_set]

theorem length_exchange (stack : List α) (k : Nat) : (exchange stack k).length = stack.length := by
  rw [exchange]
  split
  · rw [List.length_set, List.length_set]
  · rfl

theorem mem_of_mem_exchange {stack : List α} {k : Nat} {x : α} (h : x ∈ exchange stack k) :
    x ∈ stack := by
  rw [exchange] at h
  split at h
  · next a b ha hb =>
    rcases List.mem_or_eq_of_mem_set h with h | rfl
    · rcases List.mem_or_eq_of_mem_set h with h | rfl
      · exact h
      · exact List.mem_of_getElem? hb
    · exact List.mem_of_getElem? ha
  · exact h

/-- The exchange of two items of a stack, by their places. -/
theorem exchange_eq_set {stack : List α} {k : Nat} (hk : k < stack.length) (d : α) :
    exchange stack k = (stack.set 0 (stack.getD k d)).set k (stack.getD 0 d) := by
  rw [exchange, List.getD_eq_getElem?_getD, List.getD_eq_getElem?_getD,
    List.getElem?_eq_getElem hk, List.getElem?_eq_getElem (Nat.zero_lt_of_lt hk)]
  rfl

/-- The exchange, place by place. -/
theorem getElem?_exchange {stack : List α} {k : Nat} (hk : k < stack.length) (j : Nat) :
    (exchange stack k)[j]? =
      if j = 0 then stack[k]? else if j = k then stack[0]? else stack[j]? := by
  have h₀ : 0 < stack.length := Nat.zero_lt_of_lt hk
  rw [exchange, List.getElem?_eq_getElem hk, List.getElem?_eq_getElem h₀]
  simp only [List.getElem?_set, List.length_set, eq_comm (b := j), if_pos hk, if_pos h₀]
  by_cases hj : j = k
  · rw [if_pos hj]
    split
    · next hzero =>
      subst hzero
      subst hj
      rfl
    · rfl
  · rw [if_neg hj, if_neg hj]

theorem exchange_append {stack : List α} {k : Nat} (hk : k < stack.length) (rest : List α) :
    exchange (stack ++ rest) k = exchange stack k ++ rest := by
  have hk' : k < (stack ++ rest).length := by rw [List.length_append]; omega
  refine List.ext_getElem? fun j => ?_
  rw [getElem?_exchange hk']
  simp only [List.getElem?_append, length_exchange, getElem?_exchange hk, if_pos hk,
    if_pos (Nat.zero_lt_of_lt hk)]
  split
  · next hzero => rw [if_pos (by omega)]
  · split
    · next hlast => rw [if_pos (by omega)]
    · rfl

/-- The ends of a list are exchanged in either direction. -/
theorem reverse_exchange {stack : List α} {k : Nat} (hk : stack.length = k + 1) :
    (exchange stack.reverse k).reverse = exchange stack k := by
  have hlt : k < stack.length := by omega
  have hlt' : k < stack.reverse.length := by rw [List.length_reverse]; exact hlt
  refine List.ext_getElem? fun j => ?_
  by_cases hj : j ≤ k
  · -- a place is as far from one end as its mirror image from the other
    have hmirror : ∀ l : List α, l.length = k + 1 → ∀ a b, a + b = k → l.reverse[a]? = l[b]? :=
      fun l hl a b hab => List.getElem?_reverse' (by omega)
    rw [hmirror _ (by rw [length_exchange, List.length_reverse, hk]) j (k - j) (by omega),
      getElem?_exchange hlt', getElem?_exchange hlt, hmirror stack hk k 0 (Nat.add_zero k),
      hmirror stack hk 0 k (Nat.zero_add k), hmirror stack hk (k - j) j (by omega)]
    by_cases hlast : j = k
    · subst hlast
      rw [if_pos (Nat.sub_self j), if_pos rfl]
      split
      · next hzero => rw [hzero]
      · rfl
    · rw [if_neg (by omega), if_neg hlast]
      by_cases hzero : j = 0
      · rw [if_pos (by omega), if_pos hzero]
      · rw [if_neg (by omega), if_neg hzero]
  · rw [List.getElem?_eq_none (by simp only [List.length_reverse, length_exchange]; omega),
      List.getElem?_eq_none (by rw [length_exchange]; omega)]

namespace Instruction

variable {i : Instruction} {literal : α} {fresh stack : List α} {opcode : UInt8}

/-- The effect goes through any map of the items. -/
theorem map_effect (f : α → β) : (i.effect literal fresh stack).map f =
    i.effect (f literal) (fresh.map f) (stack.map f) := by
  rw [effect, effect]
  cases i.kind with
  | plain => simp only [List.map_append, List.map_drop]
  | push => rfl
  | dup =>
    simp only [List.map_append, List.getElem?_map]
    cases stack[(i.consumes - 1).toNat]? <;> rfl
  | swap => exact map_exchange f stack _
  | pop | jump | jumpi => exact List.map_drop
  | jumpdest | terminal => rfl

/-- No items come from elsewhere. -/
theorem mem_effect {x : α} (h : x ∈ i.effect literal fresh stack) :
    x = literal ∨ x ∈ fresh ∨ x ∈ stack := by
  rw [effect] at h
  cases hk : i.kind with rw [hk] at h
  | plain =>
    rcases List.mem_append.1 h with h | h
    · exact .inr (.inl h)
    · exact .inr (.inr (List.mem_of_mem_drop h))
  | push =>
    rcases List.mem_cons.1 h with h | h
    · exact .inl h
    · exact .inr (.inr h)
  | dup =>
    rcases List.mem_append.1 h with h | h
    · exact .inr (.inr (List.mem_of_getElem? (Option.mem_toList.1 h)))
    · exact .inr (.inr h)
  | swap => exact .inr (.inr (mem_of_mem_exchange h))
  | pop | jump | jumpi => exact .inr (.inr (List.mem_of_mem_drop h))
  | jumpdest | terminal => exact .inr (.inr h)

/-- The effect changes the height as the instruction says. -/
theorem length_effect (hi : i.IsRegular opcode) (henough : i.consumes ≤ stack.length)
    (hfresh : fresh.length = i.freshCount) (hterminal : i.kind ≠ .terminal) :
    ((i.effect literal fresh stack).length : Int) = i.heightAfter stack.length := by
  have heffect := hi.effect
  rw [effect, heightAfter]
  rw [freshCount] at hfresh
  cases hk : i.kind with rw [hk, Kind.HasEffect] at heffect
  | plain =>
    rw [hk, if_pos rfl] at hfresh
    simp only [List.length_append, List.length_drop, hfresh]
    omega
  | push =>
    simp only [List.length_cons]
    omega
  | dup =>
    -- the item that is copied is among those that have to be there
    have hlt : (i.consumes - 1).toNat < stack.length := by omega
    simp only [List.length_append, List.getElem?_eq_getElem hlt, Option.toList_some,
      List.length_singleton]
    omega
  | swap =>
    simp only [length_exchange]
    omega
  | pop | jump | jumpi =>
    simp only [List.length_drop]
    omega
  | jumpdest =>
    simp only
    omega
  | terminal => exact absurd hk hterminal

end Instruction

/-! ## Shadows -/

namespace Shadow

variable {s : Shadow} {i : Instruction} {opcode : UInt8}

/-- The exchange of two slots, after unknown ones are put below where some are
    missing. -/
theorem slots_swap_of_nonneg {n : Int} (hn : 0 ≤ n) :
    (s.swap n).slots = exchange (padded s.slots (n.toNat + 1)) n.toNat := by
  have hlength : n.toNat + 1 ≤ (padded s.slots (n.toNat + 1)).length := by
    rw [length_padded]
    omega
  have htake := List.length_take_of_le hlength
  rw [swap, if_neg (Int.not_lt.2 hn)]
  simp only [fst_lift, List.append_nil, slots_foldl_push, slots_lift]
  rw [← exchange_eq_set (by rw [List.length_reverse, htake]; omega), reverse_exchange htake,
    ← drop_padded, ← exchange_append (by omega), List.take_append_drop]

/-- The exchange of two slots that are there. -/
theorem slots_swap {n : Int} (hn : 0 ≤ n) (hlt : n < s.slots.length) :
    (s.swap n).slots = exchange s.slots n.toNat := by
  rw [slots_swap_of_nonneg hn, padded_of_le (by omega)]

/-- The slots are affected by an instruction in the same way as the stack. -/
theorem slots_apply (hi : i.IsRegular opcode) (henough : i.consumes ≤ s.slots.length)
    (hjump : i.kind.isJump = false) (hterminal : i.kind ≠ .terminal) (value : Int) :
    (s.apply i value).slots =
      i.effect (some value) (List.replicate i.freshCount none) s.slots := by
  have heffect := hi.effect
  rw [apply, Instruction.effect, Instruction.freshCount]
  cases hk : i.kind with rw [hk, Kind.HasEffect] at heffect
  | plain => exact slots_replace _ _
  | push => rfl
  | dup =>
    have hlt : (i.consumes - 1).toNat < s.slots.length := by omega
    simp only [dup, peek, slots_push, List.getElem?_eq_getElem hlt, Option.join_some,
      Option.toList_some, List.singleton_append]
  | swap => exact slots_swap (by omega) (by omega)
  | pop => exact slots_drop 1
  | jump => rw [hk] at hjump; cases hjump
  | jumpi => rw [hk] at hjump; cases hjump
  | jumpdest =>
    -- it drops no slots and pushes none
    simp only [heffect.1, heffect.2]
    rfl
  | terminal => exact absurd hk hterminal

theorem slots_of_jump (hk : i.kind = .jump) (literal : Slot) (fresh : List Slot) :
    s.pop.2.slots = i.effect literal fresh s.slots := by
  rw [slots_pop, Instruction.effect, hk]

theorem slots_of_jumpi (hk : i.kind = .jumpi) (literal : Slot) (fresh : List Slot) :
    (s.pop.2.drop 1).slots = i.effect literal fresh s.slots := by
  rw [slots_drop, slots_pop, List.drop_drop, Instruction.effect, hk]
  rfl

/-- A shadow whose slots are affected as the stack is has as many slots as the
    instruction says. -/
theorem size_of_slots_eq {t : Shadow} {literal : Slot} (hi : i.IsRegular opcode)
    (henough : i.consumes ≤ s.size) (hterminal : i.kind ≠ .terminal)
    (ht : t.slots = i.effect literal (List.replicate i.freshCount none) s.slots) :
    (t.size : Int) = i.heightAfter s.size := by
  rw [size_eq] at henough
  rw [size_eq, size_eq, ht]
  exact i.length_effect hi henough List.length_replicate hterminal

/-- An instruction that does not jump changes the number of slots as it says,
    even if it ends the run. -/
theorem size_apply (hi : i.IsRegular opcode) (henough : i.consumes ≤ s.size)
    (hjump : i.kind.isJump = false) (value : Int) :
    ((s.apply i value).size : Int) = i.heightAfter s.size := by
  have hslots : i.consumes ≤ s.slots.length := by rwa [← s.size_eq]
  by_cases hterminal : i.kind = .terminal
  · -- `effect` leaves the stack alone where the run ends, `apply` does not
    have heffect := hi.effect
    rw [hterminal, Kind.HasEffect] at heffect
    have happly : (s.apply i value).slots =
        List.replicate i.produces.toNat none ++ s.slots.drop i.consumes.toNat := by
      rw [apply, hterminal]
      exact slots_replace _ _
    rw [size_eq, size_eq, happly, List.length_append, List.length_replicate, List.length_drop,
      Instruction.heightAfter]
    omega
  · exact size_of_slots_eq hi henough hterminal (slots_apply hi hslots hjump hterminal value)

end Shadow

end EvmFlow
