import EvmFlow.Proofs.Effect

/-!
# Operations on shadows

A shadow takes slots off and puts them on one at a time, and keeps count as it
goes. On the list of its slots the operations (`Shadow.Operation`) are those
one expects of a stack of any height: all that is below the top moves along,
and what is missing below the bottom counts as unknown.

The operations are said twice, once for shadows (`Operation.run`) and once for
lists (`Operation.onSlots`). One operation does the same on both sides
(`Shadow.slots_run`), and so do any number of them (`Shadow.slots_after`).
Hence every shadow that operations lead to *refines* the list that they lead
to (`Shadow.refines_slots`).
-/

namespace EvmFlow

/-- Two lists differ by the exchange of the first item and the item at place
    `k`, and by nothing else. -/
structure IsExchange {α : Type} (k : Nat) (before after : List α) : Prop where
  length_eq : after.length = before.length
  first : after[0]? = before[k]?
  last : after[k]? = before[0]?
  others : ∀ j, j ≠ 0 → j ≠ k → after[j]? = before[j]?

theorem isExchange_exchange {α : Type} {stack : List α} {k : Nat} (hk : k < stack.length) :
    IsExchange k stack (exchange stack k) where
  length_eq := length_exchange stack k
  first := by rw [getElem?_exchange hk, if_pos rfl]
  last := by
    rw [getElem?_exchange hk, if_pos rfl]
    split
    · next hzero => rw [hzero]
    · rfl
  others j h₀ h := by rw [getElem?_exchange hk, if_neg h₀, if_neg h]

/-- An exchange done twice is undone. -/
theorem exchange_exchange {α : Type} {stack : List α} {k : Nat} (hk : k < stack.length) :
    exchange (exchange stack k) k = stack := by
  have h := isExchange_exchange hk
  have h' := isExchange_exchange (h.length_eq ▸ hk)
  refine List.ext_getElem? fun j => ?_
  by_cases hzero : j = 0
  · rw [hzero, h'.first, h.last]
  by_cases hlast : j = k
  · rw [hlast, h'.last, h.first]
  · rw [h'.others j hzero hlast, h.others j hzero hlast]

namespace Shadow

/-- What can be done to a shadow. -/
inductive Operation
  /-- Puts a slot on top. -/
  | push (slot : Slot)
  /-- Takes the top off. -/
  | pop
  /-- Copies the `n`-th slot from the top onto the top. -/
  | dup (n : Int)
  /-- Exchanges the top with the slot `n` places below it. -/
  | swap (n : Int)
  /-- Drops `count` slots. -/
  | drop (count : Int)
  deriving DecidableEq, Repr

namespace Operation

/-- The operation on a shadow. -/
def run (s : Shadow) : Operation → Shadow
  | push slot => s.push slot
  | pop => s.pop.2
  | dup n => s.dup n
  | swap n => s.swap n
  | drop count => s.drop count

/-- The operation on a list of slots. -/
def onSlots (slots : List Slot) : Operation → List Slot
  | push slot => slot :: slots
  | pop => slots.tail
  | dup n => slots.getD (n - 1).toNat none :: slots
  | swap n => if n < 0 then slots else exchange (padded slots (n.toNat + 1)) n.toNat
  | drop count => slots.drop count.toNat

/-- What an instruction that does not jump does to a shadow, given the value of
    its immediate. -/
def ofInstruction (i : Instruction) (value : Int) : List Operation :=
  match i.kind with
  | .push => [push (some value)]
  | .dup => [dup i.consumes]
  | .swap => [swap (i.consumes - 1)]
  | .pop => [drop 1]
  | _ => drop i.consumes :: List.replicate i.produces.toNat (push none)

end Operation

/-- The shadow to which operations lead from the empty one. -/
def after (ops : List Operation) : Shadow := ops.foldl Operation.run empty

/-- The list to which operations lead from the empty one. -/
def slotsAfter (ops : List Operation) : List Slot := ops.foldl Operation.onSlots []

/-- Whatever is done to the shadow `s`, or asked of it, comes out as it should
    for the list `slots`. -/
structure Refines (s : Shadow) (slots : List Slot) : Prop where
  slots_eq : s.slots = slots
  size_eq : s.size = slots.length
  /-- Nothing is known of the top of an empty shadow, and nothing taken off. -/
  pop : s.pop.1 = slots.headD none ∧ s.pop.2.slots = slots.tail
  peek : ∀ depth : Int, s.peek depth = slots.getD (max depth 0).toNat none
  dup : ∀ n : Int, (s.dup n).slots = s.peek (n - 1) :: slots
  drop : ∀ count : Int, (s.drop count).slots = slots.drop (max count 0).toNat
  swap_of_neg : ∀ n : Int, n < 0 → s.swap n = s
  swap : ∀ n : Int, 0 ≤ n →
    IsExchange n.toNat (padded slots (n.toNat + 1)) (s.swap n).slots
  /-- An exchange of two slots that are there can be undone. -/
  swap_swap : ∀ n : Int, 0 ≤ n → n < s.size →
    (s.swap n).size = s.size ∧ (s.swap n).swap n = s

variable {s : Shadow}

/-! ## One operation -/

theorem peek_eq_getD (depth : Int) : s.peek depth = s.slots.getD depth.toNat none := by
  rw [peek, List.getD_eq_getElem?_getD]
  cases s.slots[depth.toNat]? <;> rfl

theorem swap_of_neg {n : Int} (hn : n < 0) : s.swap n = s := if_pos hn

/-- An operation does the same to a shadow and to the list of its slots. -/
theorem slots_run (op : Operation) : (op.run s).slots = op.onSlots s.slots := by
  cases op with
  | push slot => rfl
  | pop => exact slots_pop.trans List.drop_one
  | dup n => exact congrArg (· :: s.slots) (peek_eq_getD (n - 1))
  | swap n =>
    rw [Operation.run, Operation.onSlots]
    split
    · next hn => rw [swap_of_neg hn]
    · next hn => exact slots_swap_of_nonneg (Int.not_lt.1 hn)
  | drop count => exact slots_drop count

theorem size_swap {n : Int} (hn : 0 ≤ n) (hlt : n < s.size) : (s.swap n).size = s.size := by
  rw [size_eq] at hlt
  rw [size_eq, size_eq, slots_swap hn hlt, length_exchange]

theorem swap_swap {n : Int} (hn : 0 ≤ n) (hlt : n < s.size) : (s.swap n).swap n = s := by
  have hlt' : n < (s.swap n).size := by rwa [size_swap hn hlt]
  rw [size_eq] at hlt hlt'
  apply Shadow.ext
  rw [slots_swap hn hlt', slots_swap hn hlt, exchange_exchange (by omega)]

theorem refines_self (s : Shadow) : s.Refines s.slots where
  slots_eq := rfl
  size_eq := s.size_eq
  pop := by
    refine ⟨?_, slots_pop.trans List.drop_one⟩
    rw [fst_pop]
    cases s.slots <;> rfl
  peek depth := by
    rw [peek_eq_getD, show (max depth 0).toNat = depth.toNat by omega]
  dup n := rfl
  drop count := by
    rw [slots_drop, show (max count 0).toNat = count.toNat by omega]
  swap_of_neg n := swap_of_neg
  swap n hn := by
    rw [slots_swap_of_nonneg hn]
    refine isExchange_exchange ?_
    rw [length_padded]
    omega
  swap_swap n hn hlt := ⟨size_swap hn hlt, swap_swap hn hlt⟩

/-! ## Any number of operations -/

theorem slots_foldl_run (ops : List Operation) :
    (ops.foldl Operation.run s).slots = ops.foldl Operation.onSlots s.slots := by
  induction ops generalizing s with
  | nil => rfl
  | cons op ops ih => rw [List.foldl_cons, List.foldl_cons, ih, slots_run]

/-- Operations lead to the same slots on both sides. -/
theorem slots_after (ops : List Operation) : (after ops).slots = slotsAfter ops :=
  slots_foldl_run ops

theorem foldl_run_replicate (k : Nat) (slot : Slot) :
    (List.replicate k (.push slot)).foldl Operation.run s = k.repeat (fun s => s.push slot) s := by
  apply Shadow.ext
  rw [slots_repeat_push]
  induction k generalizing s with
  | zero => rfl
  | succ k ih =>
    rw [List.replicate_succ, List.foldl_cons, ih, Operation.run, slots_push, List.replicate_succ',
      List.append_assoc, List.singleton_append]

/-- An instruction is a sequence of operations. -/
theorem apply_eq_foldl (i : Instruction) (value : Int) :
    s.apply i value = (Operation.ofInstruction i value).foldl Operation.run s := by
  rw [apply, Operation.ofInstruction]
  cases i.kind with
  | push | dup | swap | pop => rfl
  | plain | jump | jumpi | jumpdest | terminal =>
    rw [List.foldl_cons, foldl_run_replicate]
    rfl

/-- Whatever operations lead to, a shadow refines the list of its slots: the
    slots are counted right, and every operation does to them what it does to a
    list, however far it goes below the bottom. Applying an instruction is no
    more than a sequence of operations. -/
theorem refines_slots (ops : List Operation) :
    (after ops).Refines (slotsAfter ops) ∧
      ∀ i value, (after ops).apply i value = after (ops ++ Operation.ofInstruction i value) := by
  constructor
  · exact slots_after ops ▸ refines_self (after ops)
  · intro i value
    rw [apply_eq_foldl, after, after, List.foldl_append]

/-- An exchange that goes below the bottom of a shadow of two slots, and one
    that does not. -/
theorem refines_slots_twoSlots : ∃ s : Shadow,
    s = after [.push (some 7), .push (some 8)] ∧ s.size = 2 ∧
      IsExchange 3 [some 8, some 7, none, none] (s.swap 3).slots ∧
      (s.swap 3).slots = [none, some 7, none, some 8] ∧ (s.swap 1).swap 1 = s := by
  have h := (refines_slots [.push (some 7), .push (some 8)]).1
  exact ⟨_, rfl, h.size_eq, h.swap 3 (by decide), rfl, (h.swap_swap 1 (by decide) (by decide)).2⟩

end Shadow

end EvmFlow
