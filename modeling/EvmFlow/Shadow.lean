import EvmFlow.Instruction

/-!
# Shadow stacks

The shadow of a data stack records which of its slots hold a known constant.
It is a list of slots with the top first, and keeps count of them. Its
operations are total: taking from an empty shadow gives an unknown slot, and a
count below zero counts as zero. Pushes record their literal, the stack
shuffles keep what they move, and every other instruction replaces its
operands by unknown results (`Shadow.apply`).

All operations come down to pushes and pops of single slots, so only these
keep the count. What the others do to the list of slots as a whole is said by
a lemma for each.
-/

namespace EvmFlow

/-- A slot of a shadow stack: the constant it holds, none if it is unknown. -/
abbrev Slot := Option Int

/-- A shadow stack. -/
structure Shadow where
  /-- The slots, the top first. -/
  slots : List Slot
  /-- The number of slots. -/
  size : Nat
  /-- The slots are counted right. -/
  size_eq : size = slots.length
  deriving DecidableEq, Repr

namespace Shadow

/-- The shadow with the given slots. -/
def ofSlots (slots : List Slot) : Shadow := ⟨slots, slots.length, rfl⟩

/-- The shadow of the empty stack. -/
def empty : Shadow := ⟨[], 0, rfl⟩

/-- The top slot and the shadow below it. -/
def pop : Shadow → Slot × Shadow
  | ⟨[], n, h⟩ => (none, ⟨[], n, h⟩)
  | ⟨slot :: below, n, h⟩ => (slot, ⟨below, n - 1, by rw [h, List.length_cons, Nat.add_sub_cancel]⟩)

variable (s : Shadow)

/-- The shadow with one more slot on top. -/
def push (slot : Slot) : Shadow := ⟨slot :: s.slots, s.size + 1, congrArg Nat.succ s.size_eq⟩

/-- The slot `depth` places below the top, unknown past the bottom. -/
def peek (depth : Int) : Slot := s.slots[depth.toNat]?.join

/-- Copies the `n`-th slot from the top onto the top. -/
def dup (n : Int) : Shadow := s.push (s.peek (n - 1))

/-- Drops `count` slots. -/
def drop (count : Int) : Shadow := count.toNat.repeat (fun s => s.pop.2) s

/-- Takes `k` slots off the shadow, each going in front of those lifted before
    it, and gives the shadow that is left. -/
def lift : (k : Nat) → (lifted : List Slot) → Shadow → List Slot × Shadow
  | 0, lifted, s => (lifted, s)
  | k + 1, lifted, s => lift k (s.pop.1 :: lifted) s.pop.2

/-- Exchanges the top with the slot `n` places below it. A shadow with fewer
    slots is first filled up at the bottom with unknown ones. -/
def swap (n : Int) : Shadow :=
  if n < 0 then s
  else
    let k := n.toNat
    -- the top was lifted first, so it stands last
    let (lifted, rest) := s.lift (k + 1) []
    ((lifted.set 0 (lifted.getD k none)).set k (lifted.getD 0 none)).foldl push rest

/-- The shadow after an instruction that does not jump, given the value of its
    immediate. -/
def apply (i : Instruction) (immediate : Int) : Shadow :=
  match i.kind with
  | .push => s.push (some immediate)
  | .dup => s.dup i.consumes
  | .swap => s.swap (i.consumes - 1)
  | .pop => s.drop 1
  | _ => i.produces.toNat.repeat (fun s => s.push none) (s.drop i.consumes)

variable {s}

/-- A shadow is determined by its slots. -/
@[ext] theorem ext {s t : Shadow} (h : s.slots = t.slots) : s = t := by
  obtain ⟨slots, n, hn⟩ := s
  obtain ⟨slots', n', hn'⟩ := t
  cases h
  cases hn.trans hn'.symm
  rfl

/-! ## Single slots -/

@[simp] theorem slots_empty : empty.slots = [] := rfl

@[simp] theorem slots_push (slot : Slot) : (s.push slot).slots = slot :: s.slots := rfl

@[simp] theorem pop_push (slot : Slot) : (s.push slot).pop = (slot, s) := rfl

theorem fst_pop : s.pop.1 = s.slots.head?.join := by
  obtain ⟨slots, n, h⟩ := s
  cases slots with
  | nil => rfl
  | cons slot below => rfl

@[simp] theorem slots_pop : s.pop.2.slots = s.slots.drop 1 := by
  obtain ⟨slots, n, h⟩ := s
  cases slots with
  | nil => rfl
  | cons slot below => rfl

@[simp] theorem size_pop : s.pop.2.size = s.size - 1 := by
  rw [size_eq, size_eq, slots_pop, List.length_drop]

/-! ## Several slots -/

@[simp] theorem slots_drop (count : Int) : (s.drop count).slots = s.slots.drop count.toNat := by
  rw [drop]
  generalize count.toNat = k
  induction k with
  | zero => rfl
  | succ k ih => rw [Nat.repeat, slots_pop, ih, List.drop_drop]

@[simp] theorem size_drop (count : Int) : (s.drop count).size = s.size - count.toNat := by
  rw [size_eq, size_eq, slots_drop, List.length_drop]

theorem slots_repeat_push (k : Nat) (slot : Slot) :
    (k.repeat (fun s => s.push slot) s).slots = List.replicate k slot ++ s.slots := by
  induction k with
  | zero => rfl
  | succ k ih => rw [Nat.repeat, slots_push, ih, List.replicate_succ, List.cons_append]

/-- Operands are replaced by unknown results. -/
theorem slots_replace (count : Int) (k : Nat) :
    (k.repeat (fun s => s.push none) (s.drop count)).slots =
      List.replicate k none ++ s.slots.drop count.toNat := by
  rw [slots_repeat_push, slots_drop]

theorem slots_foldl_push (slots : List Slot) :
    (slots.foldl push s).slots = slots.reverse ++ s.slots := by
  induction slots generalizing s with
  | nil => rfl
  | cons slot slots ih =>
    rw [List.foldl_cons, ih, slots_push, List.reverse_cons, List.append_assoc]
    rfl

/-- The slots, filled up at the bottom with unknown ones to at least `k`. -/
def padded (slots : List Slot) (k : Nat) : List Slot :=
  slots ++ List.replicate (k - slots.length) none

theorem length_padded (slots : List Slot) (k : Nat) :
    (padded slots k).length = max slots.length k := by
  rw [padded, List.length_append, List.length_replicate]
  omega

theorem padded_of_le {slots : List Slot} {k : Nat} (h : k ≤ slots.length) :
    padded slots k = slots := by
  rw [padded, Nat.sub_eq_zero_of_le h, List.replicate_zero, List.append_nil]

theorem drop_padded (slots : List Slot) (k : Nat) : (padded slots k).drop k = slots.drop k := by
  rw [padded, List.drop_append, List.drop_replicate, Nat.sub_self, List.replicate_zero,
    List.append_nil]

/-- The slots lifted are the topmost ones, unknown past the bottom. -/
theorem fst_lift (k : Nat) (lifted : List Slot) :
    (s.lift k lifted).1 = ((padded s.slots k).take k).reverse ++ lifted := by
  induction k generalizing s lifted with
  | zero => rfl
  | succ k ih =>
    rw [lift, ih, slots_pop, fst_pop]
    obtain ⟨slots, n, h⟩ := s
    cases slots with
    | nil => simp [padded, List.replicate_succ]
    | cons slot below => simp [padded]

theorem slots_lift (k : Nat) (lifted : List Slot) :
    (s.lift k lifted).2.slots = s.slots.drop k := by
  induction k generalizing s lifted with
  | zero => rfl
  | succ k ih => rw [lift, ih, slots_pop, List.drop_drop, Nat.add_comm]

end Shadow

end EvmFlow
