import EvmFlow.Proofs.Overflow
import EvmFlow.Proofs.Realisation
import EvmFlow.Proofs.ShadowOperations

/-!
# Heights of shadows

A path carries the height of the stack and a shadow of it. The two are kept
apart: the height is counted with what an instruction consumes and produces,
the shadow is changed by the operations that go with its kind
(`Walk.operations`). Under the rules of a hardfork they go together, so every
open path *fits* (`Path.Fits`): its shadow is as high as it says, and neither
its height nor its base is below zero or above the limit.

The walk touches a shadow only where the path brings the items that the
instruction consumes. So the operations stay in range
(`Shadow.AllInRange`): none takes from an empty shadow, copies or drops what
is below the bottom, or fills a shadow up (`Walk.paths_fit`).
-/

namespace EvmFlow

namespace Shadow

/-- The operation finds all slots it asks for. -/
def Operation.InRange (s : Shadow) : Operation → Prop
  | push _ => True
  | pop => 0 < s.size
  | dup n => 1 ≤ n ∧ n ≤ s.size
  | swap n => 0 ≤ n ∧ n < s.size
  | drop count => 0 ≤ count ∧ count ≤ s.size

/-- Each operation is in range when its turn comes. -/
def AllInRange (s : Shadow) : List Operation → Prop
  | [] => True
  | op :: ops => op.InRange s ∧ AllInRange (op.run s) ops

theorem allInRange_replicate_push (s : Shadow) (k : Nat) (slot : Slot) :
    s.AllInRange (List.replicate k (.push slot)) := by
  induction k generalizing s with
  | zero => trivial
  | succ k ih => exact ⟨trivial, ih _⟩

end Shadow

/-- The shadow of the path is as high as the stack, and the stack and its base
    are within the limit. -/
structure Path.Fits (limit : Int) (p : Path) : Prop where
  size_eq : (p.shadow.size : Int) = p.height
  height_le : p.height ≤ limit
  base_nonneg : 0 ≤ p.base
  base_le : p.base ≤ limit

theorem Path.Fits.height_nonneg {limit : Int} {p : Path} (h : p.Fits limit) : 0 ≤ p.height :=
  h.size_eq ▸ Int.natCast_nonneg _

theorem Path.fits_start {limit : Int} (h : 0 ≤ limit) : Path.start.Fits limit :=
  ⟨rfl, h, Int.le_refl 0, h⟩

namespace Walk

/-- What the walk does to the shadow of a path that comes to the instruction
    `i`, given the value of its immediate. -/
def operations (i : Instruction) (value : Int) : List Shadow.Operation :=
  match i.kind with
  | .jump => [.pop]
  | .jumpi => [.pop, .drop 1]
  | _ => Shadow.Operation.ofInstruction i value

variable {w : Walk} {p q : Path} {i : Instruction} {e : Expansion}

theorem operations_of_not_jump (h : i.kind.isJump = false) (value : Int) :
    operations i value = Shadow.Operation.ofInstruction i value := by
  rw [operations]
  cases hk : i.kind with
  | jump | jumpi => rw [hk] at h; cases h
  | _ => rfl

/-- The paths that go on carry the shadow to which the operations lead. -/
theorem Leads.shadow_eq (h : w.Leads p i e) (hq : q ∈ e.next) : q.shadow =
    (operations i (w.code.word (p.pc + 1) i.immediateLength.toNat)).foldl Shadow.Operation.run
      p.shadow := by
  cases h with
  | jump hk =>
    cases List.mem_singleton.1 hq
    rw [operations, hk]
    rfl
  | jumpi hk =>
    rw [operations, hk]
    rcases List.mem_cons.1 hq with rfl | hq
    · rfl
    · cases List.mem_singleton.1 hq
      rfl
  | terminal => cases hq
  | straight hk =>
    cases List.mem_singleton.1 hq
    rw [operations_of_not_jump hk]
    exact Shadow.apply_eq_foldl i _

/-- A block begins at each path that a jump leads to, and no other instruction
    begins one. -/
theorem Leads.base_cases (h : w.Leads p i e) (hq : q ∈ e.next) :
    q.base = q.height ∨ q.base = p.base := by
  cases h with
  | jump =>
    cases List.mem_singleton.1 hq
    exact .inl rfl
  | jumpi =>
    rcases List.mem_cons.1 hq with rfl | hq
    · exact .inl rfl
    · cases List.mem_singleton.1 hq
      exact .inl rfl
  | terminal => cases hq
  | straight =>
    cases List.mem_singleton.1 hq
    exact .inr rfl

/-- The operations are in range where there are as many slots as the
    instruction consumes. -/
theorem allInRange_operations {s : Shadow} {opcode : UInt8} (hi : i.IsRegular opcode)
    (henough : i.consumes ≤ s.size) (value : Int) : s.AllInRange (operations i value) := by
  have heffect := hi.effect
  rw [operations, Shadow.Operation.ofInstruction]
  cases hk : i.kind with rw [hk, Kind.HasEffect] at heffect
  | plain | terminal =>
    exact ⟨⟨heffect.1, henough⟩, Shadow.allInRange_replicate_push _ _ _⟩
  | push => exact ⟨trivial, trivial⟩
  | dup => exact ⟨⟨heffect.1, henough⟩, trivial⟩
  | swap => exact ⟨⟨by omega, by omega⟩, trivial⟩
  | pop => exact ⟨⟨by decide, heffect.1 ▸ henough⟩, trivial⟩
  | jump => exact ⟨show 0 < s.size by omega, trivial⟩
  | jumpi =>
    -- the condition is below the destination, which was taken off before
    have hbelow : (1 : Int) ≤ s.pop.2.size := by
      rw [Shadow.size_pop]
      omega
    exact ⟨show 0 < s.size by omega, ⟨by decide, hbelow⟩, trivial⟩
  | jumpdest =>
    exact ⟨⟨by omega, henough⟩, Shadow.allInRange_replicate_push _ _ _⟩

/-! ## Open paths -/

/-- What goes on from a path that fits does so too. -/
theorem Follows.fits (hset : w.instructionSet.IsRegular) (hf : w.Follows p i e)
    (h : p.Fits w.stackLimit) (hq : q ∈ e.next) : q.Fits w.stackLimit := by
  have hleads := hf.leads hset
  have hi := hf.isRegular hset
  have hheight := hleads.height_eq hq
  have henough : i.consumes ≤ p.shadow.size := h.size_eq ▸ hf.consumes_le
  have hle : q.height ≤ w.stackLimit := hheight ▸ hf.heightAfter_le
  have hsize : (q.shadow.size : Int) = q.height := by
    rw [hheight, ← h.size_eq]
    exact Shadow.size_of_slots_eq hi henough (hleads.ne_terminal hq)
      (hleads.slots_eq hi (p.shadow.size_eq ▸ henough) hq)
  rcases hleads.base_cases hq with hbase | hbase
  · exact ⟨hsize, hle, hbase ▸ hsize ▸ Int.natCast_nonneg _, hbase ▸ hle⟩
  · exact ⟨hsize, hle, hbase ▸ h.base_nonneg, hbase ▸ h.base_le⟩

theorem IsPath.fits (hset : w.instructionSet.IsRegular) (hlimit : 0 ≤ w.stackLimit)
    (h : w.IsPath p) : p.Fits w.stackLimit := by
  induction h with
  | start => exact Path.fits_start hlimit
  | next _ hf hq ih => exact hf.fits hset ih hq

/-- In every state that the walk comes to, all open paths fit: the shadow is as
    high as the stack, and the height and the base are within the limit. Where
    a path lacks items for its instruction, the walk ends and does not look at
    the shadow. Where it does not, all operations that the walk performs on the
    shadow are in range, and the paths that go on carry what they lead to. -/
theorem paths_fit {rules : Rules} (hw : w.instructionSet = .ofRules rules)
    (hlimit : 0 ≤ w.stackLimit) {s : State} (hs : w.Reachable s) (hp : p ∈ s.paths) :
    ((p.shadow.size : Int) = p.height ∧ 0 ≤ p.height ∧ p.height ≤ w.stackLimit ∧
      0 ≤ p.base ∧ p.base ≤ w.stackLimit) ∧
    ∀ i, p.pc < w.code.size → w.instructionSet.get? (w.code.opcode p.pc) = some i →
      (p.height < i.consumes ∧ ∀ shadow, w.expand { p with shadow := shadow } i =
        .error (.stackUnderflow p.pc i.consumes p.height)) ∨
      (i.consumes ≤ p.height ∧ (∀ value, p.shadow.AllInRange (operations i value)) ∧
        ∀ e, w.expand p i = .ok e → ∃ value, ∀ q ∈ e.next,
          q.shadow = (operations i value).foldl Shadow.Operation.run p.shadow) := by
  have hset : w.instructionSet.IsRegular := hw ▸ InstructionSet.isRegular_ofRules rules
  have h := (hs.isPath p hp).fits hset hlimit
  refine ⟨⟨h.size_eq, h.height_nonneg, h.height_le, h.base_nonneg, h.base_le⟩,
    fun i hpc hi => ?_⟩
  by_cases henough : p.height < i.consumes
  · exact .inl ⟨henough, fun shadow => if_pos henough⟩
  · refine .inr ⟨Int.not_lt.1 henough, fun value => ?_, fun e he => ?_⟩
    · exact allInRange_operations (hset _ _ hi) (h.size_eq ▸ Int.not_lt.1 henough) value
    · have hf : w.Follows p i e := ⟨hpc, hi, he⟩
      exact ⟨_, fun q hq => (hf.leads hset).shadow_eq hq⟩

/-- At the conditional jump of `lateRise` the stack is as high as it may be. The
    destination and the condition are taken off a shadow of three slots. -/
theorem paths_fit_lateRise : ∃ s, (lateRise 3).Reachable s ∧ ∃ p ∈ s.paths,
    p.height = (lateRise 3).stackLimit ∧ (p.shadow.size : Int) = p.height ∧
      p.shadow.AllInRange [.pop, .drop 1] := by
  obtain ⟨s, h⟩ := lateRise.exists_ahead_four (Nat.le_refl 3)
  have hp := h.paths ▸ List.mem_cons_self
  have hw : (lateRise 3).instructionSet = .ofRules (.ofHardfork .cancun) := rfl
  obtain ⟨hfits, hrange⟩ := paths_fit hw (by decide) h.reachable hp
  have hget : (lateRise 3).instructionSet.get? ((lateRise 3).code.opcode 4) =
      some ⟨0x57, "JUMPI", 2, 0, false, 0, false, .jumpi⟩ := (lateRise.get?_eq 0x57).trans rfl
  rcases hrange _ (by decide) hget with ⟨hlacks, -⟩ | ⟨-, hall, -⟩
  · exact absurd hlacks (by decide)
  · exact ⟨s, h.reachable, _, hp, rfl, hfits.1, hall 0⟩

end Walk

end EvmFlow
