import EvmFlow.Proofs.StaticJumps

/-!
# Overflow in accepted code

The walk checks the room above the stack at the height with which it first
comes to an offset. A run that keeps to these heights never overflows. But a
path that comes to a known offset with more items than are known there is not
followed on, so what comes behind is not checked for its height. A run on such
a path *rises* above what is known (`Walk.Rises`), and may overflow later on.

A loop that leaves an item behind each time rises whenever it starts again. A
run can also rise without a loop, where two branches meet with different
heights and the walk takes the lower one first (`Walk.lateRise`).

* `Walk.run_eq_stackOverflow_iff`: a run of accepted code overflows the stack
  if and only if it strays or rises, and overflows from there;
* `Walk.Ahead.next`: a walk that goes forward does not come to known offsets.
-/

namespace EvmFlow

namespace Machine

variable {σ : Type} {draw : σ → Int × σ} {m : Machine} {source : σ} {b c : State σ} {j k : Nat}

variable (draw m source) in
/-- A run executes no offset twice. -/
def ExecutesOnce : Prop :=
  ∀ j k b c, m.Passes draw source j b → m.Passes draw source k c → b.pc = c.pc → j = k

theorem Passes.unique (hb : m.Passes draw source k b) (hc : m.Passes draw source k c) : b = c := by
  induction hb generalizing c with
  | start =>
    cases hc
    rfl
  | step _ hstep ih =>
    cases hc with
    | step hc hstep' =>
      cases ih hc
      exact Except.ok.inj (hstep.symm.trans hstep')

/-- A run that only goes forward comes to greater offsets. -/
theorem Passes.pc_lt (hforward : ∀ c c', m.step draw c = .ok c' → c.pc < c'.pc)
    (hb : m.Passes draw source j b) (hc : m.Passes draw source k c) (h : j < k) :
    b.pc < c.pc := by
  induction hc with
  | start => exact absurd h (Nat.not_lt_zero j)
  | step hc hstep ih =>
    rcases Nat.lt_succ_iff_lt_or_eq.1 h with hlt | rfl
    · exact Int.lt_trans (ih hlt) (hforward _ _ hstep)
    · -- the step was taken from `b` itself
      cases hb.unique hc
      exact hforward _ _ hstep

/-- A run that only goes forward executes no offset twice. -/
theorem executesOnce_of_forward (hforward : ∀ c c', m.step draw c = .ok c' → c.pc < c'.pc) :
    m.ExecutesOnce draw source := by
  intro j k b c hb hc heq
  rcases Nat.lt_trichotomy j k with hlt | rfl | hlt
  · exact absurd heq (Int.ne_of_lt (hb.pc_lt hforward hc hlt))
  · rfl
  · exact absurd heq.symm (Int.ne_of_lt (hc.pc_lt hforward hb hlt))

end Machine

namespace Walk

variable (w : Walk) {σ : Type} (draw : σ → Int × σ) (limit : Int)

/-- The state `c` of a run is on the certificate, with the height that is known
    of its offset. -/
def Level (s : State) (c : Machine.State σ) : Prop :=
  w.Tracks s c ∧ ∀ v, s.visit? c.pc = some v → v.height = c.stack.length

/-- A run on a machine with the stack limit `limit` rises at the state `c`: it
    has the height that is known of its offset, and goes to an offset that is
    known with less than the height it brings there. -/
def Rises (s : State) (c : Machine.State σ) : Prop :=
  ∃ u v c', s.visit? c.pc = some u ∧ u.height = c.stack.length ∧
    (w.machine limit).step draw c = .ok c' ∧
    s.visit? c'.pc = some v ∧ v.height < c'.stack.length

variable {w draw limit} {s : State} {source : σ} {c c' : Machine.State σ}

theorem level_start (hset : w.instructionSet.IsRegular) (hs : w.run .start = .ok s) :
    w.Level s (.start source) := by
  refine ⟨tracks_start hset hs, fun v hv => ?_⟩
  obtain ⟨hr, hnil⟩ := of_run_eq_ok hset.isForward .start hs
  obtain ⟨v', hv', hheight, -⟩ := hr.known_zero hnil (Int.ofNat_lt.1 (hr.pc_lt hv))
  cases hv.symm.trans hv'
  exact hheight

/-- A step keeps to the known heights, unless it strays or rises. -/
theorem Level.of_step (hset : w.instructionSet.IsRegular)
    (hs : w.run .start = .ok s) (hc : w.Level s c)
    (hleave : ¬(w.Strays s c ∨ w.Rises draw limit s c))
    (hstep : (w.machine limit).step draw c = .ok c') : w.Level s c' := by
  obtain ⟨htracks, hheight⟩ := hc
  have htracks' := htracks.of_step hset hs (fun h => hleave (.inl h)) hstep
  refine ⟨htracks', fun v hv => ?_⟩
  rcases htracks' with ⟨v', hv', hle⟩ | ⟨hend, -⟩
  · cases hv.symm.trans hv'
    refine Int.le_antisymm hle (Int.not_lt.1 fun hlt => hleave (.inr ?_))
    -- the step was taken inside the code, where the offset is known
    rcases htracks with ⟨u, hu, -⟩ | ⟨hend, -⟩
    · exact ⟨u, v, c', hu, hheight u hu, hstep, hv, hlt⟩
    · exact absurd (Machine.of_stepTaking_eq_ok hstep).1 (Int.not_lt.2 (Int.le_of_eq hend.symm))
  · have hlt := (of_run_eq_ok hset.isForward .start hs).1.pc_lt hv
    exact absurd hlt (Int.not_lt.2 (Int.le_of_eq hend.symm))

/-- There is room at the known heights. -/
theorem Level.step_ne_stackOverflow (hset : w.instructionSet.IsRegular)
    (hs : w.run .start = .ok s) (hlimit : w.stackLimit ≤ limit)
    (hc : w.Level s c) : (w.machine limit).step draw c ≠ .error .stackOverflow := by
  intro hstep
  obtain ⟨⟨v, hv, hle⟩ | ⟨hend, -⟩, hheight⟩ := hc
  · obtain ⟨i, hcert⟩ := certified_of_run hset hs hv
    have henough : i.consumes ≤ c.stack.length := Int.le_trans hcert.enough hle
    have hroom : i.heightAfter c.stack.length ≤ (w.machine limit).stackLimit :=
      Int.le_trans (hheight v hv ▸ hcert.room) hlimit
    rw [Machine.step_eq_execute hcert.inside.2 hcert.get? henough hroom] at hstep
    rcases Machine.of_execute_eq_error (hset _ _ hcert.get?) henough hstep with
      ⟨-, h⟩ | ⟨-, -, h⟩
    · cases h
    · cases h
  · rw [Machine.step, Machine.stepTaking_of_le (Int.le_of_eq hend.symm)] at hstep
    cases hstep

/-- A run of accepted code overflows the stack if and only if it strays or
    rises, and overflows from there. -/
theorem run_eq_stackOverflow_iff {rules : Rules} (hw : w.instructionSet = .ofRules rules)
    (hs : w.run .start = .ok s) (hlimit : w.stackLimit ≤ limit)
    (draw : σ → Int × σ) (source : σ) (steps : Nat) :
    (w.machine limit).run draw steps (.start source) = .stackOverflow ↔
      ∃ k < steps, ∃ c, (w.machine limit).Passes draw source k c ∧
        (w.Strays s c ∨ w.Rises draw limit s c) ∧
        (w.machine limit).run draw (steps - k) c = .stackOverflow := by
  have hset : w.instructionSet.IsRegular := hw ▸ InstructionSet.isRegular_ofRules rules
  constructor
  · intro hrun
    obtain ⟨k, hk, c, hc, hleave⟩ := Machine.exists_leaves_of_run (H := (· = .stackOverflow))
      (level_start hset hs) (fun _ _ hb hstay => hb.of_step hset hs hstay)
      (fun b h hb _ hstep heq => hb.step_ne_stackOverflow hset hs hlimit (heq ▸ hstep))
      nofun hrun
    refine ⟨k, hk, c, hc, hleave, ?_⟩
    rwa [← Machine.run_of_passes hc, Nat.add_sub_cancel' (Nat.le_of_lt hk)]
  · rintro ⟨k, hk, c, hc, -, hrun⟩
    rwa [← Nat.add_sub_cancel' (Nat.le_of_lt hk), Machine.run_of_passes hc]

/-! ## Walking forward -/

section

variable {p q : Path} {others : List Path}

variable (w) in
/-- The walk has come to the path `p`, and knows no offset from there on. -/
structure Ahead (s : State) (p : Path) (others : List Path) : Prop where
  reachable : w.Reachable s
  paths : s.paths = p :: others
  fresh : ∀ pc, p.pc ≤ pc → s.visit? pc = none

theorem ahead_start : w.Ahead .start .start [] :=
  ⟨.start, rfl, fun pc _ => State.visit?_start pc⟩

/-- A path that goes forward comes to offsets of which nothing is known. -/
theorem Ahead.next (h : w.Ahead s p others) {i : Instruction} {target : Option Int}
    {rest : List Path} (hf : w.Follows p i ⟨target, q :: rest⟩) (hlt : p.pc < q.pc) :
    ∃ t, w.Ahead t q (rest ++ others) ∧
      t.visit? p.pc = some ⟨p.height - p.base, p.height, target⟩ ∧
      ∀ pc v, s.visit? pc = some v → t.visit? pc = some v := by
  have hstep : w.step s p others = .ok (s.enter p i ⟨target, q :: rest⟩ others) :=
    step_of_follows (h.fresh _ (Int.le_refl _)) hf
  refine ⟨_, ⟨h.reachable.step h.paths hstep, rfl, fun pc hpc => ?_⟩, ?_,
    fun pc v => visit?_of_step hstep⟩
  · rw [State.visit?_enter, if_neg (by omega), h.fresh pc (by omega)]
  · rw [State.visit?_enter, if_pos rfl]

/-- A path goes on behind an instruction that does not jump. -/
theorem Ahead.straight (hset : w.instructionSet.IsRegular) (h : w.Ahead s p others)
    {i : Instruction} (hget : w.instructionSet.get? (w.code.opcode p.pc) = some i)
    (hk : i.kind.isJump = false ∧ i.kind ≠ .terminal) (hle : p.pc + i.width ≤ w.code.size)
    (henough : i.consumes ≤ p.height) (hroom : i.heightAfter p.height ≤ w.stackLimit) :
    ∃ t, w.Ahead t ⟨p.pc + i.width, i.heightAfter p.height, p.base,
        p.shadow.apply i (w.code.word (p.pc + 1) i.immediateLength.toNat)⟩ others ∧
      t.visit? p.pc = some ⟨p.height - p.base, p.height, none⟩ ∧
      ∀ pc v, s.visit? pc = some v → t.visit? pc = some v := by
  have hwidth := (hset _ _ hget).width_pos
  have hlt : p.pc < p.pc + i.width := by omega
  have hleads : w.Leads p i _ := .straight hk.1 hk.2 hle
  exact h.next (hleads.follows hset (Int.lt_of_lt_of_le hlt hle) hget henough hroom) hlt

end

/-! ## A late rise -/

/-- The bytes of `lateRise` before the values. -/
def lateRise.head : List UInt8 := [0x34, 0x34, 0x60, 0x06, 0x57, 0x50, 0x5b]

/-- Code that skips the drop of an item if the value of the call is not zero,
    and then pushes that value as often as there is room in an empty stack. -/
def lateRise (limit : Nat) : Walk :=
  ⟨.ofRules (.ofHardfork .cancun),
    .ofBytes (lateRise.head ++ List.replicate limit 0x34).toArray, limit, false⟩

namespace lateRise

variable {n : Nat}

theorem isRegular : (lateRise n).instructionSet.IsRegular :=
  InstructionSet.isRegular_ofRules _

theorem size_eq : (lateRise n).code.size = 7 + n := by
  rw [Nat.add_comm]
  simp [lateRise, head]

theorem seven_le_size : (7 : Int) ≤ (lateRise n).code.size := by
  rw [size_eq]
  omega

theorem opcode_of_lt {k : Nat} (h : k < 7) :
    (lateRise n).code.opcode k = head.getD k 0 := by
  have hget : (head ++ List.replicate n 0x34)[k]? = head[k]? :=
    List.getElem?_append_left h
  simp [lateRise, Code.opcode, hget]

theorem opcode_of_le {pc : Int} (hle : 7 ≤ pc) (hlt : pc < 7 + n) :
    (lateRise n).code.opcode pc = 0x34 := by
  obtain ⟨k, rfl⟩ := Int.eq_ofNat_of_zero_le (Int.le_trans (by decide) hle)
  have hget : (head ++ List.replicate n 0x34)[k]? = (List.replicate n 0x34)[k - 7]? :=
    List.getElem?_append_right (Int.ofNat_le.1 hle)
  simp [lateRise, Code.opcode, hget, show k - 7 < n by omega]

/-- An opcode that does not push the value stands in the head of the code. -/
theorem exists_head {pc : Int} (hpos : 0 ≤ pc) (hlt : pc < (lateRise n).code.size)
    (hop : (lateRise n).code.opcode pc ≠ 0x34) :
    ∃ k < 7, pc = (k : Nat) ∧ (lateRise n).code.opcode pc = head.getD k 0 := by
  rw [size_eq] at hlt
  obtain ⟨k, rfl⟩ := Int.eq_ofNat_of_zero_le hpos
  rcases Nat.lt_or_ge k 7 with h | h
  · exact ⟨k, h, rfl, opcode_of_lt h⟩
  · exact absurd (opcode_of_le (Int.ofNat_le.2 h) hlt) hop

/-- The only jump stands at offset four. -/
theorem eq_four_of_isJump {pc : Int} (hlt : pc < (lateRise n).code.size)
    (hjump : Code.IsJump ((lateRise n).code.opcode pc)) : pc = 4 := by
  have hpos : 0 ≤ pc := Int.not_lt.1 fun hneg => by
    rw [Code.opcode, Code.byte?_of_neg hneg] at hjump
    exact absurd hjump (by decide)
  have hne : (lateRise n).code.opcode pc ≠ 0x34 := fun h => absurd (h ▸ hjump) (by decide)
  obtain ⟨k, hk, rfl, hop⟩ := exists_head hpos hlt hne
  have honly : ∀ k < 7, Code.IsJump (head.getD k 0) → k = 4 := by decide
  rw [hop] at hjump
  rw [honly k hk hjump]
  rfl

theorem isBoundary :
    (lateRise n).code.IsBoundary 2 ∧ (lateRise n).code.IsBoundary 6 := by
  have hlt : ∀ pc : Int, pc < 7 → pc < (lateRise n).code.size := fun pc h =>
    Int.lt_of_lt_of_le h seven_le_size
  have hone : (lateRise n).code.IsBoundary 1 := .next .zero (hlt 0 (by decide))
  have htwo : (lateRise n).code.IsBoundary 2 := .next hone (hlt 1 (by decide))
  have hfour : (lateRise n).code.IsBoundary 4 := .next htwo (hlt 2 (by decide))
  have hfive : (lateRise n).code.IsBoundary 5 := .next hfour (hlt 4 (by decide))
  exact ⟨htwo, .next hfive (hlt 5 (by decide))⟩

/-- The jump stands behind the push. -/
theorem staticJumps : (lateRise n).code.StaticJumps := by
  intro pc hpc hlt hjump
  cases eq_four_of_isJump hlt hjump
  refine ⟨2, isBoundary.1, ?_, rfl⟩
  change Code.IsPush 0x60
  decide

/-- The only jump destination is where the branches meet. -/
theorem isJumpDest_iff_eq_six {d : Int} : (lateRise n).code.isJumpDest d = true ↔ d = 6 := by
  rw [Code.isJumpDest_iff]
  constructor
  · rintro ⟨hd, hlt, hop⟩
    obtain ⟨k, hk, rfl, hhead⟩ := exists_head hd.nonneg hlt (hop ▸ by decide)
    have honly : ∀ k < 7, head.getD k 0 = Code.jumpDestOpcode → k = 6 := by decide
    rw [honly k hk (hhead.symm.trans hop)]
    rfl
  · rintro rfl
    exact ⟨isBoundary.2, Int.lt_of_lt_of_le (by decide) seven_le_size, rfl⟩

/-- All steps go forward. -/
theorem lt_of_step {limit : Int}
    (h : ((lateRise n).machine limit).step draw c = .ok c') : c.pc < c'.pc := by
  obtain ⟨hlt, i, hi, -, -, ⟨hj, -, hd⟩ | ⟨-, hbehind⟩⟩ :=
    Machine.moves_of_stepTaking (m := (lateRise n).machine limit) (isRegular (n := n)) h
  · -- the jump goes from offset four to offset six
    have hfour : c.pc = 4 :=
      eq_four_of_isJump hlt ((isRegular (n := n) _ _ hi).jump_iff.1 hj.isJump)
    have hsix : c'.pc = 6 := isJumpDest_iff_eq_six.1 hd
    omega
  · have := Code.sweepWidth_pos ((lateRise n).code.opcode c.pc)
    rw [hbehind]
    exact Int.lt_add_of_pos_right _ (Int.natCast_pos.2 this)

/-- No run executes an offset twice. -/
theorem executesOnce {limit : Int} : ((lateRise n).machine limit).ExecutesOnce draw source :=
  Machine.executesOnce_of_forward fun _ _ => lt_of_step

/-! ### Its walk -/

theorem get?_eq (opcode : UInt8) : (lateRise n).instructionSet.get? opcode =
    InstructionSet.enabled? (.ofHardfork .cancun) opcode :=
  InstructionSet.get?_ofRules _ opcode

/-- A path goes on behind an instruction in the head of the code. -/
theorem ahead_head (hn : 3 ≤ n) {s : State} {p : Path} {others : List Path}
    (h : (lateRise n).Ahead s p others) {i : Instruction}
    (hget : (lateRise n).instructionSet.get? ((lateRise n).code.opcode p.pc) = some i)
    (hk : i.kind.isJump = false ∧ i.kind ≠ .terminal) (hle : p.pc + i.width ≤ 7)
    (henough : i.consumes ≤ p.height) (hroom : i.heightAfter p.height ≤ 3) :
    ∃ t, (lateRise n).Ahead t ⟨p.pc + i.width, i.heightAfter p.height, p.base, p.shadow.apply i
      ((lateRise n).code.word (p.pc + 1) i.immediateLength.toNat)⟩ others := by
  obtain ⟨t, ht, -⟩ := h.straight isRegular hget hk (Int.le_trans hle seven_le_size)
    henough (Int.le_trans hroom (Int.ofNat_le.2 hn))
  exact ⟨t, ht⟩

/-- The conditional jump is followed behind itself first. -/
theorem follows_jumpi (hn : 3 ≤ n) : (lateRise n).Follows ⟨4, 3, 0, .ofSlots [some 6, none, none]⟩
    ⟨0x57, "JUMPI", 2, 0, false, 0, false, .jumpi⟩
    ⟨some 6, [⟨5, 1, 1, .ofSlots [none]⟩, ⟨6, 1, 1, .ofSlots [none]⟩]⟩ := by
  have hroom : (1 : Int) ≤ (lateRise n).stackLimit :=
    Int.ofNat_le.2 (Nat.le_trans (by decide) hn)
  refine Leads.follows isRegular (Int.lt_of_lt_of_le (by decide) seven_le_size)
    ((get?_eq 0x57).trans rfl) (by decide) hroom ?_
  exact .jumpi rfl rfl (isJumpDest_iff_eq_six.2 rfl)

/-- The walk comes to the conditional jump with its destination on top. -/
theorem exists_ahead_four (hn : 3 ≤ n) : ∃ t,
    (lateRise n).Ahead t ⟨4, 3, 0, .ofSlots [some 6, none, none]⟩ [] := by
  obtain ⟨s₁, h₁⟩ := ahead_head hn ahead_start ((get?_eq 0x34).trans rfl)
    (by decide) (by decide) (by decide) (by decide)
  replace h₁ : (lateRise n).Ahead s₁ ⟨1, 1, 0, .ofSlots [none]⟩ [] := h₁
  obtain ⟨s₂, h₂⟩ := ahead_head hn h₁ ((get?_eq 0x34).trans rfl)
    (by decide) (by decide) (by decide) (by decide)
  replace h₂ : (lateRise n).Ahead s₂ ⟨2, 2, 0, .ofSlots [none, none]⟩ [] := h₂
  obtain ⟨s₄, h₄⟩ := ahead_head hn h₂ ((get?_eq 0x60).trans rfl)
    (by decide) (by decide) (by decide) (by decide)
  exact ⟨s₄, h₄⟩

/-- The path that drops the item comes to the meeting point first. -/
theorem exists_ahead_six (hn : 3 ≤ n) : ∃ t shadow shadow',
    (lateRise n).Ahead t ⟨6, 0, 1, shadow⟩ [⟨6, 1, 1, shadow'⟩] := by
  obtain ⟨s₄, h₄⟩ := exists_ahead_four hn
  obtain ⟨s₅, h₅, -⟩ := h₄.next (follows_jumpi hn) (by decide)
  obtain ⟨s₆, h₆⟩ := ahead_head hn h₅ ((get?_eq 0x50).trans rfl)
    (by decide) (by decide) (by decide) (by decide)
  exact ⟨s₆, _, _, h₆⟩

theorem get?_value {k : Nat} (h : k < n) :
    (lateRise n).instructionSet.get? ((lateRise n).code.opcode (7 + k)) =
      some ⟨0x34, "CALLVALUE", 0, 1, false, 0, false, .plain⟩ := by
  rw [opcode_of_le (by omega) (by omega), get?_eq]
  rfl

/-- The path that drops the item pushes the values from an empty stack on. -/
theorem exists_ahead_values (hn : 3 ≤ n) {k : Nat} (hk : k ≤ n) : ∃ t shadow shadow',
    (lateRise n).Ahead t ⟨7 + k, k, 1, shadow⟩ [⟨6, 1, 1, shadow'⟩] ∧
      ∃ v, t.visit? 6 = some v ∧ v.height = 0 := by
  induction k with
  | zero =>
    obtain ⟨s, shadow, shadow', h⟩ := exists_ahead_six hn
    obtain ⟨t, ht, hv, -⟩ := h.straight isRegular ((get?_eq 0x5b).trans rfl)
      (by decide) seven_le_size (Int.le_refl 0) (Int.natCast_nonneg n)
    exact ⟨t, _, _, ht, _, hv, rfl⟩
  | succ k ih =>
    obtain ⟨s, shadow, shadow', h, v, hv, hheight⟩ := ih (Nat.le_of_succ_le hk)
    have hroom : (k : Int) + 1 ≤ n := Int.ofNat_le.2 hk
    have hinside : (7 + k : Int) + 1 ≤ (lateRise n).code.size := by
      rw [size_eq]
      omega
    obtain ⟨t, ht, -, hkept⟩ := h.straight isRegular (get?_value hk) (by decide) hinside
      (Int.natCast_nonneg k) hroom
    exact ⟨t, _, _, ht, v, hkept 6 v hv, hheight⟩

/-- The code is accepted: the path that keeps the item ends where the other one
    has been. -/
theorem exists_run (hn : 3 ≤ n) : ∃ s, (lateRise n).run .start = .ok s := by
  obtain ⟨s, shadow, shadow', h, v, hv, hheight⟩ := exists_ahead_values hn (Nat.le_refl n)
  -- first the path that dropped the item runs off the end, then the other one
  -- comes to the meeting point with an item more
  have hfall : (lateRise n).step s ⟨7 + n, n, 1, shadow⟩ [⟨6, 1, 1, shadow'⟩] =
      .ok (s.close [⟨6, 1, 1, shadow'⟩]) := by
    refine step_of_le (Int.le_of_eq (by rw [size_eq]; rfl)) ?_
    exact if_neg (Int.not_lt.2 (Int.ofNat_le.2 (Nat.le_trans (by decide) hn)))
  have hmeet : (lateRise n).step (s.close [⟨6, 1, 1, shadow'⟩]) ⟨6, 1, 1, shadow'⟩ [] =
      .ok ((s.close [⟨6, 1, 1, shadow'⟩]).close []) := by
    have hinside : (6 : Int) < (lateRise n).code.size :=
      Int.lt_of_lt_of_le (by decide) seven_le_size
    refine step_of_known hinside ((get?_eq 0x5b).trans rfl)
      ((State.visit?_close ..).trans hv) ?_
    rw [hheight]
    exact Int.zero_le_ofNat 1
  have hr := (h.reachable.step h.paths hfall).step rfl hmeet
  exact ⟨_, hr.run_eq.symm.trans (EndsIn.done rfl).run_eq⟩

/-! ### A run of it -/

/-- A source of ones. -/
def ones (_ : Unit) : Int × Unit := (1, ())

/-- The values are pushed as long as there is room. -/
theorem step_value {k : Nat} (hk : k < n) (stack : List Int) :
    ((lateRise n).machine n).step ones ⟨7 + k, stack, ()⟩ =
      if (n : Int) < stack.length - 0 + 1 then .error .stackOverflow
      else .ok ⟨7 + (k + 1 : Nat), 1 :: stack, ()⟩ := by
  have hinside : (7 + k : Int) < (lateRise n).code.size := by
    rw [size_eq]
    omega
  exact Machine.stepTaking_eq (m := (lateRise n).machine n) (s := ⟨7 + k, stack, ()⟩) hinside
    (get?_value hk) (Int.natCast_nonneg _)

/-- With an item to begin with, there is no room for the last value. -/
theorem run_values {k j : Nat} (hk : k + (j + 1) = n) {stack : List Int}
    (hstack : stack.length = k + 1) :
    ((lateRise n).machine n).run ones (j + 1) ⟨7 + k, stack, ()⟩ = .stackOverflow := by
  have hstep := step_value (show k < n by omega) stack
  -- there is always one item more than values pushed so far
  induction j generalizing k stack with
  | zero =>
    rw [if_pos (by omega)] at hstep
    exact Machine.run_of_step_error hstep
  | succ j ih =>
    rw [if_neg (by omega)] at hstep
    rw [Machine.run_of_step_ok hstep]
    exact ih (by omega) (by rw [List.length_cons, hstack]) (step_value (by omega) _)

/-- A run goes on from an instruction in the head of the code. -/
theorem run_head (hn : 3 ≤ n) {steps : Nat} {c c' : Machine.State Unit} {i : Instruction}
    (hlt : c.pc < 7)
    (hget : (lateRise n).instructionSet.get? ((lateRise n).code.opcode c.pc) = some i)
    (henough : i.consumes ≤ c.stack.length) (hroom : i.heightAfter c.stack.length ≤ 3)
    (hexec : ((lateRise n).machine n).execute ones (c.stack.getD 1 0 != 0) c i = .ok c') :
    ((lateRise n).machine n).run ones (steps + 1) c =
      ((lateRise n).machine n).run ones steps c' := by
  refine Machine.run_of_step_ok (Eq.trans ?_ hexec)
  exact Machine.step_eq_execute (Int.lt_of_lt_of_le hlt seven_le_size) hget henough
    (Int.le_trans hroom (Int.ofNat_le.2 hn))

/-- A run that keeps the item overflows. -/
theorem run_eq_stackOverflow (hn : 3 ≤ n) :
    ((lateRise n).machine n).run ones (n + 5) (.start ()) = .stackOverflow := by
  calc ((lateRise n).machine n).run ones (n + 5) ⟨0, [], ()⟩
      = ((lateRise n).machine n).run ones (n + 4) ⟨1, [1], ()⟩ :=
        run_head hn (by decide) ((get?_eq 0x34).trans rfl) (by decide) (by decide) rfl
    _ = ((lateRise n).machine n).run ones (n + 3) ⟨2, [1, 1], ()⟩ :=
        run_head hn (by decide) ((get?_eq 0x34).trans rfl) (by decide) (by decide) rfl
    _ = ((lateRise n).machine n).run ones (n + 2) ⟨4, [6, 1, 1], ()⟩ :=
        run_head hn (by decide) ((get?_eq 0x60).trans rfl) (by decide) (by decide) rfl
    _ = ((lateRise n).machine n).run ones (n + 1) ⟨6, [1], ()⟩ :=
        run_head hn (by decide) ((get?_eq 0x57).trans rfl) (by decide) (by decide)
          (if_pos (isJumpDest_iff_eq_six.2 rfl))
    _ = ((lateRise n).machine n).run ones n ⟨7, [1], ()⟩ :=
        run_head hn (by decide) ((get?_eq 0x5b).trans rfl) (by decide) (by decide) rfl
    _ = .stackOverflow := by
        obtain ⟨j, rfl⟩ : ∃ j, n = j + 1 := ⟨n - 1, by omega⟩
        exact run_values (Nat.zero_add _) rfl

end lateRise

/-- The code with the late rise is accepted, but overflows the stack in a run
    that executes no offset twice: it rises where the branches meet. -/
theorem lateRise_rises : ∃ s, (lateRise 1024).run .start = .ok s ∧
    ((lateRise 1024).machine 1024).ExecutesOnce lateRise.ones () ∧
    ((lateRise 1024).machine 1024).run lateRise.ones 1029 (.start ()) = .stackOverflow ∧
    ∃ k < 1029, ∃ c, ((lateRise 1024).machine 1024).Passes lateRise.ones () k c ∧
      (lateRise 1024).Rises lateRise.ones 1024 s c ∧
      ((lateRise 1024).machine 1024).run lateRise.ones (1029 - k) c = .stackOverflow := by
  obtain ⟨s, hs⟩ := lateRise.exists_run (n := 1024) (by decide)
  have hw : (lateRise 1024).instructionSet = .ofRules (.ofHardfork .cancun) := rfl
  have hrun := lateRise.run_eq_stackOverflow (n := 1024) (by decide)
  obtain ⟨k, hk, c, hc, hleave, hrest⟩ :=
    (run_eq_stackOverflow_iff hw hs (Int.le_refl _) lateRise.ones () 1029).1 hrun
  -- the jump stands behind a push, so the run does not stray
  have hstray := not_strays_of_staticJumps lateRise.isRegular hs lateRise.staticJumps hc
  exact ⟨s, hs, lateRise.executesOnce, hrun, k, hk, c, hc, hleave.resolve_left hstray, hrest⟩

end Walk

end EvmFlow
