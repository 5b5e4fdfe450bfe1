/-!
# Dice

A linear congruential generator on 32-bit words. A roll advances the state
and takes its upper half modulo the bound, so a seed determines all rolls. The
sign of a bound does not count, and no number is below a bound of zero.
-/

namespace EvmFlow

/-- A seeded source of numbers. -/
structure Dice where
  /-- The current state. -/
  state : UInt32
  deriving DecidableEq, Repr

namespace Dice

/-- The dice of a seed, which counts modulo `2 ^ 32`. -/
def ofSeed (seed : Int) : Dice := ⟨UInt32.ofInt seed⟩

/-- The state that follows a state. -/
def advance (state : UInt32) : UInt32 := state * 1103515245 + 12345

/-- A number below the bound, and the dice to roll next. -/
def roll (bound : Nat) (dice : Dice) : Nat × Dice :=
  let state := advance dice.state
  ((state >>> 16).toNat % bound, ⟨state⟩)

/-- A number below the bound if there is one, and the dice to roll next. -/
def roll? (bound : Int) (dice : Dice) : Option Nat × Dice :=
  let (k, dice) := dice.roll bound.natAbs
  (if bound = 0 then none else some k, dice)

/-- One roll for each bound. -/
def rolls (dice : Dice) : (bounds : List Int) → List (Option Nat)
  | [] => []
  | bound :: bounds => (dice.roll? bound).1 :: (dice.roll? bound).2.rolls bounds

theorem roll_lt {bound : Nat} (h : 0 < bound) (dice : Dice) : (dice.roll bound).1 < bound :=
  Nat.mod_lt _ h

end Dice

end EvmFlow
