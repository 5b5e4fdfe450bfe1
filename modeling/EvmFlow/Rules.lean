import EvmFlow.Hardfork

/-!
# Protocol rules

What a hardfork decides about code: whether its size is limited, whether the
instruction that pushes zero without a literal exists, and the limits. Each of
these can be overridden.
-/

namespace EvmFlow

/-- The rules under which code is checked and deployed. -/
structure Rules where
  /-- The hardfork in effect. -/
  hardfork : Hardfork
  /-- The size of deployed code is limited. -/
  limitsCodeSize : Bool
  /-- The instruction that pushes zero exists. -/
  hasPush0 : Bool
  /-- The most bytes deployed code may have, when its size is limited. -/
  maxCodeSize : Int
  /-- The most items the stack may hold. -/
  stackLimit : Int
  deriving DecidableEq, Repr

namespace Rules

/-- Values that take the place of those a hardfork decides. -/
structure Overrides where
  limitsCodeSize : Option Bool := none
  hasPush0 : Option Bool := none
  maxCodeSize : Option Int := none
  stackLimit : Option Int := none
  deriving DecidableEq, Repr, Inhabited

/-- The code size limit of the protocol. -/
def defaultMaxCodeSize : Int := 24576

/-- The stack limit of the protocol. -/
def defaultStackLimit : Int := 1024

/-- The rules of a hardfork, apart from what is overridden. -/
def ofHardfork (hardfork : Hardfork) (overrides : Overrides := {}) : Rules where
  hardfork := hardfork
  limitsCodeSize := overrides.limitsCodeSize.getD (hardfork.isAtLeast .spuriousDragon)
  hasPush0 := overrides.hasPush0.getD (hardfork.isAtLeast .shanghai)
  maxCodeSize := overrides.maxCodeSize.getD defaultMaxCodeSize
  stackLimit := overrides.stackLimit.getD defaultStackLimit

end Rules

end EvmFlow
