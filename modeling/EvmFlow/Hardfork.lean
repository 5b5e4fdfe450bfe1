import EvmFlow.Text.Named

/-!
# Hardforks

The releases of the protocol, in the order in which they took effect. A
hardfork has a *name*, by which settings and the catalogue of instructions
refer to it, and a *label*, by which reports and log records show it.
-/

namespace EvmFlow

/-- A release of the protocol. -/
inductive Hardfork
  | frontier
  | homestead
  | tangerineWhistle
  | spuriousDragon
  | byzantium
  | constantinople
  | petersburg
  | istanbul
  | berlin
  | london
  | paris
  | shanghai
  | cancun
  | prague
  deriving DecidableEq, Repr, Inhabited

namespace Hardfork

/-- All hardforks, in order. -/
def all : List Hardfork :=
  [frontier, homestead, tangerineWhistle, spuriousDragon, byzantium, constantinople, petersburg,
    istanbul, berlin, london, paris, shanghai, cancun, prague]

/-- The place of a hardfork in the order. -/
def index : Hardfork → Nat
  | frontier => 0
  | homestead => 1
  | tangerineWhistle => 2
  | spuriousDragon => 3
  | byzantium => 4
  | constantinople => 5
  | petersburg => 6
  | istanbul => 7
  | berlin => 8
  | london => 9
  | paris => 10
  | shanghai => 11
  | cancun => 12
  | prague => 13

instance : LE Hardfork := ⟨fun a b => a.index ≤ b.index⟩

instance (a b : Hardfork) : Decidable (a ≤ b) := inferInstanceAs (Decidable (a.index ≤ b.index))

/-- The hardfork `target` is in effect under `current`. Which of two hardforks
    is the later one is fixed here, by `index`: it is the order of the names in
    which settings and the catalogue refer to them, and that in which the
    hardforks were activated. -/
def isAtLeast (current target : Hardfork) : Bool := target ≤ current

/-- The name by which a hardfork is chosen. -/
def name : Hardfork → String
  | frontier => "frontier"
  | homestead => "homestead"
  | tangerineWhistle => "tangerineWhistle"
  | spuriousDragon => "spuriousDragon"
  | byzantium => "byzantium"
  | constantinople => "constantinople"
  | petersburg => "petersburg"
  | istanbul => "istanbul"
  | berlin => "berlin"
  | london => "london"
  | paris => "paris"
  | shanghai => "shanghai"
  | cancun => "cancun"
  | prague => "prague"

/-- The hardfork of a name. -/
def ofName? (text : String) : Option Hardfork := Text.named? all name text

/-- The label under which a hardfork is shown: its name in lower case, and for
    the transition to proof of stake the label of the merge. -/
def label : Hardfork → String
  | tangerineWhistle => "tangerinewhistle"
  | spuriousDragon => "spuriousdragon"
  | paris => "merge"
  | h => h.name

theorem ofName?_name (h : Hardfork) : ofName? h.name = some h := by cases h <;> decide

theorem ofName?_eq_some_iff {text : String} {h : Hardfork} :
    ofName? text = some h ↔ text = h.name :=
  Text.named?_eq_some_iff ofName?_name

end Hardfork

end EvmFlow
