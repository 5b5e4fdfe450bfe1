import EvmFlow.Log
import EvmFlow.Walk

/-!
# Analysis

The walk over code under the rules of a hardfork, with its log: one record
that says whether the code was accepted, and if not, why.
-/

namespace EvmFlow.Analysis

/-- The walk over code under the rules. -/
def walk (rules : Rules) (strictEnd : Bool) (code : Code) : Walk :=
  ⟨.ofRules rules, code, rules.stackLimit, strictEnd⟩

/-- The record of an outcome. -/
def record (rules : Rules) (code : Code) (outcome : Except Violation Report) : Log.Record :=
  let context : List (String × Log.Value) :=
    [("codeLength", .number code.size), ("hardfork", .text rules.hardfork.label)]
  match outcome with
  | .ok r =>
    { level := .debug
      message := ["code accepted"]
      annotations := [("instructionsVisited", .number r.instructionsVisited),
        ("pathsExplored", .number r.pathsExplored)] ++ context }
  | .error v =>
    { level := .debug
      message := ["code rejected", v.message]
      annotations := context }

/-- Walks over code, and logs the outcome. -/
def analyze (rules : Rules) (strictEnd : Bool) (code : Code) :
    Logged (Except Violation Report) :=
  let outcome := (walk rules strictEnd code).report
  ⟨outcome, [record rules code outcome]⟩

end EvmFlow.Analysis
