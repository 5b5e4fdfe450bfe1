/-!
# JSON values

Values whose shape is not known beforehand: records of the catalogue of
instructions, and settings. Numbers are exact, so that an integer is a number
like any other, however it was written.
-/

namespace EvmFlow

/-- A JSON value. -/
inductive Json
  | null
  | bool (b : Bool)
  | num (q : Rat)
  | str (s : String)
  | arr (items : List Json)
  | obj (fields : List (String × Json))
  deriving Inhabited

namespace Json

/-- The value of a field, none if there is no such field. -/
def field? (j : Json) (key : String) : Option Json :=
  match j with
  | obj fields => fields.lookup key
  | _ => none

/-- The text of a string. -/
def text? : Json → Option String
  | str s => some s
  | _ => none

/-- The value of a truth value. -/
def bool? : Json → Option Bool
  | bool b => some b
  | _ => none

/-- The value of a number. -/
def number? : Json → Option Rat
  | num q => some q
  | _ => none

/-- The integer that a number is. -/
def integer? : Json → Option Int
  | num q => if q.den = 1 then some q.num else none
  | _ => none

/-- The natural number below `n` that a number is. -/
def below? (n : Nat) (j : Json) : Option (Fin n) := do
  let k ← j.integer?
  if h : 0 ≤ k ∧ k.toNat < n then some ⟨k.toNat, h.2⟩ else none

/-- The number of an integer. -/
def ofInt (k : Int) : Json := num k

theorem text?_eq_some_iff {j : Json} {s : String} : j.text? = some s ↔ j = str s := by
  cases j <;> simp [text?]

@[simp] theorem integer?_ofInt (k : Int) : (ofInt k).integer? = some k := by
  simp [ofInt, integer?]

@[simp] theorem below?_ofInt {n : Nat} (k : Fin n) : (ofInt k.val).below? n = some k := by
  simp [below?]

end Json

end EvmFlow
