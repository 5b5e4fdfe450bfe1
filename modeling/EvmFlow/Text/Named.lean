/-!
# Names

Kinds, hardforks, levels, formats and instructions are chosen by their name. To
read one is to look for it among all of its sort (`Text.named?`). If no two of
them share a name, a text is read as what it names and as nothing else.
-/

namespace EvmFlow.Text

variable {α : Type} (all : List α) (name : α → String)

/-- The first item with the given name. -/
def named? (text : String) : Option α := all.find? fun a => name a == text

variable {all name}

/-- An item is found by its name, if no other one has it. -/
theorem named?_name {a : α} (ha : a ∈ all) (h : ∀ b ∈ all, name b = name a → b = a) :
    named? all name (name a) = some a := by
  rw [named?]
  cases hfind : all.find? fun b => name b == name a with
  | none => exact absurd (beq_self_eq_true (name a)) (List.find?_eq_none.1 hfind a ha)
  | some b =>
    have hname := List.find?_some hfind
    rw [h b (List.mem_of_find?_eq_some hfind) (beq_iff_eq.1 hname)]

/-- A text is read as what it names, if each item is found by its own name. -/
theorem named?_eq_some_iff (h : ∀ a, named? all name (name a) = some a) {text : String} {a : α} :
    named? all name text = some a ↔ text = name a := by
  constructor
  · intro hfind
    have hname := List.find?_some hfind
    exact (beq_iff_eq.1 hname).symm
  · rintro rfl
    exact h a

end EvmFlow.Text
