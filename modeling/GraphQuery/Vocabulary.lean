import GraphQuery.Checked

/-!
# Vocabularies

Some members of a descriptor, and some words of a statement, are one of a few fixed words. A
vocabulary lists the values that such words stand for, and gives each a name of its own.

* `Vocabulary.ofName?` reads back what `Vocabulary.name` writes, and nothing else
  (`Vocabulary.ofName?_eq_some_iff`).
-/

namespace GraphQuery

/-- Finitely many values with a name each. -/
structure Vocabulary (α : Type) where
  name : α → Text
  all : List α
  mem_all : ∀ a, a ∈ all
  name_inj : ∀ a b, name a = name b → a = b

namespace Vocabulary

variable {α : Type} (words : Vocabulary α)

/-- The value of a name. -/
def ofName? (s : Text) : Option α :=
  words.all.find? fun a => words.name a = s

theorem ofName?_eq_some_iff {s : Text} {a : α} :
    words.ofName? s = some a ↔ s = words.name a := by
  constructor
  · intro h
    simpa [eq_comm] using List.find?_some h
  · rintro rfl
    cases h : words.ofName? (words.name a) with
    | none => exact absurd (List.find?_eq_none.mp h a (words.mem_all a)) (by simp)
    | some b =>
      have hname : words.name b = words.name a := by simpa using List.find?_some h
      rw [words.name_inj b a hname]

theorem name_eq_iff {a b : α} : words.name a = words.name b ↔ a = b :=
  ⟨words.name_inj a b, congrArg words.name⟩

end Vocabulary

end GraphQuery
