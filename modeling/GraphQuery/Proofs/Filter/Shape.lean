import GraphQuery.Filter

/-!
# The shape of filters

A filter is a tree: its entries are comparisons and groups, and every group is a filter again. The
limits and rules of filters are about such a tree as a whole, so this module has views of it that
do not depend on where in the tree something stands.

* `Filter.comparisons` and `Filter.groups` are the comparisons and the groups at any depth.
* `Filter.levels` is how deep groups nest, the filter itself counted as one level.
* `Filter.WellFormed` says that exactly the first entry of the filter and of each of its groups
  stands there without a connective.
* `Filter.Built` are the filters that the builders make, and `Filter.Built.wellFormed` says that
  they are well formed, whatever was built from what in which order.
-/

namespace GraphQuery

namespace Filter

/-! ### Views -/

/-- Every comparison of a filter and of its groups, at any depth. -/
def comparisons : Filter → List Comparison
  | .empty => []
  | .comparison before _ c => before.comparisons ++ [c]
  | .group before _ inner => before.comparisons ++ inner.comparisons

/-- Every group inside a filter, at any depth. -/
def groups : Filter → List Filter
  | .empty => []
  | .comparison before _ _ => before.groups
  | .group before _ inner => before.groups ++ inner :: inner.groups

/-- How deep the groups inside a filter nest. -/
def groupLevels : Filter → Nat
  | .empty => 0
  | .comparison before _ _ => before.groupLevels
  | .group before _ inner => max before.groupLevels (inner.groupLevels + 1)

/-- How deep a filter nests, its own level included. -/
def levels (f : Filter) : Nat :=
  f.groupLevels + 1

/-- Exactly the first entry has no connective, in the filter and in each of its groups. -/
def WellFormed : Filter → Prop
  | .empty => True
  | .comparison before op _ => before.WellFormed ∧ op.isNone = before.isEmpty
  | .group before op inner => before.WellFormed ∧ op.isNone = before.isEmpty ∧ inner.WellFormed

end Filter

/-- What an entry holds is well formed: a comparison always is. -/
def Term.WellFormed : Term → Prop
  | .comparison _ => True
  | .group inner => inner.WellFormed

namespace Filter

/-! ### Builders -/

/-- The filters that the builders make. -/
inductive Built : Filter → Prop where
  | empty : Built .empty
  | ofComparison (c : Comparison) : Built (.ofComparison c)
  | ofGroup {inner : Filter} : Built inner → Built (.ofGroup inner)
  | andComparison {f : Filter} (c : Comparison) : Built f → Built (f.and (.comparison c))
  | andGroup {f inner : Filter} : Built f → Built inner → Built (f.and (.group inner))
  | orComparison {f : Filter} (c : Comparison) : Built f → Built (f.or (.comparison c))
  | orGroup {f inner : Filter} : Built f → Built inner → Built (f.or (.group inner))

theorem wellFormed_push_iff {f : Filter} {op : Option Connective} {t : Term} :
    (f.push op t).WellFormed ↔ f.WellFormed ∧ op.isNone = f.isEmpty ∧ t.WellFormed := by
  cases t with
  | comparison c => simp [push, WellFormed, Term.WellFormed]
  | group inner => simp [push, WellFormed, Term.WellFormed]

/-- An entry is appended with a connective exactly where there is an entry before it. -/
theorem wellFormed_append {f : Filter} {op : Connective} {t : Term} (hf : f.WellFormed)
    (ht : t.WellFormed) : (f.append op t).WellFormed := by
  refine wellFormed_push_iff.mpr ⟨hf, ?_, ht⟩
  cases h : f.isEmpty
  · rfl
  · rfl

theorem wellFormed_single {t : Term} (ht : t.WellFormed) : (single t).WellFormed :=
  wellFormed_push_iff.mpr ⟨trivial, rfl, ht⟩

/-- **Every filter that is built is well formed.** -/
theorem Built.wellFormed {f : Filter} (h : f.Built) : f.WellFormed := by
  induction h with
  | empty => trivial
  | ofComparison c => exact wellFormed_single trivial
  | ofGroup _ ih => exact wellFormed_single ih
  | andComparison c _ ih => exact wellFormed_append ih trivial
  | andGroup _ _ ihf ihi => exact wellFormed_append ihf ihi
  | orComparison c _ ih => exact wellFormed_append ih trivial
  | orGroup _ _ ihf ihi => exact wellFormed_append ihf ihi

end Filter

end GraphQuery
