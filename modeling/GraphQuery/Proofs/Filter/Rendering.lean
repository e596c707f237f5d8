import GraphQuery.Proofs.Filter.Shape
import GraphQuery.Proofs.Literal

/-!
# Filters with a text

Writing a filter counts levels of groups on the way down and stops at the first entry that has no
text. Which filters have one does not depend on the order in which that is found out, nor on the
scope that they are written in.

* `Filter.Writable` are the filters where nothing is empty, groups nest at most `maxNesting` levels
  and every operand can be written.
* `exists_render_iff`: a filter has a text in a scope exactly when it is writable.
-/

namespace GraphQuery

/-- A field can always be written, a literal where it nests not too deep and is plain. -/
def Operand.Writable : Operand → Prop
  | .field _ => True
  | .literal v => v.depth ≤ maxNesting ∧ v.Plain

/-- Filters that can be written in a statement. -/
structure Filter.Writable (f : Filter) : Prop where
  /-- The filter has an entry, and so has every group inside it. -/
  nonempty : ∀ g ∈ f :: f.groups, g.isEmpty = false
  levels : f.levels ≤ maxNesting
  operands : ∀ c ∈ f.comparisons, c.operand.Writable

theorem Operand.exists_render_iff {scope : Text} {o : Operand} :
    (∃ t, o.render scope = .ok t) ↔ o.Writable := by
  cases o with
  | field path => simp [Operand.render, Operand.Writable]
  | literal v => exact v.exists_literal_iff

/-- Of a comparison only the operand can be without a text. -/
theorem Comparison.exists_render_iff {scope : Text} {c : Comparison} :
    (∃ t, c.render scope = .ok t) ↔ c.operand.Writable := by
  simp only [Comparison.render, exists_bind_eq_ok_iff, pure_eq_ok_iff, exists_eq', and_true]
  exact Operand.exists_render_iff

namespace Filter

theorem checkGroup_eq_ok_iff {levels : Nat} {f : Filter} :
    checkGroup levels f = .ok () ↔ levels ≠ 0 ∧ f.isEmpty = false := by
  simp [checkGroup, bind_eq_ok_iff]

/-- The entries have a text where groups have levels enough, no group is empty, and every operand
can be written. A group spends one level on itself, which is why its own limit is that of the
entries around it. -/
theorem exists_renderEntries_iff (scope : Text) (f : Filter) :
    ∀ levels, (∃ t, renderEntries scope levels f = .ok t) ↔
      f.groupLevels ≤ levels ∧ (∀ g ∈ f.groups, g.isEmpty = false) ∧
        ∀ c ∈ f.comparisons, c.operand.Writable := by
  induction f with
  | empty => simp [renderEntries, groupLevels, groups, comparisons]
  | comparison before op c ih =>
    intro levels
    simp only [renderEntries, exists_bind_eq_ok_iff, pure_eq_ok_iff, exists_eq', and_true,
      exists_and_right, ih, Comparison.exists_render_iff, groupLevels, groups, comparisons,
      List.mem_append, List.mem_singleton]
    constructor
    · intro h
      obtain ⟨⟨hlevels, hgroups, hbefore⟩, hc⟩ := h
      refine ⟨hlevels, hgroups, ?_⟩
      rintro d (hd | rfl)
      · exact hbefore d hd
      · exact hc
    · intro h
      obtain ⟨hlevels, hgroups, hall⟩ := h
      exact ⟨⟨hlevels, hgroups, fun d hd => hall d (Or.inl hd)⟩, hall c (Or.inr rfl)⟩
  | group before op inner ihBefore ihInner =>
    intro levels
    simp only [renderEntries, exists_bind_eq_ok_iff, pure_eq_ok_iff, exists_eq', and_true,
      exists_and_right, exists_unit_eq_ok_iff, ihBefore, ihInner, checkGroup_eq_ok_iff, groupLevels,
      groups, comparisons, List.mem_append, List.mem_cons]
    constructor
    · intro h
      obtain ⟨⟨hlevels, hgroups, hbefore⟩, ⟨hne, hinner⟩, hlevels', hgroups', hinner'⟩ := h
      refine ⟨by omega, ?_, ?_⟩
      · rintro g (hg | rfl | hg)
        · exact hgroups g hg
        · exact hinner
        · exact hgroups' g hg
      · rintro c (hc | hc)
        · exact hbefore c hc
        · exact hinner' c hc
    · intro h
      obtain ⟨hlevels, hgroups, hall⟩ := h
      refine ⟨⟨by omega, fun g hg => hgroups g (Or.inl hg), fun c hc => hall c (Or.inl hc)⟩,
        ⟨by omega, hgroups inner (Or.inr (Or.inl rfl))⟩, by omega,
        fun g hg => hgroups g (Or.inr (Or.inr hg)), fun c hc => hall c (Or.inr hc)⟩

/-- **A filter has a text exactly when it is writable**, in every scope. -/
theorem exists_render_iff (scope : Text) (f : Filter) :
    (∃ t, f.render scope = .ok t) ↔ f.Writable := by
  simp only [render, renderWithin, exists_bind_eq_ok_iff, exists_and_right, exists_unit_eq_ok_iff,
    checkGroup_eq_ok_iff, exists_renderEntries_iff]
  constructor
  · intro h
    obtain ⟨⟨_, hne⟩, hlevels, hgroups, hall⟩ := h
    exact ⟨List.forall_mem_cons.mpr ⟨hne, hgroups⟩, by rw [levels]; omega, hall⟩
  · intro h
    obtain ⟨hne, hlevels, hall⟩ := h
    obtain ⟨hself, hgroups⟩ := List.forall_mem_cons.mp hne
    exact ⟨⟨by decide, hself⟩, by rw [levels] at hlevels; omega, hgroups, hall⟩

end Filter

end GraphQuery
