import GraphQuery.Proofs.Filter.FirstFault
import GraphQuery.Proofs.Filter.Rendering
import GraphQuery.Proofs.Filter.Tokens
import Mathlib.Algebra.GroupWithZero.Nat

/-!
# A filter in another scope

A filter is written in the scope that it stands in, and reads that scope's variable at every field
it mentions. Nothing else of it depends on the scope: not whether it can be written, not the fault
where it cannot, and not a byte of its expressions and literals, whatever they may look like.

* `Fragment` is a piece of a text that is written in a scope, and `Filter.fragments` are the pieces
  of a filter.
* `Filter.eq_fill_of_renderEntries`: a filter is its fragments, one after the other.
* `stretches` cuts fragments at the variable, and `fill_eq_joinWith` puts the variable back.
* `render_uniform`: a filter fails in every scope in the same way, or is the same in every scope but
  for the variable.
-/

namespace GraphQuery

/-- A piece of a text that is written in a scope. -/
inductive Fragment where
  /-- Words that are the same in every scope. -/
  | fixed (words : Text)
  /-- The path of a field under the variable of the scope. -/
  | field (path : Text)

namespace Fragment

/-- A fragment in a scope. -/
def text (scope : Text) : Fragment → Text
  | .fixed words => words
  | .field path => Operand.qualified scope path

/-- Whether the fragment reads the variable. -/
def isField : Fragment → Bool
  | .fixed _ => false
  | .field _ => true

end Fragment

/-- Fragments one after the other in a scope. -/
def fill (scope : Text) (fragments : List Fragment) : Text :=
  fragments.flatMap (Fragment.text scope)

@[simp] theorem fill_nil (scope : Text) : fill scope [] = [] := rfl

@[simp] theorem fill_cons (scope : Text) (p : Fragment) (rest : List Fragment) :
    fill scope (p :: rest) = p.text scope ++ fill scope rest := rfl

@[simp] theorem fill_append (scope : Text) (fragments more : List Fragment) :
    fill scope (fragments ++ more) = fill scope fragments ++ fill scope more :=
  List.flatMap_append

/-! ### The fragments of a filter -/

/-- The fragments of an operand. -/
def Operand.fragments : Operand → List Fragment
  | .field path => [.field path]
  | .literal v => [.fixed (spell v.tokens)]

/-- The fragments of a subject. -/
def Subject.fragments : Subject → List Fragment
  | .field name none => [.field name]
  | .field name (some q) => [.field name, .fixed (utf8 " " ++ q.name)]
  | .statement expression => [.fixed expression]

/-- The fragments of a comparison. -/
def Comparison.fragments (c : Comparison) : List Fragment :=
  c.subject.fragments ++ .fixed (utf8 " " ++ c.operator.name ++ utf8 " ") :: c.operand.fragments

/-- The fragments of a filter. -/
def Filter.fragments : Filter → List Fragment
  | .empty => []
  | .comparison before op c => before.fragments ++ .fixed (separator op) :: c.fragments
  | .group before op inner =>
    before.fragments
      ++ .fixed (separator op ++ utf8 "(") :: (inner.fragments ++ [.fixed (utf8 ")")])

theorem Operand.eq_fill_of_render {scope t : Text} {o : Operand} (h : o.render scope = .ok t) :
    t = fill scope o.fragments := by
  cases o with
  | field path =>
    cases h
    simp [Operand.fragments, Fragment.text]
  | literal v =>
    rw [v.eq_spell_of_literalWithin h]
    simp [Operand.fragments, Fragment.text]

theorem Subject.render_eq_fill (scope : Text) (s : Subject) :
    s.render scope = fill scope s.fragments := by
  rcases s with ⟨name, _ | q⟩ | expression <;>
    simp [Subject.render, Subject.fragments, Fragment.text]

theorem Comparison.eq_fill_of_render {scope t : Text} {c : Comparison}
    (h : c.render scope = .ok t) : t = fill scope c.fragments := by
  obtain ⟨operand, hoperand, h⟩ := bind_eq_ok_iff.mp h
  cases h
  rw [Operand.eq_fill_of_render hoperand, Subject.render_eq_fill]
  simp [Comparison.fragments, Fragment.text]

namespace Filter

/-- The text of the entries is made of their fragments, however many levels were allowed. -/
theorem eq_fill_of_renderEntries {scope : Text} (f : Filter) :
    ∀ {levels : Nat} {t : Text}, f.renderEntries scope levels = .ok t →
      t = fill scope f.fragments := by
  induction f with
  | empty =>
    intro levels t h
    cases h
    rfl
  | comparison before op c ih =>
    intro levels t h
    obtain ⟨left, hleft, h⟩ := bind_eq_ok_iff.mp h
    obtain ⟨right, hright, h⟩ := bind_eq_ok_iff.mp h
    cases h
    rw [ih hleft, Comparison.eq_fill_of_render hright]
    simp [fragments, Fragment.text]
  | group before op inner ihBefore ihInner =>
    intro levels t h
    obtain ⟨left, hleft, h⟩ := bind_eq_ok_iff.mp h
    obtain ⟨_, _, h⟩ := bind_eq_ok_iff.mp h
    obtain ⟨right, hright, h⟩ := bind_eq_ok_iff.mp h
    cases h
    rw [ihBefore hleft, ihInner hright]
    simp [fragments, Fragment.text]

/-- Whether and with what a filter fails does not depend on the scope, and where it does not fail it
is its fragments. -/
theorem render_eq_error_or_fill (f : Filter) :
    (∃ e, ∀ scope, f.render scope = .error e) ∨
      ∀ scope, f.render scope = .ok (fill scope f.fragments) := by
  cases hfaults : f.faults.head? with
  | some e => exact Or.inl ⟨e, fun scope => (failsFirst_render scope f e).mpr hfaults⟩
  | none =>
    refine Or.inr fun scope => ?_
    cases hrender : f.render scope with
    | error e =>
      rw [(failsFirst_render scope f e).mp hrender] at hfaults
      cases hfaults
    | ok t =>
      obtain ⟨_, _, hentries⟩ := bind_eq_ok_iff.mp hrender
      rw [f.eq_fill_of_renderEntries hentries]

theorem mem_fragments_of_mem_comparisons {f : Filter} {c : Comparison} (hc : c ∈ f.comparisons)
    {p : Fragment} (hp : p ∈ c.fragments) : p ∈ f.fragments := by
  induction f with
  | empty => cases hc
  | comparison before op d ih =>
    rw [fragments, List.mem_append, List.mem_cons]
    rcases List.mem_append.mp hc with hc | hc
    · exact Or.inl (ih hc)
    · rw [List.mem_singleton.mp hc] at hp
      exact Or.inr (Or.inr hp)
  | group before op inner ihBefore ihInner =>
    rw [fragments, List.mem_append, List.mem_cons, List.mem_append]
    rcases List.mem_append.mp hc with hc | hc
    · exact Or.inl (ihBefore hc)
    · exact Or.inr (Or.inr (Or.inl (ihInner hc)))

end Filter

/-! ### Cutting at the variable -/

/-- What stands before the variable is read for the first time, and what stands behind each reading
up to the next. -/
def stretches : List Fragment → Text × List Text
  | [] => ([], [])
  | .fixed words :: rest =>
    let (first, after) := stretches rest
    (words ++ first, after)
  | .field path :: rest =>
    let (first, after) := stretches rest
    ([], (utf8 "." ++ path ++ first) :: after)

/-- Fragments in a scope are the stretches with the variable between each two neighbours. -/
theorem fill_eq_joinWith (scope : Text) (fragments : List Fragment) :
    fill scope fragments =
      Text.joinWith scope ((stretches fragments).1 :: (stretches fragments).2) := by
  rw [Text.joinWith_cons_eq_flatMap]
  induction fragments with
  | nil => rfl
  | cons p rest ih =>
    rw [fill_cons, ih]
    cases p <;> simp [stretches, Fragment.text, Operand.qualified]

/-- There is one stretch more than there are fields. -/
theorem length_stretches (fragments : List Fragment) :
    (stretches fragments).2.length = fragments.countP Fragment.isField := by
  induction fragments with
  | nil => rfl
  | cons p rest ih => cases p <;> simp [stretches, List.countP_cons, Fragment.isField, ih]

/-- Behind the variable stands a point. -/
theorem head?_of_mem_stretches {fragments : List Fragment} {s : Text}
    (h : s ∈ (stretches fragments).2) : s.head? = some point := by
  induction fragments with
  | nil => cases h
  | cons p rest ih =>
    cases p with
    | fixed words => exact ih h
    | field path =>
      rcases List.mem_cons.mp h with rfl | h
      · rfl
      · exact ih h

/-- Fixed words lie within one stretch. -/
theorem exists_infix_of_fixed_mem {fragments : List Fragment} {words : Text}
    (h : .fixed words ∈ fragments) :
    ∃ s ∈ (stretches fragments).1 :: (stretches fragments).2, words <:+: s := by
  induction fragments with
  | nil => cases h
  | cons p rest ih =>
    cases p with
    | fixed words' =>
      rcases List.mem_cons.mp h with heq | h
      · cases heq
        exact ⟨_, List.mem_cons_self, (List.prefix_append words _).isInfix⟩
      · obtain ⟨s, hs, hinfix⟩ := ih h
        rcases List.mem_cons.mp hs with rfl | hs
        · exact ⟨_, List.mem_cons_self, hinfix.trans (List.suffix_append words' _).isInfix⟩
        · exact ⟨s, List.mem_cons_of_mem _ hs, hinfix⟩
    | field path =>
      obtain ⟨s, hs, hinfix⟩ := ih ((List.mem_cons.mp h).resolve_left (by simp))
      rcases List.mem_cons.mp hs with rfl | hs
      · refine ⟨_, List.mem_cons_of_mem _ List.mem_cons_self, hinfix.trans ?_⟩
        exact (List.suffix_append _ _).isInfix
      · exact ⟨s, List.mem_cons_of_mem _ (List.mem_cons_of_mem _ hs), hinfix⟩

/-! ### What does not depend on the scope -/

namespace Filter

/-- An expression lies within one stretch. -/
theorem exists_infix_of_statement {f : Filter} {c : Comparison} (hc : c ∈ f.comparisons)
    {expression : Text} (h : c.subject = .statement expression) :
    ∃ s ∈ (stretches f.fragments).1 :: (stretches f.fragments).2, expression <:+: s := by
  have hfragment : .fixed expression ∈ c.fragments := by
    simp [Comparison.fragments, h, Subject.fragments]
  exact exists_infix_of_fixed_mem (mem_fragments_of_mem_comparisons hc hfragment)

/-- Each literal of a writable filter can be written, and lies within one stretch. -/
theorem exists_infix_of_literal {f : Filter} (hf : f.Writable) {c : Comparison}
    (hc : c ∈ f.comparisons) {v : Value} (h : c.operand = .literal v) :
    ∃ literal, v.literal = .ok literal ∧
      ∃ s ∈ (stretches f.fragments).1 :: (stretches f.fragments).2, literal <:+: s := by
  have hwritable : (Operand.literal v).Writable := h ▸ hf.operands c hc
  obtain ⟨literal, hliteral⟩ := v.exists_literal_iff.mpr hwritable
  have hfragment : .fixed literal ∈ c.fragments := by
    simp [Comparison.fragments, h, Operand.fragments, v.eq_spell_of_literalWithin hliteral]
  have hmem : .fixed literal ∈ f.fragments := mem_fragments_of_mem_comparisons hc hfragment
  exact ⟨literal, hliteral, exists_infix_of_fixed_mem hmem⟩

end Filter

/-! ### How often the variable is read -/

/-- How often a comparison reads the variable: once for a field as its subject, and once for one as
its operand. -/
def Comparison.readings (c : Comparison) : Nat :=
  (if c.subject.isStatement then 0 else 1) + if c.operand.isField then 1 else 0

/-- How often a filter reads the variable, in its groups too. -/
def Filter.readings (f : Filter) : Nat :=
  (f.comparisons.map Comparison.readings).sum

theorem Comparison.countP_fragments (c : Comparison) :
    c.fragments.countP Fragment.isField = c.readings := by
  obtain ⟨subject, operator, operand⟩ := c
  rcases subject with ⟨name, _ | q⟩ | expression <;> cases operand <;>
    simp [Comparison.fragments, Subject.fragments, Operand.fragments, Comparison.readings,
      Subject.isStatement, Operand.isField, List.countP_cons, Fragment.isField]

theorem Filter.countP_fragments (f : Filter) :
    f.fragments.countP Fragment.isField = f.readings := by
  rw [readings]
  induction f with
  | empty => rfl
  | comparison before op c ih =>
    simp [fragments, comparisons, ih, c.countP_fragments, Fragment.isField]
  | group before op inner ihBefore ihInner =>
    simp [fragments, comparisons, ihBefore, ihInner, Fragment.isField]

/-- **A filter is the same in every scope but for the variable.** Either it fails everywhere with
one and the same fault, or there are texts that have nothing to do with the scope, one more than the
filter reads the variable, such that in every scope it is these texts with the variable between each
two neighbours. Behind the variable there is always a point, and every expression and every literal
lies within one of the texts. -/
theorem render_uniform (f : Filter) :
    (∃ e, ∀ scope, f.render scope = .error e) ∨
      ∃ (first : Text) (after : List Text), after.length = f.readings ∧
        (∀ s ∈ after, s.head? = some point) ∧
        (∀ scope, f.render scope = .ok (Text.joinWith scope (first :: after))) ∧
        ∀ c ∈ f.comparisons,
          (∀ expression, c.subject = .statement expression →
            ∃ s ∈ first :: after, expression <:+: s) ∧
          ∀ v, c.operand = .literal v →
            ∃ literal, v.literal = .ok literal ∧ ∃ s ∈ first :: after, literal <:+: s := by
  refine f.render_eq_error_or_fill.imp_right fun hfill => ?_
  refine ⟨(stretches f.fragments).1, (stretches f.fragments).2, ?_,
    fun s => head?_of_mem_stretches, ?_, ?_⟩
  · rw [length_stretches, f.countP_fragments]
  · intro scope
    rw [hfill scope, fill_eq_joinWith]
  · have hwritable : f.Writable := (f.exists_render_iff []).mp ⟨_, hfill []⟩
    intro c hc
    exact ⟨fun _ => Filter.exists_infix_of_statement hc,
      fun _ => Filter.exists_infix_of_literal hwritable hc⟩

/-- Two fields, an expression and a literal that look like fields of some scope. -/
def lookalikes : Filter :=
  ((Filter.ofComparison ((Subject.field (utf8 "name") none).equals (.field (utf8 "alias")))).and
    (.comparison ((Subject.statement (utf8 "a.age")).atLeast (.literal (.unsigned 18))))).or
    (.group (.ofComparison ((Subject.field (utf8 "tags") (some .any)).equals
      (.literal (.string (utf8 "b.tags"))))))

/-- In every scope the same four texts stand around the three fields. -/
theorem render_uniform_lookalikes :
    lookalikes.readings = 3 ∧
      ∃ (first : Text) (after : List Text), after.length = 3 ∧
        ∀ scope, lookalikes.render scope = .ok (Text.joinWith scope (first :: after)) := by
  have hreadings : lookalikes.readings = 3 := rfl
  have hwritten : lookalikes.render (utf8 "b") = .ok
      (utf8 "b.name == b.alias && a.age >= 18 || (b.tags ANY == \"b.tags\")") := by
    decide +kernel
  rcases render_uniform lookalikes with ⟨e, herror⟩ | ⟨first, after, hlength, _, hrender, _⟩
  · rw [herror] at hwritten
    cases hwritten
  · exact ⟨hreadings, first, after, hlength.trans hreadings, hrender⟩

end GraphQuery
