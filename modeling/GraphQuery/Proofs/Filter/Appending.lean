import GraphQuery.Proofs.Descriptor.Limits
import GraphQuery.Proofs.Filter.Rendering
import GraphQuery.Proofs.Filter.Tokens

/-!
# Filters grown by entries

A filter is grown entry by entry, by builders and by the decoder, and its text grows with it: an
entry adds its connective and its own text, and faults come in the order of the entries.

* `Filter.Obtained` are the filters that can be come by, decoded ones and what is built on them
  included. All of them are well formed.
* `Filter.render_append` and `Filter.render_append_of_isEmpty` are the text of a filter that is
  grown by an entry, as a sequence of steps that may fail.
* A group stands one level deeper than the filter that it was. `renderEntries_of_groupLevels_le` and
  `renderEntries_of_lt_groupLevels` say what is left of its text there: the same, or nothing where
  it nests too deep.
* `append_homomorphism` sums up what each kind of entry does to a filter.
-/

namespace GraphQuery

namespace Filter

/-! ### Filters that can be come by -/

/-- The filters that are decoded or that the builders make, out of decoded ones too. -/
inductive Obtained : Filter → Prop where
  | empty : Obtained .empty
  | decoded {j : Value} {f : Filter} : ofJson j = .ok f → Obtained f
  | ofComparison (c : Comparison) : Obtained (.ofComparison c)
  | ofGroup {inner : Filter} : Obtained inner → Obtained (.ofGroup inner)
  | andComparison {f : Filter} (c : Comparison) : Obtained f → Obtained (f.and (.comparison c))
  | andGroup {f inner : Filter} : Obtained f → Obtained inner → Obtained (f.and (.group inner))
  | orComparison {f : Filter} (c : Comparison) : Obtained f → Obtained (f.or (.comparison c))
  | orGroup {f inner : Filter} : Obtained f → Obtained inner → Obtained (f.or (.group inner))

/-- **Every filter that can be come by is well formed.** -/
theorem Obtained.wellFormed {f : Filter} (h : f.Obtained) : f.WellFormed := by
  induction h with
  | empty => trivial
  | decoded hj => exact (fits_of_decodeWithin hj).1
  | ofComparison c => exact wellFormed_single trivial
  | ofGroup _ ih => exact wellFormed_single ih
  | andComparison c _ ih => exact wellFormed_append ih trivial
  | andGroup _ _ ihf ihi => exact wellFormed_append ihf ihi
  | orComparison c _ ih => exact wellFormed_append ih trivial
  | orGroup _ _ ihf ihi => exact wellFormed_append ihf ihi

theorem WellFormed.of_mem_groups {f g : Filter} (h : f.WellFormed) (hg : g ∈ f.groups) :
    g.WellFormed := by
  induction f with
  | empty => cases hg
  | comparison before op c ih => exact ih h.1 hg
  | group before op inner ihBefore ihInner =>
    obtain ⟨hbefore, _, hinner⟩ := h
    rcases List.mem_append.mp hg with hg | hg
    · exact ihBefore hbefore hg
    · rcases List.mem_cons.mp hg with rfl | hg
      · exact hinner
      · exact ihInner hinner hg

/-- Behind the entries of a well-formed filter a connective is missing where there are none. -/
theorem exists_connectives_concat {before : Filter} {op : Option Connective}
    (hop : op.isNone = before.isEmpty)
    (hbefore : before.isEmpty = false → ∃ ops : List Connective,
      before.connectives = none :: ops.map some) :
    ∃ ops : List Connective, before.connectives ++ [op] = none :: ops.map some := by
  cases op with
  | none =>
    cases before with
    | empty => exact ⟨[], rfl⟩
    | comparison _ _ _ => cases hop
    | group _ _ _ => cases hop
  | some c =>
    obtain ⟨ops, heq⟩ := hbefore hop.symm
    exact ⟨ops ++ [c], by simp [heq]⟩

/-- The first entry of a well-formed filter has no connective, and every other entry has one. -/
theorem WellFormed.exists_connectives {f : Filter} (h : f.WellFormed) (hne : f.isEmpty = false) :
    ∃ ops : List Connective, f.connectives = none :: ops.map some := by
  induction f with
  | empty => cases hne
  | comparison before op c ih => exact exists_connectives_concat h.2 (ih h.1)
  | group before op inner ih _ => exact exists_connectives_concat h.2.1 (ih h.1)

end Filter

/-! ### One more entry -/

/-- The text of an entry in a scope, where groups may nest some levels deep. -/
def Term.renderWithin (scope : Text) (levels : Nat) : Term → Checked Text
  | .comparison c => c.render scope
  | .group inner => do
    let text ← inner.renderWithin scope levels
    pure (utf8 "(" ++ text ++ utf8 ")")

namespace Filter

variable {scope : Text} {levels : Nat} {f g : Filter}

theorem renderEntries_push (op : Option Connective) (t : Term) :
    (f.push op t).renderEntries scope levels = (do
      let left ← f.renderEntries scope levels
      let right ← t.renderWithin scope levels
      pure (left ++ separator op ++ right)) := by
  cases t with
  | comparison c => rfl
  | group inner =>
    simp only [push, renderEntries, Term.renderWithin, renderWithin, bind_assoc, pure_bind,
      List.append_assoc]

theorem render_eq_renderEntries (hf : f.isEmpty = false) :
    f.render scope = f.renderEntries scope (maxNesting - 1) := by
  have hcheck : checkGroup maxNesting f = .ok () := checkGroup_eq_ok_iff.mpr ⟨by decide, hf⟩
  rw [render, renderWithin, hcheck]
  rfl

/-- **A filter that is not empty grows by the connective and the text of the entry.** Its own faults
come before those of the entry. -/
theorem render_append (hf : f.isEmpty = false) (op : Connective) (t : Term) :
    (f.append op t).render scope = (do
      let left ← f.render scope
      let right ← t.renderWithin scope (maxNesting - 1)
      pure (left ++ separator (some op) ++ right)) := by
  rw [append, if_neg (by simp [hf]), render_eq_renderEntries (isEmpty_push f _ t),
    render_eq_renderEntries hf, renderEntries_push]

/-- **The empty filter becomes the entry alone**, and the connective is dropped. -/
theorem render_append_of_isEmpty (hf : f.isEmpty = true) (op : Connective) (t : Term) :
    (f.append op t).render scope = t.renderWithin scope (maxNesting - 1) := by
  have hempty : f.renderEntries scope (maxNesting - 1) = .ok [] := by
    cases f with
    | empty => rfl
    | comparison _ _ _ => cases hf
    | group _ _ _ => cases hf
  rw [append, if_pos hf, render_eq_renderEntries (isEmpty_push f _ t), renderEntries_push, hempty]
  exact bind_pure (t.renderWithin scope (maxNesting - 1))

/-! ### One level deeper -/

/-- With levels enough, entries have the text that they have with other levels. -/
theorem renderEntries_of_groupLevels_le {levels' : Nat} {t : Text}
    (h : f.renderEntries scope levels = .ok t) (hlevels : f.groupLevels ≤ levels') :
    f.renderEntries scope levels' = .ok t := by
  obtain ⟨_, hgroups, hoperands⟩ := (exists_renderEntries_iff scope f levels).mp ⟨t, h⟩
  obtain ⟨t', h'⟩ :=
    (exists_renderEntries_iff scope f levels').mpr ⟨hlevels, hgroups, hoperands⟩
  -- Both texts are what the tokens of the filter spell.
  rw [h', f.eq_spell_of_renderEntries h', ← f.eq_spell_of_renderEntries h]

/-- With fewer levels than their groups need, entries that have a text with other levels nest too
deep. -/
theorem renderEntries_of_lt_groupLevels (f : Filter) :
    ∀ {levels levels' : Nat} {t : Text}, f.renderEntries scope levels = .ok t →
      levels' < f.groupLevels →
        f.renderEntries scope levels' = .error (.malformedFilter .tooDeep) := by
  induction f with
  | empty =>
    intro levels levels' t _ hlevels
    exact absurd hlevels (Nat.not_lt_zero levels')
  | comparison before op c ih =>
    intro levels levels' t h hlevels
    obtain ⟨left, hleft, _⟩ := bind_eq_ok_iff.mp h
    rw [renderEntries, ih hleft hlevels]
    rfl
  | group before op inner ihBefore ihInner =>
    intro levels levels' t h hlevels
    obtain ⟨left, hleft, h⟩ := bind_eq_ok_iff.mp h
    obtain ⟨_, hcheck, h⟩ := bind_eq_ok_iff.mp h
    obtain ⟨right, hright, _⟩ := bind_eq_ok_iff.mp h
    rw [renderEntries]
    by_cases hbefore : levels' < before.groupLevels
    · rw [ihBefore hleft hbefore]
      rfl
    -- The entries before the group have their text, so that the fault is the group's.
    rw [renderEntries_of_groupLevels_le hleft (Nat.not_lt.mp hbefore)]
    have hinner : levels' ≤ inner.groupLevels := by
      rw [groupLevels] at hlevels
      omega
    cases levels' with
    | zero => rfl
    | succ levels' =>
      have hcheck' : checkGroup (levels' + 1) inner = .ok () :=
        checkGroup_eq_ok_iff.mpr ⟨by omega, (checkGroup_eq_ok_iff.mp hcheck).2⟩
      have herror : inner.renderEntries scope (levels' + 1 - 1) =
          .error (.malformedFilter .tooDeep) := ihInner hright hinner
      rw [hcheck', herror]
      rfl

/-- A filter that has a text is the same text in parentheses as a group, where it nests not too
deep. -/
theorem renderWithin_group {t : Text} (h : g.render scope = .ok t)
    (hlevels : g.levels < maxNesting) :
    (Term.group g).renderWithin scope (maxNesting - 1) = .ok (utf8 "(" ++ t ++ utf8 ")") := by
  obtain ⟨_, hcheck, hentries⟩ := bind_eq_ok_iff.mp h
  have hgroup : checkGroup (maxNesting - 1) g = .ok () :=
    checkGroup_eq_ok_iff.mpr ⟨by decide, (checkGroup_eq_ok_iff.mp hcheck).2⟩
  have hdeeper : g.renderEntries scope (maxNesting - 1 - 1) = .ok t := by
    refine renderEntries_of_groupLevels_le hentries ?_
    rw [levels] at hlevels
    omega
  rw [Term.renderWithin, renderWithin, hgroup, hdeeper]
  rfl

/-- A filter that has a text, and uses every level that there is, nests too deep as a group. -/
theorem renderWithin_group_of_levels_eq {t : Text} (h : g.render scope = .ok t)
    (hlevels : g.levels = maxNesting) :
    (Term.group g).renderWithin scope (maxNesting - 1) = .error (.malformedFilter .tooDeep) := by
  obtain ⟨_, hcheck, hentries⟩ := bind_eq_ok_iff.mp h
  have hgroup : checkGroup (maxNesting - 1) g = .ok () :=
    checkGroup_eq_ok_iff.mpr ⟨by decide, (checkGroup_eq_ok_iff.mp hcheck).2⟩
  have hdeeper : g.renderEntries scope (maxNesting - 1 - 1) =
      .error (.malformedFilter .tooDeep) := by
    refine g.renderEntries_of_lt_groupLevels hentries ?_
    have hmax : maxNesting = 256 := rfl
    rw [levels] at hlevels
    omega
  rw [Term.renderWithin, renderWithin, hgroup, hdeeper]
  rfl

/-! ### Texts of filters that are grown -/

/-- Both ways to add an entry to a filter end in a result, which may show the symbol of the
connective. -/
def GrowsTo (scope : Text) (f : Filter) (t : Term) (result : Text → Checked Text) : Prop :=
  (f.and t).render scope = result (utf8 "&&") ∧ (f.or t).render scope = result (utf8 "||")

theorem growsTo_iff {t : Term} {result : Text → Checked Text} :
    GrowsTo scope f t result ↔
      ∀ op : Connective, (f.append op t).render scope = result op.symbol := by
  constructor
  · intro h op
    cases op with
    | and => exact h.1
    | or => exact h.2
  · intro h
    exact ⟨h .and, h .or⟩

theorem isEmpty_of_render {t : Text} (h : f.render scope = .ok t) : f.isEmpty = false := by
  obtain ⟨_, hcheck, _⟩ := bind_eq_ok_iff.mp h
  exact (checkGroup_eq_ok_iff.mp hcheck).2

/-- An entry that has a text adds it behind the connective. -/
theorem growsTo_text {t : Term} {left right : Text} (h : f.render scope = .ok left)
    (ht : t.renderWithin scope (maxNesting - 1) = .ok right) :
    GrowsTo scope f t fun op => .ok (left ++ utf8 " " ++ op ++ utf8 " " ++ right) := by
  refine growsTo_iff.mpr fun op => ?_
  rw [render_append (isEmpty_of_render h), h, ht]
  simp [separator, bind, Except.bind, pure, Except.pure]

/-- An entry that has no text leaves its fault behind. -/
theorem growsTo_error {t : Term} {left : Text} {e : QueryError} (h : f.render scope = .ok left)
    (ht : t.renderWithin scope (maxNesting - 1) = .error e) :
    GrowsTo scope f t fun _ => .error e := by
  refine growsTo_iff.mpr fun op => ?_
  rw [render_append (isEmpty_of_render h), h, ht]
  rfl

/-- A fault of the entries that are there is met first. -/
theorem growsTo_error_of_render {e : QueryError} (hf : f.isEmpty = false)
    (h : f.render scope = .error e) (t : Term) : GrowsTo scope f t fun _ => .error e := by
  refine growsTo_iff.mpr fun op => ?_
  rw [render_append hf, h]
  rfl

theorem growsTo_of_isEmpty (scope : Text) (hf : f.isEmpty = true) (t : Term) :
    GrowsTo scope f t fun _ => t.renderWithin scope (maxNesting - 1) :=
  growsTo_iff.mpr fun op => render_append_of_isEmpty hf op t

/-- **Growing a filter grows its text.** In every filter that can be come by, and in each of its
groups, the first entry has no connective and every other entry has one. To the text of a filter a
comparison adds the connective and its own text, and so does a group, in parentheses, where it uses
fewer than all levels; a group that uses all of them nests too deep here. A filter that has entries
but no text passes its fault on to whatever is built on it. The empty filter becomes the entry
alone. -/
theorem append_homomorphism {f : Filter} (hf : f.Obtained) :
    (∀ g ∈ f :: f.groups, g.isEmpty = true ∨
      ∃ ops : List Connective, g.connectives = none :: ops.map some) ∧
    ∀ scope,
      (∀ t, f.render scope = .ok t →
        (∀ c text, Comparison.render scope c = .ok text →
          GrowsTo scope f (.comparison c) fun op =>
            .ok (t ++ utf8 " " ++ op ++ utf8 " " ++ text)) ∧
        ∀ g text, Filter.render scope g = .ok text →
          (g.levels < maxNesting → GrowsTo scope f (.group g) fun op =>
            .ok (t ++ utf8 " " ++ op ++ utf8 " (" ++ text ++ utf8 ")")) ∧
          (g.levels = maxNesting → GrowsTo scope f (.group g) fun _ =>
            .error (.malformedFilter .tooDeep))) ∧
      (f.isEmpty = false → ∀ e, f.render scope = .error e →
        ∀ t, GrowsTo scope f t fun _ => .error e) ∧
      (f.isEmpty = true →
        (∀ c text, Comparison.render scope c = .ok text →
          GrowsTo scope f (.comparison c) fun _ => .ok text) ∧
        ∀ g text, Filter.render scope g = .ok text →
          (g.levels < maxNesting → GrowsTo scope f (.group g) fun _ =>
            .ok (utf8 "(" ++ text ++ utf8 ")")) ∧
          (g.levels = maxNesting → GrowsTo scope f (.group g) fun _ =>
            .error (.malformedFilter .tooDeep))) := by
  refine ⟨fun g hg => ?_, fun scope => ⟨fun t ht => ⟨?_, fun g text hg => ⟨?_, ?_⟩⟩, ?_, ?_⟩⟩
  · have hwell : g.WellFormed := by
      rcases List.mem_cons.mp hg with rfl | hg
      · exact hf.wellFormed
      · exact hf.wellFormed.of_mem_groups hg
    cases hempty : g.isEmpty with
    | true => exact Or.inl rfl
    | false => exact Or.inr (hwell.exists_connectives hempty)
  · intro c text hc
    exact growsTo_text (t := .comparison c) ht hc
  · intro hlevels
    have hopen : utf8 " (" = utf8 " " ++ utf8 "(" := by decide
    have hgrows := growsTo_text ht (renderWithin_group hg hlevels)
    simpa only [hopen, List.append_assoc] using hgrows
  · intro hlevels
    exact growsTo_error ht (renderWithin_group_of_levels_eq hg hlevels)
  · intro hne e he t
    exact growsTo_error_of_render hne he t
  · intro hempty
    refine ⟨fun c text hc => ?_, fun g text hg => ⟨fun hlevels => ?_, fun hlevels => ?_⟩⟩
    · have hgrows := growsTo_of_isEmpty scope hempty (.comparison c)
      rwa [Term.renderWithin, hc] at hgrows
    · have hgrows := growsTo_of_isEmpty scope hempty (.group g)
      rwa [renderWithin_group hg hlevels] at hgrows
    · have hgrows := growsTo_of_isEmpty scope hempty (.group g)
      rwa [renderWithin_group_of_levels_eq hg hlevels] at hgrows

/-- A decoded filter with a group of another one behind it, and the same filter as a term of the
empty one. -/
theorem append_homomorphism_decoded :
    let entry : Value := .ofMembers [(utf8 "field", .string (utf8 "age")),
      (utf8 "operator", .string (utf8 ">")),
      (utf8 "operand", .ofMembers [(utf8 "value", .unsigned 18)])]
    let j : Value := .ofMembers
      [(utf8 "terms", .array [.ofMembers [(utf8 "comparison", entry)]])]
    let adult := (Subject.field (utf8 "age") none).greater (.literal (.unsigned 18))
    let named := (Subject.field (utf8 "name") none).notNull
    Filter.ofJson j = .ok (.ofComparison adult) ∧
      ((ofComparison adult).or (.group (.ofComparison named))).render (utf8 "a") =
        .ok (utf8 "a.age > 18 || (a.name != null)") ∧
      (Filter.empty.and (.group (.ofComparison adult))).render (utf8 "a") =
        .ok (utf8 "(a.age > 18)") := by
  intro entry j adult named
  have hdecode : Filter.ofJson j = .ok (.ofComparison adult) := rfl
  have hadult : (ofComparison adult).render (utf8 "a") = .ok (utf8 "a.age > 18") := by
    decide +kernel
  have hnamed : (ofComparison named).render (utf8 "a") = .ok (utf8 "a.name != null") := by
    decide +kernel
  have hgrown := ((append_homomorphism (.decoded hdecode)).2 (utf8 "a")).1 _ hadult
  have halone := ((append_homomorphism .empty).2 (utf8 "a")).2.2 rfl
  exact ⟨hdecode, ((hgrown.2 _ _ hnamed).1 (by decide)).2, ((halone.2 _ _ hadult).1 (by decide)).1⟩

end Filter

end GraphQuery
