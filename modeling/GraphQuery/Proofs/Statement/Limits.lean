import GraphQuery.Proofs.Descriptor.RoundTrip
import GraphQuery.Proofs.Filter.Rendering
import GraphQuery.Proofs.Statement.FirstFault

/-!
# The limits of writing and of decoding

Nesting is limited twice. The writer of a statement counts the levels that are left, of groups and
of the containers of a literal, and fails where none is left. The decoder of a descriptor counts the
levels of groups on its own and measures a literal before it takes it. This module says that both
draw the line at the same place.

* `Filter.TooDeep` are the filters beyond the line, said without writer and decoder.
  `Filter.Plain.exists_render_iff` and `Filter.exists_ofJson_toJson_iff` relate each of the two to
  it.
* `QueryError.OfLimit` are the errors about nesting and about negative depths.
  `Query.Fits.notOfLimit_of_mem_faults` says that a query within the limits has no fault of this
  kind.
* `limits_agree` sums up: filters are written exactly where they are decoded again, and what is
  decoded never fails to compile for its nesting or for a negative depth.
-/

namespace GraphQuery

/-! ### Filters beyond the line -/

namespace Filter

/-- Filters that only their nesting can keep from being written: nothing in them is empty, and their
literals are plain. -/
structure Plain (f : Filter) : Prop where
  nonempty : ∀ g ∈ f :: f.groups, g.isEmpty = false
  literals : ∀ c ∈ f.comparisons, ∀ v, c.operand = .literal v → v.Plain

/-- Filters with more than `maxNesting` levels of groups, their own included, or with a literal of
more than `maxNesting` levels of containers. -/
def TooDeep (f : Filter) : Prop :=
  maxNesting < f.levels ∨
    ∃ c ∈ f.comparisons, ∃ v, c.operand = .literal v ∧ maxNesting < v.depth

theorem fits_iff_not_tooDeep {f : Filter} : f.Fits maxNesting ↔ ¬f.TooDeep := by
  have hoperand : ∀ o : Operand, o.Fits ↔ ∀ v, o = .literal v → v.depth ≤ maxNesting := by
    rintro (v | path)
    · simp [Operand.Fits]
    · simp [Operand.Fits]
  constructor
  · rintro ⟨hlevels, hoperands⟩ (hdeep | ⟨c, hc, v, hv, hdeep⟩)
    · exact Nat.not_lt.mpr hlevels hdeep
    · exact Nat.not_lt.mpr ((hoperand c.operand).mp (hoperands c hc) v hv) hdeep
  · intro h
    refine ⟨Nat.not_lt.mp fun hdeep => h (Or.inl hdeep), fun c hc => ?_⟩
    refine (hoperand c.operand).mpr fun v hv => Nat.not_lt.mp fun hdeep => ?_
    exact h (Or.inr ⟨c, hc, v, hv, hdeep⟩)

/-- Of a plain filter nothing but the nesting is left to look at. -/
theorem Plain.writable_iff {f : Filter} (h : f.Plain) : f.Writable ↔ f.Fits maxNesting := by
  constructor
  · intro hwritable
    refine ⟨hwritable.levels, fun c hc => ?_⟩
    have hoperand := hwritable.operands c hc
    cases ho : c.operand with
    | field path => trivial
    | literal v =>
      rw [ho] at hoperand
      exact hoperand.1
  · intro hfits
    refine ⟨h.nonempty, hfits.levels, fun c hc => ?_⟩
    have hoperand := hfits.operands c hc
    cases ho : c.operand with
    | field path => trivial
    | literal v =>
      rw [ho] at hoperand
      exact ⟨hoperand, h.literals c hc v ho⟩

/-- **A plain filter is written unless it nests too deep**, in every scope. -/
theorem Plain.exists_render_iff {f : Filter} (h : f.Plain) (scope : Text) :
    (∃ t, f.render scope = .ok t) ↔ ¬f.TooDeep := by
  rw [Filter.exists_render_iff, h.writable_iff, fits_iff_not_tooDeep]

/-- **A filter is decoded from its own descriptor unless it nests too deep.** -/
theorem exists_ofJson_toJson_iff {f : Filter} (h : f.WellFormed) :
    (∃ g, ofJson f.toJson = .ok g) ↔ ¬f.TooDeep := by
  simp only [ofJson_toJson_iff h, exists_eq_left, fits_iff_not_tooDeep]

end Filter

/-! ### Faults about limits -/

/-- Errors about a limit that decoders keep as well: groups or containers that nest too deep, and
negative depths. -/
def QueryError.OfLimit : QueryError → Prop
  | .malformedFilter .tooDeep => True
  | .unsupportedOperand .tooDeep => True
  | .invalidDepth (.negative _ _) => True
  | _ => False

theorem nestingFaults_of_pos {levels : Nat} (h : 0 < levels) (fault : QueryError) :
    nestingFaults levels fault = [] :=
  if_neg (Nat.ne_of_gt h)

theorem notOfLimit_of_mem_textFaults {s : Text} : ∀ e ∈ textFaults s, ¬e.OfLimit := by
  unfold textFaults
  split
  · exact fun e he => nomatch he
  · exact List.forall_mem_singleton.mpr id

namespace Value

mutual

/-- A value that nests not too deep has no fault about its nesting. -/
theorem notOfLimit_of_mem_faults : ∀ (v : Value) {levels : Nat}, v.depth ≤ levels →
    ∀ e ∈ v.faults levels, ¬e.OfLimit
  | .null, _, _ => fun e he => nomatch he
  | .bool _, _, _ => fun e he => nomatch he
  | .signed _, _, _ => fun e he => nomatch he
  | .unsigned _, _, _ => fun e he => nomatch he
  | .double x, _, _ => by
    rw [faults]
    split
    · exact fun e he => nomatch he
    · exact List.forall_mem_singleton.mpr id
  | .string s, _, _ => notOfLimit_of_mem_textFaults
  | .array items, levels, h => by
    rw [depth] at h
    rw [faults, nestingFaults_of_pos (by omega), List.nil_append]
    exact notOfLimit_of_mem_itemFaults items (by omega)
  | .object members, levels, h => by
    rw [depth] at h
    rw [faults, nestingFaults_of_pos (by omega), List.nil_append]
    exact notOfLimit_of_mem_memberFaults members (by omega)
  | .binary _, _, _ => List.forall_mem_singleton.mpr id
  | .discarded, _, _ => List.forall_mem_singleton.mpr id

theorem notOfLimit_of_mem_itemFaults : ∀ (items : List Value) {levels : Nat},
    itemsDepth items ≤ levels → ∀ e ∈ itemFaults levels items, ¬e.OfLimit
  | [], _, _ => fun e he => nomatch he
  | v :: rest, levels, h => by
    rw [itemsDepth, Nat.max_le] at h
    rw [itemFaults, List.forall_mem_append]
    exact ⟨notOfLimit_of_mem_faults v h.1, notOfLimit_of_mem_itemFaults rest h.2⟩

theorem notOfLimit_of_mem_memberFaults : ∀ (members : List (Text × Value)) {levels : Nat},
    membersDepth members ≤ levels → ∀ e ∈ memberFaults levels members, ¬e.OfLimit
  | [], _, _ => fun e he => nomatch he
  | (key, v) :: rest, levels, h => by
    rw [membersDepth, Nat.max_le] at h
    rw [memberFaults, List.forall_mem_append, List.forall_mem_append]
    exact ⟨notOfLimit_of_mem_textFaults, notOfLimit_of_mem_faults v h.1,
      notOfLimit_of_mem_memberFaults rest h.2⟩

end

end Value

theorem Operand.Fits.notOfLimit_of_mem_faults {o : Operand} (h : o.Fits) :
    ∀ e ∈ o.faults, ¬e.OfLimit := by
  cases o with
  | field path => exact fun e he => nomatch he
  | literal v => exact v.notOfLimit_of_mem_faults h

namespace Filter

theorem notOfLimit_of_mem_groupFaults {levels : Nat} (h : 0 < levels) (f : Filter) :
    ∀ e ∈ f.groupFaults levels, ¬e.OfLimit := by
  rw [groupFaults, nestingFaults_of_pos h, List.nil_append]
  split
  · exact List.forall_mem_singleton.mpr id
  · exact fun e he => nomatch he

/-- The entries of a filter within its levels have no fault about nesting. A group is within one
level less than the filter around it. -/
theorem Fits.notOfLimit_of_mem_entryFaults {f : Filter} :
    ∀ {levels : Nat}, f.Fits (levels + 1) → ∀ e ∈ f.entryFaults levels, ¬e.OfLimit := by
  induction f with
  | empty => exact fun _ e he => nomatch he
  | comparison before op c ih =>
    intro levels h
    obtain ⟨hbefore, hc⟩ := fits_comparison_iff.mp h
    rw [entryFaults, List.forall_mem_append]
    exact ⟨ih hbefore, hc.notOfLimit_of_mem_faults⟩
  | group before op inner ihBefore ihInner =>
    intro levels h
    obtain ⟨hbefore, hinner⟩ := fits_group_iff.mp h
    cases levels with
    | zero => exact absurd hinner (not_fits_zero inner)
    | succ levels =>
      rw [entryFaults, List.forall_mem_append, List.forall_mem_append]
      exact ⟨ihBefore hbefore, notOfLimit_of_mem_groupFaults levels.succ_pos inner,
        ihInner hinner⟩

theorem Fits.notOfLimit_of_mem_faults {f : Filter} (h : f.Fits maxNesting) :
    ∀ e ∈ f.faults, ¬e.OfLimit := by
  rw [faults, List.forall_mem_append]
  exact ⟨notOfLimit_of_mem_groupFaults (by decide) f, h.notOfLimit_of_mem_entryFaults⟩

end Filter

theorem DepthRange.Nonnegative.notOfLimit_of_mem_faults {r : DepthRange} (h : r.Nonnegative)
    (limit : Int32) (place : DepthPlace) : ∀ e ∈ r.faults limit place, ¬e.OfLimit := by
  have hnegative : ¬(r.least < 0 ∨ r.greatest < 0) := by
    rw [Int32.lt_iff_toInt_lt, Int32.lt_iff_toInt_lt]
    rintro (hleast | hgreatest)
    · exact absurd h.1 (Int.not_le.mpr hleast)
    · exact absurd h.2 (Int.not_le.mpr hgreatest)
  rw [faults, if_neg hnegative, List.nil_append, List.forall_mem_append]
  constructor
  · split
    · exact List.forall_mem_singleton.mpr id
    · exact fun e he => nomatch he
  · split
    · exact List.forall_mem_singleton.mpr id
    · exact fun e he => nomatch he

theorem notOfLimit_of_mem_filterFaults {f : Option Filter} (h : ∀ g ∈ f, g.Fits maxNesting) :
    ∀ e ∈ filterFaults f, ¬e.OfLimit := by
  intro e he
  obtain ⟨g, hg, he⟩ := List.mem_flatMap.mp he
  exact (h g (Option.mem_toList.mp hg)).notOfLimit_of_mem_faults e he

/-- A scope within the limits, to which depths from zero on lead, has no fault about limits. -/
theorem Scope.Fits.notOfLimit_of_mem_faults {s : Scope} (h : s.Fits) (limit : Int32)
    {hop : Option Hop} (hhop : ∀ h ∈ hop, h.depths.Nonnegative) :
    ∀ e ∈ s.faults limit hop, ¬e.OfLimit := by
  have hdepths : ∀ e ∈ depthFaults limit hop s.source, ¬e.OfLimit := by
    cases hop with
    | some hop => exact (hhop hop rfl).notOfLimit_of_mem_faults limit _
    | none =>
      have hsource : s.source.Fits := h.source
      revert hsource
      cases s.source with
      | collection name => exact fun _ e he => nomatch he
      | traversal hop target start =>
        intro hdepths
        exact DepthRange.Nonnegative.notOfLimit_of_mem_faults hdepths limit _
  have hstart : ∀ e ∈ startFaults hop s.source, ¬e.OfLimit := by
    unfold startFaults
    split
    · exact notOfLimit_of_mem_textFaults
    · exact List.forall_mem_singleton.mpr id
    · exact fun e he => nomatch he
  have hprune : ∀ e ∈ pruneFaults hop s.source s.prune, ¬e.OfLimit := by
    unfold pruneFaults
    split
    · exact List.forall_mem_singleton.mpr id
    · exact fun e he => nomatch he
  simp only [Scope.faults, List.forall_mem_append]
  exact ⟨hdepths, hstart, hprune, notOfLimit_of_mem_filterFaults h.prune,
    notOfLimit_of_mem_filterFaults h.filter⟩

/-- **A query within the limits has no fault about limits.** -/
theorem Query.Fits.notOfLimit_of_mem_faults {scopes : Nat} {q : Query} (h : q.Fits scopes)
    (limit : Int32) : ∀ e ∈ q.faults limit, ¬e.OfLimit := by
  intro e he
  obtain ⟨p, hp, he⟩ := List.mem_flatMap.mp he
  rcases List.mem_cons.mp hp with rfl | hp
  · refine h.root.notOfLimit_of_mem_faults limit (fun hop hhop => ?_) e he
    cases hhop
  · obtain ⟨j, hj, rfl⟩ := List.mem_map.mp hp
    obtain ⟨hdepths, hscope⟩ := h.joins j hj
    refine hscope.notOfLimit_of_mem_faults limit (fun hop hhop => ?_) e he
    exact Option.some.inj hhop ▸ hdepths

/-! ### The two lines are one -/

/-- What fails has no result. -/
theorem exists_eq_error_iff {α : Type} {x : Checked α} :
    (∃ e, x = .error e) ↔ ¬∃ a, x = .ok a := by
  cases x <;> simp

/-- **Writing and decoding agree in their limits.** A filter that was built, with nothing in it that
could never be written, has a text in a scope exactly where it is decoded from its own descriptor,
and both fail exactly where it nests too deep. A query that was decoded, from whatever descriptor,
never fails to compile for its nesting or for a negative depth. -/
theorem limits_agree :
    (∀ f : Filter, f.Built → f.Plain → ∀ scope : Text,
      ((∃ t, f.render scope = .ok t) ↔ ∃ g, Filter.ofJson f.toJson = .ok g) ∧
        ((∃ e, f.render scope = .error e) ↔ f.TooDeep) ∧
        ((∃ e, Filter.ofJson f.toJson = .error e) ↔ f.TooDeep)) ∧
      ∀ j q, Query.ofJson j = .ok q → ∀ o e, q.compile o = .error e → ¬e.OfLimit := by
  constructor
  · intro f hbuilt hplain scope
    have hrender := hplain.exists_render_iff scope
    have hdecode := Filter.exists_ofJson_toJson_iff hbuilt.wellFormed
    rw [exists_eq_error_iff, exists_eq_error_iff, hrender, hdecode, Classical.not_not]
    exact ⟨Iff.rfl, Iff.rfl, Iff.rfl⟩
  · intro j q hq o e he
    obtain ⟨_, hfits⟩ := Query.fits_of_decodeWithin hq
    have hhead := (q.failsFirst_compile o e).mp he
    exact hfits.notOfLimit_of_mem_faults o.depthLimit e (List.mem_of_head? hhead)

namespace Filter

/-- A comparison in the innermost of some groups. -/
def nested (c : Comparison) : Nat → Filter
  | 0 => .ofComparison c
  | n + 1 => .ofGroup (nested c n)

variable (c : Comparison) (n : Nat)

theorem built_nested : (nested c n).Built := by
  induction n with
  | zero => exact .ofComparison c
  | succ n ih => exact .ofGroup ih

theorem comparisons_nested : (nested c n).comparisons = [c] := by
  induction n with
  | zero => rfl
  | succ n ih => exact ih

theorem levels_nested : (nested c n).levels = n + 1 := by
  induction n with
  | zero => rfl
  | succ n ih =>
    rw [levels] at ih
    simp [nested, ofGroup, single, push, levels, groupLevels, ih]

theorem plain_nested {v : Value} (hc : c.operand = .literal v) (hv : v.Plain) :
    (nested c n).Plain where
  nonempty := by
    induction n with
    | zero => exact List.forall_mem_singleton.mpr rfl
    | succ n ih => exact List.forall_mem_cons.mpr ⟨rfl, ih⟩
  literals := by
    rw [comparisons_nested]
    refine List.forall_mem_singleton.mpr fun w hw => ?_
    cases hc.symm.trans hw
    exact hv

theorem tooDeep_nested_iff {v : Value} (hc : c.operand = .literal v) (hv : v.depth ≤ maxNesting) :
    (nested c n).TooDeep ↔ maxNesting ≤ n := by
  rw [TooDeep, levels_nested, comparisons_nested]
  constructor
  · rintro (h | ⟨d, hd, w, hw, h⟩)
    · exact Nat.lt_succ_iff.mp h
    · cases List.mem_singleton.mp hd
      cases hc.symm.trans hw
      exact absurd h (Nat.not_lt.mpr hv)
  · exact fun h => Or.inl (Nat.lt_succ_of_le h)

end Filter

/-- With 255 groups around a comparison there is one level for each, with 256 there is one too many.
A descriptor whose depths are in the wrong order is decoded, and that is what fails. -/
theorem limits_agree_nested :
    let named := (Subject.field (utf8 "name") none).equals (.literal .null)
    let reversed := (Query.collection (utf8 "User")).join reversedHop (.collection (utf8 "knows"))
    (∃ g, Filter.ofJson (Filter.nested named 255).toJson = .ok g) ∧
      (∃ e, (Filter.nested named 256).render (utf8 "a") = .error e) ∧
      ∃ q e, Query.ofJson reversed.toJson = .ok q ∧ q.compile Options.standard = .error e ∧
        ¬e.OfLimit := by
  intro named reversed
  have hplain : ∀ n, (Filter.nested named n).Plain := fun n =>
    Filter.plain_nested named n rfl .null
  have hdeep : ∀ n, (Filter.nested named n).TooDeep ↔ maxNesting ≤ n := fun n =>
    Filter.tooDeep_nested_iff named n rfl (Nat.zero_le _)
  obtain ⟨hiff, _, _⟩ := limits_agree.1 _ (Filter.built_nested named 255) (hplain 255) (utf8 "a")
  obtain ⟨_, hfails, _⟩ := limits_agree.1 _ (Filter.built_nested named 256) (hplain 256) (utf8 "a")
  have hwritten : ∃ t, (Filter.nested named 255).render (utf8 "a") = .ok t :=
    ((hplain 255).exists_render_iff (utf8 "a")).mpr fun h => absurd ((hdeep 255).mp h) (by decide)
  have hdecoded : Query.ofJson reversed.toJson = .ok reversed := rfl
  have hcompile : reversed.compile Options.standard =
      .error (.invalidDepth (.reversed ⟨3, 1⟩ (.join (utf8 "knows")))) := by
    decide +kernel
  exact ⟨hiff.mp hwritten, hfails.mpr ((hdeep 256).mpr (Nat.le_refl _)), reversed, _, hdecoded,
    hcompile, limits_agree.2 _ _ hdecoded _ _ hcompile⟩

end GraphQuery
