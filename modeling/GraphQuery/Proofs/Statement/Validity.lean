import GraphQuery.Proofs.Filter.Rendering
import GraphQuery.Statement.Compile

/-!
# Queries that compile

The compiler finds faults while it writes, each at its own place: in the opening of a loop, in a
group of a filter, in a literal. `Query.Compilable` says at once which queries have none.

* `Query.Compilable` has one field for each rule. A depth limit is the only option that it reads,
  and names, fields, expressions, sort keys and limits of results do not occur in it.
* `exists_compile_iff`: a query has a statement exactly when it is compilable.
* `report_success_iff` says the same of reports, and what else is in the report of a success and in
  that of a failure.
-/

namespace GraphQuery

/-! ### Rules -/

/-- Depth ranges that are allowed under a limit; a limit that is not positive allows every depth. -/
structure DepthRange.Allowed (limit : Int32) (r : DepthRange) : Prop where
  nonnegative : 0 ≤ r.least
  ordered : r.least ≤ r.greatest
  limited : 0 < limit → r.greatest ≤ limit

namespace Query

/-- Every scope of a query, the root first. -/
def scopeList (q : Query) : List Scope :=
  q.root :: q.joins.map Prod.snd

theorem snd_mem_scopeList {q : Query} {p : Option Hop × Scope} (h : p ∈ q.scopes) :
    p.2 ∈ q.scopeList := by
  rcases List.mem_cons.mp h with rfl | h
  · exact List.mem_cons_self
  · obtain ⟨j, hj, rfl⟩ := List.mem_map.mp h
    exact List.mem_cons_of_mem _ (List.mem_map_of_mem hj)

/-- Queries that have a statement under a depth limit. -/
structure Compilable (limit : Int32) (q : Query) : Prop where
  /-- A collection at the root is not pruned. -/
  collection : ∀ name, q.root.source = .collection name → q.root.prune = none
  /-- A traversal at the root has depths that are allowed and starts at a UTF-8 text. -/
  traversal : ∀ hop target start, q.root.source = .traversal hop target start →
    hop.depths.Allowed limit ∧ Utf8.valid start = true
  /-- A scope is joined by allowed depths, and is no traversal itself. -/
  joins : ∀ j ∈ q.joins, j.1.depths.Allowed limit ∧ j.2.source.isTraversal = false
  filters : ∀ s ∈ q.scopeList, ∀ f, s.prune = some f ∨ s.filter = some f → f.Writable

end Query

/-! ### Faults of one scope -/

theorem DepthRange.check_eq_ok_iff {limit : Int32} {place : DepthPlace} {r : DepthRange} :
    r.check limit place = .ok () ↔ r.Allowed limit := by
  unfold DepthRange.check
  split
  · rename_i hnegative
    simp only [reduceCtorEq, false_iff]
    intro h
    rcases hnegative with hleast | hgreatest
    · exact absurd h.nonnegative (Int32.not_le.mpr hleast)
    · exact absurd (Int32.le_trans h.nonnegative h.ordered) (Int32.not_le.mpr hgreatest)
  · rename_i hnonnegative
    split
    · rename_i hreversed
      simp only [reduceCtorEq, false_iff]
      intro h
      exact absurd h.ordered (Int32.not_le.mpr hreversed)
    · rename_i hordered
      split
      · rename_i habove
        simp only [reduceCtorEq, false_iff]
        intro h
        exact absurd (h.limited habove.1) (Int32.not_le.mpr habove.2)
      · rename_i hlimited
        simp only [true_iff]
        refine ⟨?_, Int32.not_lt.mp hordered, ?_⟩
        · exact Int32.not_lt.mp fun h => hnonnegative (Or.inl h)
        · exact fun hpos => Int32.not_lt.mp fun h => hlimited ⟨hpos, h⟩

/-- The checks of a loop's opening, by the hop that leads to the scope and the source it has. -/
def Scope.Opens (limit : Int32) (s : Scope) : Option Hop → Prop
  | none =>
    match s.source with
    | .collection _ => s.prune = none
    | .traversal hop _ start => hop.depths.Allowed limit ∧ Utf8.valid start = true
  | some hop => hop.depths.Allowed limit ∧ s.source.isTraversal = false

theorem exists_rootDomain_iff {limit : Int32} {s : Scope} :
    (∃ t, rootDomain limit s = .ok t) ↔ s.Opens limit none := by
  unfold rootDomain Scope.Opens
  cases s.source with
  | collection name =>
    simp only [exists_bind_eq_ok_iff, pure_eq_ok_iff, exists_eq', and_true, exists_unit_eq_ok_iff,
      require_eq_ok_iff, Option.isNone_iff_eq_none]
  | traversal hop target start =>
    simp only [exists_bind_eq_ok_iff, pure_eq_ok_iff, exists_eq', and_true, exists_and_right,
      exists_unit_eq_ok_iff, DepthRange.check_eq_ok_iff, exists_textLiteral_iff]

theorem exists_joinedDomain_iff {limit : Int32} {outer : Text} {hop : Hop} {s : Scope} :
    (∃ t, joinedDomain limit outer hop s = .ok t) ↔ s.Opens limit (some hop) := by
  unfold joinedDomain Scope.Opens
  cases s.source with
  | collection name =>
    simp only [exists_bind_eq_ok_iff, pure_eq_ok_iff, exists_eq', and_true, exists_unit_eq_ok_iff,
      DepthRange.check_eq_ok_iff, Source.isTraversal]
  | traversal _ target start =>
    simp [exists_bind_eq_ok_iff, Source.isTraversal]

theorem exists_domain_iff {limit : Int32} {index : Nat} {hop : Option Hop} {s : Scope} :
    (∃ t, domain limit index hop s = .ok t) ↔ s.Opens limit hop := by
  cases hop with
  | none => exact exists_rootDomain_iff
  | some hop => exact exists_joinedDomain_iff

theorem exists_filterClause_iff {keyword : String} {index : Nat} {f : Option Filter} :
    (∃ clauses, filterClause keyword index f = .ok clauses) ↔ ∀ g, f = some g → g.Writable := by
  cases f with
  | none => simp [filterClause]
  | some f =>
    simp only [filterClause, exists_bind_eq_ok_iff, pure_eq_ok_iff, exists_eq', and_true,
      Filter.exists_render_iff, Option.some.injEq, forall_eq']

/-- A scope has its clauses when its loop opens and its prune and filter can be written. -/
theorem exists_headOf_iff {limit : Int32} {index : Nat} {hop : Option Hop} {s : Scope} :
    (∃ head, headOf limit index hop s = .ok head) ↔
      s.Opens limit hop ∧ ∀ f, s.prune = some f ∨ s.filter = some f → f.Writable := by
  simp only [headOf, exists_bind_eq_ok_iff, pure_eq_ok_iff, exists_eq', and_true,
    exists_and_right, exists_domain_iff, exists_filterClause_iff]
  constructor
  · intro h
    obtain ⟨hopens, hprune, hfilter⟩ := h
    refine ⟨hopens, ?_⟩
    rintro f (hf | hf)
    · exact hprune f hf
    · exact hfilter f hf
  · rintro ⟨hopens, hfilters⟩
    exact ⟨hopens, fun f hf => hfilters f (Or.inl hf), fun f hf => hfilters f (Or.inr hf)⟩

/-! ### Faults along a chain -/

/-- A chain has its clauses when each of its scopes has, whatever the index it begins at. -/
theorem exists_headClauses_iff {limit : Int32} (scopes : List (Option Hop × Scope)) :
    ∀ index, (∃ heads, headClauses limit index scopes = .ok heads) ↔
      ∀ p ∈ scopes, p.2.Opens limit p.1 ∧
        ∀ f, p.2.prune = some f ∨ p.2.filter = some f → f.Writable := by
  induction scopes with
  | nil => simp [headClauses]
  | cons p rest ih =>
    intro index
    simp only [headClauses, exists_bind_eq_ok_iff, pure_eq_ok_iff, exists_eq', and_true,
      exists_and_right, exists_headOf_iff, ih, List.forall_mem_cons]

/-- **A query has a statement exactly when it is compilable.** -/
theorem exists_compile_iff {o : Options} {q : Query} :
    (∃ s, q.compile o = .ok s) ↔ q.Compilable o.depthLimit := by
  have hclauses : (∃ s, q.compile o = .ok s) ↔ ∀ p ∈ q.scopes, p.2.Opens o.depthLimit p.1 ∧
      ∀ f, p.2.prune = some f ∨ p.2.filter = some f → f.Writable := by
    simp only [Query.compile, Query.clauses, exists_bind_eq_ok_iff, pure_eq_ok_iff, exists_eq',
      and_true, exists_headClauses_iff]
  rw [hclauses, Query.scopes, List.forall_mem_cons, List.forall_mem_map]
  constructor
  · intro h
    obtain ⟨⟨hroot, hrootFilters⟩, hjoins⟩ := h
    refine ⟨?_, ?_, fun j hj => (hjoins j hj).1, ?_⟩
    · intro name hsource
      simpa only [Scope.Opens, hsource] using hroot
    · intro hop target start hsource
      simpa only [Scope.Opens, hsource] using hroot
    · refine List.forall_mem_cons.mpr ⟨hrootFilters, List.forall_mem_map.mpr ?_⟩
      exact fun j hj => (hjoins j hj).2
  · intro h
    obtain ⟨hrootFilters, hfilters⟩ := List.forall_mem_cons.mp h.filters
    refine ⟨⟨?_, hrootFilters⟩, ?_⟩
    · cases hsource : q.root.source with
      | collection name =>
        simpa only [Scope.Opens, hsource] using h.collection name hsource
      | traversal hop target start =>
        simpa only [Scope.Opens, hsource] using h.traversal hop target start hsource
    · exact fun j hj => ⟨h.joins j hj, List.forall_mem_map.mp hfilters j hj⟩

/-! ### Reports -/

/-- The kinds of errors by their names. -/
def QueryError.codes : List Text :=
  [utf8 "MalformedFilter", utf8 "InvalidPrune", utf8 "InvalidTraversalDepth",
    utf8 "UnsupportedOperand", utf8 "InvalidDescriptor"]

theorem QueryError.code_mem_codes (e : QueryError) : e.code ∈ QueryError.codes := by
  cases e <;> simp [QueryError.code, QueryError.codes]

theorem Text.beforeZero_append_ne_nil {word rest : Text} (h : word.beforeZero ≠ []) :
    (word ++ rest).beforeZero ≠ [] := by
  cases word with
  | nil => exact absurd rfl h
  | cons b word =>
    intro hnil
    apply h
    by_cases hb : b = 0
    · simp [Text.beforeZero, hb]
    · simp [Text.beforeZero, hb] at hnil

/-- Every error begins with words of its own, so its message is never cut to nothing. -/
theorem QueryError.message_ne_nil (e : QueryError) : e.message ≠ [] := by
  rw [QueryError.message]
  -- What a text mentions comes after its first words, and is dropped piece by piece.
  cases e
  case invalidPrune name =>
    rw [QueryError.text]
    repeat' with_reducible apply Text.beforeZero_append_ne_nil
    decide +kernel
  all_goals
    rename_i fault
    cases fault
    all_goals
      simp only [QueryError.text, FilterFault.text, DepthFault.text, OperandFault.text,
        DescriptorFault.text, tooDeepText, jsonErrorText]
      repeat' with_reducible apply Text.beforeZero_append_ne_nil
      all_goals decide +kernel

/-- **A report tells of a success exactly for compilable queries.** A success carries no error, and
a failure carries nothing else: the name of one of the five kinds and a message. -/
theorem report_success_iff (o : Options) (q : Query) :
    ((q.report o).success = true ↔ q.Compilable o.depthLimit) ∧
      ((q.report o).success = true →
        (q.report o).code = utf8 "None" ∧ (q.report o).message = []) ∧
      ((q.report o).success = false →
        (q.report o).statement = [] ∧ (q.report o).scopes = 0 ∧
          (q.report o).code ∈ QueryError.codes ∧ (q.report o).message ≠ []) := by
  rw [← exists_compile_iff, Query.report]
  cases h : q.compile o with
  | ok s => simp [Report.ofResult]
  | error e => simp [Report.ofResult, e.code_mem_codes, e.message_ne_nil]

/-- A sort key is no reason to fail, a prune of the root collection is one. -/
theorem report_sorted_and_pruned :
    let users := Query.collection (utf8 "User")
    let named := Filter.ofComparison (Subject.notNull (.field (utf8 "name") none))
    ((users.sort ⟨[], .ascending⟩).report Options.standard).code = utf8 "None" ∧
      ((users.prune named).report Options.standard).message ≠ [] := by
  intro users named
  exact ⟨((report_success_iff Options.standard (users.sort ⟨[], .ascending⟩)).2.1
      (by decide +kernel)).1,
    ((report_success_iff Options.standard (users.prune named)).2.2 (by decide +kernel)).2.2.2⟩

end GraphQuery
