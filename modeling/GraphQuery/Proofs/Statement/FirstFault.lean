import GraphQuery.Proofs.Filter.FirstFault
import GraphQuery.Statement.Compile

/-!
# The fault that is reported

A query can have faults in many scopes, and a report tells of one. This module lists the faults of a
scope in an order that does not come from the compiler, and shows that what is reported is the head
of the list of the outermost scope that has any.

* `Scope.faults` are the faults of a scope: depths, then where the loop starts, then the place of the
  prune, then the prune, then the filter. Nothing else of the scope occurs in them, and of the rest
  of the chain only the hop that leads to it.
* `Query.failsFirst_compile`: a query fails with the first fault of its scopes, from the root on.
* `Query.FirstFaulty` names the outermost scope with a fault. `report_firstFaulty` says that there is
  one exactly where a compilation fails, what is reported then, and that a change to the scopes
  around it does not change the report.
-/

namespace GraphQuery

/-! ### Faults of a scope -/

/-- The faults of a depth range: a negative bound, the wrong order, a depth above a limit that is
set. -/
def DepthRange.faults (limit : Int32) (place : DepthPlace) (r : DepthRange) : List QueryError :=
  (if r.least < 0 ∨ r.greatest < 0 then [.invalidDepth (.negative r place)] else [])
    ++ ((if r.greatest < r.least then [.invalidDepth (.reversed r place)] else [])
    ++ (if 0 < limit ∧ limit < r.greatest then [.invalidDepth (.aboveLimit r.greatest limit place)]
      else []))

/-- The faults of the depths of a loop: those of the hop that leads to it, or of a traversal at the
root. -/
def depthFaults (limit : Int32) : Option Hop → Source → List QueryError
  | none, .collection _ => []
  | none, .traversal hop target _ => hop.depths.faults limit (.traversal target)
  | some hop, source => hop.depths.faults limit (.join source.name)

/-- The faults of the place where a loop starts: a traversal cannot be joined, and at the root it
starts at a text with a literal. -/
def startFaults : Option Hop → Source → List QueryError
  | none, .traversal _ _ start => textFaults start
  | some _, .traversal _ target start => [.invalidDescriptor (.joinIntoTraversal target start)]
  | _, .collection _ => []

/-- The fault of a prune where there is nothing to prune: at a collection at the root. -/
def pruneFaults : Option Hop → Source → Option Filter → List QueryError
  | none, .collection name, some _ => [.invalidPrune name]
  | _, _, _ => []

/-- The faults of a prune or a filter, where there is one. -/
def filterFaults (f : Option Filter) : List QueryError :=
  f.toList.flatMap Filter.faults

/-- The faults of a scope in the order in which they count. -/
def Scope.faults (limit : Int32) (hop : Option Hop) (s : Scope) : List QueryError :=
  depthFaults limit hop s.source ++ (startFaults hop s.source
    ++ (pruneFaults hop s.source s.prune ++ (filterFaults s.prune ++ filterFaults s.filter)))

/-- The faults of a query from the root on. -/
def Query.faults (limit : Int32) (q : Query) : List QueryError :=
  q.scopes.flatMap fun (hop, s) => s.faults limit hop

theorem DepthRange.failsFirst_check (limit : Int32) (place : DepthPlace) (r : DepthRange) :
    FailsFirst (r.check limit place) (r.faults limit place) := by
  unfold DepthRange.check DepthRange.faults
  split
  · exact failsFirst_error _ _
  · split
    · exact failsFirst_error _ _
    · split
      · exact failsFirst_error _ _
      · exact failsFirst_ok ()

/-- A loop fails to open with the first fault of its depths, its start and the place of a prune. -/
theorem failsFirst_domain (limit : Int32) (index : Nat) (hop : Option Hop) (s : Scope) :
    FailsFirst (domain limit index hop s)
      (depthFaults limit hop s.source ++ (startFaults hop s.source
        ++ pruneFaults hop s.source s.prune)) := by
  cases hop with
  | none =>
    rw [domain, rootDomain]
    cases s.source with
    | collection name =>
      have hprune : pruneFaults none (.collection name) s.prune =
          if s.prune.isNone then [] else [.invalidPrune name] := by
        cases s.prune <;> rfl
      rw [hprune]
      exact (failsFirst_require _ _).bind_pure
    | traversal hop target start =>
      refine (hop.depths.failsFirst_check limit _).bind fun _ => ?_
      rw [show pruneFaults none (.traversal hop target start) s.prune = [] from rfl,
        List.append_nil]
      exact (failsFirst_textLiteral start).bind_pure
  | some hop =>
    rw [domain, joinedDomain]
    refine (hop.depths.failsFirst_check limit _).bind fun _ => ?_
    cases s.source with
    | collection name => exact failsFirst_pure _
    | traversal hop' target start => exact failsFirst_error _ _

theorem failsFirst_filterClause (keyword : String) (index : Nat) (f : Option Filter) :
    FailsFirst (filterClause keyword index f) (filterFaults f) := by
  cases f with
  | none => exact failsFirst_ok _
  | some f =>
    rw [show filterFaults (some f) = f.faults from List.append_nil _]
    exact (f.failsFirst_render _).bind_pure

/-- The clauses of a scope on the way down fail with the first fault of the scope. -/
theorem failsFirst_headOf (limit : Int32) (index : Nat) (hop : Option Hop) (s : Scope) :
    FailsFirst (headOf limit index hop s) (s.faults limit hop) := by
  have hfaults : s.faults limit hop = (depthFaults limit hop s.source ++ (startFaults hop s.source
      ++ pruneFaults hop s.source s.prune)) ++ (filterFaults s.prune ++ filterFaults s.filter) := by
    simp only [Scope.faults, List.append_assoc]
  rw [headOf, hfaults]
  refine (failsFirst_domain limit index hop s).bind fun walked => ?_
  refine (failsFirst_filterClause "PRUNE " index s.prune).bind fun prune => ?_
  exact (failsFirst_filterClause "FILTER " index s.filter).bind_pure

/-! ### Faults of a chain -/

/-- A chain fails with the first fault of its scopes, whatever index it begins at. -/
theorem failsFirst_headClauses (limit : Int32) (scopes : List (Option Hop × Scope)) :
    ∀ index, FailsFirst (headClauses limit index scopes)
      (scopes.flatMap fun (hop, s) => s.faults limit hop) := by
  induction scopes with
  | nil => exact fun _ => failsFirst_ok _
  | cons p rest ih =>
    obtain ⟨hop, s⟩ := p
    intro index
    rw [headClauses, List.flatMap_cons]
    refine (failsFirst_headOf limit index hop s).bind fun here => ?_
    exact (ih (index + 1)).bind_pure

/-- **A query fails with the first fault of its scopes.** Nothing on the way up the chain can
fail. -/
theorem Query.failsFirst_compile (o : Options) (q : Query) :
    FailsFirst (q.compile o) (q.faults o.depthLimit) :=
  ((failsFirst_headClauses o.depthLimit q.scopes 0).bind_pure).bind_pure

/-! ### The outermost scope with a fault -/

/-- The scope at an index, to which a hop leads where it is not the root, is the outermost one with a
fault. -/
structure Query.FirstFaulty (limit : Int32) (q : Query) (i : Nat) (hop : Option Hop) (s : Scope) :
    Prop where
  place : q.scopes[i]? = some (hop, s)
  before : ∀ j < i, ∀ p, q.scopes[j]? = some p → p.2.faults limit p.1 = []
  faulty : s.faults limit hop ≠ []

/-- The first fault of a query is the first one of its outermost scope with a fault. -/
theorem Query.head?_faults_eq_some_iff {limit : Int32} {q : Query} {e : QueryError} :
    (q.faults limit).head? = some e ↔
      ∃ i hop s, q.FirstFaulty limit i hop s ∧ (s.faults limit hop).head? = some e := by
  rw [Query.faults, List.head?_flatMap, List.findSome?_eq_some_iff]
  constructor
  · rintro ⟨outer, ⟨hop, s⟩, inner, hscopes, he, houter⟩
    have he : (s.faults limit hop).head? = some e := he
    -- The scopes before the one with this fault have none, so that their count is its index.
    refine ⟨outer.length, hop, s, ⟨?_, ?_, ?_⟩, he⟩
    · simp [hscopes]
    · intro j hj p hp
      rw [hscopes, List.getElem?_append_left hj] at hp
      exact List.head?_eq_none_iff.mp (houter p (List.mem_of_getElem? hp))
    · intro hnil
      rw [hnil] at he
      cases he
  · rintro ⟨i, hop, s, h, he⟩
    obtain ⟨hi, hplace⟩ := List.getElem?_eq_some_iff.mp h.place
    refine ⟨q.scopes.take i, (hop, s), q.scopes.drop (i + 1), ?_, he, ?_⟩
    · rw [← hplace, List.getElem_cons_drop, List.take_append_drop]
    · intro p hp
      obtain ⟨j, hj, hp⟩ := List.mem_take_iff_getElem.mp hp
      have hlt : j < i := (Nat.lt_min.mp hj).1
      exact List.head?_eq_none_iff.mpr
        (h.before j hlt p (List.getElem?_eq_some_iff.mpr ⟨(Nat.lt_min.mp hj).2, hp⟩))

/-- The report of a query tells of the first fault of its outermost scope with a fault. -/
theorem Query.FirstFaulty.report_eq {o : Options} {q : Query} {i : Nat} {hop : Option Hop}
    {s : Scope} (h : q.FirstFaulty o.depthLimit i hop s) {e : QueryError} {more : List QueryError}
    (he : s.faults o.depthLimit hop = e :: more) :
    q.report o = ⟨false, [], 0, e.code, e.message⟩ := by
  have hhead : (q.faults o.depthLimit).head? = some e :=
    Query.head?_faults_eq_some_iff.mpr ⟨i, hop, s, h, by rw [he]; rfl⟩
  rw [Query.report, (q.failsFirst_compile o e).mpr hhead]
  rfl

/-- A compilation is reported as a failure exactly where a scope has a fault. -/
theorem report_success_eq_false_iff {o : Options} {q : Query} :
    (q.report o).success = false ↔ ∃ i hop s, q.FirstFaulty o.depthLimit i hop s := by
  constructor
  · intro hreport
    cases hcompile : q.compile o with
    | ok st =>
      rw [Query.report, hcompile] at hreport
      cases hreport
    | error e =>
      have hhead := (q.failsFirst_compile o e).mp hcompile
      obtain ⟨i, hop, s, h, _⟩ := Query.head?_faults_eq_some_iff.mp hhead
      exact ⟨i, hop, s, h⟩
  · rintro ⟨i, hop, s, h⟩
    obtain ⟨e, more, he⟩ := List.exists_cons_of_ne_nil h.faulty
    rw [h.report_eq he]

/-- A scope is still the outermost with a fault where the scopes behind it are others, those before
it are others without a fault, and what it sorts by, its limit and its wish for distinct results are
others. -/
theorem Query.FirstFaulty.of_same {limit : Int32} {q q' : Query} {i : Nat} {hop : Option Hop}
    {s s' : Scope} (h : q.FirstFaulty limit i hop s) (hplace : q'.scopes[i]? = some (hop, s'))
    (hbefore : ∀ j < i, ∀ p, q'.scopes[j]? = some p → p.2.faults limit p.1 = [])
    (hsource : s'.source = s.source) (hprune : s'.prune = s.prune) (hfilter : s'.filter = s.filter) :
    q'.FirstFaulty limit i hop s' ∧ s'.faults limit hop = s.faults limit hop := by
  have hfaults : s'.faults limit hop = s.faults limit hop := by
    rw [Scope.faults, Scope.faults, hsource, hprune, hfilter]
  exact ⟨⟨hplace, hbefore, hfaults ▸ h.faulty⟩, hfaults⟩

/-- **The report of a failure is about the outermost scope with a fault.** A compilation fails exactly
where some scope has a fault. What is reported is the first fault of the outermost such scope. It is
the same for every query that has the same source, prune and filter at that place, the same hop that
leads there, and no fault before. -/
theorem report_firstFaulty (o : Options) (q : Query) :
    ((q.report o).success = false ↔ ∃ i hop s, q.FirstFaulty o.depthLimit i hop s) ∧
      ∀ i hop s, q.FirstFaulty o.depthLimit i hop s →
        (∃ e more, s.faults o.depthLimit hop = e :: more ∧
          (q.report o).code = e.code ∧ (q.report o).message = e.message) ∧
        ∀ (q' : Query) (s' : Scope), q'.scopes[i]? = some (hop, s') →
          (∀ j < i, ∀ p, q'.scopes[j]? = some p → p.2.faults o.depthLimit p.1 = []) →
          s'.source = s.source → s'.prune = s.prune → s'.filter = s.filter →
          (q'.report o).success = false ∧ (q'.report o).code = (q.report o).code ∧
            (q'.report o).message = (q.report o).message := by
  refine ⟨report_success_eq_false_iff, ?_⟩
  intro i hop s h
  obtain ⟨e, more, he⟩ := List.exists_cons_of_ne_nil h.faulty
  refine ⟨⟨e, more, he, by rw [h.report_eq he], by rw [h.report_eq he]⟩, ?_⟩
  intro q' s' hplace hbefore hsource hprune hfilter
  obtain ⟨h', hfaults⟩ := h.of_same hplace hbefore hsource hprune hfilter
  rw [h.report_eq he, h'.report_eq (hfaults.trans he)]
  exact ⟨rfl, rfl, rfl⟩

/-- A hop whose depths are in the wrong order. -/
def reversedHop : Hop :=
  ⟨.outbound, ⟨3, 1⟩, false⟩

/-- A scope with a filter that has no term. -/
def emptyFiltered : Query :=
  (Query.collection (utf8 "knows")).filter .empty

/-- A query with two faults in the scope joined first, and three in the one joined to it: a negative
depth, a traversal that cannot be joined, and bytes that are no text. -/
def manyFaults : Query :=
  (Query.collection (utf8 "User")).join reversedHop
    (emptyFiltered.join ⟨.any, ⟨-1, 2⟩, true⟩
      ((Query.traversal ⟨.any, ⟨1, 1⟩, false⟩ (utf8 "likes") (utf8 "v")).filter
        (.ofComparison ((Subject.field [] none).equals (.literal (.string [0xff]))))))

/-- The first of the outer faults is reported, with or without the inner ones, and under another
root. -/
theorem report_manyFaults :
    let elsewhere := (Query.collection (utf8 "City")).join reversedHop
      (emptyFiltered.limit ⟨1, none⟩)
    (manyFaults.report Options.standard).success = false ∧
      (manyFaults.report Options.standard).code = utf8 "InvalidTraversalDepth" ∧
      (elsewhere.report Options.standard).message =
        (manyFaults.report Options.standard).message := by
  intro elsewhere
  have hroot : ∀ name, (Scope.ofSource (.collection name)).faults 0 none = [] := fun _ => rfl
  have hfirst : manyFaults.FirstFaulty 0 1 (some reversedHop) emptyFiltered.root := by
    refine ⟨rfl, fun j hj p hp => ?_, by decide +kernel⟩
    cases Nat.lt_one_iff.mp hj
    cases hp
    exact hroot _
  obtain ⟨hfails, hreported⟩ := report_firstFaulty Options.standard manyFaults
  obtain ⟨⟨e, more, he, hcode, _⟩, hsame⟩ := hreported 1 _ _ hfirst
  have hfault : emptyFiltered.root.faults 0 (some reversedHop) =
      [.invalidDepth (.reversed ⟨3, 1⟩ (.join (utf8 "knows"))), .malformedFilter .noTerm] := by
    decide +kernel
  have hdepth : e.code = utf8 "InvalidTraversalDepth" := by
    rw [← (List.cons.inj (hfault.symm.trans he)).1]
    rfl
  have helsewhere := hsame elsewhere (emptyFiltered.limit ⟨1, none⟩).root rfl
    (fun j hj p hp => by
      cases Nat.lt_one_iff.mp hj
      cases hp
      exact hroot _) rfl rfl rfl
  exact ⟨hfails.mpr ⟨1, _, _, hfirst⟩, hcode.trans hdepth, helsewhere.2.2⟩

end GraphQuery
