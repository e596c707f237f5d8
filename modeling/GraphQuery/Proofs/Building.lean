import GraphQuery.Query.Building
import GraphQuery.Query.Descriptor.Chain
import GraphQuery.Statement.Compile

/-!
# What is left of a sequence of calls

A query does not show in which order it was built. Filter, prune, limit and join are each replaced
as a whole, sort keys pile up, and distinct results once asked for stay asked for. What a sequence
of calls leaves behind can therefore be read off the calls.

* `BuildCall.latest?` is what the last call that sets an attribute sets it to.
* `foldl_latest?` is the law of every attribute that is replaced: what one call does to it and, from
  that, what a sequence does.
* `BuildCall.SameOutcome` relates sequences that leave the same behind.
* `build_attributes`: every attribute of a query that was built, and that such sequences build the
  same query.
-/

namespace GraphQuery

/-! ### What the calls say -/

namespace BuildCall

/-- The filter that a call sets. -/
def filter? : BuildCall → Option Filter
  | .filter f => some f
  | .filterBy c => some (.ofComparison c)
  | _ => none

/-- The prune that a call sets. -/
def prune? : BuildCall → Option Filter
  | .prune f => some f
  | .pruneBy c => some (.ofComparison c)
  | _ => none

/-- The sort key that a call adds. -/
def sort? : BuildCall → Option SortKey
  | .sort key => some key
  | _ => none

/-- The limit that a call sets, count and skip together. -/
def limit? : BuildCall → Option Limit
  | .limit l => some l
  | _ => none

/-- The join that a call sets: the hop, and the query that it leads to. -/
def join? : BuildCall → Option (Hop × Query)
  | .join hop nested => some (hop, nested)
  | _ => none

/-- What the last of the calls that set an attribute sets it to. -/
def latest? {α : Type} (attribute? : BuildCall → Option α) (calls : List BuildCall) : Option α :=
  (calls.filterMap attribute?).getLast?

/-- Sequences of calls with the same last filter, prune, limit and join, the same sort keys in the
same order, and both or neither with a call for distinct results. -/
structure SameOutcome (calls calls' : List BuildCall) : Prop where
  filter : latest? filter? calls = latest? filter? calls'
  prune : latest? prune? calls = latest? prune? calls'
  limit : latest? limit? calls = latest? limit? calls'
  join : latest? join? calls = latest? join? calls'
  sorts : calls.filterMap sort? = calls'.filterMap sort?
  distinct : .distinct ∈ calls ↔ .distinct ∈ calls'

end BuildCall

/-- **What steps replace** is in the end what the last step that sets it set, and what it was before
where no step does. -/
theorem foldl_latest? {σ κ α : Type} (read : σ → Option α) {step : σ → κ → σ}
    {sets? : κ → Option α} (hstep : ∀ s k, read (step s k) = (sets? k).or (read s)) (s : σ)
    (steps : List κ) :
    read (steps.foldl step s) = (steps.filterMap sets?).getLast?.or (read s) := by
  induction steps generalizing s with
  | nil => rfl
  | cons k rest ih =>
    rw [List.foldl_cons, ih, hstep, List.filterMap_cons]
    cases sets? k with
    | none => rfl
    | some a =>
      -- The step counts where none of the later ones sets it again.
      cases h : (rest.filterMap sets?).getLast? <;> simp [List.getLast?_cons, h]

namespace Query

open BuildCall

/-! ### One call -/

section Add

variable (q : Query) (c : BuildCall)

theorem source_add : (q.add c).root.source = q.root.source := by
  cases c <;> rfl

theorem filter_add : (q.add c).root.filter = c.filter?.or q.root.filter := by
  cases c <;> rfl

theorem prune_add : (q.add c).root.prune = c.prune?.or q.root.prune := by
  cases c <;> rfl

theorem limit_add : (q.add c).root.limit = c.limit?.or q.root.limit := by
  cases c <;> rfl

theorem joined?_add : (q.add c).joined? = c.join?.or q.joined? := by
  cases c <;> rfl

theorem sorts_add : (q.add c).root.sorts = q.root.sorts ++ c.sort?.toList := by
  cases c <;> simp [add, sort?, filter, prune, sort, limit, distinct, join]

theorem distinct_add_iff :
    (q.add c).root.distinct = true ↔ q.root.distinct = true ∨ .distinct = c := by
  cases c <;> simp [add, filter, prune, sort, limit, distinct, join]

end Add

/-! ### All calls -/

variable (q : Query) (calls : List BuildCall)

theorem source_build : (q.build calls).root.source = q.root.source := by
  induction calls generalizing q with
  | nil => rfl
  | cons c rest ih => rw [build_cons, ih, source_add]

theorem filter_build :
    (q.build calls).root.filter = (latest? filter? calls).or q.root.filter :=
  foldl_latest? (fun q => q.root.filter) filter_add q calls

theorem prune_build : (q.build calls).root.prune = (latest? prune? calls).or q.root.prune :=
  foldl_latest? (fun q => q.root.prune) prune_add q calls

theorem limit_build : (q.build calls).root.limit = (latest? limit? calls).or q.root.limit :=
  foldl_latest? (fun q => q.root.limit) limit_add q calls

theorem joined?_build : (q.build calls).joined? = (latest? join? calls).or q.joined? :=
  foldl_latest? joined? joined?_add q calls

theorem sorts_build :
    (q.build calls).root.sorts = q.root.sorts ++ calls.filterMap sort? := by
  induction calls generalizing q with
  | nil => simp
  | cons c rest ih =>
    rw [build_cons, ih, sorts_add, List.append_assoc, List.filterMap_cons]
    cases c.sort? <;> rfl

theorem distinct_build_iff :
    (q.build calls).root.distinct = true ↔ q.root.distinct = true ∨ .distinct ∈ calls := by
  induction calls generalizing q with
  | nil => simp
  | cons c rest ih => rw [build_cons, ih, distinct_add_iff, List.mem_cons, or_assoc]

theorem joins_eq_of_joined? {q r : Query} (h : q.joined? = r.joined?) : q.joins = r.joins := by
  obtain ⟨root, joins⟩ := q
  obtain ⟨root', joins'⟩ := r
  rcases joins with _ | ⟨⟨hop, scope⟩, rest⟩ <;> rcases joins' with _ | ⟨⟨hop', scope'⟩, rest'⟩
  · rfl
  · cases h
  · cases h
  · cases h
    rfl

/-- A query has no more to it than the attributes that calls set, and its source. -/
theorem eq_of_attributes {q r : Query} (hsource : q.root.source = r.root.source)
    (hfilter : q.root.filter = r.root.filter) (hprune : q.root.prune = r.root.prune)
    (hsorts : q.root.sorts = r.root.sorts) (hlimit : q.root.limit = r.root.limit)
    (hdistinct : q.root.distinct = r.root.distinct) (hjoined : q.joined? = r.joined?) :
    q = r := by
  have hjoins := joins_eq_of_joined? hjoined
  obtain ⟨⟨source, prune, filter, sorts, limit, distinct⟩, joins⟩ := q
  obtain ⟨⟨source', prune', filter', sorts', limit', distinct'⟩, joins'⟩ := r
  simp only [Query.mk.injEq, Scope.mk.injEq]
  exact ⟨⟨hsource, hprune, hfilter, hsorts, hlimit, hdistinct⟩, hjoins⟩

/-- Calls with the same outcome build the same query, whatever they are added to. -/
theorem build_eq_of_sameOutcome {calls calls' : List BuildCall} (h : SameOutcome calls calls') :
    q.build calls = q.build calls' := by
  apply eq_of_attributes
  · rw [source_build, source_build]
  · rw [filter_build, filter_build, h.filter]
  · rw [prune_build, prune_build, h.prune]
  · rw [sorts_build, sorts_build, h.sorts]
  · rw [limit_build, limit_build, h.limit]
  · rw [Bool.eq_iff_iff, distinct_build_iff, distinct_build_iff, h.distinct]
  · rw [joined?_build, joined?_build, h.join]

/-- **What is left of a sequence of calls.** The source stays what it was. Filter, prune, limit and
join are each as the last call for it left them, and as before where there was none. Sort keys come
after those that were there, in the order of the calls, and results are distinct where they were or
where a call asked for it. Sequences that leave the same behind build one query, with one report and
one descriptor, in whatever order the calls come. -/
theorem build_attributes (q : Query) (calls : List BuildCall) :
    (q.build calls).root.source = q.root.source ∧
      (q.build calls).root.filter = (latest? filter? calls).or q.root.filter ∧
      (q.build calls).root.prune = (latest? prune? calls).or q.root.prune ∧
      (q.build calls).root.limit = (latest? limit? calls).or q.root.limit ∧
      (q.build calls).joined? = (latest? join? calls).or q.joined? ∧
      (q.build calls).root.sorts = q.root.sorts ++ calls.filterMap sort? ∧
      ((q.build calls).root.distinct = true ↔ q.root.distinct = true ∨ .distinct ∈ calls) ∧
      ∀ calls', SameOutcome calls calls' →
        q.build calls = q.build calls' ∧
          (∀ o, (q.build calls).report o = (q.build calls').report o) ∧
          (q.build calls).toJson = (q.build calls').toJson := by
  refine ⟨q.source_build calls, q.filter_build calls, q.prune_build calls, q.limit_build calls,
    q.joined?_build calls, q.sorts_build calls, q.distinct_build_iff calls, fun calls' h => ?_⟩
  have hsame : q.build calls = q.build calls' := q.build_eq_of_sameOutcome h
  exact ⟨hsame, fun o => by rw [hsame], by rw [hsame]⟩

/-- Users who are known, and adults: in the second sequence every call that is replaced in the first
is left out, and the others come in another order. -/
theorem build_attributes_reordered :
    let users := Query.collection (utf8 "User")
    let adult := (Subject.field (utf8 "age") none).atLeast (.literal (.unsigned 18))
    let named := Filter.ofComparison (Subject.field (utf8 "name") none).notNull
    let age : SortKey := ⟨utf8 "age", .descending⟩
    let name : SortKey := ⟨utf8 "name", .ascending⟩
    let hop : Hop := ⟨.outbound, ⟨1, 2⟩, false⟩
    let calls : List BuildCall := [.limit ⟨10, some 5⟩, .sort age, .filter named,
      .join ⟨.any, ⟨0, 0⟩, true⟩ users, .distinct, .limit ⟨3, none⟩, .sort name, .filterBy adult,
      .join hop (.collection (utf8 "knows"))]
    let calls' : List BuildCall := [.join hop (.collection (utf8 "knows")), .sort age,
      .filter (.ofComparison adult), .sort name, .distinct, .limit ⟨3, none⟩]
    BuildCall.SameOutcome calls calls' ∧
      (users.build calls).report Options.standard =
        (users.build calls').report Options.standard := by
  intro users adult named age name hop calls calls'
  have h : BuildCall.SameOutcome calls calls' :=
    ⟨rfl, rfl, rfl, rfl, rfl, by simp [calls, calls']⟩
  obtain ⟨_, _, _, _, _, _, _, hsame⟩ := build_attributes users calls
  exact ⟨h, (hsame calls' h).2.1 Options.standard⟩

end Query

end GraphQuery
