import GraphQuery.Proofs.Configuration
import GraphQuery.Proofs.Statement.FirstFault
import GraphQuery.Proofs.Statement.Validity
import Mathlib.Algebra.Group.Int.Defs
import Mathlib.Algebra.Group.Nat.Defs

/-!
# The depth limit that is enforced

A query that compiles without a depth limit can fail under one in one way only: somewhere it follows
edges further than the limit allows. The limit comes from a configuration, where it is a number of
64 bits of which 32 are kept, so that what is enforced is not always what was set.

* `Query.walks` are the places where a query follows edges, with the depths, from the root on.
* `Query.Compilable.compile_eq_error_iff`: which error there is under a limit, of a query that has
  none without one.
* `rejects_iff_of_setsDepthLimit`: under a configuration, a walk is rejected exactly where it is
  above the lower 32 bits of the limit, taken as a signed number that limits nothing unless it is
  positive. For limits below two to the thirty-second power that is to be above the limit.
* `rejects_below_setLimit`: for greater limits it is not.
-/

namespace GraphQuery

/-! ### Walks -/

/-- Depths by which edges are followed, and the place where they are. -/
structure Walk where
  depths : DepthRange
  place : DepthPlace
  deriving DecidableEq, Repr

/-- The greatest depth of a walk is above a limit that limits anything. -/
def Walk.Exceeds (limit : Int) (w : Walk) : Prop :=
  0 < limit ∧ limit < w.depths.greatest.toInt

instance (limit : Int) (w : Walk) : Decidable (w.Exceeds limit) :=
  inferInstanceAs (Decidable (_ ∧ _))

/-- The walk of a loop: by the hop that leads to it, or of a traversal at the root. -/
def walk? : Option Hop → Source → Option Walk
  | none, .collection _ => none
  | none, .traversal hop target _ => some ⟨hop.depths, .traversal target⟩
  | some hop, source => some ⟨hop.depths, .join source.name⟩

/-- The walks of a query from the root on. -/
def Query.walks (q : Query) : List Walk :=
  q.scopes.filterMap fun (hop, s) => walk? hop s.source

/-- The error about a walk above the limit. -/
def Walk.limitError (limit : Int32) (w : Walk) : QueryError :=
  .invalidDepth (.aboveLimit w.depths.greatest limit w.place)

/-- A query is rejected because a walk of it is above the limit. -/
def Query.Rejects (o : Options) (q : Query) (w : Walk) : Prop :=
  q.compile o = .error (w.limitError o.depthLimit)

/-! ### Faults under a limit -/

/-- The errors about the walks that are above a limit, in order. -/
def limitFaults (limit : Int32) (walks : List Walk) : List QueryError :=
  (walks.filter (·.Exceeds limit.toInt)).map (·.limitError limit)

theorem limitFaults_append (limit : Int32) (xs ys : List Walk) :
    limitFaults limit (xs ++ ys) = limitFaults limit xs ++ limitFaults limit ys := by
  rw [limitFaults, List.filter_append, List.map_append]
  rfl

/-- Depths that are right without a limit have no fault under one but that of being above it. -/
theorem Walk.faults_eq {w : Walk} (h : w.depths.faults 0 w.place = []) (limit : Int32) :
    w.depths.faults limit w.place = limitFaults limit [w] := by
  have hexceeds : w.Exceeds limit.toInt ↔ 0 < limit ∧ limit < w.depths.greatest := by
    rw [Walk.Exceeds, Int32.lt_iff_toInt_lt, Int32.lt_iff_toInt_lt]
    exact Iff.rfl
  rw [DepthRange.faults, List.append_eq_nil_iff, List.append_eq_nil_iff] at h
  obtain ⟨hnegative, hreversed, _⟩ := h
  rw [DepthRange.faults, hnegative, hreversed, List.nil_append, List.nil_append]
  by_cases hw : w.Exceeds limit.toInt
  · simp [limitFaults, hw, hexceeds.mp hw, Walk.limitError]
  · rw [if_neg (mt hexceeds.mpr hw)]
    simp [limitFaults, hw]

theorem depthFaults_eq (limit : Int32) (hop : Option Hop) (source : Source) :
    depthFaults limit hop source =
      (walk? hop source).elim [] fun w => w.depths.faults limit w.place := by
  cases hop with
  | some hop => rfl
  | none => cases source <;> rfl

/-- A scope without a fault has none under a limit but that its walk is above it. -/
theorem Scope.faults_eq_of_unlimited {hop : Option Hop} {s : Scope} (h : s.faults 0 hop = [])
    (limit : Int32) : s.faults limit hop = limitFaults limit (walk? hop s.source).toList := by
  obtain ⟨hdepths, hrest⟩ := List.append_eq_nil_iff.mp h
  rw [Scope.faults, hrest, List.append_nil, depthFaults_eq]
  rw [depthFaults_eq] at hdepths
  cases hwalk : walk? hop s.source with
  | none => rfl
  | some w =>
    rw [hwalk] at hdepths
    exact w.faults_eq hdepths limit

/-- A query that compiles without a limit has no fault under one but walks above it. -/
theorem Query.Compilable.faults_eq {q : Query} (h : q.Compilable 0) (limit : Int32) :
    q.faults limit = limitFaults limit q.walks := by
  have hunlimited : q.faults 0 = [] := by
    let unlimited : Options := ⟨false, 0, false, 0⟩
    obtain ⟨st, hst⟩ := (exists_compile_iff (o := unlimited)).mpr h
    have hfaults := q.failsFirst_compile unlimited
    rw [hst] at hfaults
    exact hfaults.eq_nil
  rw [Query.faults, List.flatMap_eq_nil_iff] at hunlimited
  rw [Query.faults, Query.walks]
  -- The scopes one after the other: each adds the fault of its walk, where it has one.
  generalize q.scopes = scopes at hunlimited
  induction scopes with
  | nil => rfl
  | cons p rest ih =>
    obtain ⟨hop, s⟩ := p
    obtain ⟨hp, hrest⟩ := List.forall_mem_cons.mp hunlimited
    have hscope : s.faults limit hop = limitFaults limit (walk? hop s.source).toList :=
      Scope.faults_eq_of_unlimited hp limit
    simp only [List.flatMap_cons, ih hrest, hscope, ← limitFaults_append]
    cases hwalk : walk? hop s.source with
    | none => simp [hwalk]
    | some w => simp [hwalk]

/-- **A query that compiles without a limit fails under one for the first walk above it**, and for
nothing else. -/
theorem Query.Compilable.compile_eq_error_iff {q : Query} (h : q.Compilable 0) {o : Options}
    {e : QueryError} :
    q.compile o = .error e ↔
      ∃ w, q.walks.find? (·.Exceeds o.depthLimit.toInt) = some w ∧
        w.limitError o.depthLimit = e := by
  rw [q.failsFirst_compile o e, h.faults_eq, limitFaults, List.head?_map, List.head?_filter,
    Option.map_eq_some_iff]

/-- The first walk that could be above a limit is the one that a query is rejected for. -/
theorem Query.Compilable.rejects_iff {q : Query} (h : q.Compilable 0) {o : Options}
    {before after : List Walk} {w : Walk} (hw : q.walks = before ++ w :: after)
    (hbefore : ∀ v ∈ before, ¬v.Exceeds o.depthLimit.toInt) :
    q.Rejects o w ↔ w.Exceeds o.depthLimit.toInt := by
  rw [Query.Rejects, h.compile_eq_error_iff]
  constructor
  · rintro ⟨v, hv, herror⟩
    have hexceeds : v.Exceeds o.depthLimit.toInt := by simpa using List.find?_some hv
    -- The error shows the greatest depth of the walk that it is about.
    have hgreatest : v.depths.greatest = w.depths.greatest := by
      injection herror with hfault
      injection hfault
    exact ⟨hexceeds.1, hgreatest ▸ hexceeds.2⟩
  · intro hexceeds
    refine ⟨w, ?_, rfl⟩
    have hnone : before.find? (·.Exceeds o.depthLimit.toInt) = none := by
      simpa using hbefore
    rw [hw, List.find?_append, hnone, Option.none_or]
    exact List.find?_cons_of_pos (by simpa using hexceeds)

/-! ### Under a configuration -/

/-- A positive number of less than 33 bits either is a signed one of 32 bits, or becomes a negative
one. -/
theorem exceeds_bmod_iff {m : Int} (hm : 1 ≤ m) (hsmall : m < 2 ^ 32) (w : Walk) :
    w.Exceeds (m.bmod (2 ^ 32)) ↔ m < w.depths.greatest.toInt := by
  have hgreatest : w.depths.greatest.toInt < 2 ^ 31 := w.depths.greatest.toInt_lt
  rw [Walk.Exceeds, Int.bmod_def]
  split <;> omega

/-- **The depth limit that is enforced is the lower half of the one that is set**, signed, and
limits nothing unless it is positive. Of a query that compiles without a limit, a walk behind others
that are not above it is rejected exactly where it is above it. For a limit of less than 33 bits
that is to be above what is set. -/
theorem rejects_iff_of_setsDepthLimit {j : Value} {m : Int} (hj : j.SetsDepthLimit m) (hm : 1 ≤ m)
    {q : Query} (hq : q.Compilable 0) {before after : List Walk} {w : Walk}
    (hw : q.walks = before ++ w :: after)
    (hbefore : ∀ v ∈ before, ¬v.Exceeds (m.bmod (2 ^ 32))) :
    (q.Rejects (Config.ofJson j).config.compiler w ↔ w.Exceeds (m.bmod (2 ^ 32))) ∧
      (m < 2 ^ 32 →
        (q.Rejects (Config.ofJson j).config.compiler w ↔ m < w.depths.greatest.toInt)) := by
  have hlimit : (Config.ofJson j).config.compiler.depthLimit.toInt = m.bmod (2 ^ 32) := by
    rw [Config.depthLimit_ofJson hj]
    exact Int32.toInt_ofInt
  have hrejects : q.Rejects (Config.ofJson j).config.compiler w ↔ w.Exceeds (m.bmod (2 ^ 32)) := by
    rw [← hlimit]
    exact hq.rejects_iff hw (hlimit ▸ hbefore)
  exact ⟨hrejects, fun hsmall => hrejects.trans (exceeds_bmod_iff hm hsmall w)⟩

/-- A configuration with nothing but a depth limit. -/
def limitedTo (m : UInt64) : Value :=
  .ofMembers [(utf8 "compiler", .ofMembers [(utf8 "max_traversal_depth", .unsigned m)])]

theorem setsDepthLimit_limitedTo (m : UInt64) : (limitedTo m).SetsDepthLimit m.toNat := by
  have habsent : ∀ {rule : Value → Prop} (v : Value), none = some v → rule v :=
    fun _ h => nomatch h
  exact ⟨_, rfl, ⟨_, rfl, rfl⟩, habsent, habsent, habsent⟩

/-- Users joined to those they know over at most some edges. -/
def knownWithin (greatest : Int32) : Query :=
  (Query.collection (utf8 "User")).join ⟨.outbound, ⟨1, greatest⟩, false⟩
    (.collection (utf8 "knows"))

/-- The walk of such a query. -/
def knownWalk (greatest : Int32) : Walk :=
  ⟨⟨1, greatest⟩, .join (utf8 "knows")⟩

theorem walks_knownWithin (greatest : Int32) :
    (knownWithin greatest).walks = [] ++ knownWalk greatest :: [] := rfl

theorem compilable_knownWithin {greatest : Int32} (h : 1 ≤ greatest) :
    (knownWithin greatest).Compilable 0 where
  collection := fun _ _ => rfl
  traversal := fun _ _ _ h => nomatch h
  joins := by
    have hleast : (0 : Int32) ≤ 1 := by decide
    have hunlimited : ¬(0 : Int32) < 0 := by decide
    exact List.forall_mem_singleton.mpr ⟨⟨hleast, h, fun hlimit => absurd hlimit hunlimited⟩, rfl⟩
  filters := by
    rintro s hs f hf
    simp only [Query.scopeList, knownWithin, Query.join, Query.collection, List.map_cons,
      List.map_nil, List.mem_cons, List.not_mem_nil, or_false] at hs
    rcases hs with rfl | rfl <;> rcases hf with hf | hf <;> cases hf

/-- Two edges are allowed under a limit of two, and three are not. -/
theorem rejects_above_two :
    ¬(knownWithin 2).Rejects (Config.ofJson (limitedTo 2)).config.compiler (knownWalk 2) ∧
      (knownWithin 3).Rejects (Config.ofJson (limitedTo 2)).config.compiler (knownWalk 3) := by
  have hlimit : (limitedTo 2).SetsDepthLimit 2 := setsDepthLimit_limitedTo 2
  have htwo : (1 : Int32) ≤ 2 := by decide
  have hthree : (1 : Int32) ≤ 3 := by decide
  have hbelow := rejects_iff_of_setsDepthLimit hlimit (by decide) (compilable_knownWithin htwo)
    (walks_knownWithin 2) (fun _ h => nomatch h)
  have habove := rejects_iff_of_setsDepthLimit hlimit (by decide) (compilable_knownWithin hthree)
    (walks_knownWithin 3) (fun _ h => nomatch h)
  constructor
  · rw [hbelow.2 (by decide)]
    decide
  · rw [habove.2 (by decide)]
    decide

/-- **A limit of more than 32 bits can reject what is below it.** Of four thousand million and more
edges, only one is allowed. -/
theorem rejects_below_setLimit :
    (limitedTo 4294967297).SetsDepthLimit 4294967297 ∧ (knownWithin 2).Compilable 0 ∧
      (knownWithin 2).walks = [knownWalk 2] ∧
      (knownWithin 2).Rejects (Config.ofJson (limitedTo 4294967297)).config.compiler
        (knownWalk 2) ∧
      ¬(4294967297 < (knownWalk 2).depths.greatest.toInt) := by
  refine ⟨setsDepthLimit_limitedTo 4294967297, compilable_knownWithin (by decide), rfl, ?_,
    by decide⟩
  unfold Query.Rejects
  decide +kernel

end GraphQuery
