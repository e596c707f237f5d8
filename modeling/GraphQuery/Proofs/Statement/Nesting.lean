import GraphQuery.Statement.Compile

/-!
# The nested form of a statement

`Query.clauses` goes through the scopes of a query twice, down the chain for the loops and up the
chain for what follows them. What it writes has a plainer description: a scope is its loop, its
prune and its filter, then the whole of the scope inside it, then its sort keys and its limit. This
module writes the compact statement that way, by recursion on the chain, and relates the two.

* `Nested.body` is the text of a scope with every scope inside it; each scope hands its own variable
  to the next one as the place where the hop starts.
* `Query.nestedText` is the text of a query.
* `nestedText_of_compile` says that a query that compiles has this text as its compact statement,
  with as many loops as the chain has scopes, under names that differ from each other.

Only the texts of filters can be missing here. Depths, start vertices and prunes of collections are
checked by the compiler and by nothing in this module.
-/

namespace GraphQuery

namespace Nested

/-! ### Parts of a scope -/

/-- What the loop of a hop runs through: how far, in which direction, from where, along what. -/
def hopText (hop : Hop) (start name : Text) : Text :=
  signedDecimal hop.depths.least.toInt ++ utf8 ".." ++ signedDecimal hop.depths.greatest.toInt
    ++ utf8 " " ++ hop.direction.name ++ utf8 " " ++ start ++ utf8 " "
    ++ (if hop.namedGraph then utf8 "GRAPH " else []) ++ name

/-- What the outermost loop runs through. -/
def rootText : Source → Text
  | .collection name => name
  | .traversal hop target start => hopText hop (Quoted.encode start) target

/-- A prune or a filter behind its keyword, where the scope of a variable has one. -/
def filterText (keyword : String) (v : Text) : Option Filter → Checked Text
  | none => .ok []
  | some f => do
    let condition ← f.render v
    pure (utf8 " " ++ (utf8 keyword ++ condition))

/-- A sort key in the scope of a variable. -/
def keyText (v : Text) (key : SortKey) : Text :=
  v ++ utf8 "." ++ key.field ++ utf8 " " ++ key.direction.name

/-- One clause with every sort key, where there are any. -/
def sortText (v : Text) : List SortKey → Text
  | [] => []
  | key :: rest =>
    utf8 " " ++ (utf8 "SORT " ++ (keyText v key ++ rest.flatMap fun k => utf8 ", " ++ keyText v k))

/-- A limit, where there is one. -/
def limitText : Option Limit → Text
  | none => []
  | some ⟨count, none⟩ => utf8 " " ++ (utf8 "LIMIT " ++ decimal count.toNat)
  | some ⟨count, some skip⟩ =>
    utf8 " " ++ (utf8 "LIMIT " ++ (decimal skip.toNat ++ utf8 ", " ++ decimal count.toNat))

/-! ### Scopes inside scopes -/

/-- A scope around the text of what is inside it. -/
def scopeText (v walked : Text) (s : Scope) (inner : Text) : Checked Text := do
  let prune ← filterText "PRUNE " v s.prune
  let filter ← filterText "FILTER " v s.filter
  pure (utf8 "FOR " ++ v ++ utf8 " IN " ++ walked ++ prune ++ filter ++ inner
    ++ sortText v s.sorts ++ limitText s.limit)

/-- The scope at an index with every scope inside it, given what its loop runs through and the
scopes joined to it. -/
def body (index : Nat) (walked : Text) (s : Scope) : List (Hop × Scope) → Checked Text
  | [] => scopeText (ScopeName.ofDepth index) walked s []
  | (hop, next) :: rest => do
    let start := ScopeName.ofDepth index
    let inner ← body (index + 1) (hopText hop start next.source.name) next rest
    scopeText start walked s (utf8 " " ++ inner)

end Nested

/-- The compact statement of a query, scope inside scope. -/
def Query.nestedText (q : Query) : Checked Text := do
  let body ← Nested.body 0 (Nested.rootText q.root.source) q.root q.joins
  let distinct := q.root.distinct || q.joins.any fun join => join.2.distinct
  pure (body ++ utf8 " RETURN " ++ (if distinct then utf8 "DISTINCT " else [])
    ++ ScopeName.ofDepth q.joins.length)

/-! ### Clauses behind blanks -/

/-- The clauses one after another, each behind a blank. -/
def spaced (clauses : List Clause) : Text :=
  clauses.flatMap fun c => utf8 " " ++ c.text

@[simp] theorem spaced_nil : spaced [] = [] := rfl

@[simp] theorem spaced_cons (c : Clause) (rest : List Clause) :
    spaced (c :: rest) = utf8 " " ++ c.text ++ spaced rest := rfl

@[simp] theorem spaced_append (xs ys : List Clause) : spaced (xs ++ ys) = spaced xs ++ spaced ys :=
  List.flatMap_append

/-- Laid out compactly, clauses differ from clauses behind blanks by the first blank. -/
theorem blank_append_layOut {o : Options} (compact : o.pretty = false) {clauses : List Clause}
    (h : clauses ≠ []) : utf8 " " ++ layOut o clauses = spaced clauses := by
  cases clauses with
  | nil => exact absurd rfl h
  | cons c rest =>
    simp only [layOut, compact, Bool.false_eq_true, if_false, List.map_cons,
      Text.joinWith_cons_eq_flatMap, spaced_cons, List.flatMap_map, List.append_assoc]
    rfl

theorem spaced_sortClause (index : Nat) (sorts : List SortKey) :
    spaced (sortClause index sorts) = Nested.sortText (ScopeName.ofDepth index) sorts := by
  cases sorts with
  | nil => rfl
  | cons key rest =>
    simp only [sortClause, List.isEmpty_cons, Bool.false_eq_true, if_false, spaced_cons, spaced_nil,
      List.map_cons, Text.joinWith_cons_eq_flatMap, List.flatMap_map, Nested.sortText,
      List.append_nil]
    rfl

theorem spaced_limitClause (index : Nat) (limit : Option Limit) :
    spaced (limitClause index limit) = Nested.limitText limit := by
  rcases limit with _ | ⟨count, _ | skip⟩
  · rfl
  · simp [limitClause, Limit.text, Nested.limitText]
  · simp [limitClause, Limit.text, Nested.limitText]

theorem spaced_tailOf (index : Nat) (s : Scope) :
    spaced (tailOf index s) =
      Nested.sortText (ScopeName.ofDepth index) s.sorts ++ Nested.limitText s.limit := by
  rw [tailOf, spaced_append, spaced_sortClause, spaced_limitClause]

/-- The last clause returns the variable of the last scope. -/
theorem spaced_returnClause (q : Query) :
    spaced [returnClause q.scopes] =
      utf8 " RETURN "
        ++ (if q.root.distinct || q.joins.any fun join => join.2.distinct then utf8 "DISTINCT "
          else [])
        ++ ScopeName.ofDepth q.joins.length := by
  have hlast : q.scopes.length - 1 = q.joins.length := by simp
  rw [spaced_cons, spaced_nil, returnClause, hlast, Query.scopes, List.any_cons, List.any_map]
  simp only [Function.comp_def, List.append_nil, ← List.append_assoc]
  rfl

theorem filterText_of_filterClause {keyword : String} {index : Nat} {f : Option Filter}
    {clauses : List Clause} (h : filterClause keyword index f = .ok clauses) :
    Nested.filterText keyword (ScopeName.ofDepth index) f = .ok (spaced clauses) := by
  cases f with
  | none =>
    cases h
    rfl
  | some f =>
    obtain ⟨condition, hcondition, hclauses⟩ := bind_eq_ok_iff.mp h
    cases hclauses
    simp only [Nested.filterText, hcondition, spaced_cons, spaced_nil, List.append_nil]
    rfl

/-! ### What loops run through -/

theorem hopText_eq_text (hop : Hop) (start name : Text) :
    Nested.hopText hop start name = hop.text start name := by
  cases h : hop.namedGraph <;>
    simp [Nested.hopText, Hop.text, DepthRange.text, targetText, h]

/-- The literal of a text that has one is the text between quotation marks. -/
theorem eq_encode_of_textLiteral {s literal : Text} (h : textLiteral s = .ok literal) :
    literal = Quoted.encode s := by
  simp only [textLiteral, quoted?, orFault_eq_ok_iff] at h
  split at h
  · exact (Option.some.inj h).symm
  · cases h

/-- A root that passes its checks is walked as `Nested.rootText` says. -/
theorem eq_rootText_of_rootDomain {limit : Int32} {s : Scope} {walked : Text}
    (h : rootDomain limit s = .ok walked) : walked = Nested.rootText s.source := by
  unfold rootDomain at h
  split at h
  · rename_i hop target start hsource
    obtain ⟨_, _, h⟩ := bind_eq_ok_iff.mp h
    obtain ⟨literal, hliteral, h⟩ := bind_eq_ok_iff.mp h
    cases h
    rw [hsource, eq_encode_of_textLiteral hliteral, Nested.rootText, hopText_eq_text]
  · rename_i name hsource
    obtain ⟨_, _, h⟩ := bind_eq_ok_iff.mp h
    cases h
    rw [hsource, Nested.rootText]

/-- A joined scope that passes its checks is walked from the variable of the scope around it, under
the name of its own source. -/
theorem eq_hopText_of_joinedDomain {limit : Int32} {outer : Text} {hop : Hop} {s : Scope}
    {walked : Text} (h : joinedDomain limit outer hop s = .ok walked) :
    walked = Nested.hopText hop outer s.source.name := by
  obtain ⟨_, _, h⟩ := bind_eq_ok_iff.mp h
  split at h
  · cases h
  · rename_i name hsource
    cases h
    rw [hsource, hopText_eq_text]
    rfl

/-! ### Two passes and one recursion -/

/-- The clauses of a scope around those of what is inside it make up the text of the scope. -/
theorem scopeText_of_headOf {limit : Int32} {index : Nat} {hop : Option Hop} {s : Scope}
    {head : List Clause} (h : headOf limit index hop s = .ok head) (inner : List Clause) :
    ∃ walked t, domain limit index hop s = .ok walked ∧
      Nested.scopeText (ScopeName.ofDepth index) walked s (spaced inner) = .ok t ∧
      spaced (head ++ inner ++ tailOf index s) = utf8 " " ++ t := by
  obtain ⟨walked, prune, filter, hwalked, hprune, hfilter, rfl⟩ := headOf_eq_ok_iff.mp h
  refine ⟨walked, utf8 "FOR " ++ ScopeName.ofDepth index ++ utf8 " IN " ++ walked
    ++ spaced prune ++ spaced filter ++ spaced inner
    ++ Nested.sortText (ScopeName.ofDepth index) s.sorts ++ Nested.limitText s.limit,
    hwalked, ?_, ?_⟩
  · rw [Nested.scopeText, filterText_of_filterClause hprune, filterText_of_filterClause hfilter]
    rfl
  · simp only [spaced_append, spaced_cons, spaced_tailOf, List.cons_append, List.append_assoc]

/-- What the passes down and up a chain write together is the text of its first scope. The clauses
of the inner scopes stand between the head and the tail of the first one because the pass up the
chain reaches that tail last. -/
theorem body_of_headClauses {limit : Int32} (joins : List (Hop × Scope)) :
    ∀ {index : Nat} {hop : Option Hop} {s : Scope} {heads : List Clause},
      headClauses limit index ((hop, s) :: joins.map fun (hop, s) => (some hop, s)) = .ok heads →
      ∃ walked t, domain limit index hop s = .ok walked ∧
        Nested.body index walked s joins = .ok t ∧
        spaced (heads ++ tailClauses index ((hop, s) :: joins.map fun (hop, s) => (some hop, s)))
          = utf8 " " ++ t := by
  induction joins with
  | nil =>
    intro index hop s heads h
    obtain ⟨head, hhead, h⟩ := bind_eq_ok_iff.mp h
    cases h
    obtain ⟨walked, t, hwalked, ht, hspaced⟩ := scopeText_of_headOf hhead []
    refine ⟨walked, t, hwalked, ht, ?_⟩
    simpa [tailClauses] using hspaced
  | cons join rest ih =>
    obtain ⟨nextHop, next⟩ := join
    intro index hop s heads h
    obtain ⟨head, hhead, h⟩ := bind_eq_ok_iff.mp h
    obtain ⟨inner, hinner, h⟩ := bind_eq_ok_iff.mp h
    cases h
    obtain ⟨nextWalked, nextText, hdomain, hbody, hnext⟩ := ih hinner
    -- The hop of the next scope starts at the variable of this one.
    have hstart : nextWalked =
        Nested.hopText nextHop (ScopeName.ofDepth index) next.source.name :=
      eq_hopText_of_joinedDomain hdomain
    subst hstart
    obtain ⟨walked, t, hwalked, ht, hspaced⟩ := scopeText_of_headOf hhead
      (inner ++ tailClauses (index + 1)
        ((some nextHop, next) :: rest.map fun (hop, s) => (some hop, s)))
    refine ⟨walked, t, hwalked, ?_, ?_⟩
    · rw [hnext] at ht
      rw [Nested.body, hbody]
      exact ht
    · rw [← hspaced]
      simp only [List.map_cons, tailClauses, List.append_assoc]

/-- The names of some scopes differ from each other. -/
theorem nodup_scopeNames (n : Nat) : ((List.range n).map ScopeName.ofDepth).Nodup := by
  rw [List.Nodup, List.pairwise_map]
  refine List.nodup_range.imp ?_
  intro i j hne hname
  exact hne (ScopeName.ofDepth_injective hname)

/-- **The two passes write the nested form.** A query that compiles has its nested text as its
compact statement, one loop for every scope of the chain, and no two loops under one name. -/
theorem nestedText_of_compile {o : Options} (compact : o.pretty = false) {q : Query} {s : Statement}
    (h : q.compile o = .ok s) :
    q.nestedText = .ok s.text ∧ s.scopes = q.joins.length + 1 ∧
      ((List.range s.scopes).map ScopeName.ofDepth).Nodup := by
  obtain ⟨clauses, hclauses, h⟩ := bind_eq_ok_iff.mp h
  cases h
  refine ⟨?_, q.scopes_length, nodup_scopeNames _⟩
  obtain ⟨heads, hheads, hclauses⟩ := bind_eq_ok_iff.mp hclauses
  cases hclauses
  obtain ⟨walked, t, hwalked, hbody, hspaced⟩ := body_of_headClauses q.joins hheads
  have hroot : walked = Nested.rootText q.root.source := eq_rootText_of_rootDomain hwalked
  subst hroot
  have hne : heads ++ tailClauses 0 q.scopes ++ [returnClause q.scopes] ≠ [] := by simp
  have htext : layOut o (heads ++ tailClauses 0 q.scopes ++ [returnClause q.scopes]) =
      t ++ spaced [returnClause q.scopes] := by
    refine List.append_cancel_left (?_ : utf8 " " ++ _ = utf8 " " ++ _)
    calc utf8 " " ++ layOut o (heads ++ tailClauses 0 q.scopes ++ [returnClause q.scopes])
        = spaced (heads ++ tailClauses 0 q.scopes ++ [returnClause q.scopes]) :=
          blank_append_layOut compact hne
      _ = spaced (heads ++ tailClauses 0 q.scopes) ++ spaced [returnClause q.scopes] :=
          spaced_append _ _
      _ = utf8 " " ++ t ++ spaced [returnClause q.scopes] := congrArg (· ++ _) hspaced
      _ = utf8 " " ++ (t ++ spaced [returnClause q.scopes]) := List.append_assoc _ _ _
  rw [htext, spaced_returnClause, Query.nestedText, hbody]
  simp only [← List.append_assoc]
  rfl

/-- Adults by name, and what some of them know. -/
def knownToAdults : Query :=
  let adults := Filter.ofComparison
    ((Subject.field (utf8 "age") none).atLeast (.literal (.unsigned 18)))
  (((Query.collection (utf8 "User")).filter adults).sort ⟨utf8 "name", .ascending⟩).join
    ⟨.outbound, ⟨1, 2⟩, false⟩ ((Query.collection (utf8 "knows")).limit ⟨10, some 5⟩).distinct

theorem nestedText_knownToAdults :
    knownToAdults.nestedText = .ok (utf8 ("FOR a IN User FILTER a.age >= 18 "
      ++ "FOR b IN 1..2 OUTBOUND a knows LIMIT 5, 10 SORT a.name ASC RETURN DISTINCT b")) := by
  have hpretty : Options.standard.pretty = false := rfl
  have hnested : ∀ t, knownToAdults.compile Options.standard = .ok ⟨t, 2⟩ →
      knownToAdults.nestedText = .ok t := fun _ h => (nestedText_of_compile hpretty h).1
  exact hnested _ (by decide +kernel)

end GraphQuery
