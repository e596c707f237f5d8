import GraphQuery.Query.Basic
import GraphQuery.ScopeName

/-!
# Clauses

A query is compiled to one AQL statement: a loop for each scope, each inside the one before, and one
`RETURN` in the innermost. This module makes the statement as a list of clauses, each with the count
of loops it stands in.

Going down the chain each scope opens its loop, prunes and filters (`headClauses`); coming back up
each scope sorts and limits (`tailClauses`). Errors come from the way down alone, so the fault of
the outermost faulty scope is the one reported.

* `Query.clauses` are the clauses of a query, or the first fault.
-/

namespace GraphQuery

/-- One clause of a statement, and how many loops it stands in. -/
structure Clause where
  depth : Nat
  text : Text
  deriving DecidableEq, Repr

/-! ### Depths -/

/-- Checks a depth range: no bound is negative, the least is not above the greatest, and the
greatest is not above a limit that is set. -/
def DepthRange.check (limit : Int32) (place : DepthPlace) (r : DepthRange) : Checked Unit :=
  if r.least < 0 ∨ r.greatest < 0 then .error (.invalidDepth (.negative r place))
  else if r.greatest < r.least then .error (.invalidDepth (.reversed r place))
  else if 0 < limit ∧ limit < r.greatest then
    .error (.invalidDepth (.aboveLimit r.greatest limit place))
  else .ok ()

/-! ### Openings -/

/-- A name after the word that announces a graph, where it is one. -/
def targetText (namedGraph : Bool) (name : Text) : Text :=
  if namedGraph then utf8 "GRAPH " ++ name else name

/-- What a loop over a hop runs through, given the text of its start. -/
def Hop.text (hop : Hop) (start target : Text) : Text :=
  hop.depths.text ++ utf8 " " ++ hop.direction.name ++ utf8 " " ++ start ++ utf8 " "
    ++ targetText hop.namedGraph target

/-- What the loop of a root scope runs through. A collection cannot be pruned. -/
def rootDomain (limit : Int32) (s : Scope) : Checked Text :=
  match s.source with
  | .traversal hop target start => do
    hop.depths.check limit (.traversal target)
    let startLiteral ← textLiteral start
    pure (hop.text startLiteral target)
  | .collection name => do
    require s.prune.isNone (.invalidPrune name)
    pure name

/-- What the loop of a joined scope runs through, given the variable of the scope before it. A
source with a start of its own cannot be joined. -/
def joinedDomain (limit : Int32) (outer : Text) (hop : Hop) (s : Scope) : Checked Text := do
  hop.depths.check limit (.join s.source.name)
  match s.source with
  | .traversal _ target start => .error (.invalidDescriptor (.joinIntoTraversal target start))
  | .collection name => pure (hop.text outer name)

/-- What the loop of the scope at an index runs through. -/
def domain (limit : Int32) (index : Nat) (hop : Option Hop) (s : Scope) : Checked Text :=
  match hop with
  | none => rootDomain limit s
  | some hop => joinedDomain limit (ScopeName.ofDepth (index - 1)) hop s

/-! ### Clauses -/

/-- The clause of a filter under a keyword, where there is one. -/
def filterClause (keyword : String) (index : Nat) : Option Filter → Checked (List Clause)
  | none => .ok []
  | some f => do
    let text ← f.render (ScopeName.ofDepth index)
    pure [⟨index + 1, utf8 keyword ++ text⟩]

/-- The clauses of a scope before the loops inside it. -/
def headOf (limit : Int32) (index : Nat) (hop : Option Hop) (s : Scope) :
    Checked (List Clause) := do
  let walked ← domain limit index hop s
  let prune ← filterClause "PRUNE " index s.prune
  let filter ← filterClause "FILTER " index s.filter
  let loop : Clause := ⟨index, utf8 "FOR " ++ ScopeName.ofDepth index ++ utf8 " IN " ++ walked⟩
  pure (loop :: (prune ++ filter))

/-- The clauses before the loops inside a scope are its loop, its prune and its filter, and there
are such clauses when all three have a text. -/
theorem headOf_eq_ok_iff {limit : Int32} {index : Nat} {hop : Option Hop} {s : Scope}
    {head : List Clause} :
    headOf limit index hop s = .ok head ↔
      ∃ walked prune filter, domain limit index hop s = .ok walked ∧
        filterClause "PRUNE " index s.prune = .ok prune ∧
        filterClause "FILTER " index s.filter = .ok filter ∧
        head = ⟨index, utf8 "FOR " ++ ScopeName.ofDepth index ++ utf8 " IN " ++ walked⟩
          :: (prune ++ filter) := by
  simp only [headOf, bind_eq_ok_iff, pure_eq_ok_iff, exists_and_left, eq_comm (a := head)]

/-- A sort key of a scope. -/
def SortKey.text (variableName : Text) (key : SortKey) : Text :=
  Operand.qualified variableName key.field ++ utf8 " " ++ key.direction.name

/-- The clause of the sort keys, where there are any. -/
def sortClause (index : Nat) (sorts : List SortKey) : List Clause :=
  if sorts.isEmpty then []
  else
    [⟨index + 1, utf8 "SORT "
      ++ Text.joinWith (utf8 ", ") (sorts.map (SortKey.text (ScopeName.ofDepth index)))⟩]

/-- A limit, the skipped results first. -/
def Limit.text (l : Limit) : Text :=
  match l.skip with
  | none => decimal l.count.toNat
  | some skip => decimal skip.toNat ++ utf8 ", " ++ decimal l.count.toNat

/-- The clause of a limit, where there is one. -/
def limitClause (index : Nat) : Option Limit → List Clause
  | none => []
  | some l => [⟨index + 1, utf8 "LIMIT " ++ l.text⟩]

/-- The clauses of a scope after the loops inside it. -/
def tailOf (index : Nat) (s : Scope) : List Clause :=
  sortClause index s.sorts ++ limitClause index s.limit

/-- The clauses on the way down a chain whose first scope has an index. -/
def headClauses (limit : Int32) : Nat → List (Option Hop × Scope) → Checked (List Clause)
  | _, [] => .ok []
  | index, (hop, s) :: rest => do
    let here ← headOf limit index hop s
    let inner ← headClauses limit (index + 1) rest
    pure (here ++ inner)

/-- The clauses on the way back up a chain whose first scope has an index. -/
def tailClauses : Nat → List (Option Hop × Scope) → List Clause
  | _, [] => []
  | index, (_, s) :: rest => tailClauses (index + 1) rest ++ tailOf index s

/-- The clause that returns the variable of the innermost of some scopes. -/
def returnClause (scopes : List (Option Hop × Scope)) : Clause :=
  ⟨scopes.length,
    utf8 "RETURN " ++ (if scopes.any fun (_, s) => s.distinct then utf8 "DISTINCT " else [])
      ++ ScopeName.ofDepth (scopes.length - 1)⟩

/-- The clauses of a query in the order of its statement. -/
def Query.clauses (limit : Int32) (q : Query) : Checked (List Clause) := do
  let heads ← headClauses limit 0 q.scopes
  pure (heads ++ tailClauses 0 q.scopes ++ [returnClause q.scopes])

end GraphQuery
