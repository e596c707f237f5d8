import GraphQuery.Query.Basic

/-!
# Building queries

A query grows by calls that each return a new query. Here the calls are values, so that a whole
sequence of them can be spoken of.

* `Query.add` is the query after one call, `Query.build` the query after a sequence of calls.
-/

namespace GraphQuery

/-- What a caller adds to a query. -/
inductive BuildCall where
  | filter (f : Filter)
  /-- Keeps the results that one comparison holds for. -/
  | filterBy (c : Comparison)
  | prune (f : Filter)
  /-- Walks no further where one comparison holds. -/
  | pruneBy (c : Comparison)
  | sort (key : SortKey)
  | limit (l : Limit)
  | distinct
  | join (hop : Hop) (nested : Query)
  deriving Repr

namespace Query

/-- The query after a call. -/
def add (q : Query) : BuildCall → Query
  | .filter f => q.filter f
  | .filterBy c => q.filter (.ofComparison c)
  | .prune f => q.prune f
  | .pruneBy c => q.prune (.ofComparison c)
  | .sort key => q.sort key
  | .limit l => q.limit l
  | .distinct => q.distinct
  | .join hop nested => q.join hop nested

/-- The query after some calls. -/
def build (q : Query) (calls : List BuildCall) : Query :=
  calls.foldl add q

@[simp] theorem build_nil (q : Query) : q.build [] = q := rfl

@[simp] theorem build_cons (q : Query) (c : BuildCall) (rest : List BuildCall) :
    q.build (c :: rest) = (q.add c).build rest := rfl

end Query

end GraphQuery
