import GraphQuery.Filter

/-!
# Queries

A query is a chain of scopes. The root scope walks over a collection or traverses a graph from a
start vertex; each further scope is joined to the one before it by a hop, a traversal that starts at
the vertices found there. Every scope has clauses of its own.

Queries are values: the functions that add a clause return a new query. A filter, a prune, a limit
and a join replace the one that was there, sort keys accumulate (`Query.filter` to `Query.join`).
-/

namespace GraphQuery

/-! ### Vocabularies -/

/-- The direction in which edges are followed. -/
inductive Direction where
  | outbound
  | inbound
  | any
  deriving DecidableEq, Repr

namespace Direction

/-- The direction as it stands in a statement. -/
def name : Direction → Text
  | .outbound => utf8 "OUTBOUND"
  | .inbound => utf8 "INBOUND"
  | .any => utf8 "ANY"

/-- The directions by their names. -/
def vocabulary : Vocabulary Direction where
  name := name
  all := [.outbound, .inbound, .any]
  mem_all := by intro d; cases d <;> decide
  name_inj := by intro d d'; cases d <;> cases d' <;> simp [name]

/-- The direction of a name. -/
def ofName (s : Text) : Checked Direction :=
  orFault (vocabulary.ofName? s) (.invalidDescriptor (.unknownDirection s))

theorem ofName_eq_ok_iff {s : Text} {d : Direction} : ofName s = .ok d ↔ s = d.name :=
  orFault_eq_ok_iff.trans vocabulary.ofName?_eq_some_iff

@[simp] theorem name_inj {d d' : Direction} : d.name = d'.name ↔ d = d' :=
  vocabulary.name_eq_iff

end Direction

/-- The order in which a key sorts. -/
inductive SortDirection where
  | ascending
  | descending
  deriving DecidableEq, Repr

namespace SortDirection

/-- The order as it stands in a statement. -/
def name : SortDirection → Text
  | .ascending => utf8 "ASC"
  | .descending => utf8 "DESC"

/-- The orders by their names. -/
def vocabulary : Vocabulary SortDirection where
  name := name
  all := [.ascending, .descending]
  mem_all := by intro d; cases d <;> decide
  name_inj := by intro d d'; cases d <;> cases d' <;> simp [name]

/-- The order of a name. -/
def ofName (s : Text) : Checked SortDirection :=
  orFault (vocabulary.ofName? s) (.invalidDescriptor (.unknownSortDirection s))

theorem ofName_eq_ok_iff {s : Text} {d : SortDirection} : ofName s = .ok d ↔ s = d.name :=
  orFault_eq_ok_iff.trans vocabulary.ofName?_eq_some_iff

@[simp] theorem name_inj {d d' : SortDirection} : d.name = d'.name ↔ d = d' :=
  vocabulary.name_eq_iff

end SortDirection

/-! ### Parts of a scope -/

/-- How edges are followed: in which direction, how far, and whether the name followed is that of a
graph or of an edge collection. -/
structure Hop where
  direction : Direction
  depths : DepthRange
  namedGraph : Bool
  deriving DecidableEq, Repr

/-- What a scope walks over. -/
inductive Source where
  /-- The documents of a collection; a joined scope names its edge collection or graph this way
  too. -/
  | collection (name : Text)
  /-- The vertices reached from a start vertex over an edge collection or a graph. -/
  | traversal (hop : Hop) (target start : Text)
  deriving DecidableEq, Repr

namespace Source

/-- The name of the collection, edge collection or graph. -/
def name : Source → Text
  | .collection name => name
  | .traversal _ target _ => target

/-- Whether the source is a traversal with a start vertex of its own. -/
def isTraversal : Source → Bool
  | .traversal _ _ _ => true
  | .collection _ => false

end Source

/-- A field that results are sorted by. -/
structure SortKey where
  field : Text
  direction : SortDirection
  deriving DecidableEq, Repr

/-- How many results are kept, and how many are skipped before them. -/
structure Limit where
  count : UInt32
  skip : Option UInt32
  deriving DecidableEq, Repr

/-- One loop of a statement with its clauses. -/
structure Scope where
  source : Source
  prune : Option Filter
  filter : Option Filter
  sorts : List SortKey
  limit : Option Limit
  distinct : Bool
  deriving Repr

/-- The scope of a source without any clause. -/
def Scope.ofSource (source : Source) : Scope where
  source := source
  prune := none
  filter := none
  sorts := []
  limit := none
  distinct := false

/-- A chain of scopes: the root, then each joined scope with the hop that leads to it. -/
structure Query where
  root : Scope
  joins : List (Hop × Scope)
  deriving Repr

namespace Query

/-! ### Building -/

/-- A query over a collection. -/
def collection (name : Text) : Query :=
  ⟨.ofSource (.collection name), []⟩

/-- A traversal from a start vertex. -/
def traversal (hop : Hop) (target start : Text) : Query :=
  ⟨.ofSource (.traversal hop target start), []⟩

/-- Sets the filter of the root scope. -/
def filter (q : Query) (f : Filter) : Query :=
  { q with root := { q.root with filter := some f } }

/-- Sets the prune of the root scope. -/
def prune (q : Query) (f : Filter) : Query :=
  { q with root := { q.root with prune := some f } }

/-- Adds a sort key to the root scope. -/
def sort (q : Query) (key : SortKey) : Query :=
  { q with root := { q.root with sorts := q.root.sorts ++ [key] } }

/-- Sets the limit of the root scope. -/
def limit (q : Query) (l : Limit) : Query :=
  { q with root := { q.root with limit := some l } }

/-- Asks for distinct results. -/
def distinct (q : Query) : Query :=
  { q with root := { q.root with distinct := true } }

/-- Joins a query to the root scope by a hop, in place of what was joined to it before. -/
def join (q : Query) (hop : Hop) (nested : Query) : Query :=
  { q with joins := (hop, nested.root) :: nested.joins }

/-! ### Views -/

/-- The scopes from the root on, each with the hop that leads to it. -/
def scopes (q : Query) : List (Option Hop × Scope) :=
  (none, q.root) :: q.joins.map fun (hop, scope) => (some hop, scope)

/-- The name of the root's source. -/
def name (q : Query) : Text :=
  q.root.source.name

/-- What is joined to the root: the hop and the query that starts there. -/
def joined? (q : Query) : Option (Hop × Query) :=
  match q.joins with
  | [] => none
  | (hop, scope) :: rest => some (hop, ⟨scope, rest⟩)

@[simp] theorem scopes_length (q : Query) : q.scopes.length = q.joins.length + 1 := by
  simp [scopes]

@[simp] theorem joined?_join (q nested : Query) (hop : Hop) :
    (q.join hop nested).joined? = some (hop, nested) := rfl

end Query

end GraphQuery
