import GraphQuery.Query.Descriptor.Scope

/-!
# Descriptors of queries

A descriptor is the JSON form of a query: that of its root scope, and in it, under the join, that of
what follows. A join chain of more than `maxNesting` scopes is refused before anything below that
depth is looked at.

* `Query.toJson` writes the descriptor of a query.
* `Query.ofJson` decodes one.
-/

namespace GraphQuery

namespace Query

/-- The member that describes a join into a query of a descriptor. -/
def joinMember (hop : Hop) (nested : Value) : Text × Value :=
  (utf8 "join", .ofMembers (hop.members ++ [(utf8 "query", nested)]))

/-- The descriptor of a chain that begins with a scope. -/
def chainJson (root : Scope) : List (Hop × Scope) → Value
  | [] => .ofMembers root.members
  | (hop, scope) :: rest => .ofMembers (root.members ++ [joinMember hop (chainJson scope rest)])

/-- The descriptor of a query. -/
def toJson (q : Query) : Value :=
  chainJson q.root q.joins

/-- The error of a descriptor whose members are missing or of the wrong type. -/
def jsonFault : QueryError :=
  .invalidDescriptor .queryJson

section Nested

/-! What is joined is decoded by `decodeNested`, which catches the exceptions of its own. -/

variable (decodeNested : Value → Checked Query)

/-- The joined scopes of a descriptor that may have a join. -/
def decodeJoin : Option Value → Decoded (List (Hop × Scope))
  | none => .ok []
  | some j => do
    let hop ← Hop.ofJson j
    let nestedJson ← orFault (j.get? (utf8 "query")) .json
    let nested ← (decodeNested nestedJson).asDecoded
    pure ((hop, nested.root) :: nested.joins)

/-- The query that the members of a descriptor stand for. -/
def decodeMembers (j : Value) : Decoded Query := do
  let root ← Scope.ofJson j
  let joins ← decodeJoin decodeNested (j.get? (utf8 "join"))
  pure ⟨root, joins⟩

end Nested

/-- The query of a descriptor with at most some scopes. -/
def decodeWithin : Nat → Value → Checked Query
  | 0, _ => .error (.invalidDescriptor .chainTooLong)
  | scopes + 1, j => do
    require j.isObject (.invalidDescriptor .queryNotObject)
    (decodeMembers (decodeWithin scopes) j).catching jsonFault

/-- The query of a descriptor. -/
def ofJson (j : Value) : Checked Query :=
  decodeWithin maxNesting j

end Query

end GraphQuery
