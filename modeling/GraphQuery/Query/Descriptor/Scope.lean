import GraphQuery.Query.Descriptor.Source

/-!
# Descriptors of scopes

The JSON form of one scope, its join apart. Decoding goes through a scope in a fixed order (source,
filter, prune, sort, limit, distinct) and stops at the first fault. Members that no rule asks for
are not looked at.

* `SortKey.toJson` and `Limit.toJson` are the descriptors of two clauses.
* `Scope.members` and `Scope.ofJson` are the descriptor of a scope.
-/

namespace GraphQuery

/-! ### Clauses -/

namespace SortKey

/-- The descriptor of a sort key. -/
def toJson (key : SortKey) : Value :=
  .ofMembers [(utf8 "field", .string key.field), (utf8 "direction", .string key.direction.name)]

/-- The sort key of a descriptor, ascending where nothing else is said. -/
def ofJson (j : Value) : Decoded SortKey := do
  let field ← orFault (j.textAt? (utf8 "field")) .json
  let name ← orFault (j.textOr? (utf8 "direction") SortDirection.ascending.name) .json
  let direction ← (SortDirection.ofName name).asDecoded
  pure ⟨field, direction⟩

/-- The sort keys of some descriptors. -/
def ofJsonList : List Value → Decoded (List SortKey)
  | [] => .ok []
  | j :: rest => do
    let key ← ofJson j
    let keys ← ofJsonList rest
    pure (key :: keys)

end SortKey

namespace Limit

/-- The count that a value holds: a whole number held unsigned that fits 32 bits. -/
def countOf? : Value → Option UInt32
  | .unsigned n => if n.toNat < UInt32.size then some n.toUInt32 else none
  | _ => none

/-- The count of a member. -/
def decodeCount (member : String) (v : Value) : Checked UInt32 :=
  orFault (countOf? v) (.invalidDescriptor (.notACount member))

/-- The JSON number of a count. -/
def countJson (n : UInt32) : Value :=
  .unsigned n.toUInt64

/-- The member that describes how many results are skipped. -/
def skipMember : Option UInt32 → List (Text × Value)
  | none => []
  | some n => [(utf8 "skip", countJson n)]

/-- The descriptor of a limit. -/
def toJson (l : Limit) : Value :=
  .ofMembers ((utf8 "count", countJson l.count) :: skipMember l.skip)

/-- The count of results to skip, where a descriptor has one. -/
def decodeSkip (j : Value) : Checked (Option UInt32) :=
  match j.get? (utf8 "skip") with
  | none => .ok none
  | some v => do
    let n ← decodeCount "skip" v
    pure (some n)

/-- The limit of a descriptor. -/
def ofJson (j : Value) : Decoded Limit := do
  let countValue ← orFault (j.get? (utf8 "count")) .json
  let count ← (decodeCount "count" countValue).asDecoded
  let skip ← (decodeSkip j).asDecoded
  pure ⟨count, skip⟩

end Limit

/-! ### Scopes -/

namespace Scope

/-- The member of a filter that may be missing. -/
def filterMember (key : Text) : Option Filter → List (Text × Value)
  | none => []
  | some f => [(key, f.toJson)]

/-- The member of the sort keys, where there are any. -/
def sortMember (sorts : List SortKey) : List (Text × Value) :=
  if sorts.isEmpty then [] else [(utf8 "sort", .array (sorts.map SortKey.toJson))]

/-- The member of a limit that may be missing. -/
def limitMember : Option Limit → List (Text × Value)
  | none => []
  | some l => [(utf8 "limit", l.toJson)]

/-- The members that describe a scope, its join apart. -/
def members (s : Scope) : List (Text × Value) :=
  s.source.members
    ++ filterMember (utf8 "filter") s.filter
    ++ filterMember (utf8 "prune") s.prune
    ++ sortMember s.sorts
    ++ limitMember s.limit
    ++ (if s.distinct then [(utf8 "distinct", .bool true)] else [])

/-- A part of a descriptor that may be missing. -/
def decodeOptional {ε α : Type} (decode : Value → Except ε α) : Option Value → Except ε (Option α)
  | none => .ok none
  | some v => do
    let a ← decode v
    pure (some a)

/-- The sort keys of a descriptor. The keys are the values that a walk over the member visits, so it
need not be an array. -/
def decodeSorts : Option Value → Decoded (List SortKey)
  | none => .ok []
  | some v => SortKey.ofJsonList v.items

/-- The scope of a descriptor, its join apart. -/
def ofJson (j : Value) : Decoded Scope := do
  let source ← Source.ofJson j
  let filter ← Checked.asDecoded (decodeOptional Filter.ofJson (j.get? (utf8 "filter")))
  let prune ← Checked.asDecoded (decodeOptional Filter.ofJson (j.get? (utf8 "prune")))
  let sorts ← decodeSorts (j.get? (utf8 "sort"))
  let limit ← decodeOptional Limit.ofJson (j.get? (utf8 "limit"))
  let distinct ← orFault (j.flagOr? (utf8 "distinct") false) .json
  pure ⟨source, prune, filter, sorts, limit, distinct⟩

end Scope

end GraphQuery
