import GraphQuery.Query.Basic

/-!
# Descriptors of sources

The JSON form of what a scope walks over, and of the hops of traversals and joins. The depths of a
hop are decoded before its other members, and a bound that is no depth is shown in the error. To be
shown it has to be written as JSON, and that fails where some text in it is not UTF-8.

* `Hop.members` and `Hop.ofJson` are the descriptor of a hop.
* `Source.members` and `Source.ofJson` are the descriptor of a source.
-/

namespace GraphQuery

/-! ### Depths -/

namespace DepthRange

/-- The depth that a value holds: a whole number from zero to the largest depth. -/
def depthOf? : Value → Option Int32
  | .unsigned n =>
    if n.toNat ≤ Int32.maxValue.toInt.toNat then some (Int32.ofNat n.toNat) else none
  | .signed n =>
    if 0 ≤ n.toInt ∧ n.toInt ≤ Int32.maxValue.toInt then some (Int32.ofInt n.toInt) else none
  | _ => none

/-- The depth of a bound. Any other value is written into the error, if it has a JSON text. -/
def decodeBound (member : String) (v : Value) : Decoded Int32 :=
  match depthOf? v with
  | some n => .ok n
  | none => do
    let shown ← orFault v.compact? .json
    .error (.query (.invalidDepth (.notADepth member shown)))

/-- The depth range of a traversal or a join. -/
def ofJson (j : Value) : Decoded DepthRange := do
  let leastJson ← orFault (j.get? (utf8 "min_depth")) (.query (.invalidDepth .missing))
  let greatestJson ← orFault (j.get? (utf8 "max_depth")) (.query (.invalidDepth .missing))
  let least ← decodeBound "min_depth" leastJson
  let greatest ← decodeBound "max_depth" greatestJson
  pure ⟨least, greatest⟩

/-- The JSON number of a depth. -/
def boundJson (n : Int32) : Value :=
  .signed n.toInt64

end DepthRange

/-! ### Hops -/

namespace Hop

/-- The members that describe a hop. -/
def members (hop : Hop) : List (Text × Value) :=
  [(utf8 "direction", .string hop.direction.name),
    (utf8 "min_depth", DepthRange.boundJson hop.depths.least),
    (utf8 "max_depth", DepthRange.boundJson hop.depths.greatest),
    (utf8 "named_graph", .bool hop.namedGraph)]

/-- The hop of a traversal or a join; the depths are decoded before anything else. -/
def ofJson (j : Value) : Decoded Hop := do
  let depths ← DepthRange.ofJson j
  let directionName ← orFault (j.textAt? (utf8 "direction")) .json
  let direction ← (Direction.ofName directionName).asDecoded
  let namedGraph ← orFault (j.flagOr? (utf8 "named_graph") false) .json
  pure ⟨direction, depths, namedGraph⟩

end Hop

/-! ### Sources -/

namespace Source

/-- The members that describe a source. -/
def members : Source → List (Text × Value)
  | .collection name => [(utf8 "collection", .string name)]
  | .traversal hop target start =>
    [(utf8 "traversal", .ofMembers (hop.members ++
      [(utf8 "target", .string target), (utf8 "start_vertex", .string start)]))]

/-- The source of a traversal's descriptor. -/
def ofTraversalJson (j : Value) : Decoded Source := do
  let hop ← Hop.ofJson j
  let target ← orFault (j.textAt? (utf8 "target")) .json
  let start ← orFault (j.textAt? (utf8 "start_vertex")) .json
  pure (.traversal hop target start)

/-- The source of a collection's name. -/
def ofCollectionJson (j : Value) : Decoded Source := do
  let name ← orFault j.text? .json
  pure (.collection name)

/-- The source of a descriptor. A traversal wins over a collection. -/
def ofJson (j : Value) : Decoded Source :=
  match j.get? (utf8 "traversal"), j.get? (utf8 "collection") with
  | some t, _ => ofTraversalJson t
  | none, some c => ofCollectionJson c
  | none, none => .error (.query (.invalidDescriptor .sourceMissing))

end Source

end GraphQuery
