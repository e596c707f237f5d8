import GraphQuery.Query.Descriptor.Chain

/-!
# What decoders accept

A decoder is a sequence of accesses and checks that stops at the first fault. Each theorem of this
module says for one decoder, in terms of the members of the descriptor, when it succeeds and with
which result; nothing that comes later has to open a decoder again.

Neither the order in which faults are found nor whether they are caught shows in these statements,
as they are about successes alone. What does show is which members win over others: a field over a value in an operand, a
statement over a field in a comparison, a group over a comparison in a filter and a traversal over a
collection in a query.
-/

namespace GraphQuery

/-! ### Operands and comparisons -/

theorem Operand.ofJson_eq_ok_iff {j : Value} {o : Operand} :
    Operand.ofJson j = .ok o ↔
      (∃ path, j.get? (utf8 "field") = some (.string path) ∧ o = .field path) ∨
        j.get? (utf8 "field") = none ∧
          ∃ v, j.get? (utf8 "value") = some v ∧ v.depth ≤ maxNesting ∧ o = .literal v := by
  unfold Operand.ofJson
  cases hobject : j.isObject with
  | false =>
    have hnone : ∀ key, j.get? key = none := fun key => by
      cases h : j.get? key with
      | none => rfl
      | some w => rw [Value.isObject_of_get? h] at hobject; cases hobject
    simp [hnone]
  | true =>
    cases hfield : j.get? (utf8 "field") with
    | some reference =>
      cases reference <;> simp [Operand.ofFieldJson, eq_comm]
    | none =>
      cases hvalue : j.get? (utf8 "value") with
      | none => simp
      | some v =>
        by_cases hdepth : v.depth ≤ maxNesting <;>
          simp [Operand.ofValueJson, hdepth, eq_comm]

namespace Comparison

theorem decodeQuantifier_eq_ok_iff {j : Value} {q : Option Quantifier} :
    decodeQuantifier j = .ok q ↔
      j.isObject = true ∧
        (j.get? (utf8 "quantifier") = none ∧ q = none ∨
          j.get? (utf8 "quantifier") = some (.string (Quantifier.nameOrEmpty q))) := by
  have hnone : Quantifier.nameOrEmpty q = [] ↔ q = none := by
    rcases q with _ | (_ | _ | _) <;> decide
  simp only [decodeQuantifier, bind_eq_ok_iff, orFault_eq_ok_iff, asDecoded_eq_ok_iff,
    Quantifier.ofName_eq_ok_iff, exists_eq_right, Value.textOr?_eq_some_iff, hnone]

theorem decodeSubject_eq_ok_iff {j : Value} {s : Subject} :
    decodeSubject j = .ok s ↔
      (∃ expression, j.get? (utf8 "statement") = some (.string expression) ∧
        decodeQuantifier j = .ok none ∧ s = .statement expression) ∨
      j.get? (utf8 "statement") = none ∧
        ∃ name q, j.get? (utf8 "field") = some (.string name) ∧
          decodeQuantifier j = .ok q ∧ s = .field name q := by
  unfold decodeSubject
  cases hstatement : j.get? (utf8 "statement") with
  | some statement =>
    simp only [bind_eq_ok_iff, orFault_eq_ok_iff, Value.text?_eq_some_iff, pure_eq_ok_iff,
      Option.some.injEq, reduceCtorEq, false_and, or_false]
    constructor
    · intro h
      obtain ⟨expression, rfl, q, hq, _, hnone, rfl⟩ := h
      rw [require_eq_ok_iff, Option.isNone_iff_eq_none] at hnone
      exact ⟨expression, rfl, hnone ▸ hq, rfl⟩
    · intro h
      obtain ⟨expression, rfl, hq, rfl⟩ := h
      exact ⟨expression, rfl, none, hq, (), rfl, rfl⟩
  | none =>
    cases hfield : j.get? (utf8 "field") with
    | none => simp
    | some field =>
      simp only [bind_eq_ok_iff, orFault_eq_ok_iff, Value.text?_eq_some_iff, pure_eq_ok_iff,
        Option.some.injEq, reduceCtorEq, false_and, exists_false, false_or, true_and,
        exists_and_left, eq_comm (a := s)]

theorem ofJson_eq_ok_iff {j : Value} {c : Comparison} :
    ofJson j = .ok c ↔
      decodeSubject j = .ok c.subject ∧
        j.get? (utf8 "operator") = some (.string c.operator.name) ∧
        ∃ w, j.get? (utf8 "operand") = some w ∧ Operand.ofJson w = .ok c.operand := by
  obtain ⟨subject, operator, operand⟩ := c
  simp only [ofJson, decodeMembers, bind_eq_ok_iff, catching_eq_ok_iff, asDecoded_eq_ok_iff,
    orFault_eq_ok_iff, Value.textAt?_eq_some_iff, Operator.ofName_eq_ok_iff, pure_eq_ok_iff,
    Comparison.mk.injEq]
  constructor
  · intro h
    obtain ⟨_, _, s, hs, _, hop, _, rfl, w, hw, o, ho, rfl, rfl, rfl⟩ := h
    exact ⟨hs, hop, w, hw, ho⟩
  · intro h
    obtain ⟨hs, hop, w, hw, ho⟩ := h
    exact ⟨(), require_eq_ok_iff.mpr (Value.isObject_of_get? hw), subject, hs, operator.name, hop,
      operator, rfl, w, hw, operand, ho, rfl, rfl, rfl⟩

end Comparison

/-! ### Filters -/

namespace Filter

theorem terms?_eq_some_iff {j : Value} {ts : List Value} :
    terms? j = some ts ↔ j.get? (utf8 "terms") = some (.array ts) := by
  unfold terms?
  split
  · rename_i ts' h
    simp [h]
  · rename_i hnot
    constructor
    · intro h
      cases h
    · intro h
      exact absurd h (hnot ts)

theorem decodeConnective_eq_ok_iff {before : Filter} {j : Value} {op : Option Connective} :
    decodeConnective before j = .ok op ↔
      before.isEmpty = true ∧ op = none ∨
        before.isEmpty = false ∧ ∃ name c, j.get? (utf8 "op") = some (.string name) ∧
          Connective.ofName name = .ok c ∧ op = some c := by
  cases hbefore : before.isEmpty with
  | true => simp [decodeConnective, hbefore, eq_comm]
  | false =>
    simp only [decodeConnective, hbefore, Bool.false_eq_true, if_false, bind_eq_ok_iff,
      orFault_eq_ok_iff, Value.textAt?_eq_some_iff, pure_eq_ok_iff, false_and, false_or, true_and,
      exists_and_left, eq_comm (a := op)]

theorem decodeTerm_eq_ok_iff {decodeGroup : Value → Checked Filter} {j : Value} {t : Term} :
    decodeTerm decodeGroup j = .ok t ↔
      (∃ w inner, j.get? (utf8 "filter") = some w ∧ decodeGroup w = .ok inner ∧
        t = .group inner) ∨
      j.get? (utf8 "filter") = none ∧
        ∃ w c, j.get? (utf8 "comparison") = some w ∧ Comparison.ofJson w = .ok c ∧
          t = .comparison c := by
  unfold decodeTerm
  cases hfilter : j.get? (utf8 "filter") with
  | some w => simp [map_eq_ok_iff, eq_comm (a := t)]
  | none =>
    cases hcomparison : j.get? (utf8 "comparison") with
    | none => simp
    | some w => simp [map_eq_ok_iff, eq_comm (a := t)]

theorem decodeEntry_eq_ok_iff {decodeGroup : Value → Checked Filter} {before f : Filter}
    {j : Value} :
    decodeEntry decodeGroup before j = .ok f ↔
      ∃ op t, decodeConnective before j = .ok op ∧ decodeTerm decodeGroup j = .ok t ∧
        f = before.push op t := by
  simp only [decodeEntry, bind_eq_ok_iff, pure_eq_ok_iff]
  constructor
  · intro h
    obtain ⟨_, _, op, hop, t, ht, rfl⟩ := h
    exact ⟨op, t, hop, ht, rfl⟩
  · intro h
    obtain ⟨op, t, hop, ht, rfl⟩ := h
    have hobject : j.isObject = true := by
      rcases decodeTerm_eq_ok_iff.mp ht with ⟨_, _, hw, _⟩ | ⟨_, _, _, hw, _⟩ <;>
        exact Value.isObject_of_get? hw
    exact ⟨(), require_eq_ok_iff.mpr hobject, op, hop, t, ht, rfl⟩

/-- Entries are decoded one after the other. -/
theorem decodeEntries_append_eq_ok_iff {decodeGroup : Value → Checked Filter} {before f : Filter}
    {ts us : List Value} :
    decodeEntries decodeGroup before (ts ++ us) = .ok f ↔
      ∃ g, decodeEntries decodeGroup before ts = .ok g ∧
        decodeEntries decodeGroup g us = .ok f := by
  induction ts generalizing before with
  | nil => simp [decodeEntries]
  | cons t ts ih =>
    simp only [List.cons_append, decodeEntries, bind_eq_ok_iff, ih]
    constructor
    · intro h
      obtain ⟨g, hg, g', hg', h⟩ := h
      exact ⟨g', ⟨g, hg, hg'⟩, h⟩
    · intro h
      obtain ⟨g', ⟨g, hg, hg'⟩, h⟩ := h
      exact ⟨g, hg, g', hg', h⟩

theorem decodeEntries_singleton {decodeGroup : Value → Checked Filter} {before : Filter}
    {j : Value} :
    decodeEntries decodeGroup before [j] = decodeEntry decodeGroup before j := by
  cases h : decodeEntry decodeGroup before j <;> simp [decodeEntries, h, bind, Except.bind]

theorem decodeWithin_succ_eq_ok_iff {levels : Nat} {j : Value} {f : Filter} :
    decodeWithin (levels + 1) j = .ok f ↔
      ∃ ts, j.get? (utf8 "terms") = some (.array ts) ∧
        decodeEntries (decodeWithin levels) .empty ts = .ok f := by
  simp only [decodeWithin, bind_eq_ok_iff, orFault_eq_ok_iff, terms?_eq_some_iff]

end Filter

/-! ### Sources -/

/-- The value is a whole number, held signed or unsigned. -/
def Value.IsWhole (v : Value) (n : Int) : Prop :=
  match v with
  | .signed m => m.toInt = n
  | .unsigned m => (m.toNat : Int) = n
  | _ => False

namespace DepthRange

theorem depthOf?_eq_some_iff {v : Value} {n : Int32} :
    depthOf? v = some n ↔ 0 ≤ n.toInt ∧ v.IsWhole n.toInt := by
  have hmax : Int32.maxValue.toInt = 2147483647 := rfl
  have hbound : n.toInt ≤ 2147483647 := n.toInt_le
  cases v with
  | unsigned m =>
    simp only [depthOf?, Value.IsWhole, hmax]
    split
    · rename_i h
      have hofNat : (Int32.ofNat m.toNat).toInt = m.toNat := Int32.toInt_ofNat_of_lt (by omega)
      rw [Option.some.injEq, ← Int32.toInt_inj, hofNat]
      omega
    · simp only [reduceCtorEq, false_iff]
      omega
  | signed m =>
    simp only [depthOf?, Value.IsWhole, hmax]
    split
    · rename_i h
      have hofInt : (Int32.ofInt m.toInt).toInt = m.toInt :=
        Int32.toInt_ofInt_of_le (by omega) (by omega)
      rw [Option.some.injEq, ← Int32.toInt_inj, hofInt]
      omega
    · simp only [reduceCtorEq, false_iff]
      omega
  | _ => simp [depthOf?, Value.IsWhole]

theorem decodeBound_eq_ok_iff {member : String} {v : Value} {n : Int32} :
    decodeBound member v = .ok n ↔ depthOf? v = some n := by
  unfold decodeBound
  cases hdepth : depthOf? v with
  | some m => simp
  | none => simp [bind_eq_ok_iff]

theorem ofJson_eq_ok_iff {j : Value} {r : DepthRange} :
    ofJson j = .ok r ↔
      (∃ v, j.get? (utf8 "min_depth") = some v ∧ depthOf? v = some r.least) ∧
        ∃ v, j.get? (utf8 "max_depth") = some v ∧ depthOf? v = some r.greatest := by
  obtain ⟨least, greatest⟩ := r
  simp only [ofJson, bind_eq_ok_iff, orFault_eq_ok_iff, decodeBound_eq_ok_iff, pure_eq_ok_iff,
    DepthRange.mk.injEq]
  constructor
  · intro h
    obtain ⟨v, hv, w, hw, n, hn, m, hm, rfl, rfl⟩ := h
    exact ⟨⟨v, hv, hn⟩, w, hw, hm⟩
  · intro h
    obtain ⟨⟨v, hv, hn⟩, w, hw, hm⟩ := h
    exact ⟨v, hv, w, hw, least, hn, greatest, hm, rfl, rfl⟩

end DepthRange

theorem Hop.ofJson_eq_ok_iff {j : Value} {hop : Hop} :
    Hop.ofJson j = .ok hop ↔
      DepthRange.ofJson j = .ok hop.depths ∧
        j.get? (utf8 "direction") = some (.string hop.direction.name) ∧
        (j.get? (utf8 "named_graph") = none ∧ hop.namedGraph = false ∨
          j.get? (utf8 "named_graph") = some (.bool hop.namedGraph)) := by
  obtain ⟨direction, depths, namedGraph⟩ := hop
  simp only [Hop.ofJson, bind_eq_ok_iff, orFault_eq_ok_iff, asDecoded_eq_ok_iff,
    Value.textAt?_eq_some_iff, Direction.ofName_eq_ok_iff, Value.flagOr?_eq_some_iff,
    pure_eq_ok_iff, Hop.mk.injEq]
  constructor
  · intro h
    obtain ⟨r, hr, _, hd, d, rfl, b, ⟨_, hb⟩, rfl, rfl, rfl⟩ := h
    exact ⟨hr, hd, hb⟩
  · intro h
    obtain ⟨hr, hd, hb⟩ := h
    exact ⟨depths, hr, direction.name, hd, direction, rfl, namedGraph,
      ⟨Value.isObject_of_get? hd, hb⟩, rfl, rfl, rfl⟩

namespace Source

theorem ofTraversalJson_eq_ok_iff {j : Value} {s : Source} :
    ofTraversalJson j = .ok s ↔
      ∃ hop target start, Hop.ofJson j = .ok hop ∧
        j.get? (utf8 "target") = some (.string target) ∧
        j.get? (utf8 "start_vertex") = some (.string start) ∧ s = .traversal hop target start := by
  simp only [ofTraversalJson, bind_eq_ok_iff, orFault_eq_ok_iff, Value.textAt?_eq_some_iff,
    pure_eq_ok_iff, exists_and_left, eq_comm (a := s)]

theorem ofJson_eq_ok_iff {j : Value} {s : Source} :
    ofJson j = .ok s ↔
      (∃ t, j.get? (utf8 "traversal") = some t ∧ ofTraversalJson t = .ok s) ∨
        j.get? (utf8 "traversal") = none ∧
          ∃ name, j.get? (utf8 "collection") = some (.string name) ∧ s = .collection name := by
  unfold ofJson
  cases htraversal : j.get? (utf8 "traversal") with
  | some t => simp
  | none =>
    cases hcollection : j.get? (utf8 "collection") with
    | none => simp
    | some c =>
      simp only [ofCollectionJson, bind_eq_ok_iff, orFault_eq_ok_iff, Value.text?_eq_some_iff,
        pure_eq_ok_iff, Option.some.injEq, reduceCtorEq, false_and, exists_false, false_or,
        true_and, eq_comm (a := s)]

/-- Only an object has a source. -/
theorem isObject_of_ofJson {j : Value} {s : Source} (h : ofJson j = .ok s) : j.isObject = true := by
  rcases ofJson_eq_ok_iff.mp h with ⟨_, ht, _⟩ | ⟨_, _, hc, _⟩
  · exact Value.isObject_of_get? ht
  · exact Value.isObject_of_get? hc

end Source

/-! ### Scopes -/

namespace SortKey

theorem ofJson_eq_ok_iff {j : Value} {key : SortKey} :
    ofJson j = .ok key ↔
      j.get? (utf8 "field") = some (.string key.field) ∧
        (j.get? (utf8 "direction") = none ∧ key.direction = .ascending ∨
          j.get? (utf8 "direction") = some (.string key.direction.name)) := by
  obtain ⟨field, direction⟩ := key
  simp only [ofJson, bind_eq_ok_iff, orFault_eq_ok_iff, asDecoded_eq_ok_iff,
    Value.textAt?_eq_some_iff, Value.textOr?_eq_some_iff, SortDirection.ofName_eq_ok_iff,
    pure_eq_ok_iff, SortKey.mk.injEq]
  constructor
  · intro h
    obtain ⟨_, hfield, _, ⟨_, hd⟩, d, rfl, rfl, rfl⟩ := h
    rw [SortDirection.name_inj] at hd
    exact ⟨hfield, hd⟩
  · rintro ⟨hfield, hd⟩
    rw [← SortDirection.name_inj] at hd
    exact ⟨field, hfield, direction.name, ⟨Value.isObject_of_get? hfield, hd⟩, direction, rfl,
      rfl, rfl⟩

theorem ofJsonList_cons_eq_ok_iff {j : Value} {js : List Value} {keys : List SortKey} :
    ofJsonList (j :: js) = .ok keys ↔
      ∃ key rest, ofJson j = .ok key ∧ ofJsonList js = .ok rest ∧ keys = key :: rest := by
  simp only [ofJsonList, bind_eq_ok_iff, pure_eq_ok_iff, exists_and_left, eq_comm (a := keys)]

end SortKey

namespace Limit

theorem countOf?_eq_some_iff {v : Value} {n : UInt32} :
    countOf? v = some n ↔ v = countJson n := by
  cases v with
  | unsigned m =>
    have hn : n.toNat < UInt32.size := n.toNat_lt
    simp only [countOf?, countJson, Value.unsigned.injEq, ← UInt64.toNat_inj,
      UInt32.toNat_toUInt64]
    split
    · rename_i h
      rw [Option.some.injEq, ← UInt32.toNat_inj, UInt64.toNat_toUInt32]
      exact iff_of_eq (congrArg (· = n.toNat) (Nat.mod_eq_of_lt h))
    · simp only [reduceCtorEq, false_iff]
      omega
  | _ => simp [countOf?, countJson]

theorem ofJson_eq_ok_iff {j : Value} {l : Limit} :
    ofJson j = .ok l ↔
      j.get? (utf8 "count") = some (countJson l.count) ∧
        j.get? (utf8 "skip") = l.skip.map countJson := by
  obtain ⟨count, skip⟩ := l
  have hskip : decodeSkip j = .ok skip ↔ j.get? (utf8 "skip") = skip.map countJson := by
    unfold decodeSkip
    cases j.get? (utf8 "skip") with
    | none => cases skip <;> simp
    | some v =>
      cases skip <;>
        simp [map_eq_ok_iff, decodeCount, countOf?_eq_some_iff]
  simp only [ofJson, decodeCount, bind_eq_ok_iff, orFault_eq_ok_iff, asDecoded_eq_ok_iff,
    countOf?_eq_some_iff, pure_eq_ok_iff, Limit.mk.injEq]
  constructor
  · intro h
    obtain ⟨_, hcount, n, rfl, s, hs, rfl, rfl⟩ := h
    exact ⟨hcount, hskip.mp hs⟩
  · rintro ⟨hcount, hs⟩
    exact ⟨countJson count, hcount, count, rfl, skip, hskip.mpr hs, rfl, rfl⟩

end Limit

namespace Scope

theorem decodeOptional_eq_ok_iff {ε α : Type} {decode : Value → Except ε α} {v : Option Value}
    {a : Option α} :
    decodeOptional decode v = .ok a ↔
      v = none ∧ a = none ∨ ∃ w b, v = some w ∧ decode w = .ok b ∧ a = some b := by
  cases v with
  | none => simp [decodeOptional, eq_comm]
  | some w => simp [decodeOptional, map_eq_ok_iff, eq_comm (a := a)]

theorem ofJson_eq_ok_iff {j : Value} {s : Scope} :
    ofJson j = .ok s ↔
      Source.ofJson j = .ok s.source ∧
        decodeOptional Filter.ofJson (j.get? (utf8 "filter")) = .ok s.filter ∧
        decodeOptional Filter.ofJson (j.get? (utf8 "prune")) = .ok s.prune ∧
        decodeSorts (j.get? (utf8 "sort")) = .ok s.sorts ∧
        decodeOptional Limit.ofJson (j.get? (utf8 "limit")) = .ok s.limit ∧
        (j.get? (utf8 "distinct") = none ∧ s.distinct = false ∨
          j.get? (utf8 "distinct") = some (.bool s.distinct)) := by
  obtain ⟨source, prune, filter, sorts, limit, distinct⟩ := s
  simp only [ofJson, bind_eq_ok_iff, orFault_eq_ok_iff, asDecoded_eq_ok_iff,
    Value.flagOr?_eq_some_iff, pure_eq_ok_iff, Scope.mk.injEq]
  constructor
  · intro h
    obtain ⟨_, hs, _, hf, _, hp, _, hk, _, hl, _, ⟨_, hd⟩, rfl, rfl, rfl, rfl, rfl, rfl⟩ := h
    exact ⟨hs, hf, hp, hk, hl, hd⟩
  · intro h
    obtain ⟨hs, hf, hp, hk, hl, hd⟩ := h
    exact ⟨source, hs, filter, hf, prune, hp, sorts, hk, limit, hl, distinct,
      ⟨Source.isObject_of_ofJson hs, hd⟩, rfl, rfl, rfl, rfl, rfl, rfl⟩

end Scope

/-! ### Chains -/

namespace Query

theorem decodeJoin_eq_ok_iff {decodeNested : Value → Checked Query} {v : Option Value}
    {joins : List (Hop × Scope)} :
    decodeJoin decodeNested v = .ok joins ↔
      v = none ∧ joins = [] ∨
        ∃ w nestedJson hop nested, v = some w ∧ Hop.ofJson w = .ok hop ∧
          w.get? (utf8 "query") = some nestedJson ∧ decodeNested nestedJson = .ok nested ∧
          joins = (hop, nested.root) :: nested.joins := by
  cases v with
  | none => simp [decodeJoin, eq_comm]
  | some w =>
    simp only [decodeJoin, bind_eq_ok_iff, orFault_eq_ok_iff, asDecoded_eq_ok_iff, pure_eq_ok_iff,
      reduceCtorEq, false_and, false_or, Option.some.injEq]
    constructor
    · intro h
      obtain ⟨hop, hhop, nestedJson, hjson, nested, hnested, rfl⟩ := h
      exact ⟨w, nestedJson, hop, nested, rfl, hhop, hjson, hnested, rfl⟩
    · intro h
      obtain ⟨_, nestedJson, hop, nested, rfl, hhop, hjson, hnested, rfl⟩ := h
      exact ⟨hop, hhop, nestedJson, hjson, nested, hnested, rfl⟩

theorem decodeWithin_succ_eq_ok_iff {scopes : Nat} {j : Value} {q : Query} :
    decodeWithin (scopes + 1) j = .ok q ↔
      Scope.ofJson j = .ok q.root ∧
        decodeJoin (decodeWithin scopes) (j.get? (utf8 "join")) = .ok q.joins := by
  obtain ⟨root, joins⟩ := q
  simp only [decodeWithin, decodeMembers, bind_eq_ok_iff, catching_eq_ok_iff, pure_eq_ok_iff,
    Query.mk.injEq]
  constructor
  · intro h
    obtain ⟨_, _, r, hr, js, hjs, rfl, rfl⟩ := h
    exact ⟨hr, hjs⟩
  · rintro ⟨hr, hjs⟩
    have hobject : j.isObject = true := Source.isObject_of_ofJson (Scope.ofJson_eq_ok_iff.mp hr).1
    exact ⟨(), require_eq_ok_iff.mpr hobject, root, hr, joins, hjs, rfl, rfl⟩

end Query

end GraphQuery
