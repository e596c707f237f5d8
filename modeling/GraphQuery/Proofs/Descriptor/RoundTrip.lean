import GraphQuery.Proofs.Descriptor.Limits

/-!
# Decoding what was written

The descriptor of a query leaves out what is missing or empty, and decoding puts it back. Each
theorem `ofJson_toJson_iff` of this module says which values are decoded from a descriptor that was
written: the value that was written where it is within the limits, and nothing at all elsewhere.

* `Filter.ofJson_toJson_iff` is about filters, whose decoder looks at the position of an entry where
  the writer looks at its connective; they agree as filters are well formed.
* `Query.ofJson_toJson_iff` is about queries.
* `roundTrip` sums up what holds for queries that are built and for queries that are decoded.
-/

namespace GraphQuery

open Value

/-! ### Operands and comparisons -/

theorem Operand.ofJson_toJson_iff {o p : Operand} :
    Operand.ofJson o.toJson = .ok p ↔ p = o ∧ o.Fits := by
  cases o with
  | field path =>
    simp [Operand.ofJson_eq_ok_iff, Operand.toJson, get?_ofMembers, lookup?, Operand.Fits]
  | literal v =>
    simp [Operand.ofJson_eq_ok_iff, Operand.toJson, get?_ofMembers, lookup?, Operand.Fits,
      and_comm]

namespace Comparison

/-- What is found under a key of a comparison's descriptor. -/
theorem get?_toJson (c : Comparison) (key : Text) :
    c.toJson.get? key = (lookup? key (subjectMembers c.subject).reverse).or
      (lookup? key [(utf8 "operand", c.operand.toJson),
        (utf8 "operator", .string c.operator.name)]) := by
  simp [toJson, get?_ofMembers, lookup?_append]

theorem decodeSubject_toJson_iff {c : Comparison} {s : Subject} :
    decodeSubject c.toJson = .ok s ↔ s = c.subject := by
  have hobject : c.toJson.isObject = true := rfl
  simp only [decodeSubject_eq_ok_iff, decodeQuantifier_eq_ok_iff, get?_toJson, hobject]
  rcases c.subject with ⟨name, _ | q⟩ | expression
  · simp [subjectMembers, lookup?]
  · have hq : ∀ q', q.name = Quantifier.nameOrEmpty q' ↔ some q = q' := fun _ =>
      Quantifier.nameOrEmpty_inj (q := some q)
    simp [subjectMembers, lookup?, hq]
  · simp [subjectMembers, lookup?]

theorem ofJson_toJson_iff {c d : Comparison} :
    ofJson c.toJson = .ok d ↔ d = c ∧ c.operand.Fits := by
  have hoperator : c.toJson.get? (utf8 "operator") = some (.string c.operator.name) := by
    rw [get?_toJson]
    rcases c.subject with ⟨name, _ | q⟩ | expression <;> simp [subjectMembers, lookup?]
  have hoperand : c.toJson.get? (utf8 "operand") = some c.operand.toJson := by
    rw [get?_toJson]
    rcases c.subject with ⟨name, _ | q⟩ | expression <;> simp [subjectMembers, lookup?]
  rw [ofJson_eq_ok_iff, decodeSubject_toJson_iff, hoperator, hoperand]
  obtain ⟨subject, operator, operand⟩ := c
  obtain ⟨subject', operator', operand'⟩ := d
  simp only [Option.some.injEq, Value.string.injEq, Operator.name_inj, exists_eq_left',
    Operand.ofJson_toJson_iff, Comparison.mk.injEq, eq_comm (a := operator), and_assoc]

end Comparison

/-! ### Filters -/

namespace Filter

/-- The descriptor of an entry. -/
def entryJson (op : Option Connective) (key : Text) (v : Value) : Value :=
  .ofMembers (connectiveMember op ++ [(key, v)])

theorem get?_entryJson (op : Option Connective) (key key' : Text) (v : Value) :
    (entryJson op key v).get? key' =
      if key' = key then some v else lookup? key' (connectiveMember op) := by
  cases op <;> by_cases h : key' = key <;>
    simp [entryJson, connectiveMember, get?_ofMembers, lookup?, h]

variable {levels : Nat} {before : Filter} {op : Option Connective}

/-- The connective of an entry is read back, as it is missing exactly in front of the first. -/
theorem decodeConnective_entryJson_iff {key : Text} {v : Value} {op' : Option Connective}
    (hnone : op.isNone = before.isEmpty) (hkey : utf8 "op" ≠ key) :
    decodeConnective before (entryJson op key v) = .ok op' ↔ op' = op := by
  rw [decodeConnective_eq_ok_iff, ← hnone, get?_entryJson, if_neg hkey]
  cases op with
  | none => simp
  | some c => simp [connectiveMember, lookup?]

theorem lookup?_connectiveMember {key : Text} (hkey : key ≠ utf8 "op") :
    lookup? key (connectiveMember op) = none := by
  cases op <;> simp [connectiveMember, lookup?, hkey]

variable {decodeGroup : Value → Checked Filter}

theorem decodeTerm_comparison_iff {c : Comparison} {t : Term} :
    decodeTerm decodeGroup (entryJson op (utf8 "comparison") c.toJson) = .ok t ↔
      t = .comparison c ∧ c.operand.Fits := by
  have hfilter : lookup? (utf8 "filter") (connectiveMember op) = none :=
    lookup?_connectiveMember (by simp)
  rw [and_comm]
  simp [decodeTerm_eq_ok_iff, get?_entryJson, hfilter, Comparison.ofJson_toJson_iff, and_assoc]

theorem decodeTerm_group_iff {inner : Filter} {v : Value} {t : Term}
    (hgroup : ∀ g, decodeGroup v = .ok g ↔ g = inner ∧ inner.Fits levels) :
    decodeTerm decodeGroup (entryJson op (utf8 "filter") v) = .ok t ↔
      t = .group inner ∧ inner.Fits levels := by
  rw [and_comm]
  simp [decodeTerm_eq_ok_iff, get?_entryJson, hgroup, and_assoc]

/-- An entry is appended again where what it holds is decoded again. -/
theorem decodeEntry_entryJson_iff {key : Text} {v : Value} {t : Term} {P : Prop} {f : Filter}
    (hnone : op.isNone = before.isEmpty) (hkey : utf8 "op" ≠ key)
    (hterm : ∀ t', decodeTerm decodeGroup (entryJson op key v) = .ok t' ↔ t' = t ∧ P) :
    decodeEntry decodeGroup before (entryJson op key v) = .ok f ↔ f = before.push op t ∧ P := by
  simp only [decodeEntry_eq_ok_iff, decodeConnective_entryJson_iff hnone hkey, hterm]
  constructor
  · intro h
    obtain ⟨_, _, rfl, ⟨rfl, hP⟩, rfl⟩ := h
    exact ⟨rfl, hP⟩
  · rintro ⟨rfl, hP⟩
    exact ⟨op, t, rfl, ⟨rfl, hP⟩, rfl⟩

/-- The descriptor of a filter is decoded to it when its entries are. -/
theorem decodeWithin_toJson_iff {inner : Filter}
    (hentries : ∀ levels g, decodeEntries (decodeWithin levels) .empty inner.termsJson = .ok g ↔
      g = inner ∧ inner.Fits (levels + 1)) (levels : Nat) (g : Filter) :
    decodeWithin levels inner.toJson = .ok g ↔ g = inner ∧ inner.Fits levels := by
  cases levels with
  | zero => simp [decodeWithin, not_fits_zero]
  | succ levels =>
    simp [decodeWithin_succ_eq_ok_iff, toJson, get?_ofMembers, lookup?, hentries]

/-- Entries are decoded again when those before the last are, and the last is after them. -/
theorem decodeEntries_snoc_iff {js : List Value} {j : Value} {f g : Filter} {P Q : Prop}
    (hbefore : ∀ b, decodeEntries decodeGroup .empty js = .ok b ↔ b = before ∧ P)
    (hentry : decodeEntry decodeGroup before j = .ok g ↔ g = f ∧ Q) :
    decodeEntries decodeGroup .empty (js ++ [j]) = .ok g ↔ g = f ∧ P ∧ Q := by
  rw [decodeEntries_append_eq_ok_iff]
  constructor
  · intro h
    obtain ⟨b, hb, h⟩ := h
    obtain ⟨rfl, hP⟩ := (hbefore b).mp hb
    obtain ⟨rfl, hQ⟩ := hentry.mp (decodeEntries_singleton ▸ h)
    exact ⟨rfl, hP, hQ⟩
  · intro h
    obtain ⟨rfl, hP, hQ⟩ := h
    exact ⟨before, (hbefore before).mpr ⟨rfl, hP⟩,
      decodeEntries_singleton.trans (hentry.mpr ⟨rfl, hQ⟩)⟩

/-- **The entries of a well-formed filter are decoded again** where groups have levels enough. The
induction is on the entries, with every number of levels, as a group has one level less. -/
theorem decodeEntries_termsJson_iff {f : Filter} (hf : f.WellFormed) :
    ∀ levels g, decodeEntries (decodeWithin levels) .empty f.termsJson = .ok g ↔
      g = f ∧ f.Fits (levels + 1) := by
  induction f with
  | empty => simp [termsJson, decodeEntries, fits_empty, eq_comm]
  | comparison before op c ih =>
    intro levels g
    obtain ⟨hbefore, hnone⟩ := hf
    have hentry : decodeEntry (decodeWithin levels) before
        (entryJson op (utf8 "comparison") c.toJson) = .ok g ↔
          g = before.comparison op c ∧ c.operand.Fits :=
      decodeEntry_entryJson_iff hnone (by simp) fun _ => decodeTerm_comparison_iff
    rw [fits_comparison_iff]
    exact decodeEntries_snoc_iff (ih hbefore levels) hentry
  | group before op inner ihBefore ihInner =>
    intro levels g
    obtain ⟨hbefore, hnone, hinner⟩ := hf
    have hentry : decodeEntry (decodeWithin levels) before
        (entryJson op (utf8 "filter") inner.toJson) = .ok g ↔
          g = before.group op inner ∧ inner.Fits levels :=
      decodeEntry_entryJson_iff hnone (by simp) fun _ =>
        decodeTerm_group_iff (decodeWithin_toJson_iff (ihInner hinner) levels)
    rw [fits_group_iff]
    exact decodeEntries_snoc_iff (ihBefore hbefore levels) hentry

theorem ofJson_toJson_iff {f g : Filter} (hf : f.WellFormed) :
    ofJson f.toJson = .ok g ↔ g = f ∧ f.Fits maxNesting :=
  decodeWithin_toJson_iff (decodeEntries_termsJson_iff hf) maxNesting g

end Filter

/-! ### Sources -/

theorem DepthRange.depthOf?_boundJson_iff {n m : Int32} :
    depthOf? (boundJson n) = some m ↔ m = n ∧ 0 ≤ n.toInt := by
  have hwhole : (boundJson n).IsWhole m.toInt ↔ m = n := by
    simp only [boundJson, IsWhole, Int32.toInt_toInt64, Int32.toInt_inj, eq_comm]
  rw [depthOf?_eq_some_iff, hwhole]
  constructor
  · rintro ⟨h, rfl⟩
    exact ⟨rfl, h⟩
  · rintro ⟨rfl, h⟩
    exact ⟨h, rfl⟩

/-- A hop is decoded again among other members whose keys are different. -/
theorem Hop.ofJson_members_iff {hop hop' : Hop} {rest : List (Text × Value)}
    (hrest : ∀ key ∈ hop.members.map Prod.fst, lookup? key rest.reverse = none) :
    Hop.ofJson (.ofMembers (hop.members ++ rest)) = .ok hop' ↔
      hop' = hop ∧ hop.depths.Nonnegative := by
  have hget : ∀ key ∈ hop.members.map Prod.fst,
      (ofMembers (hop.members ++ rest)).get? key = lookup? key hop.members.reverse :=
    fun key hkey => by
      rw [get?_ofMembers, List.reverse_append, lookup?_append, hrest key hkey, Option.none_or]
  generalize ofMembers (hop.members ++ rest) = j at hget
  obtain ⟨hdirection, hleast, hgreatest, hnamed⟩ :
      j.get? (utf8 "direction") = some (.string hop.direction.name) ∧
        j.get? (utf8 "min_depth") = some (DepthRange.boundJson hop.depths.least) ∧
        j.get? (utf8 "max_depth") = some (DepthRange.boundJson hop.depths.greatest) ∧
        j.get? (utf8 "named_graph") = some (.bool hop.namedGraph) := by
    simpa [members, lookup?] using hget
  obtain ⟨direction, ⟨least, greatest⟩, namedGraph⟩ := hop
  obtain ⟨direction', ⟨least', greatest'⟩, namedGraph'⟩ := hop'
  simp only [Hop.ofJson_eq_ok_iff, DepthRange.ofJson_eq_ok_iff, hdirection, hleast, hgreatest,
    hnamed, Option.some.injEq, exists_eq_left', DepthRange.depthOf?_boundJson_iff, string.injEq,
    Direction.name_inj, bool.injEq, reduceCtorEq, false_and, false_or]
  constructor
  · intro h
    obtain ⟨⟨⟨rfl, hl⟩, rfl, hg⟩, rfl, rfl⟩ := h
    exact ⟨rfl, hl, hg⟩
  · rintro ⟨hhop, hl, hg⟩
    cases hhop
    exact ⟨⟨⟨rfl, hl⟩, rfl, hg⟩, rfl, rfl⟩

namespace Source

theorem ofTraversalJson_members_iff {hop : Hop} {target start : Text} {s : Source} :
    ofTraversalJson (.ofMembers (hop.members ++
      [(utf8 "target", .string target), (utf8 "start_vertex", .string start)])) = .ok s ↔
        s = .traversal hop target start ∧ hop.depths.Nonnegative := by
  have hrest : ∀ key ∈ hop.members.map Prod.fst, lookup? key
      [(utf8 "target", string target), (utf8 "start_vertex", string start)].reverse = none := by
    simp [Hop.members, lookup?]
  have htarget : (ofMembers (hop.members ++ [(utf8 "target", string target),
      (utf8 "start_vertex", string start)])).get? (utf8 "target") = some (.string target) := by
    simp [get?_ofMembers, lookup?]
  have hstart : (ofMembers (hop.members ++ [(utf8 "target", string target),
      (utf8 "start_vertex", string start)])).get? (utf8 "start_vertex") = some (.string start) := by
    simp [get?_ofMembers, lookup?]
  rw [ofTraversalJson_eq_ok_iff]
  constructor
  · intro h
    obtain ⟨hop', target', start', hhop, htarget', hstart', rfl⟩ := h
    obtain ⟨rfl, hdepths⟩ := (Hop.ofJson_members_iff hrest).mp hhop
    cases htarget.symm.trans htarget'
    cases hstart.symm.trans hstart'
    exact ⟨rfl, hdepths⟩
  · rintro ⟨rfl, hdepths⟩
    exact ⟨hop, target, start, (Hop.ofJson_members_iff hrest).mpr ⟨rfl, hdepths⟩, htarget, hstart,
      rfl⟩

/-- A source is decoded again from any object where its members are found. -/
theorem ofJson_iff_of_get? {j : Value} {s t : Source}
    (htraversal : j.get? (utf8 "traversal") = lookup? (utf8 "traversal") s.members)
    (hcollection : j.get? (utf8 "collection") = lookup? (utf8 "collection") s.members) :
    ofJson j = .ok t ↔ t = s ∧ s.Fits := by
  rw [ofJson_eq_ok_iff, htraversal, hcollection]
  cases s with
  | collection name => simp [members, lookup?, Fits]
  | traversal hop target start =>
    simp [members, lookup?, Fits, ofTraversalJson_members_iff]

end Source

/-! ### Scopes -/

namespace SortKey

theorem ofJson_toJson_iff {key key' : SortKey} : ofJson key.toJson = .ok key' ↔ key' = key := by
  obtain ⟨field, direction⟩ := key
  obtain ⟨field', direction'⟩ := key'
  simp [ofJson_eq_ok_iff, toJson, get?_ofMembers, lookup?, eq_comm (a := field),
    eq_comm (a := direction)]

theorem ofJsonList_toJson_iff {keys keys' : List SortKey} :
    ofJsonList (keys.map toJson) = .ok keys' ↔ keys' = keys := by
  induction keys generalizing keys' with
  | nil => simp [ofJsonList, eq_comm]
  | cons key keys ih => simp [ofJsonList_cons_eq_ok_iff, ofJson_toJson_iff, ih]

end SortKey

namespace Limit

theorem countJson_inj {n m : UInt32} : countJson n = countJson m ↔ n = m := by
  rw [← countOf?_eq_some_iff, countOf?_eq_some_iff.mpr rfl, Option.some.injEq]

theorem ofJson_toJson_iff {l l' : Limit} : ofJson l.toJson = .ok l' ↔ l' = l := by
  obtain ⟨count, skip⟩ := l
  obtain ⟨count', skip'⟩ := l'
  cases skip <;> cases skip' <;>
    simp [ofJson_eq_ok_iff, toJson, skipMember, get?_ofMembers, lookup?, countJson_inj,
      eq_comm (a := count)]
  exact fun _ => eq_comm

end Limit

namespace Scope

/-- What may be missing is decoded again when it is missing, and when its decoder reads it back. -/
theorem decodeOptional_map_iff {ε α : Type} {decode : Value → Except ε α} {encode : α → Value}
    {P : α → Prop} {a b : Option α}
    (hdecode : ∀ x ∈ a, ∀ y, decode (encode x) = .ok y ↔ y = x ∧ P x) :
    decodeOptional decode (a.map encode) = .ok b ↔ b = a ∧ ∀ x ∈ a, P x := by
  cases a with
  | none => simp [decodeOptional_eq_ok_iff]
  | some x =>
    have hx := hdecode x rfl
    rw [and_comm]
    simp [decodeOptional_eq_ok_iff, hx, and_assoc]

section Members

variable (s : Scope)

theorem lookup?_filterMember (key key' : Text) (f : Option Filter) :
    lookup? key' (filterMember key f).reverse =
      if key' = key then f.map Filter.toJson else none := by
  cases f <;> by_cases h : key' = key <;> simp [filterMember, lookup?, h]

theorem lookup?_sortMember (key : Text) (sorts : List SortKey) :
    lookup? key (sortMember sorts).reverse =
      if key = utf8 "sort" ∧ sorts ≠ [] then some (.array (sorts.map SortKey.toJson))
      else none := by
  cases sorts <;> by_cases h : key = utf8 "sort" <;> simp [sortMember, lookup?, h]

theorem lookup?_limitMember (key : Text) (l : Option Limit) :
    lookup? key (limitMember l).reverse =
      if key = utf8 "limit" then l.map Limit.toJson else none := by
  cases l <;> by_cases h : key = utf8 "limit" <;> simp [limitMember, lookup?, h]

theorem lookup?_distinctMember (key : Text) (distinct : Bool) :
    lookup? key (if distinct then [(utf8 "distinct", Value.bool true)] else []).reverse =
      if key = utf8 "distinct" ∧ distinct = true then some (.bool true) else none := by
  cases distinct <;> by_cases h : key = utf8 "distinct" <;> simp [lookup?, h]

/-- What is found under a key of a scope's members, looked for from the last member on. -/
theorem lookup?_members (key : Text) :
    lookup? key s.members.reverse =
      (if key = utf8 "distinct" ∧ s.distinct = true then some (.bool true) else none).or
      ((if key = utf8 "limit" then s.limit.map Limit.toJson else none).or
      ((if key = utf8 "sort" ∧ s.sorts ≠ [] then some (.array (s.sorts.map SortKey.toJson))
        else none).or
      ((if key = utf8 "prune" then s.prune.map Filter.toJson else none).or
      ((if key = utf8 "filter" then s.filter.map Filter.toJson else none).or
        (lookup? key s.source.members))))) := by
  have hsource : s.source.members.reverse = s.source.members := by
    cases s.source <;> rfl
  simp only [members, List.reverse_append, lookup?_append, lookup?_filterMember, lookup?_sortMember,
    lookup?_limitMember, lookup?_distinctMember, hsource]

theorem lookup?_source {key : Text} (htraversal : key ≠ utf8 "traversal")
    (hcollection : key ≠ utf8 "collection") : lookup? key s.source.members = none := by
  cases s.source with
  | collection name => simp [Source.members, lookup?, hcollection]
  | traversal hop target start => simp [Source.members, lookup?, htraversal]

end Members

section Clauses

-- A join stands among the members of its scope, so that only its key is not spoken of here.
variable {s : Scope} {j : Value}
  (hj : ∀ key, key ≠ utf8 "join" → j.get? key = lookup? key s.members.reverse)

include hj

theorem decodeFilter_iff (hs : s.WellFormed) {a : Option Filter} :
    decodeOptional Filter.ofJson (j.get? (utf8 "filter")) = .ok a ↔
      a = s.filter ∧ ∀ f ∈ s.filter, f.Fits maxNesting := by
  have hget : j.get? (utf8 "filter") = s.filter.map Filter.toJson := by
    simp [hj, lookup?_members, lookup?_source]
  rw [hget]
  exact decodeOptional_map_iff fun f hf _ => Filter.ofJson_toJson_iff (hs.filter f hf)

theorem decodePrune_iff (hs : s.WellFormed) {a : Option Filter} :
    decodeOptional Filter.ofJson (j.get? (utf8 "prune")) = .ok a ↔
      a = s.prune ∧ ∀ f ∈ s.prune, f.Fits maxNesting := by
  have hget : j.get? (utf8 "prune") = s.prune.map Filter.toJson := by
    simp [hj, lookup?_members, lookup?_source]
  rw [hget]
  exact decodeOptional_map_iff fun f hf _ => Filter.ofJson_toJson_iff (hs.prune f hf)

/-- No sort keys are written as no member at all. -/
theorem decodeSorts_iff {keys : List SortKey} :
    decodeSorts (j.get? (utf8 "sort")) = .ok keys ↔ keys = s.sorts := by
  have hget : j.get? (utf8 "sort") =
      if s.sorts ≠ [] then some (.array (s.sorts.map SortKey.toJson)) else none := by
    simp [hj, lookup?_members, lookup?_source]
  rw [hget]
  cases s.sorts with
  | nil => exact ⟨fun h => (Except.ok.inj h).symm, fun h => congrArg Except.ok h.symm⟩
  | cons key rest => exact SortKey.ofJsonList_toJson_iff

theorem decodeLimit_iff {a : Option Limit} :
    decodeOptional Limit.ofJson (j.get? (utf8 "limit")) = .ok a ↔ a = s.limit := by
  have hget : j.get? (utf8 "limit") = s.limit.map Limit.toJson := by
    simp [hj, lookup?_members, lookup?_source]
  have hdecode : ∀ l ∈ s.limit, ∀ l', Limit.ofJson l.toJson = .ok l' ↔ l' = l ∧ True :=
    fun l _ l' => by rw [Limit.ofJson_toJson_iff, and_true]
  simp [hget, decodeOptional_map_iff hdecode]

/-- **A scope is decoded again** from any object where its members are found. -/
theorem ofJson_iff_of_members (hs : s.WellFormed) {t : Scope} :
    ofJson j = .ok t ↔ t = s ∧ s.Fits := by
  have htraversal : j.get? (utf8 "traversal") = lookup? (utf8 "traversal") s.source.members := by
    simp [hj, lookup?_members]
  have hcollection : j.get? (utf8 "collection") = lookup? (utf8 "collection") s.source.members := by
    simp [hj, lookup?_members]
  have hdistinct : (j.get? (utf8 "distinct") = none ∧ t.distinct = false ∨
      j.get? (utf8 "distinct") = some (.bool t.distinct)) ↔ t.distinct = s.distinct := by
    cases hdistinct : s.distinct <;> simp [hj, lookup?_members, lookup?_source, hdistinct]
  rw [ofJson_eq_ok_iff, Source.ofJson_iff_of_get? htraversal hcollection, decodeFilter_iff hj hs,
    decodePrune_iff hj hs, decodeSorts_iff hj, decodeLimit_iff hj, hdistinct]
  obtain ⟨source, prune, filter, sorts, limit, distinct⟩ := t
  constructor
  · intro h
    obtain ⟨⟨rfl, hsource⟩, ⟨rfl, hfilter⟩, ⟨rfl, hprune⟩, rfl, rfl, rfl⟩ := h
    exact ⟨rfl, hsource, hprune, hfilter⟩
  · rintro ⟨rfl, hfits⟩
    exact ⟨⟨rfl, hfits.source⟩, ⟨rfl, hfits.filter⟩, ⟨rfl, hfits.prune⟩, rfl, rfl, rfl⟩

end Clauses

end Scope

/-! ### Chains -/

namespace Query

/-- The descriptor of a join into a described query. -/
def joinJson (hop : Hop) (nested : Value) : Value :=
  .ofMembers (hop.members ++ [(utf8 "query", nested)])

theorem get?_chainJson_nil (root : Scope) (key : Text) :
    (chainJson root []).get? key = lookup? key root.members.reverse :=
  get?_ofMembers _ _

theorem get?_chainJson_cons (root scope : Scope) (hop : Hop) (rest : List (Hop × Scope))
    (key : Text) :
    (chainJson root ((hop, scope) :: rest)).get? key =
      if key = utf8 "join" then some (joinJson hop (chainJson scope rest))
      else lookup? key root.members.reverse := by
  by_cases h : key = utf8 "join" <;>
    simp [chainJson, joinMember, joinJson, get?_ofMembers, lookup?, h]

theorem lookup?_join (s : Scope) : lookup? (utf8 "join") s.members.reverse = none := by
  simp [Scope.lookup?_members, Scope.lookup?_source]

/-- A join is decoded again where the query that it leads to is. -/
theorem decodeJoin_joinJson_iff {decodeNested : Value → Checked Query} {v : Value} {hop : Hop}
    {nested : Query} {joins : List (Hop × Scope)} {P : Prop}
    (hnested : ∀ r, decodeNested v = .ok r ↔ r = nested ∧ P) :
    decodeJoin decodeNested (some (joinJson hop v)) = .ok joins ↔
      joins = (hop, nested.root) :: nested.joins ∧ hop.depths.Nonnegative ∧ P := by
  have hrest : ∀ key ∈ hop.members.map Prod.fst,
      lookup? key [(utf8 "query", v)].reverse = none := by
    simp [Hop.members, lookup?]
  have hquery : (joinJson hop v).get? (utf8 "query") = some v := by
    simp [joinJson, get?_ofMembers, lookup?]
  rw [decodeJoin_eq_ok_iff]
  constructor
  · intro h
    rcases h with ⟨h, _⟩ | ⟨_, v', hop', r, h, hhop, hv, hr, rfl⟩
    · cases h
    · cases h
      cases hquery.symm.trans hv
      obtain ⟨rfl, hdepths⟩ := (Hop.ofJson_members_iff hrest).mp hhop
      obtain ⟨rfl, hP⟩ := (hnested r).mp hr
      exact ⟨rfl, hdepths, hP⟩
  · intro h
    obtain ⟨rfl, hdepths, hP⟩ := h
    exact Or.inr ⟨joinJson hop v, v, hop, nested, rfl,
      (Hop.ofJson_members_iff hrest).mpr ⟨rfl, hdepths⟩, hquery, (hnested nested).mpr ⟨rfl, hP⟩,
      rfl⟩

/-- **A chain is decoded again** where it has scopes enough left. The induction is on the joins,
with every first scope and every number of scopes, as what is joined has one scope less. -/
theorem decodeWithin_chainJson_iff {joins : List (Hop × Scope)} :
    ∀ {root : Scope} {scopes : Nat} {r : Query}, Query.WellFormed ⟨root, joins⟩ →
      (decodeWithin scopes (chainJson root joins) = .ok r ↔
        r = ⟨root, joins⟩ ∧ Query.Fits scopes ⟨root, joins⟩) := by
  induction joins with
  | nil =>
    intro root scopes r hwell
    cases scopes with
    | zero => simp [decodeWithin, not_fits_zero]
    | succ scopes =>
      have hroot : ∀ t, Scope.ofJson (chainJson root []) = .ok t ↔ t = root ∧ root.Fits := fun _ =>
        Scope.ofJson_iff_of_members (fun key _ => get?_chainJson_nil root key) hwell.root
      have hjoin : ∀ js, decodeJoin (decodeWithin scopes) none = .ok js ↔ js = [] := fun _ =>
        ⟨fun h => (Except.ok.inj h).symm, fun h => congrArg Except.ok h.symm⟩
      obtain ⟨root', joins'⟩ := r
      rw [decodeWithin_succ_eq_ok_iff, hroot, get?_chainJson_nil, lookup?_join, hjoin,
        fits_single_iff, Query.mk.injEq]
      exact and_right_comm
  | cons join rest ih =>
    intro root scopes r hwell
    obtain ⟨hop, scope⟩ := join
    have hparts : root.WellFormed ∧ Query.WellFormed ⟨scope, rest⟩ := wellFormed_join_iff.mp hwell
    cases scopes with
    | zero => simp [decodeWithin, not_fits_zero]
    | succ scopes =>
      have hroot : ∀ t, Scope.ofJson (chainJson root ((hop, scope) :: rest)) = .ok t ↔
          t = root ∧ root.Fits := fun _ =>
        Scope.ofJson_iff_of_members (fun key hkey =>
          (get?_chainJson_cons root scope hop rest key).trans (if_neg hkey)) hparts.1
      have hjoin : ∀ js, decodeJoin (decodeWithin scopes)
          (some (joinJson hop (chainJson scope rest))) = .ok js ↔
            js = (hop, scope) :: rest ∧ hop.depths.Nonnegative ∧
              Query.Fits scopes ⟨scope, rest⟩ := fun _ =>
        decodeJoin_joinJson_iff fun _ => ih hparts.2
      have hfits : Query.Fits (scopes + 1) ⟨root, (hop, scope) :: rest⟩ ↔
          root.Fits ∧ hop.depths.Nonnegative ∧ Query.Fits scopes ⟨scope, rest⟩ :=
        @fits_join_iff scopes root hop ⟨scope, rest⟩
      obtain ⟨root', joins'⟩ := r
      rw [decodeWithin_succ_eq_ok_iff, hroot, get?_chainJson_cons, if_pos rfl, hjoin, hfits,
        Query.mk.injEq]
      exact and_and_and_comm

theorem ofJson_toJson_iff {q r : Query} (hq : q.WellFormed) :
    ofJson q.toJson = .ok r ↔ r = q ∧ q.Fits maxNesting :=
  decodeWithin_chainJson_iff hq

end Query

/-- **Descriptors round trip.** The descriptor of a query that was built is accepted exactly where
the query is within the limits, and is decoded to that query. Every query that is decoded, from
whatever descriptor, is within the limits, and is decoded again from its own descriptor. -/
theorem roundTrip :
    (∀ q : Query, q.Built →
      ((∃ r, Query.ofJson q.toJson = .ok r) ↔ q.Fits maxNesting) ∧
        ∀ r, Query.ofJson q.toJson = .ok r → r = q) ∧
      ∀ j r, Query.ofJson j = .ok r → r.Fits maxNesting ∧ Query.ofJson r.toJson = .ok r := by
  constructor
  · intro q hbuilt
    have hdecode : ∀ r, Query.ofJson q.toJson = .ok r ↔ r = q ∧ q.Fits maxNesting := fun r =>
      Query.ofJson_toJson_iff hbuilt.wellFormed
    refine ⟨⟨?_, fun hfits => ⟨q, (hdecode q).mpr ⟨rfl, hfits⟩⟩⟩, fun r h => ((hdecode r).mp h).1⟩
    rintro ⟨r, h⟩
    exact ((hdecode r).mp h).2
  · intro j r h
    obtain ⟨hwell, hfits⟩ := Query.fits_of_decodeWithin h
    exact ⟨hfits, (Query.ofJson_toJson_iff hwell).mpr ⟨rfl, hfits⟩⟩

/-- A join with depths from zero on is decoded again, one with a negative depth is refused. -/
theorem roundTrip_joined :
    let joined (least : Int32) := (Query.collection (utf8 "User")).join
      ⟨.outbound, ⟨least, 2⟩, false⟩ (Query.collection (utf8 "knows"))
    Query.ofJson (joined 0).toJson = .ok (joined 0) ∧
      ¬∃ r, Query.ofJson (joined (-1)).toJson = .ok r := by
  intro joined
  have hbuilt : ∀ least, (joined least).Built := fun least =>
    .join _ (.collection (utf8 "User")) (.collection (utf8 "knows"))
  have hscope : ∀ name, (Scope.ofSource (.collection name)).Fits := fun name =>
    ⟨trivial, fun _ h => absurd h (by simp [Scope.ofSource]),
      fun _ h => absurd h (by simp [Scope.ofSource])⟩
  have hfits : (joined 0).Fits maxNesting := by
    refine ⟨by decide, hscope _, fun j hj => ?_⟩
    cases List.mem_singleton.mp hj
    exact ⟨by decide, hscope _⟩
  obtain ⟨r, hr⟩ := (roundTrip.1 (joined 0) (hbuilt 0)).1.mpr hfits
  have hsame : r = joined 0 := (roundTrip.1 (joined 0) (hbuilt 0)).2 r hr
  rw [hsame] at hr
  refine ⟨(roundTrip.2 _ _ hr).2, fun h => ?_⟩
  have hfits' : (joined (-1)).Fits maxNesting := (roundTrip.1 (joined (-1)) (hbuilt (-1))).1.mp h
  exact absurd (hfits'.joins _ (List.mem_singleton.mpr rfl)).1.1 (by decide)

end GraphQuery
