import GraphQuery.Proofs.Descriptor.BelowLimits
import GraphQuery.Proofs.Descriptor.Decoding

/-!
# Members that are not read

Objects of a descriptor may have members that no rule asks for, and members that another one wins
over. Neither kind says anything: with such members added, changed or taken away, at any number of
places, a descriptor has the same outcome, be it a query or an error.

* `Descriptor.Kind.reads` lists the members that are read from an object, kind by kind; what is
  shadowed by another member is not among them.
* `Descriptor.Alike` relates values that are the same but for members that are not read.
* `Query.decodeWithin_eq_of_alike`: the decoder of queries does not tell such values apart.
* `Descriptor.Alike.insert` and `Descriptor.Alike.change`: values in which one member differs.
* `unread_members_indifferent`: descriptors that are alike have the same outcome.
-/

namespace GraphQuery

namespace Descriptor

/-! ### What is read -/

/-- The kinds of objects that a descriptor is made of. -/
inductive Kind where
  | query
  | traversal
  | join
  | limit
  | sortKey
  | filter
  /-- An entry of a filter, the first one or one behind others. -/
  | entry (isFirst : Bool)
  | comparison
  | operand
  deriving DecidableEq, Repr

/-- What a member is read as. -/
inductive Role where
  /-- A value that is looked at as a whole. -/
  | whole
  /-- The values that a walk visits, each a sort key. -/
  | sortKeys
  /-- An array of entries of a filter. -/
  | entries
  | object (kind : Kind)
  deriving DecidableEq, Repr

/-- Members that are read only where another one is missing. -/
def unlessShadowed (j : Value) (key : String) (members : List (String × Role)) :
    List (String × Role) :=
  if (j.get? (utf8 key)).isSome then [] else members

/-- The members of a hop. -/
def hopMembers : List (String × Role) :=
  [("min_depth", .whole), ("max_depth", .whole), ("direction", .whole), ("named_graph", .whole)]

/-- The members that are read from an object of a kind, and what they are read as. -/
def Kind.reads (j : Value) : Kind → List (String × Role)
  | .query => ("traversal", .object .traversal)
      :: unlessShadowed j "traversal" [("collection", .whole)]
      ++ [("filter", .object .filter), ("prune", .object .filter), ("sort", .sortKeys),
        ("limit", .object .limit), ("distinct", .whole), ("join", .object .join)]
  | .traversal => hopMembers ++ [("target", .whole), ("start_vertex", .whole)]
  | .join => hopMembers ++ [("query", .object .query)]
  | .limit => [("count", .whole), ("skip", .whole)]
  | .sortKey => [("field", .whole), ("direction", .whole)]
  | .filter => [("terms", .entries)]
  | .entry isFirst => (if isFirst then [] else [("op", .whole)])
      ++ ("filter", .object .filter)
      :: unlessShadowed j "filter" [("comparison", .object .comparison)]
  | .comparison => ("statement", .whole) :: unlessShadowed j "statement" [("field", .whole)]
      ++ [("quantifier", .whole), ("operator", .whole), ("operand", .object .operand)]
  | .operand => ("field", .whole) :: unlessShadowed j "field" [("value", .whole)]

/-- Values in a role that are the same but for members that are not read, wherever these are. -/
inductive Alike : Role → Value → Value → Prop
  | same {role : Role} (v : Value) : Alike role v v
  /-- Objects that have the same of the members that are read, each of them alike in both. -/
  | members {kind : Kind} {v w : Value} (hv : v.isObject = true) (hw : w.isObject = true)
      (hsame : ∀ member ∈ kind.reads v,
        (v.get? (utf8 member.1)).isSome = (w.get? (utf8 member.1)).isSome)
      (halike : ∀ member ∈ kind.reads v, ∀ a b, v.get? (utf8 member.1) = some a →
        w.get? (utf8 member.1) = some b → Alike member.2 a b) :
      Alike (.object kind) v w
  | entries {v w : Value} {vs ws : List Value} (hfirst : Alike (.object (.entry true)) v w)
      (hrest : List.Forall₂ (Alike (.object (.entry false))) vs ws) :
      Alike .entries (.array (v :: vs)) (.array (w :: ws))
  | sortKeys {v w : Value} (h : List.Forall₂ (Alike (.object .sortKey)) v.items w.items) :
      Alike .sortKeys v w

namespace Alike

variable {kind : Kind} {v w : Value}

theorem eq_of_whole (h : Alike .whole v w) : v = w := by
  cases h
  rfl

theorem isObject_eq (h : Alike (.object kind) v w) : v.isObject = w.isObject := by
  cases h with
  | same => rfl
  | members hv hw _ _ => rw [hv, hw]

/-- A member that is read is missing from both, or alike in both. -/
theorem agreeAt (h : Alike (.object kind) v w) (key : String) (role : Role)
    (hread : (key, role) ∈ kind.reads v) : v.AgreeAt key (Alike role) w := by
  cases h with
  | same => exact Or.inl rfl
  | members _ _ hsame halike =>
    have hpresent := hsame _ hread
    cases hv : v.get? (utf8 key) with
    | none =>
      rw [hv] at hpresent
      have hw : w.get? (utf8 key) = none := by simpa using hpresent
      exact Or.inl (hv.trans hw.symm)
    | some a =>
      rw [hv] at hpresent
      obtain ⟨b, hw⟩ := Option.isSome_iff_exists.mp hpresent.symm
      exact Or.inr ⟨a, b, hv, hw, halike _ hread a b hv hw⟩

/-- A member that is read as a whole is missing from both, or the same in both. -/
theorem get?_eq (h : Alike (.object kind) v w) (key : String)
    (hread : (key, .whole) ∈ kind.reads v) : v.get? (utf8 key) = w.get? (utf8 key) :=
  (h.agreeAt key .whole hread).map_eq (f := id) fun _ _ halike => congrArg some halike.eq_of_whole

end Alike

end Descriptor

open Descriptor

/-! ### Operands and comparisons -/

theorem Operand.ofJson_eq_of_alike {v w : Value} (h : Alike (.object .operand) v w) :
    ofJson v = ofJson w := by
  have hfield := h.get?_eq "field" (by simp [Kind.reads])
  unfold ofJson
  rw [h.isObject_eq, ← hfield]
  cases hv : v.get? (utf8 "field") with
  | some reference => rfl
  | none =>
    have hvalue := h.get?_eq "value" (by simp [Kind.reads, unlessShadowed, hv])
    rw [hvalue]

namespace Comparison

theorem decodeQuantifier_eq_of_alike {v w : Value} (h : Alike (.object .comparison) v w) :
    decodeQuantifier v = decodeQuantifier w := by
  have hquantifier := h.get?_eq "quantifier" (by simp [Kind.reads])
  unfold decodeQuantifier Value.textOr?
  rw [h.isObject_eq, hquantifier]

theorem decodeSubject_eq_of_alike {v w : Value} (h : Alike (.object .comparison) v w) :
    decodeSubject v = decodeSubject w := by
  have hstatement := h.get?_eq "statement" (by simp [Kind.reads])
  unfold decodeSubject
  rw [← hstatement, decodeQuantifier_eq_of_alike h]
  cases hv : v.get? (utf8 "statement") with
  | some statement => rfl
  | none =>
    have hfield := h.get?_eq "field" (by simp [Kind.reads, unlessShadowed, hv])
    rw [hfield]

theorem decodeMembers_eq_of_alike {v w : Value} (h : Alike (.object .comparison) v w) :
    decodeMembers v = decodeMembers w := by
  have hoperator := h.get?_eq "operator" (by simp [Kind.reads])
  have hoperand := h.agreeAt "operand" (.object .operand) (by simp [Kind.reads])
  unfold decodeMembers Value.textAt?
  rw [decodeSubject_eq_of_alike h, hoperator]
  refine bind_congr fun subject => bind_congr fun _ => bind_congr fun op => ?_
  apply hoperand.orFault_bind_eq
  intro a b halike
  rw [Operand.ofJson_eq_of_alike halike]

theorem ofJson_eq_of_alike {v w : Value} (h : Alike (.object .comparison) v w) :
    ofJson v = ofJson w := by
  rw [ofJson, ofJson, h.isObject_eq, decodeMembers_eq_of_alike h]

end Comparison

/-! ### Filters -/

namespace Filter

section Entries

variable {decodeGroup : Value → Checked Filter}
  (hgroup : ∀ a b, Alike (.object .filter) a b → decodeGroup a = decodeGroup b)

include hgroup

theorem decodeTerm_eq_of_alike {isFirst : Bool} {v w : Value}
    (h : Alike (.object (.entry isFirst)) v w) :
    decodeTerm decodeGroup v = decodeTerm decodeGroup w := by
  have hfilter := h.agreeAt "filter" (.object .filter) (by simp [Kind.reads])
  unfold decodeTerm
  rcases hfilter with hfilter | ⟨a, b, hv, hw, halike⟩
  · rw [← hfilter]
    cases hv : v.get? (utf8 "filter") with
    | some inner => rfl
    | none =>
      have hcomparison := h.agreeAt "comparison" (.object .comparison)
        (by simp [Kind.reads, unlessShadowed, hv])
      rcases hcomparison with hcomparison | ⟨a, b, hv, hw, halike⟩
      · rw [hcomparison]
      · simp only [hv, hw, Comparison.ofJson_eq_of_alike halike]
  · simp only [hv, hw, hgroup a b halike]

/-- The connective of an entry is read behind other entries only. -/
theorem decodeEntry_eq_of_alike (before : Filter) {v w : Value}
    (h : Alike (.object (.entry before.isEmpty)) v w) :
    decodeEntry decodeGroup before v = decodeEntry decodeGroup before w := by
  have hconnective : decodeConnective before v = decodeConnective before w := by
    unfold decodeConnective Value.textAt?
    split
    · rfl
    · rename_i hbefore
      rw [h.get?_eq "op" (by simp [Kind.reads, hbefore])]
  unfold decodeEntry
  rw [h.isObject_eq, hconnective, decodeTerm_eq_of_alike hgroup h]

/-- The first of some entries may stand behind others already, the others stand behind it. -/
theorem decodeEntries_eq_of_alike {vs ws : List Value}
    (hrest : List.Forall₂ (Alike (.object (.entry false))) vs ws) {before : Filter} {v w : Value}
    (hfirst : Alike (.object (.entry before.isEmpty)) v w) :
    decodeEntries decodeGroup before (v :: vs) = decodeEntries decodeGroup before (w :: ws) := by
  induction hrest generalizing before v w with
  | nil =>
    rw [decodeEntries_singleton, decodeEntries_singleton,
      decodeEntry_eq_of_alike hgroup before hfirst]
  | cons hsecond _ ih =>
    rw [decodeEntries, decodeEntries, ← decodeEntry_eq_of_alike hgroup before hfirst]
    cases hf : decodeEntry decodeGroup before v with
    | error e => rfl
    | ok f =>
      obtain ⟨op, t, _, _, rfl⟩ := decodeEntry_eq_ok_iff.mp hf
      exact ih ((isEmpty_push before op t).symm ▸ hsecond)

end Entries

/-- **Filters that are alike are decoded alike**, with every number of levels. -/
theorem decodeWithin_eq_of_alike {levels : Nat} {v w : Value}
    (h : Alike (.object .filter) v w) : decodeWithin levels v = decodeWithin levels w := by
  induction levels generalizing v w with
  | zero => rfl
  | succ levels ih =>
    have hgroup : ∀ a b, Alike (.object .filter) a b →
        decodeWithin levels a = decodeWithin levels b := fun _ _ => ih
    have hterms := h.agreeAt "terms" .entries (by simp [Kind.reads])
    unfold decodeWithin terms?
    rcases hterms with hterms | ⟨a, b, hv, hw, halike⟩
    · rw [hterms]
    · cases halike with
      | same => rw [hv, hw]
      | entries hfirst hrest =>
        simp only [hv, hw, orFault_some]
        exact decodeEntries_eq_of_alike hgroup hrest hfirst

end Filter

/-! ### Sources -/

/-- A hop is read from the members of a traversal, and from those of a join. -/
theorem Hop.ofJson_eq_of_alike {kind : Kind} (hkind : ∀ v, hopMembers ⊆ kind.reads v) {v w : Value}
    (h : Alike (.object kind) v w) : ofJson v = ofJson w := by
  have hget : ∀ key, (key, Role.whole) ∈ hopMembers → v.get? (utf8 key) = w.get? (utf8 key) :=
    fun key hkey => h.get?_eq _ (hkind v hkey)
  unfold ofJson DepthRange.ofJson Value.textAt? Value.flagOr?
  rw [h.isObject_eq, hget "min_depth" (by decide), hget "max_depth" (by decide),
    hget "direction" (by decide), hget "named_graph" (by decide)]

namespace Source

theorem ofTraversalJson_eq_of_alike {v w : Value} (h : Alike (.object .traversal) v w) :
    ofTraversalJson v = ofTraversalJson w := by
  have hhop : Hop.ofJson v = Hop.ofJson w :=
    Hop.ofJson_eq_of_alike (fun _ => List.subset_append_left _ _) h
  have htarget := h.get?_eq "target" (by simp [Kind.reads])
  have hstart := h.get?_eq "start_vertex" (by simp [Kind.reads])
  unfold ofTraversalJson Value.textAt?
  rw [hhop, htarget, hstart]

theorem ofJson_eq_of_alike {v w : Value} (h : Alike (.object .query) v w) :
    ofJson v = ofJson w := by
  have htraversal := h.agreeAt "traversal" (.object .traversal) (by simp [Kind.reads])
  unfold ofJson
  rcases htraversal with htraversal | ⟨a, b, hv, hw, halike⟩
  · rw [← htraversal]
    cases hv : v.get? (utf8 "traversal") with
    | some t => rfl
    | none =>
      have hcollection := h.get?_eq "collection" (by simp [Kind.reads, unlessShadowed, hv])
      rw [hcollection]
  · simp only [hv, hw, ofTraversalJson_eq_of_alike halike]

end Source

/-! ### Scopes -/

namespace SortKey

theorem ofJson_eq_of_alike {v w : Value} (h : Alike (.object .sortKey) v w) :
    ofJson v = ofJson w := by
  have hfield := h.get?_eq "field" (by simp [Kind.reads])
  have hdirection := h.get?_eq "direction" (by simp [Kind.reads])
  unfold ofJson Value.textAt? Value.textOr?
  rw [h.isObject_eq, hfield, hdirection]

theorem ofJsonList_eq_of_alike {vs ws : List Value}
    (h : List.Forall₂ (Alike (.object .sortKey)) vs ws) : ofJsonList vs = ofJsonList ws := by
  induction h with
  | nil => rfl
  | cons hkey _ ih => rw [ofJsonList, ofJsonList, ofJson_eq_of_alike hkey, ih]

end SortKey

theorem Limit.ofJson_eq_of_alike {v w : Value} (h : Alike (.object .limit) v w) :
    ofJson v = ofJson w := by
  have hcount := h.get?_eq "count" (by simp [Kind.reads])
  have hskip := h.get?_eq "skip" (by simp [Kind.reads])
  unfold ofJson decodeSkip
  rw [hcount, hskip]

namespace Scope

theorem decodeOptional_eq_of_agreeAt {ε α : Type} {decode : Value → Except ε α} {key : String}
    {role : Role} {v w : Value} (hdecode : ∀ a b, Alike role a b → decode a = decode b)
    (h : v.AgreeAt key (Alike role) w) :
    decodeOptional decode (v.get? (utf8 key)) = decodeOptional decode (w.get? (utf8 key)) := by
  apply h.map_eq
  intro a b halike
  rw [decodeOptional, decodeOptional, hdecode a b halike]

theorem decodeSorts_eq_of_alike {v w : Value} (h : Alike .sortKeys v w) :
    decodeSorts (some v) = decodeSorts (some w) := by
  cases h with
  | same => rfl
  | sortKeys hitems => exact SortKey.ofJsonList_eq_of_alike hitems

theorem ofJson_eq_of_alike {v w : Value} (h : Alike (.object .query) v w) :
    ofJson v = ofJson w := by
  have hfilters : ∀ key, (key, .object .filter) ∈ Kind.query.reads v →
      decodeOptional Filter.ofJson (v.get? (utf8 key)) =
        decodeOptional Filter.ofJson (w.get? (utf8 key)) := fun key hkey =>
    decodeOptional_eq_of_agreeAt (fun _ _ => Filter.decodeWithin_eq_of_alike) (h.agreeAt key _ hkey)
  have hsorts : decodeSorts (v.get? (utf8 "sort")) = decodeSorts (w.get? (utf8 "sort")) :=
    (h.agreeAt "sort" .sortKeys (by simp [Kind.reads])).map_eq fun _ _ => decodeSorts_eq_of_alike
  have hlimit : decodeOptional Limit.ofJson (v.get? (utf8 "limit")) =
      decodeOptional Limit.ofJson (w.get? (utf8 "limit")) :=
    decodeOptional_eq_of_agreeAt (fun _ _ => Limit.ofJson_eq_of_alike)
      (h.agreeAt "limit" (.object .limit) (by simp [Kind.reads]))
  have hdistinct := h.get?_eq "distinct" (by simp [Kind.reads])
  unfold ofJson Value.flagOr?
  rw [h.isObject_eq, Source.ofJson_eq_of_alike h, hfilters "filter" (by simp [Kind.reads]),
    hfilters "prune" (by simp [Kind.reads]), hsorts, hlimit, hdistinct]

end Scope

/-! ### Chains -/

namespace Query

theorem decodeJoin_eq_of_alike {decodeNested : Value → Checked Query}
    (hnested : ∀ a b, Alike (.object .query) a b → decodeNested a = decodeNested b) {v w : Value}
    (h : Alike (.object .join) v w) :
    decodeJoin decodeNested (some v) = decodeJoin decodeNested (some w) := by
  have hhop : Hop.ofJson v = Hop.ofJson w :=
    Hop.ofJson_eq_of_alike (fun _ => List.subset_append_left _ _) h
  have hquery := h.agreeAt "query" (.object .query) (by simp [Kind.reads])
  unfold decodeJoin
  simp only [hhop]
  refine bind_congr fun hop => hquery.orFault_bind_eq fun a b halike => ?_
  rw [hnested a b halike]

/-- **Queries that are alike are decoded alike**, with every number of scopes. -/
theorem decodeWithin_eq_of_alike {scopes : Nat} {v w : Value} (h : Alike (.object .query) v w) :
    decodeWithin scopes v = decodeWithin scopes w := by
  -- The scopes of a chain are read from the outside in, so the induction is on how many there may
  -- be, for all values.
  induction scopes generalizing v w with
  | zero => rfl
  | succ scopes ih =>
    have hjoin := h.agreeAt "join" (.object .join) (by simp [Kind.reads])
    have hjoins : decodeJoin (decodeWithin scopes) (v.get? (utf8 "join")) =
        decodeJoin (decodeWithin scopes) (w.get? (utf8 "join")) :=
      hjoin.map_eq fun _ _ => decodeJoin_eq_of_alike fun _ _ => ih
    unfold decodeWithin decodeMembers
    rw [h.isObject_eq, Scope.ofJson_eq_of_alike h, hjoins]

end Query

/-! ### One member that differs -/

namespace Descriptor.Alike

variable {kind : Kind}

/-- A member that is not read makes no difference. -/
theorem insert {members : List (Text × Value)} {key : Text} (x : Value)
    (hunread : ∀ member ∈ kind.reads (.object members), utf8 member.1 ≠ key) :
    Alike (.object kind) (.object members) (.object (Value.insertMember key x members)) := by
  have hget : ∀ member ∈ kind.reads (.object members),
      (Value.object (Value.insertMember key x members)).get? (utf8 member.1) =
        (Value.object members).get? (utf8 member.1) := by
    intro member hmember
    rw [Value.get?, Value.lookup?_insertMember, if_neg (hunread member hmember), Value.get?]
  refine .members rfl rfl (fun member hmember => ?_) fun member hmember a b ha hb => ?_
  · rw [hget member hmember]
  · rw [hget member hmember, ha] at hb
    cases hb
    exact .same a

/-- A member may be another one if it is not read, or like another one if it is. -/
theorem change {key : String} {a b : Value} (before after : List (Text × Value))
    (h : ∀ role, (key, role) ∈ kind.reads (.object (before ++ (utf8 key, a) :: after)) →
      Alike role a b) :
    Alike (.object kind) (.object (before ++ (utf8 key, a) :: after))
      (.object (before ++ (utf8 key, b) :: after)) := by
  have hlookup : ∀ name x, (Value.object (before ++ (utf8 key, x) :: after)).get? (utf8 name) =
      (Value.lookup? (utf8 name) before).or
        (if name = key then some x else Value.lookup? (utf8 name) after) := by
    intro name x
    simp [Value.get?, Value.lookup?_append, Value.lookup?]
  refine .members rfl rfl (fun member _ => ?_) fun member hread x y hx hy => ?_
  · rw [hlookup, hlookup]
    by_cases hname : member.1 = key <;> simp [hname]
  · obtain ⟨name, role⟩ := member
    dsimp only at hx hy ⊢
    rw [hlookup] at hx hy
    cases hbefore : Value.lookup? (utf8 name) before with
    | some z =>
      simp only [hbefore, Option.some_or, Option.some.injEq] at hx hy
      exact hx ▸ hy ▸ .same z
    | none =>
      simp only [hbefore, Option.none_or] at hx hy
      by_cases hname : name = key
      · subst hname
        simp only [if_true, Option.some.injEq] at hx hy
        exact hx ▸ hy ▸ h role hread
      · simp only [hname, if_false] at hx hy
        exact Option.some.inj (hx.symm.trans hy) ▸ .same x

theorem behindUsers {v w : Value} (h : Alike (.object .query) v w) (scopes : Nat) :
    Alike (.object .query) (v.behindUsers scopes) (w.behindUsers scopes) := by
  induction scopes with
  | zero => exact h
  | succ scopes ih =>
    refine change [_] [] fun role hrole => ?_
    obtain rfl : role = .object .join := by simpa [Kind.reads, unlessShadowed] using hrole
    refine change _ [] fun role hrole => ?_
    obtain rfl : role = .object .query := by simpa [Kind.reads, hopMembers] using hrole
    exact ih

end Descriptor.Alike

/-! ### Descriptors -/

/-- **What is not read does not matter.** Descriptors that are the same but for members that are
not read are the same query or have the same error. -/
theorem unread_members_indifferent {v w : Value} (h : Alike (.object .query) v w) :
    Query.ofJson v = Query.ofJson w :=
  Query.decodeWithin_eq_of_alike h

/-- Users under a filter of one entry. -/
def usersWith (entry : List (Text × Value)) : Value :=
  .object [(utf8 "collection", .string (utf8 "User")),
    (utf8 "filter", .object [(utf8 "terms", .array [.object entry])])]

/-- An entry that asks for adults. -/
def adultsEntry : List (Text × Value) :=
  [(utf8 "comparison", .object [(utf8 "field", .string (utf8 "age")),
    (utf8 "operand", .object [(utf8 "value", .unsigned 18)]),
    (utf8 "operator", .string (utf8 ">="))])]

/-- The connective of a first entry is not read, two joins down, and can be anything. -/
theorem unread_members_indifferent_behindUsers :
    let plain := (usersWith adultsEntry).behindUsers 2
    let strayed := (usersWith (Value.insertMember (utf8 "op") .null adultsEntry)).behindUsers 2
    Alike (.object .query) plain strayed ∧ Query.ofJson plain = Query.ofJson strayed ∧
      (Query.ofJson strayed).isOk = true := by
  intro plain strayed
  have hentry : Alike (.object (.entry true)) (.object adultsEntry)
      (.object (Value.insertMember (utf8 "op") .null adultsEntry)) :=
    .insert .null (by decide +kernel)
  have hfilter : Alike (.object .filter) (.object [(utf8 "terms", .array [.object adultsEntry])])
      (.object [(utf8 "terms",
        .array [.object (Value.insertMember (utf8 "op") .null adultsEntry)])]) := by
    refine .change [] [] fun role hrole => ?_
    obtain rfl : role = .entries := by simpa [Kind.reads] using hrole
    exact .entries hentry .nil
  have husers : Alike (.object .query) (usersWith adultsEntry)
      (usersWith (Value.insertMember (utf8 "op") .null adultsEntry)) := by
    refine .change [_] [] fun role hrole => ?_
    obtain rfl : role = .object .filter := by simpa [Kind.reads, unlessShadowed] using hrole
    exact hfilter
  have halike : Alike (.object .query) plain strayed := husers.behindUsers 2
  exact ⟨halike, unread_members_indifferent halike, by decide +kernel⟩

end GraphQuery
