import GraphQuery.Query.Descriptor.Chain
import Mathlib.Data.List.Forall2

/-!
# What decoders do not look at

Descriptors may nest deeper than any decoder goes. Three limits stop decoders, and each sees to it
that nothing below it matters: neither whether something is accepted, nor which error there is, nor
what is decoded. To say so, two descriptors are compared rule by rule of the grammar: they agree
where they are the same but for what is below the limits.

* `Value.AgreeAsLiteral`, `Value.AgreeAsFilter` and `Value.AgreeAsQuery` are these relations, by
  recursion on the levels that are left before a limit.
* `Value.AgreeAsLiteral.eq_or_lt_depth`: literals that agree are the same, or both are too deep.
* `below_limits_unread`: descriptors that agree have the same outcome.
-/

namespace GraphQuery

namespace Value

/-! ### Descriptors that agree -/

/-- Arrays of as many items, each of which agrees with its counterpart. -/
def AgreeInItems (agree : Value → Value → Prop) (v w : Value) : Prop :=
  ∃ vs ws, v = .array vs ∧ w = .array ws ∧ List.Forall₂ agree vs ws

/-- Objects of the same keys, where the members of a key agree in the way that goes with it. -/
def AgreeInMembers (agree : Text → Value → Value → Prop) (v w : Value) : Prop :=
  ∃ ms ns, v = .object ms ∧ w = .object ns ∧
    List.Forall₂ (fun m n => m.1 = n.1 ∧ agree m.1 m.2 n.2) ms ns

/-- The same values, or objects that are the same but for members of some keys, which only have to
agree. -/
def AgreeBut (parts : List (String × (Value → Value → Prop))) (v w : Value) : Prop :=
  v = w ∨ AgreeInMembers
    (fun key a b => a = b ∨ ∃ part ∈ parts, key = utf8 part.1 ∧ part.2 a b) v w

/-- Arrays and objects. -/
def IsContainer : Value → Prop
  | .array _ | .object _ => True
  | _ => False

/-- The same values but for what is in arrays and objects that some others are around already. -/
def AgreeAsLiteral : Nat → Value → Value → Prop
  | 0, v, w => v = w ∨ v.IsContainer ∧ w.IsContainer
  | levels + 1, v, w => v = w ∨ AgreeInItems (AgreeAsLiteral levels) v w ∨
      AgreeInMembers (fun _ => AgreeAsLiteral levels) v w

def AgreeAsOperand : Value → Value → Prop :=
  AgreeBut [("value", AgreeAsLiteral 256)]

def AgreeAsComparison : Value → Value → Prop :=
  AgreeBut [("operand", AgreeAsOperand)]

/-- The same filters but for the operands, and for what stands in place of a filter that some others
are around already. -/
def AgreeAsFilter : Nat → Value → Value → Prop
  | 0, _, _ => True
  | levels + 1, v, w => AgreeBut
      [("terms", AgreeInItems (AgreeBut
        [("filter", AgreeAsFilter levels), ("comparison", AgreeAsComparison)]))] v w

/-- The same queries but for the filters, and for what stands in place of a query that some others
are joined to already. -/
def AgreeAsQuery : Nat → Value → Value → Prop
  | 0, _, _ => True
  | scopes + 1, v, w => AgreeBut
      [("filter", AgreeAsFilter 256), ("prune", AgreeAsFilter 256),
        ("join", AgreeBut [("query", AgreeAsQuery scopes)])] v w

/-! ### What they have in common -/

/-- The member of a key is missing from both, or the same in both, or agrees. -/
def AgreeAt (key : String) (agree : Value → Value → Prop) (v w : Value) : Prop :=
  v.get? (utf8 key) = w.get? (utf8 key) ∨
    ∃ a b, v.get? (utf8 key) = some a ∧ w.get? (utf8 key) = some b ∧ agree a b

namespace AgreeBut

variable {parts : List (String × (Value → Value → Prop))} {v w : Value}

theorem isObject_eq (h : AgreeBut parts v w) : v.isObject = w.isObject := by
  rcases h with rfl | ⟨ms, ns, rfl, rfl, _⟩ <;> rfl

/-- A member is missing from both or the same in both, unless it is one that only has to agree. -/
theorem agreeAt (h : AgreeBut parts v w) (key : String) :
    v.AgreeAt key (fun a b => ∃ part ∈ parts, key = part.1 ∧ part.2 a b) w := by
  rcases h with rfl | ⟨ms, ns, rfl, rfl, hmembers⟩
  · exact Or.inl rfl
  · unfold AgreeAt
    induction hmembers with
    | nil => exact Or.inl rfl
    | @cons m n ms ns hmember _ ih =>
      obtain ⟨k, a⟩ := m
      obtain ⟨k', b⟩ := n
      obtain ⟨hk, hagree⟩ := hmember
      obtain rfl : k = k' := hk
      simp only [get?, lookup?] at ih ⊢
      by_cases hkey : utf8 key = k
      · subst hkey
        simp only [if_true, Option.some.injEq, utf8_inj] at hagree ⊢
        exact hagree.imp id fun hpart => ⟨a, b, rfl, rfl, hpart⟩
      · simpa only [hkey, if_false] using ih

/-- Objects that differ in one member agree where that member only has to. -/
theorem of_member {key : String} {agree : Value → Value → Prop} {a b : Value}
    (before after : List (Text × Value)) (hpart : (key, agree) ∈ parts) (h : agree a b) :
    AgreeBut parts (.object (before ++ (utf8 key, a) :: after))
      (.object (before ++ (utf8 key, b) :: after)) := by
  have hsame : ∀ members : List (Text × Value), List.Forall₂ (fun m n => m.1 = n.1 ∧
      (m.2 = n.2 ∨ ∃ part ∈ parts, m.1 = utf8 part.1 ∧ part.2 m.2 n.2)) members members :=
    fun members => List.forall₂_same.mpr fun _ _ => ⟨rfl, Or.inl rfl⟩
  refine Or.inr ⟨_, _, rfl, rfl, List.rel_append (hsame before) (.cons ?_ (hsame after))⟩
  exact ⟨rfl, Or.inr ⟨_, hpart, rfl, h⟩⟩

/-- A member that does not only have to agree is the same in both. -/
theorem get?_eq (h : AgreeBut parts v w) (key : String) (hkey : ∀ part ∈ parts, key ≠ part.1) :
    v.get? (utf8 key) = w.get? (utf8 key) := by
  rcases h.agreeAt key with heq | ⟨_, _, _, _, part, hpart, hpartkey, _⟩
  · exact heq
  · exact absurd hpartkey (hkey part hpart)

end AgreeBut

namespace AgreeAt

variable {α : Type} {key : String} {agree : Value → Value → Prop} {v w : Value}

/-- What treats alike members that agree treats both values alike. -/
theorem map_eq {f : Option Value → α} (h : v.AgreeAt key agree w)
    (hf : ∀ a b, agree a b → f (some a) = f (some b)) :
    f (v.get? (utf8 key)) = f (w.get? (utf8 key)) := by
  rcases h with h | ⟨a, b, hv, hw, hagree⟩
  · rw [h]
  · rw [hv, hw, hf a b hagree]

/-- So do the steps that follow where the member has to be there. -/
theorem orFault_bind_eq {ε : Type} {f : Value → Except ε α} {fault : ε} (h : v.AgreeAt key agree w)
    (hf : ∀ a b, agree a b → f a = f b) :
    (orFault (v.get? (utf8 key)) fault >>= f) = (orFault (w.get? (utf8 key)) fault >>= f) :=
  h.map_eq (f := fun member => orFault member fault >>= f) hf

end AgreeAt

/-! ### Literals -/

/-- Lists whose parts are the same or too deep are the same, or have a part each that is too deep. -/
theorem eq_or_lt_of_forall₂ {α : Type} (depth : α → Nat) (greatest : List α → Nat)
    (hcons : ∀ x xs, greatest (x :: xs) = max (depth x) (greatest xs)) {n : Nat} {xs ys : List α}
    (h : List.Forall₂ (fun x y => x = y ∨ n < depth x ∧ n < depth y) xs ys) :
    xs = ys ∨ n < greatest xs ∧ n < greatest ys := by
  induction h with
  | nil => exact Or.inl rfl
  | cons hpart _ ih =>
    rw [hcons, hcons]
    rcases hpart with rfl | hpart
    · rcases ih with rfl | ih
      · exact Or.inl rfl
      · exact Or.inr (by omega)
    · exact Or.inr (by omega)

/-- **Literals that agree are the same, or both too deep.** -/
theorem AgreeAsLiteral.eq_or_lt_depth {levels : Nat} {v w : Value} (h : v.AgreeAsLiteral levels w) :
    v = w ∨ levels < v.depth ∧ levels < w.depth := by
  induction levels generalizing v w with
  | zero =>
    have hpos : ∀ {u : Value}, u.IsContainer → 0 < u.depth := by
      intro u hu
      cases u with
      | array items => exact Nat.succ_pos _
      | object members => exact Nat.succ_pos _
      | _ => exact hu.elim
    exact h.imp id (And.imp hpos hpos)
  | succ levels ih =>
    rcases h with rfl | ⟨vs, ws, rfl, rfl, hitems⟩ | ⟨ms, ns, rfl, rfl, hmembers⟩
    · exact Or.inl rfl
    · have hdepth := eq_or_lt_of_forall₂ depth itemsDepth (fun _ _ => rfl)
        (hitems.imp fun _ _ h => ih h)
      simp only [array.injEq, depth]
      exact hdepth.imp_right (And.imp Nat.succ_lt_succ Nat.succ_lt_succ)
    · have hmember : ∀ m n : Text × Value, m.1 = n.1 ∧ m.2.AgreeAsLiteral levels n.2 →
          m = n ∨ levels < m.2.depth ∧ levels < n.2.depth := by
        rintro ⟨k, a⟩ ⟨k', b⟩ ⟨hk, hagree⟩
        obtain rfl : k = k' := hk
        exact (ih hagree).imp_left fun hvalue => congrArg (Prod.mk k) hvalue
      have hdepth := eq_or_lt_of_forall₂ (·.2.depth) membersDepth (fun _ _ => rfl)
        (hmembers.imp hmember)
      simp only [object.injEq, depth]
      exact hdepth.imp_right (And.imp Nat.succ_lt_succ Nat.succ_lt_succ)

end Value

/-! ### Operands and comparisons -/

theorem Operand.ofValueJson_eq_of_agree {v w : Value} (h : v.AgreeAsLiteral maxNesting w) :
    ofValueJson v = ofValueJson w := by
  rcases h.eq_or_lt_depth with rfl | ⟨hv, hw⟩
  · rfl
  · rw [ofValueJson, ofValueJson, if_neg (Nat.not_le.mpr hv), if_neg (Nat.not_le.mpr hw)]

theorem Operand.ofJson_eq_of_agree {v w : Value} (h : v.AgreeAsOperand w) :
    ofJson v = ofJson w := by
  have hfield : v.get? (utf8 "field") = w.get? (utf8 "field") := h.get?_eq "field" (by simp)
  have hvalue : v.AgreeAt "value" (Value.AgreeAsLiteral 256) w := by
    simpa using h.agreeAt "value"
  unfold ofJson
  rw [h.isObject_eq, hfield]
  cases w.get? (utf8 "field") with
  | some reference => rfl
  | none =>
    rcases hvalue with hvalue | ⟨a, b, hv, hw, hagree⟩
    · rw [hvalue]
    · simp only [hv, hw, ofValueJson_eq_of_agree hagree]

namespace Comparison

theorem decodeMembers_eq_of_agree {v w : Value} (h : v.AgreeAsComparison w) :
    decodeMembers v = decodeMembers w := by
  have hget : ∀ key, key ≠ "operand" → v.get? (utf8 key) = w.get? (utf8 key) :=
    fun key hkey => h.get?_eq key (by simpa using hkey)
  have hoperand : v.AgreeAt "operand" Value.AgreeAsOperand w := by
    simpa using h.agreeAt "operand"
  have hquantifier : decodeQuantifier v = decodeQuantifier w := by
    unfold decodeQuantifier Value.textOr?
    rw [h.isObject_eq, hget "quantifier" (by decide)]
  have hsubject : decodeSubject v = decodeSubject w := by
    unfold decodeSubject
    rw [hget "statement" (by decide), hget "field" (by decide), hquantifier]
  unfold decodeMembers Value.textAt?
  rw [hsubject, hget "operator" (by decide)]
  refine bind_congr fun subject => bind_congr fun _ => bind_congr fun op => ?_
  apply hoperand.orFault_bind_eq
  intro a b hagree
  rw [Operand.ofJson_eq_of_agree hagree]

theorem ofJson_eq_of_agree {v w : Value} (h : v.AgreeAsComparison w) : ofJson v = ofJson w := by
  rw [ofJson, ofJson, h.isObject_eq, decodeMembers_eq_of_agree h]

end Comparison

/-! ### Filters -/

namespace Filter

section Entries

variable {decodeGroup : Value → Checked Filter} {agree : Value → Value → Prop}
  (hgroup : ∀ a b, agree a b → decodeGroup a = decodeGroup b)

include hgroup

theorem decodeTerm_eq_of_agree {v w : Value}
    (h : v.AgreeBut [("filter", agree), ("comparison", Value.AgreeAsComparison)] w) :
    decodeTerm decodeGroup v = decodeTerm decodeGroup w := by
  have hfilter : v.AgreeAt "filter" agree w := by simpa using h.agreeAt "filter"
  have hcomparison : v.AgreeAt "comparison" Value.AgreeAsComparison w := by
    simpa using h.agreeAt "comparison"
  unfold decodeTerm
  rcases hfilter with hfilter | ⟨a, b, hv, hw, hagree⟩
  · rw [hfilter]
    cases w.get? (utf8 "filter") with
    | some inner => rfl
    | none =>
      rcases hcomparison with hcomparison | ⟨a, b, hv, hw, hagree⟩
      · rw [hcomparison]
      · simp only [hv, hw, Comparison.ofJson_eq_of_agree hagree]
  · simp only [hv, hw, hgroup a b hagree]

theorem decodeEntry_eq_of_agree (before : Filter) {v w : Value}
    (h : v.AgreeBut [("filter", agree), ("comparison", Value.AgreeAsComparison)] w) :
    decodeEntry decodeGroup before v = decodeEntry decodeGroup before w := by
  have hconnective : decodeConnective before v = decodeConnective before w := by
    unfold decodeConnective Value.textAt?
    rw [h.get?_eq "op" (by simp)]
  unfold decodeEntry
  rw [h.isObject_eq, hconnective, decodeTerm_eq_of_agree hgroup h]

theorem decodeEntries_eq_of_agree {vs ws : List Value}
    (h : List.Forall₂
      (Value.AgreeBut [("filter", agree), ("comparison", Value.AgreeAsComparison)]) vs ws)
    (before : Filter) :
    decodeEntries decodeGroup before vs = decodeEntries decodeGroup before ws := by
  induction h generalizing before with
  | nil => rfl
  | cons hentry _ ih =>
    rw [decodeEntries, decodeEntries, decodeEntry_eq_of_agree hgroup before hentry]
    exact bind_congr ih

end Entries

/-- **Filters that agree are decoded alike**, with every number of levels. -/
theorem decodeWithin_eq_of_agree {levels : Nat} {v w : Value} (h : v.AgreeAsFilter levels w) :
    decodeWithin levels v = decodeWithin levels w := by
  induction levels generalizing v w with
  | zero => rfl
  | succ levels ih =>
    have hgroup : ∀ a b, a.AgreeAsFilter levels b → decodeWithin levels a = decodeWithin levels b :=
      fun _ _ => ih
    have hterms := h.agreeAt "terms"
    simp only [Value.AgreeAt, List.mem_singleton, exists_eq_left, true_and] at hterms
    unfold decodeWithin terms?
    rcases hterms with hterms | ⟨_, _, hv, hw, vs, ws, rfl, rfl, hentries⟩
    · rw [hterms]
    · simp only [hv, hw, orFault_some]
      exact decodeEntries_eq_of_agree hgroup hentries .empty

end Filter

/-! ### Queries -/

namespace Query

section Join

variable {decodeNested : Value → Checked Query} {agree : Value → Value → Prop}
  (hnested : ∀ a b, agree a b → decodeNested a = decodeNested b)

include hnested

theorem decodeJoin_eq_of_agree {v w : Value} (h : v.AgreeBut [("query", agree)] w) :
    decodeJoin decodeNested (some v) = decodeJoin decodeNested (some w) := by
  have hget : ∀ key, key ≠ "query" → v.get? (utf8 key) = w.get? (utf8 key) :=
    fun key hkey => h.get?_eq key (by simpa using hkey)
  have hquery : v.AgreeAt "query" agree w := by simpa using h.agreeAt "query"
  have hhop : Hop.ofJson v = Hop.ofJson w := by
    unfold Hop.ofJson DepthRange.ofJson Value.textAt? Value.flagOr?
    rw [h.isObject_eq, hget "min_depth" (by decide), hget "max_depth" (by decide),
      hget "direction" (by decide), hget "named_graph" (by decide)]
  unfold decodeJoin
  simp only [hhop]
  refine bind_congr fun hop => hquery.orFault_bind_eq fun a b hagree => ?_
  rw [hnested a b hagree]

end Join

/-- **Queries that agree are decoded alike**, with every number of scopes. -/
theorem decodeWithin_eq_of_agree {scopes : Nat} {v w : Value} (h : v.AgreeAsQuery scopes w) :
    decodeWithin scopes v = decodeWithin scopes w := by
  induction scopes generalizing v w with
  | zero => rfl
  | succ scopes ih =>
    have hfilter : v.AgreeAt "filter" (Value.AgreeAsFilter 256) w := by
      simpa using h.agreeAt "filter"
    have hprune : v.AgreeAt "prune" (Value.AgreeAsFilter 256) w := by
      simpa using h.agreeAt "prune"
    have hjoin : v.AgreeAt "join" (Value.AgreeBut [("query", Value.AgreeAsQuery scopes)]) w := by
      simpa using h.agreeAt "join"
    have hdecode : ∀ a b, a.AgreeAsFilter 256 b →
        Scope.decodeOptional Filter.ofJson (some a) =
          Scope.decodeOptional Filter.ofJson (some b) := by
      intro a b hagree
      have heq : Filter.ofJson a = Filter.ofJson b := Filter.decodeWithin_eq_of_agree hagree
      simp only [Scope.decodeOptional, heq]
    have hnested : ∀ a b, a.AgreeAsQuery scopes b → decodeWithin scopes a = decodeWithin scopes b :=
      fun _ _ => ih
    have hscope : Scope.ofJson v = Scope.ofJson w := by
      unfold Scope.ofJson Source.ofJson Value.flagOr?
      rw [h.isObject_eq, h.get?_eq "traversal" (by simp),
        h.get?_eq "collection" (by simp), h.get?_eq "sort" (by simp),
        h.get?_eq "limit" (by simp), h.get?_eq "distinct" (by simp),
        hfilter.map_eq hdecode, hprune.map_eq hdecode]
    have hjoins := hjoin.map_eq (f := decodeJoin (decodeWithin scopes)) fun _ _ =>
      decodeJoin_eq_of_agree hnested
    unfold decodeWithin decodeMembers
    rw [h.isObject_eq, hscope, hjoins]

end Query

/-- **Nothing below a limit is looked at.** Queries that are the same but for what is below the
limits are the same query or have the same error, and so are filters and operands. -/
theorem below_limits_unread :
    (∀ v w : Value, v.AgreeAsQuery 256 w → Query.ofJson v = Query.ofJson w) ∧
      (∀ v w : Value, v.AgreeAsFilter 256 w → Filter.ofJson v = Filter.ofJson w) ∧
      ∀ v w : Value, v.AgreeAsOperand w → Operand.ofJson v = Operand.ofJson w :=
  ⟨fun _ _ => Query.decodeWithin_eq_of_agree, fun _ _ => Filter.decodeWithin_eq_of_agree,
    fun _ _ => Operand.ofJson_eq_of_agree⟩

/-! ### Descriptors that nest -/

namespace Value

/-- A value with arrays around it. -/
def inArrays (v : Value) : Nat → Value
  | 0 => v
  | levels + 1 => .array [v.inArrays levels]

/-- What stands in place of a filter, with filters around it. -/
def inGroups (v : Value) : Nat → Value
  | 0 => v
  | levels + 1 =>
    .object [(utf8 "terms", .array [.object [(utf8 "filter", v.inGroups levels)]])]

/-- What stands in place of a query, joined to a chain of users. -/
def behindUsers (v : Value) : Nat → Value
  | 0 => v
  | scopes + 1 =>
    .object [(utf8 "collection", .string (utf8 "User")),
      (utf8 "join", .object ((Hop.mk .outbound ⟨1, 1⟩ false).members ++
        [(utf8 "query", v.behindUsers scopes)]))]

theorem agreeAsLiteral_inArrays {v w : Value} (hv : v.IsContainer) (hw : w.IsContainer)
    (levels : Nat) : (v.inArrays levels).AgreeAsLiteral levels (w.inArrays levels) := by
  induction levels with
  | zero => exact Or.inr ⟨hv, hw⟩
  | succ levels ih => exact Or.inr (Or.inl ⟨_, _, rfl, rfl, .cons ih .nil⟩)

theorem agreeAsFilter_inGroups (v w : Value) (levels : Nat) :
    (v.inGroups levels).AgreeAsFilter levels (w.inGroups levels) := by
  induction levels with
  | zero => trivial
  | succ levels ih =>
    refine AgreeBut.of_member [] [] List.mem_cons_self ?_
    refine ⟨_, _, rfl, rfl, .cons ?_ .nil⟩
    exact AgreeBut.of_member [] [] List.mem_cons_self ih

theorem agreeAsQuery_behindUsers (v w : Value) (scopes : Nat) :
    (v.behindUsers scopes).AgreeAsQuery scopes (w.behindUsers scopes) := by
  induction scopes with
  | zero => trivial
  | succ scopes ih =>
    have hjoin : ∀ hop : List (Text × Value), AgreeBut [("query", AgreeAsQuery scopes)]
        (.object (hop ++ [(utf8 "query", v.behindUsers scopes)]))
        (.object (hop ++ [(utf8 "query", w.behindUsers scopes)])) := fun hop =>
      AgreeBut.of_member hop [] List.mem_cons_self ih
    exact AgreeBut.of_member [_] [] (by simp) (hjoin _)

end Value

/-- Behind 256 users, in 256 groups and in 256 arrays everything is the same. -/
theorem below_limits_unread_nested :
    let name : Value := .string (utf8 "User")
    Query.ofJson (name.behindUsers 256) = Query.ofJson (Value.discarded.behindUsers 256) ∧
      Filter.ofJson (name.inGroups 256) = Filter.ofJson (Value.null.inGroups 256) ∧
      Operand.ofJson (.object [(utf8 "value", (Value.array [name]).inArrays 256)]) =
        Operand.ofJson (.object [(utf8 "value", (Value.object []).inArrays 256)]) := by
  intro name
  have hvalue := Value.agreeAsLiteral_inArrays (v := .array [name]) (w := .object [])
    trivial trivial 256
  exact ⟨below_limits_unread.1 _ _ (Value.agreeAsQuery_behindUsers _ _ 256),
    below_limits_unread.2.1 _ _ (Value.agreeAsFilter_inGroups _ _ 256),
    below_limits_unread.2.2 _ _ (Value.AgreeBut.of_member [] [] List.mem_cons_self hvalue)⟩

end GraphQuery
