import GraphQuery.Proofs.Canonical

/-!
# How descriptors hold their whole numbers

A program may hold a whole number that is not negative signed or unsigned; of texts, `0` is held
unsigned and `-0` signed. Decoders look at whole numbers in three places: the bounds of traversals
and joins, the literals, and the counts of limits. The first two do not show how a number is held.
The third takes only what is held unsigned.

Everything is compared with the canonical form, in which a number is held signed only where it is
negative: decoding the canonical form of a descriptor gives the canonical form of what the
descriptor gives.

* `SameOr`: two results are the same but for errors that are excused. `SameOr.bind` carries it
  through a sequence of steps.
* `Query.sameOr_decodeWithin`: a descriptor and its canonical form are decoded to the same, unless
  the descriptor is refused for a count that it holds signed.
* `outcomes_alike`: so two descriptors that differ in how their numbers are held have outcomes that
  cannot be told apart, with the same exception.
-/

namespace GraphQuery

/-! ### Decoding -/

theorem orFault_map_bind {ε α β γ : Type} (f : α → β) (value : Option α) (fault : ε)
    (next : β → Except ε γ) :
    (orFault (value.map f) fault >>= next) = (orFault value fault >>= fun a => next (f a)) := by
  cases value <;> rfl

namespace DepthRange

@[simp] theorem depthOf?_canonical (v : Value) : depthOf? v.canonical = depthOf? v := by
  refine Option.ext fun n => ?_
  rw [depthOf?_eq_some_iff, depthOf?_eq_some_iff, Value.isWhole_canonical_iff]

/-- A bound is read, or shown in its fault, however it is held. -/
theorem decodeBound_canonical (member : String) (v : Value) :
    decodeBound member v.canonical = decodeBound member v := by
  rw [decodeBound, decodeBound, depthOf?_canonical, Value.compact?_canonical]

theorem ofJson_canonical (j : Value) : ofJson j.canonical = ofJson j := by
  simp only [ofJson, Value.get?_canonical, orFault_map_bind, decodeBound_canonical]

end DepthRange

theorem Hop.ofJson_canonical (j : Value) : ofJson j.canonical = ofJson j := by
  simp only [ofJson, DepthRange.ofJson_canonical, Value.textAt?_canonical, Value.flagOr?_canonical]

theorem Source.ofJson_canonical (j : Value) : ofJson j.canonical = ofJson j := by
  rw [ofJson, ofJson, Value.get?_canonical, Value.get?_canonical]
  cases j.get? (utf8 "traversal") with
  | some t =>
    simp only [Option.map_some, ofTraversalJson, Hop.ofJson_canonical, Value.textAt?_canonical]
  | none =>
    cases j.get? (utf8 "collection") with
    | none => rfl
    | some c => simp only [Option.map_none, Option.map_some, ofCollectionJson, Value.text?_canonical]

theorem SortKey.ofJsonList_canonical (js : List Value) :
    ofJsonList (js.map Value.canonical) = ofJsonList js := by
  induction js with
  | nil => rfl
  | cons j js ih =>
    rw [List.map_cons, ofJsonList, ofJsonList, ih]
    simp only [ofJson, Value.textAt?_canonical, Value.textOr?_canonical]

theorem Operand.ofFieldJson_canonical (v : Value) :
    ofFieldJson v.canonical = canonical <$> ofFieldJson v := by
  have hsame : ofFieldJson v.canonical = ofFieldJson v :=
    Value.eq_of_canonical (fun _ _ => rfl) (fun _ => rfl) fun _ => rfl
  rw [hsame]
  cases v <;> rfl

theorem Operand.ofJson_canonical (j : Value) : ofJson j.canonical = canonical <$> ofJson j := by
  rw [ofJson, ofJson, Value.isObject_canonical, Value.get?_canonical, Value.get?_canonical]
  by_cases hobject : (!j.isObject) = true
  · rw [if_pos hobject, if_pos hobject]
    rfl
  rw [if_neg hobject, if_neg hobject]
  cases j.get? (utf8 "field") with
  | some reference => exact ofFieldJson_canonical reference
  | none =>
    cases j.get? (utf8 "value") with
    | none => rfl
    | some v =>
      simp only [Option.map_none, Option.map_some, ofValueJson, Value.depth_canonical]
      by_cases hdepth : v.depth ≤ maxNesting
      · rw [if_pos hdepth, if_pos hdepth]
        rfl
      · rw [if_neg hdepth, if_neg hdepth]
        rfl

namespace Comparison

theorem decodeSubject_canonical (j : Value) : decodeSubject j.canonical = decodeSubject j := by
  have hquantifier : decodeQuantifier j.canonical = decodeQuantifier j := by
    simp only [decodeQuantifier, Value.textOr?_canonical]
  rw [decodeSubject, decodeSubject, hquantifier, Value.get?_canonical, Value.get?_canonical]
  cases j.get? (utf8 "statement") with
  | some statement => simp only [Option.map_some, Value.text?_canonical]
  | none =>
    cases j.get? (utf8 "field") with
    | none => rfl
    | some field => simp only [Option.map_none, Option.map_some, Value.text?_canonical]

theorem decodeMembers_canonical (j : Value) :
    decodeMembers j.canonical = canonical <$> decodeMembers j := by
  simp only [decodeMembers, decodeSubject_canonical, Value.textAt?_canonical, Value.get?_canonical,
    orFault_map_bind, Operand.ofJson_canonical, asDecoded_map, map_bind, bind_map_left, map_pure,
    canonical]

theorem ofJson_canonical (j : Value) : ofJson j.canonical = canonical <$> ofJson j := by
  simp only [ofJson, Value.isObject_canonical, decodeMembers_canonical, catching_map, map_bind]

end Comparison

namespace Filter

/-- A term with its literals in the canonical form. -/
def canonicalTerm : Term → Term
  | .comparison c => .comparison c.canonical
  | .group inner => .group inner.canonical

theorem push_canonical (before : Filter) (op : Option Connective) (t : Term) :
    before.canonical.push op (canonicalTerm t) = (before.push op t).canonical := by
  cases t <;> rfl

section Entries

variable {decodeGroup : Value → Checked Filter}
  (hgroup : ∀ j, decodeGroup j.canonical = canonical <$> decodeGroup j)

include hgroup

theorem decodeTerm_canonical (j : Value) :
    decodeTerm decodeGroup j.canonical = canonicalTerm <$> decodeTerm decodeGroup j := by
  rw [decodeTerm, decodeTerm, Value.get?_canonical, Value.get?_canonical]
  cases j.get? (utf8 "filter") with
  | some inner =>
    simp only [Option.map_some, hgroup, bind_map_left, map_bind, map_pure, canonicalTerm]
  | none =>
    cases j.get? (utf8 "comparison") with
    | none => rfl
    | some c =>
      simp only [Option.map_none, Option.map_some, Comparison.ofJson_canonical, bind_map_left,
        map_bind, map_pure, canonicalTerm]

theorem decodeEntry_canonical (before : Filter) (j : Value) :
    decodeEntry decodeGroup before.canonical j.canonical =
      canonical <$> decodeEntry decodeGroup before j := by
  have hconnective : decodeConnective before.canonical j.canonical = decodeConnective before j := by
    simp only [decodeConnective, isEmpty_canonical, Value.textAt?_canonical]
  simp only [decodeEntry, Value.isObject_canonical, hconnective, decodeTerm_canonical hgroup,
    bind_map_left, map_bind, map_pure, push_canonical]

theorem decodeEntries_canonical (before : Filter) (js : List Value) :
    decodeEntries decodeGroup before.canonical (js.map Value.canonical) =
      canonical <$> decodeEntries decodeGroup before js := by
  induction js generalizing before with
  | nil => rfl
  | cons j js ih =>
    simp only [List.map_cons, decodeEntries, decodeEntry_canonical hgroup, bind_map_left, map_bind,
      ih]

end Entries

theorem terms?_canonical (j : Value) :
    terms? j.canonical = (terms? j).map (List.map Value.canonical) := by
  rw [terms?, terms?, Value.get?_canonical]
  cases j.get? (utf8 "terms") with
  | none => rfl
  | some w =>
    cases w with
    | array ts =>
      rw [Option.map_some, Value.canonical_array]
      rfl
    | signed n =>
      rcases Value.canonical_signed_cases n with ⟨-, heq⟩ | heq
      · rw [Option.map_some, heq]
        rfl
      · rw [Option.map_some, heq]
        rfl
    | _ => rfl

/-- **A filter is decoded from the canonical form of its descriptor in the canonical form.** -/
theorem decodeWithin_canonical (levels : Nat) (j : Value) :
    decodeWithin levels j.canonical = canonical <$> decodeWithin levels j := by
  induction levels generalizing j with
  | zero => rfl
  | succ levels ih =>
    rw [decodeWithin, decodeWithin, terms?_canonical, orFault_map_bind, map_bind]
    exact bind_congr fun terms => decodeEntries_canonical ih .empty terms

end Filter

/-! ### Counts -/

/-- One result is another, or is an error that is excused. -/
def SameOr {ε α : Type} (excused : ε → Prop) (x y : Except ε α) : Prop :=
  x = y ∨ ∃ e, excused e ∧ x = .error e

/-- Errors that are excused are so as faults of a decoder; exceptions are not. -/
def DecodeFault.Excused (excused : QueryError → Prop) : DecodeFault → Prop
  | .json => False
  | .query e => excused e

namespace SameOr

variable {ε α β : Type}

section Steps

variable {excused : ε → Prop}

theorem refl (x : Except ε α) : SameOr excused x x :=
  Or.inl rfl

theorem bind {x y : Except ε α} {f g : α → Except ε β} (h : SameOr excused x y)
    (hnext : ∀ a, SameOr excused (f a) (g a)) : SameOr excused (x >>= f) (y >>= g) := by
  rcases h with rfl | ⟨e, he, rfl⟩
  · cases x with
    | error e => exact refl _
    | ok a => exact hnext a
  · exact Or.inr ⟨e, he, rfl⟩

/-- The same step may come before both. -/
theorem after (x : Except ε α) {f g : α → Except ε β} (hnext : ∀ a, SameOr excused (f a) (g a)) :
    SameOr excused (x >>= f) (x >>= g) :=
  (refl x).bind hnext

theorem imp {excused' : ε → Prop} {x y : Except ε α} (h : SameOr excused x y)
    (himp : ∀ e, excused e → excused' e) : SameOr excused' x y :=
  h.imp_right fun ⟨e, he, hx⟩ => ⟨e, himp e he, hx⟩

end Steps

variable {excused : QueryError → Prop}

theorem asDecoded {x y : Checked α} (h : SameOr excused x y) :
    SameOr (DecodeFault.Excused excused) x.asDecoded y.asDecoded := by
  rcases h with rfl | ⟨e, he, rfl⟩
  · exact refl _
  · exact Or.inr ⟨.query e, he, rfl⟩

/-- A handler leaves the errors that are excused as they are. -/
theorem catching {x y : Decoded α} (h : SameOr (DecodeFault.Excused excused) x y)
    (fault : QueryError) : SameOr excused (x.catching fault) (y.catching fault) := by
  rcases h with rfl | ⟨d, hd, rfl⟩
  · exact refl _
  · cases d with
    | json => exact hd.elim
    | query e => exact Or.inr ⟨e, hd, rfl⟩

end SameOr

/-- The fault of a count that is held signed, though it is not negative. -/
def Limit.SignedCount (j : Value) (e : QueryError) : Prop :=
  ∃ member ∈ ["count", "skip"], ∃ n : Int64,
    j.get? (utf8 member) = some (.signed n) ∧ 0 ≤ n.toInt ∧
      e = .invalidDescriptor (.notACount member)

namespace Limit

theorem sameOr_decodeCount {j : Value} {member : String} (hmember : member ∈ ["count", "skip"])
    {v : Value} (hv : j.get? (utf8 member) = some v) :
    SameOr (SignedCount j) (decodeCount member v) (decodeCount member v.canonical) := by
  cases v with
  | signed n =>
    rcases Value.canonical_signed_cases n with ⟨hn, -⟩ | heq
    · exact Or.inr ⟨_, ⟨member, hmember, n, hv, hn, rfl⟩, rfl⟩
    · rw [heq]
      exact SameOr.refl _
  | array items =>
    rw [Value.canonical_array]
    exact SameOr.refl _
  | object members =>
    rw [Value.canonical_object]
    exact SameOr.refl _
  | _ => exact SameOr.refl _

theorem sameOr_decodeSkip (j : Value) :
    SameOr (SignedCount j) (decodeSkip j) (decodeSkip j.canonical) := by
  rw [decodeSkip, decodeSkip, Value.get?_canonical]
  cases hskip : j.get? (utf8 "skip") with
  | none => exact SameOr.refl _
  | some v =>
    have hdecoded := sameOr_decodeCount (by simp) hskip
    exact hdecoded.bind fun n => SameOr.refl _

/-- A limit is the same as of the canonical form, unless a count is held signed. -/
theorem sameOr_ofJson (j : Value) :
    SameOr (DecodeFault.Excused (SignedCount j)) (ofJson j) (ofJson j.canonical) := by
  rw [ofJson, ofJson, Value.get?_canonical, orFault_map_bind]
  cases hcount : j.get? (utf8 "count") with
  | none => exact SameOr.refl _
  | some v =>
    have hdecoded := (sameOr_decodeCount (by simp) hcount).asDecoded
    have hskip := (sameOr_decodeSkip j).asDecoded
    exact hdecoded.bind fun count => hskip.bind fun skip => SameOr.refl _

/-- A limit that holds a count signed is no limit. -/
theorem SignedCount.ofJson_ne_ok {j : Value} {e : QueryError} (h : SignedCount j e) (l : Limit) :
    ofJson j ≠ .ok l := by
  obtain ⟨member, hmember, n, hn, -, -⟩ := h
  intro hl
  obtain ⟨hcount, hskip⟩ := ofJson_eq_ok_iff.mp hl
  simp only [List.mem_cons, List.not_mem_nil, or_false] at hmember
  rcases hmember with rfl | rfl
  · rw [hcount] at hn
    cases hn
  · rw [hskip] at hn
    obtain ⟨skip, -, hsigned⟩ := Option.map_eq_some_iff.mp hn
    cases hsigned

end Limit

/-! ### Queries -/

/-- A limit stands in a descriptor, at any place of the chain. -/
inductive Value.HasLimit : Value → Value → Prop where
  | here {j l : Value} : j.get? (utf8 "limit") = some l → HasLimit j l
  | joined {j hop nested l : Value} : j.get? (utf8 "join") = some hop →
      hop.get? (utf8 "query") = some nested → HasLimit nested l → HasLimit j l

/-- The fault of a count of some limit that is held signed, though it is not negative. -/
def Query.SignedCount (j : Value) (e : QueryError) : Prop :=
  ∃ l, j.HasLimit l ∧ Limit.SignedCount l e

namespace Scope

theorem decodeOptional_canonical {ε α : Type} {decode : Value → Except ε α} {f : α → α}
    (hdecode : ∀ j, decode j.canonical = f <$> decode j) (member : Option Value) :
    decodeOptional decode (member.map Value.canonical) =
      Option.map f <$> decodeOptional decode member := by
  cases member with
  | none => rfl
  | some v =>
    simp only [Option.map_some, decodeOptional, hdecode, bind_map_left, map_bind, map_pure]

theorem decodeSorts_canonical (member : Option Value) :
    decodeSorts (member.map Value.canonical) = decodeSorts member := by
  cases member with
  | none => rfl
  | some v =>
    rw [Option.map_some, decodeSorts, decodeSorts, Value.items_canonical,
      SortKey.ofJsonList_canonical]

theorem sameOr_decodeLimit (j : Value) :
    SameOr (DecodeFault.Excused (Query.SignedCount j))
      (decodeOptional Limit.ofJson (j.get? (utf8 "limit")))
      (decodeOptional Limit.ofJson ((j.get? (utf8 "limit")).map Value.canonical)) := by
  cases hlimit : j.get? (utf8 "limit") with
  | none => exact SameOr.refl _
  | some l =>
    have hsame : SameOr (DecodeFault.Excused (Query.SignedCount j)) (Limit.ofJson l)
        (Limit.ofJson l.canonical) := by
      refine (Limit.sameOr_ofJson l).imp fun d hd => ?_
      cases d with
      | json => exact hd
      | query e => exact ⟨l, .here hlimit, hd⟩
    exact hsame.bind fun limit => SameOr.refl _

theorem sameOr_ofJson (j : Value) :
    SameOr (DecodeFault.Excused (Query.SignedCount j)) (canonical <$> ofJson j)
      (ofJson j.canonical) := by
  have hfilter : ∀ j, Filter.ofJson j.canonical = Filter.canonical <$> Filter.ofJson j :=
    Filter.decodeWithin_canonical maxNesting
  simp only [ofJson, Source.ofJson_canonical, Value.get?_canonical,
    decodeOptional_canonical hfilter, asDecoded_map, decodeSorts_canonical,
    Value.flagOr?_canonical, map_bind, bind_map_left, map_pure, canonical]
  -- Both sides are the same steps now, up to the limit: only there a number can be refused.
  refine SameOr.after _ fun source => SameOr.after _ fun filter => ?_
  refine SameOr.after _ fun prune => SameOr.after _ fun sorts => ?_
  exact (sameOr_decodeLimit j).bind fun limit => SameOr.refl _

end Scope

namespace Query

theorem sameOr_decodeJoin {decodeNested : Value → Checked Query}
    (hdecode : ∀ nested, SameOr (SignedCount nested) (canonical <$> decodeNested nested)
      (decodeNested nested.canonical)) (j : Value) :
    SameOr (DecodeFault.Excused (SignedCount j))
      (canonicalJoins <$> decodeJoin decodeNested (j.get? (utf8 "join")))
      (decodeJoin decodeNested ((j.get? (utf8 "join")).map Value.canonical)) := by
  cases hjoin : j.get? (utf8 "join") with
  | none => exact SameOr.refl _
  | some joined =>
    simp only [Option.map_some, decodeJoin, Hop.ofJson_canonical, Value.get?_canonical,
      orFault_map_bind, map_bind, map_pure]
    refine SameOr.after _ fun hop => ?_
    cases hquery : joined.get? (utf8 "query") with
    | none => exact SameOr.refl _
    | some nested =>
      have hnested : SameOr (SignedCount j) (canonical <$> decodeNested nested)
          (decodeNested nested.canonical) := by
        refine (hdecode nested).imp ?_
        rintro e ⟨l, hl, he⟩
        exact ⟨l, .joined hjoin hquery hl, he⟩
      have hnext := hnested.asDecoded.bind fun q => SameOr.refl (pure ((hop, q.root) :: q.joins))
      rw [asDecoded_map, bind_map_left] at hnext
      exact hnext

/-- **A query is decoded from the canonical form of its descriptor in the canonical form**, unless
it is refused for a count that is held signed. -/
theorem sameOr_decodeWithin (scopes : Nat) (j : Value) :
    SameOr (SignedCount j) (canonical <$> decodeWithin scopes j)
      (decodeWithin scopes j.canonical) := by
  induction scopes generalizing j with
  | zero => exact SameOr.refl _
  | succ scopes ih =>
    have hmembers : SameOr (DecodeFault.Excused (SignedCount j))
        (canonical <$> decodeMembers (decodeWithin scopes) j)
        (decodeMembers (decodeWithin scopes) j.canonical) := by
      rw [decodeMembers, decodeMembers, Value.get?_canonical]
      simp only [map_bind, map_pure]
      have hjoins := sameOr_decodeJoin ih j
      have hnext := (Scope.sameOr_ofJson j).bind fun root =>
        hjoins.bind fun joins => SameOr.refl (pure (⟨root, joins⟩ : Query))
      rw [bind_map_left] at hnext
      simp only [bind_map_left] at hnext
      exact hnext
    rw [decodeWithin, decodeWithin, Value.isObject_canonical, map_bind]
    refine SameOr.after _ fun _ => ?_
    have hcaught := hmembers.catching jsonFault
    rw [catching_map] at hcaught
    exact hcaught

end Query

/-! ### Two descriptors -/

namespace Query

/-- Two outcomes of decoding cannot be told apart: they are the same error, or two queries that
compile alike under all options. -/
inductive Alike : Checked Query → Checked Query → Prop where
  | error (e : QueryError) : Alike (.error e) (.error e)
  | ok {q q' : Query} : (∀ o, q.compile o = q'.compile o) → Alike (.ok q) (.ok q')

theorem alike_of_map_canonical_eq {x y : Checked Query} (h : canonical <$> x = canonical <$> y) :
    Alike x y := by
  cases x with
  | error e =>
    cases y with
    | error e' =>
      cases h
      exact .error e
    | ok q' => cases h
  | ok q =>
    cases y with
    | error e' => cases h
    | ok q' =>
      have hq : q.canonical = q'.canonical := Except.ok.inj h
      refine .ok fun o => ?_
      rw [← compile_canonical, hq, compile_canonical]

/-- Every limit of a descriptor is decoded with it. -/
theorem exists_limit_of_hasLimit {j l : Value} (h : j.HasLimit l) {scopes : Nat} {q : Query}
    (hq : decodeWithin scopes j = .ok q) : ∃ limit, Limit.ofJson l = .ok limit := by
  induction h generalizing scopes q with
  | here hlimit =>
    cases scopes with
    | zero => cases hq
    | succ scopes =>
      obtain ⟨-, -, -, -, hdecoded, -⟩ :=
        Scope.ofJson_eq_ok_iff.mp (decodeWithin_succ_eq_ok_iff.mp hq).1
      rw [hlimit, Scope.decodeOptional_eq_ok_iff] at hdecoded
      obtain ⟨habsent, -⟩ | ⟨_, limit, hmember, hok, -⟩ := hdecoded
      · cases habsent
      · cases hmember
        exact ⟨limit, hok⟩
  | joined hjoin hquery _ ih =>
    cases scopes with
    | zero => cases hq
    | succ scopes =>
      have hdecoded := (decodeWithin_succ_eq_ok_iff.mp hq).2
      rw [hjoin, decodeJoin_eq_ok_iff] at hdecoded
      obtain ⟨habsent, -⟩ | ⟨_, nestedJson, hop, nested, hmember, -, hjson, hok, -⟩ := hdecoded
      · cases habsent
      · cases hmember
        cases hquery.symm.trans hjson
        exact ih hok

/-- A descriptor that holds a count signed is refused. -/
theorem SignedCount.exists_error {j : Value} {e : QueryError} (h : SignedCount j e) :
    ∃ e', ofJson j = .error e' := by
  obtain ⟨l, hl, hcount⟩ := h
  cases hresult : ofJson j with
  | error e' => exact ⟨e', rfl⟩
  | ok q =>
    obtain ⟨limit, hlimit⟩ := exists_limit_of_hasLimit hl hresult
    exact absurd hlimit (hcount.ofJson_ne_ok limit)

/-- A descriptor is refused for a count that it holds signed, though it is not negative. -/
def RefusedForCount (j : Value) : Prop :=
  ∃ e, SignedCount j e ∧ ofJson j = .error e

theorem map_eq_error_iff {x : Checked Query} {f : Query → Query} {e : QueryError} :
    f <$> x = .error e ↔ x = .error e := by
  cases x with
  | error e' => rfl
  | ok q => exact iff_of_false (fun h => nomatch h) fun h => nomatch h

end Query

/-- **Outcomes do not show how whole numbers are held**, but for the counts of limits. Descriptors
that differ only in how they hold their whole numbers cannot be told apart by what they are decoded
to, unless one of them is refused for a count that it holds signed; and one that holds a count
signed is always refused. -/
theorem outcomes_alike {v w : Value} (h : v.canonical = w.canonical) :
    (Query.Alike (Query.ofJson v) (Query.ofJson w) ∨
      Query.RefusedForCount v ∨ Query.RefusedForCount w) ∧
    ∀ e, Query.SignedCount v e → ∃ e', Query.ofJson v = .error e' := by
  refine ⟨?_, fun e he => he.exists_error⟩
  have hv := Query.sameOr_decodeWithin maxNesting v
  have hw := Query.sameOr_decodeWithin maxNesting w
  rw [h] at hv
  rcases hv with hv | ⟨e, he, hv⟩
  · rcases hw with hw | ⟨e, he, hw⟩
    · exact Or.inl (Query.alike_of_map_canonical_eq (hv.trans hw.symm))
    · exact Or.inr (Or.inr ⟨e, he, Query.map_eq_error_iff.mp hw⟩)
  · exact Or.inr (Or.inl ⟨e, he, Query.map_eq_error_iff.mp hv⟩)

namespace Value

/-- A walk along edges where a number is not an age, in terms of how whole numbers are held. -/
def walkJson (whole : Nat → Value) : Value :=
  .ofMembers
    [(utf8 "traversal", .ofMembers
        [(utf8 "direction", .string (utf8 "OUTBOUND")), (utf8 "min_depth", whole 1),
          (utf8 "max_depth", whole 2), (utf8 "target", .string (utf8 "knows")),
          (utf8 "start_vertex", .string (utf8 "User/1"))]),
      (utf8 "filter", .ofMembers
        [(utf8 "terms", .array
          [.ofMembers
            [(utf8 "comparison", .ofMembers
              [(utf8 "field", .string (utf8 "age")), (utf8 "operator", .string (utf8 "NOT IN")),
                (utf8 "operand", .ofMembers [(utf8 "value", .array [whole 3, whole 0])])])]])])]

/-- A limit of some users, in terms of how whole numbers are held. -/
def limitJson (whole : Nat → Value) : Value :=
  .ofMembers
    [(utf8 "collection", .string (utf8 "User")),
      (utf8 "limit", .ofMembers [(utf8 "count", whole 0)])]

end Value

/-- Neither the bounds of a traversal nor the items of a literal show how they are held. -/
theorem outcomes_alike_walk :
    let v := Value.walkJson fun n => .signed (Int64.ofNat n)
    let w := Value.walkJson fun n => .unsigned (UInt64.ofNat n)
    v.canonical = w.canonical ∧ Query.Alike (Query.ofJson v) (Query.ofJson w) := by
  intro v w
  have hcanonical : v.canonical = w.canonical := by rfl
  refine ⟨hcanonical, ?_⟩
  have hv : (Query.ofJson v).isOk = true := by decide +kernel
  have hw : (Query.ofJson w).isOk = true := by decide +kernel
  rcases (outcomes_alike hcanonical).1 with halike | ⟨e, -, hrefused⟩ | ⟨e, -, hrefused⟩
  · exact halike
  · rw [hrefused] at hv
    cases hv
  · rw [hrefused] at hw
    cases hw

/-- The count of a limit shows how it is held. -/
theorem outcomes_unlike_limit :
    let v := Value.limitJson fun n => .signed (Int64.ofNat n)
    let w := Value.limitJson fun n => .unsigned (UInt64.ofNat n)
    v.canonical = w.canonical ∧ ¬Query.Alike (Query.ofJson v) (Query.ofJson w) := by
  intro v w
  refine ⟨rfl, fun halike => ?_⟩
  have hv : (Query.ofJson v).isOk = false := by decide +kernel
  have hw : (Query.ofJson w).isOk = true := by decide +kernel
  generalize Query.ofJson v = x at halike hv
  generalize Query.ofJson w = y at halike hw
  cases halike with
  | error e => cases hw
  | ok _ => cases hv

end GraphQuery
