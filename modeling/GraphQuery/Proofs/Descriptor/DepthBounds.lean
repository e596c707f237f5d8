import GraphQuery.Proofs.Descriptor.Grammar

/-!
# How bad depth bounds are reported

The bounds of a traversal or a join are decoded before its other members, and a bound that is no
depth is shown in the error. A value that holds text which is not UTF-8 cannot be shown: writing it
ends in an exception, and the handler that catches it reports the JSON of the descriptor instead.

* `Value.compact?_eq_none_iff`: which values cannot be shown.
* `Value.Reaches`: decoding comes to a traversal or a join.
* `Value.HasBadBound` and `Value.HidesBound`: one of the bounds is bad, and it cannot be shown.
* `badBound_reported`: the error for a bad bound, whatever else stands there.
-/

namespace GraphQuery

namespace Value

/-! ### Values that cannot be shown -/

/-- A string or a key somewhere in the value is not UTF-8. -/
inductive HasForeignText : Value → Prop
  | string {s : Text} : Utf8.valid s = false → HasForeignText (.string s)
  | item {items : List Value} {v : Value} : v ∈ items → HasForeignText v →
      HasForeignText (.array items)
  | key {members : List (Text × Value)} {m : Text × Value} : m ∈ members →
      Utf8.valid m.1 = false → HasForeignText (.object members)
  | member {members : List (Text × Value)} {m : Text × Value} : m ∈ members →
      HasForeignText m.2 → HasForeignText (.object members)

theorem hasForeignText_string_iff {s : Text} :
    (Value.string s).HasForeignText ↔ Utf8.valid s = false := by
  constructor
  · intro h
    cases h with
    | string hs => exact hs
  · exact .string

theorem hasForeignText_array_iff {items : List Value} :
    (Value.array items).HasForeignText ↔ ∃ v ∈ items, v.HasForeignText := by
  constructor
  · intro h
    cases h with
    | item hv hforeign => exact ⟨_, hv, hforeign⟩
  · rintro ⟨v, hv, hforeign⟩
    exact .item hv hforeign

theorem hasForeignText_object_iff {members : List (Text × Value)} :
    (Value.object members).HasForeignText ↔
      ∃ m ∈ members, Utf8.valid m.1 = false ∨ m.2.HasForeignText := by
  constructor
  · intro h
    cases h with
    | key hm hkey => exact ⟨_, hm, Or.inl hkey⟩
    | member hm hforeign => exact ⟨_, hm, Or.inr hforeign⟩
  · rintro ⟨m, hm, hkey | hforeign⟩
    · exact .key hm hkey
    · exact .member hm hforeign

theorem quoted?_eq_none_iff {s : Text} : quoted? s = none ↔ Utf8.valid s = false := by
  simp [quoted?]

mutual

/-- **A value has no JSON text exactly when some text in it is not UTF-8.** -/
theorem compact?_eq_none_iff : ∀ v : Value, v.compact? = none ↔ v.HasForeignText
  | .string s => by rw [compact?, quoted?_eq_none_iff, hasForeignText_string_iff]
  | .array items => by
    rw [hasForeignText_array_iff, ← compactItems?_eq_none_iff items, compact?]
    cases compactItems? items <;> simp
  | .object members => by
    rw [hasForeignText_object_iff, ← compactMembers?_eq_none_iff members, compact?]
    cases compactMembers? members <;> simp
  | .null | .bool _ | .signed _ | .unsigned _ | .double _ | .binary _ | .discarded =>
    iff_of_false (by simp [compact?]) nofun

theorem compactItems?_eq_none_iff : ∀ items : List Value,
    compactItems? items = none ↔ ∃ v ∈ items, v.HasForeignText
  | [] => by simp [compactItems?]
  | v :: rest => by
    have hrest := compactItems?_eq_none_iff rest
    simp only [List.mem_cons, exists_eq_or_imp]
    rw [← compact?_eq_none_iff v, ← hrest, compactItems?]
    cases v.compact? <;> cases compactItems? rest <;> simp

theorem compactMembers?_eq_none_iff : ∀ members : List (Text × Value),
    compactMembers? members = none ↔ ∃ m ∈ members, Utf8.valid m.1 = false ∨ m.2.HasForeignText
  | [] => by simp [compactMembers?]
  | (key, v) :: rest => by
    have hrest := compactMembers?_eq_none_iff rest
    simp only [List.mem_cons, exists_eq_or_imp]
    rw [← quoted?_eq_none_iff, ← compact?_eq_none_iff v, ← hrest, compactMembers?]
    cases quoted? key <;> cases v.compact? <;> cases compactMembers? rest <;> simp

end

/-! ### Bounds -/

/-- A bound of a traversal or a join is missing, or is no depth. -/
def HasBadBound (t : Value) : Prop :=
  ¬t.Has "min_depth" IsDepth ∨ ¬t.Has "max_depth" IsDepth

/-- Both bounds are there, and the first of them that is no depth cannot be shown. -/
def HidesBound (t : Value) : Prop :=
  t.Has "min_depth" HasForeignText ∧ ¬t.Lacks "max_depth" ∨
    t.Has "min_depth" IsDepth ∧ t.Has "max_depth" HasForeignText

/-- Decoding a descriptor that may have some scopes comes to a traversal or a join, as all that is
decoded before it follows the rules. -/
inductive Reaches : Nat → Value → Value → Prop
  | traversal {scopes : Nat} {j t : Value} : j.get? (utf8 "traversal") = some t →
      Reaches (scopes + 1) j t
  | join {scopes : Nat} {j t : Value} : j.IsScope → j.get? (utf8 "join") = some t →
      Reaches (scopes + 1) j t
  | joined {scopes : Nat} {j hop nested t : Value} : j.IsScope →
      j.get? (utf8 "join") = some hop → hop.IsHop → hop.get? (utf8 "query") = some nested →
      Reaches scopes nested t → Reaches (scopes + 1) j t

theorem HasForeignText.not_isDepth {v : Value} (h : v.HasForeignText) : ¬v.IsDepth := by
  rintro ⟨n, hn, _⟩
  cases h <;> exact hn

end Value

open Value

/-- The fault of a bad bound: an error about depths, or where the bound is hidden, an exception. -/
def DecodeFault.ReportsBound (hidden : Prop) (d : DecodeFault) : Prop :=
  (¬hidden → ∃ fault, d = .query (.invalidDepth fault)) ∧ (hidden → d = .json)

namespace DepthRange

theorem exists_decodeBound_eq_error (member : String) {v : Value} (h : ¬v.IsDepth) :
    ∃ d, decodeBound member v = .error d ∧ d.ReportsBound v.HasForeignText := by
  have hnone : depthOf? v = none := by
    rw [isDepth_iff] at h
    exact Option.eq_none_iff_forall_ne_some.mpr fun n hn => h ⟨n, hn⟩
  rw [decodeBound, hnone]
  cases hshown : v.compact? with
  | none =>
    have hforeign := (compact?_eq_none_iff v).mp hshown
    exact ⟨_, rfl, fun h => absurd hforeign h, fun _ => rfl⟩
  | some shown =>
    have hforeign : ¬v.HasForeignText := by
      rw [← compact?_eq_none_iff, hshown]
      exact Option.some_ne_none shown
    exact ⟨_, rfl, fun _ => ⟨_, rfl⟩, fun h => absurd h hforeign⟩

/-- The first bound is decoded once both are there, the second one where the first is a depth. -/
theorem exists_ofJson_eq_error {t : Value} (h : t.HasBadBound) :
    ∃ d, ofJson t = .error d ∧ d.ReportsBound t.HidesBound := by
  have hreports : ∀ {hidden : Prop} {d : DecodeFault}, d.ReportsBound hidden →
      (t.HidesBound ↔ hidden) → d.ReportsBound t.HidesBound := fun hd hiff => by
    rwa [DecodeFault.ReportsBound, hiff]
  have hmissing : (DecodeFault.query (.invalidDepth .missing)).ReportsBound False :=
    ⟨fun _ => ⟨_, rfl⟩, False.elim⟩
  rw [ofJson]
  cases hleast : t.get? (utf8 "min_depth") with
  | none =>
    exact ⟨_, rfl, hreports hmissing (by simp [HidesBound, Has, hleast])⟩
  | some least =>
    cases hgreatest : t.get? (utf8 "max_depth") with
    | none =>
      exact ⟨_, rfl, hreports hmissing (by simp [HidesBound, Has, Lacks, hgreatest])⟩
    | some greatest =>
      have hhides : t.HidesBound ↔
          least.HasForeignText ∨ least.IsDepth ∧ greatest.HasForeignText := by
        simp [HidesBound, Has, Lacks, hleast, hgreatest]
      simp only [orFault_some, ok_bind]
      by_cases hdepth : least.IsDepth
      · have hnot : ¬greatest.IsDepth := by
          simpa [HasBadBound, Has, hleast, hgreatest, hdepth] using h
        obtain ⟨n, hn⟩ := (isDepth_iff least).mp hdepth
        obtain ⟨d, hd, hfault⟩ := exists_decodeBound_eq_error "max_depth" hnot
        refine ⟨d, ?_, hreports hfault ?_⟩
        · rw [decodeBound_eq_ok_iff.mpr hn, hd, ok_bind, error_bind]
        · have hshown : ¬least.HasForeignText := fun hforeign => hforeign.not_isDepth hdepth
          simp [hhides, hshown, hdepth]
      · obtain ⟨d, hd, hfault⟩ := exists_decodeBound_eq_error "min_depth" hdepth
        refine ⟨d, ?_, hreports hfault ?_⟩
        · rw [hd, error_bind]
        · simp [hhides, hdepth]

end DepthRange

/-! ### Traversals and joins -/

theorem Hop.exists_ofJson_eq_error {t : Value} (h : t.HasBadBound) :
    ∃ d, ofJson t = .error d ∧ d.ReportsBound t.HidesBound := by
  obtain ⟨d, hdepths, hd⟩ := DepthRange.exists_ofJson_eq_error h
  exact ⟨d, bind_eq_error_iff.mpr (Or.inl hdepths), hd⟩

theorem Source.ofTraversalJson_eq_error {t : Value} {d : DecodeFault}
    (h : Hop.ofJson t = .error d) : ofTraversalJson t = .error d :=
  bind_eq_error_iff.mpr (Or.inl h)

namespace Query

/-- What ends the decoder of the members is caught, and ends the decoder of queries. -/
theorem decodeWithin_eq_error_of_members {scopes : Nat} {j : Value} {d : DecodeFault}
    (hobject : j.isObject = true) (h : decodeMembers (decodeWithin scopes) j = .error d) :
    decodeWithin (scopes + 1) j = .error (d.caught jsonFault) := by
  rw [decodeWithin, hobject, h]
  rfl

/-- What is met after a scope that follows the rules is met by the decoder of queries. -/
theorem decodeWithin_eq_error_of_join {scopes : Nat} {j t : Value} {d : DecodeFault}
    (hscope : j.IsScope) (hjoin : j.get? (utf8 "join") = some t)
    (h : decodeJoin (decodeWithin scopes) (some t) = .error d) :
    decodeWithin (scopes + 1) j = .error (d.caught jsonFault) := by
  obtain ⟨root, hroot⟩ := Scope.exists_ofJson_iff.mpr hscope
  refine decodeWithin_eq_error_of_members (isObject_of_get? hjoin) ?_
  rw [decodeMembers, hroot, hjoin, ok_bind, h, error_bind]

/-- The fault of a hop is caught where the hop stands, and passes through all handlers above. -/
theorem decodeWithin_eq_error_of_reaches {scopes : Nat} {j t : Value} {d : DecodeFault}
    (hreaches : j.Reaches scopes t) (h : Hop.ofJson t = .error d) :
    decodeWithin scopes j = .error (d.caught jsonFault) := by
  induction hreaches with
  | @traversal scopes j t ht =>
    have hscope : Scope.ofJson j = .error d := by
      rw [Scope.ofJson, Source.ofJson, ht]
      exact bind_eq_error_iff.mpr (Or.inl (Source.ofTraversalJson_eq_error h))
    refine decodeWithin_eq_error_of_members (isObject_of_get? ht) ?_
    rw [decodeMembers, hscope, error_bind]
  | join hscope hjoin =>
    exact decodeWithin_eq_error_of_join hscope hjoin (bind_eq_error_iff.mpr (Or.inl h))
  | @joined scopes j hop nested t hscope hjoin hhop hquery _ ih =>
    obtain ⟨hop', hhop'⟩ := Hop.exists_ofJson_iff.mpr hhop
    have hnested : decodeJoin (decodeWithin scopes) (some hop) =
        .error (.query (d.caught jsonFault)) := by
      rw [decodeJoin, hhop', hquery, ok_bind, orFault_some, ok_bind, ih h]
      rfl
    -- What is caught already is an error like any other, and no handler changes it any more.
    have hpassed := decodeWithin_eq_error_of_join hscope hjoin hnested
    exact hpassed

end Query

/-- **A bad bound is reported** where decoding comes to it, whatever else stands there: as an error
about depths, unless the bound cannot be shown. Then the error is about the descriptor. -/
theorem badBound_reported {j t : Value} (hreaches : j.Reaches 256 t) (hbad : t.HasBadBound) :
    ∃ e, Query.ofJson j = .error e ∧
      (¬t.HidesBound → e.code = utf8 "InvalidTraversalDepth") ∧
      (t.HidesBound → e.code = utf8 "InvalidDescriptor") := by
  obtain ⟨d, hhop, hshown, hhidden⟩ := Hop.exists_ofJson_eq_error hbad
  have herror := Query.decodeWithin_eq_error_of_reaches hreaches hhop
  refine ⟨d.caught Query.jsonFault, herror, fun h => ?_, fun h => ?_⟩
  · obtain ⟨fault, rfl⟩ := hshown h
    rfl
  · rw [hhidden h]
    rfl

/-- Users joined by a hop that has bounds and nothing else. -/
def usersJoined (least greatest : Value) : Value :=
  .object [(utf8 "collection", .string (utf8 "User")),
    (utf8 "join", .object [(utf8 "max_depth", greatest), (utf8 "min_depth", least)])]

theorem reaches_usersJoined (least greatest : Value) :
    (usersJoined least greatest).Reaches 256
      (.object [(utf8 "max_depth", greatest), (utf8 "min_depth", least)]) := by
  have hscope : (usersJoined least greatest).IsScope :=
    Scope.exists_ofJson_iff.mp ⟨.ofSource (.collection (utf8 "User")), rfl⟩
  exact .join hscope rfl

/-- A list of words is no bound, and is shown. -/
theorem badBound_reported_words :
    let words : Value := .array [.string (utf8 "one")]
    let hop : Value := .object [(utf8 "max_depth", .unsigned 2), (utf8 "min_depth", words)]
    hop.HasBadBound ∧ ¬hop.HidesBound ∧
      ∃ e, Query.ofJson (usersJoined words (.unsigned 2)) = .error e ∧
        e.code = utf8 "InvalidTraversalDepth" := by
  intro words hop
  have hleast : hop.get? (utf8 "min_depth") = some words := rfl
  have hdepth : ¬words.IsDepth := fun ⟨_, hwhole, _⟩ => hwhole
  have hforeign : ¬words.HasForeignText := by
    rw [← compact?_eq_none_iff]
    decide +kernel
  have hbad : hop.HasBadBound := Or.inl (by simpa [Has, hleast] using hdepth)
  have hshown : ¬hop.HidesBound := by simp [HidesBound, Has, hleast, hdepth, hforeign]
  obtain ⟨e, he, hcode, _⟩ := badBound_reported (reaches_usersJoined words (.unsigned 2)) hbad
  exact ⟨hbad, hshown, e, he, hcode hshown⟩

/-- A bound that is not UTF-8 is hidden, and the error is not one about depths. -/
theorem hiddenBound_not_reported :
    let foreign : Value := .string [0xff]
    let hop : Value := .object [(utf8 "max_depth", .unsigned 2), (utf8 "min_depth", foreign)]
    (usersJoined foreign (.unsigned 2)).Reaches 256 hop ∧ hop.HasBadBound ∧
      ¬∃ e, Query.ofJson (usersJoined foreign (.unsigned 2)) = .error e ∧
        e.code = utf8 "InvalidTraversalDepth" := by
  intro foreign hop
  have hleast : hop.get? (utf8 "min_depth") = some foreign := rfl
  have hdepth : ¬foreign.IsDepth := fun ⟨_, hwhole, _⟩ => hwhole
  have hbad : hop.HasBadBound := Or.inl (by simpa [Has, hleast] using hdepth)
  have hfault : Query.ofJson (usersJoined foreign (.unsigned 2)) = .error Query.jsonFault := rfl
  refine ⟨reaches_usersJoined foreign (.unsigned 2), hbad, ?_⟩
  rintro ⟨e, he, hcode⟩
  rw [hfault] at he
  cases he
  exact absurd hcode (by decide)

end GraphQuery
