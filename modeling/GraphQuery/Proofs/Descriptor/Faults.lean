import GraphQuery.Query.Descriptor.Chain

/-!
# How decoders fail

Decoders look into values of any shape, and most of what they look for can be missing or of another
type. Some of these looks end in an exception of the JSON library; but each of them is made below a
handler. So whatever decoding meets, it ends with an error about the descriptor or about a depth in
it, and with no other kind of error.

* `FailsWith` says of which kind the error of one result is; it holds of a sequence when it holds of
  the steps, and `FailsWith.catching` carries it through a handler.
* `Query.failsWith_ofJson` says so of the decoder of queries.
-/

namespace GraphQuery

/-- Errors about a descriptor or about a depth in it. -/
def QueryError.OfDescriptor : QueryError → Prop
  | .invalidDescriptor _ => True
  | .invalidDepth _ => True
  | _ => False

theorem QueryError.OfDescriptor.code {e : QueryError} (h : e.OfDescriptor) :
    e.code = utf8 "InvalidDescriptor" ∨ e.code = utf8 "InvalidTraversalDepth" := by
  cases e with
  | invalidDescriptor fault => exact Or.inl rfl
  | invalidDepth fault => exact Or.inr rfl
  | malformedFilter fault => exact h.elim
  | invalidPrune name => exact h.elim
  | unsupportedOperand fault => exact h.elim

/-- Exceptions of the JSON library, and errors about a descriptor. -/
def DecodeFault.OfDescriptor : DecodeFault → Prop
  | .json => True
  | .query e => e.OfDescriptor

/-- A result whose error, if it is one, is of some kind. -/
def FailsWith {ε α : Type} (kind : ε → Prop) (x : Except ε α) : Prop :=
  ∀ e, x = .error e → kind e

/-! ### Steps -/

section Steps

variable {ε α β : Type} {kind : ε → Prop}

theorem failsWith_ok (a : α) : FailsWith kind (.ok a) := by
  intro e h
  cases h

theorem failsWith_pure (a : α) : FailsWith kind (pure a) :=
  failsWith_ok a

theorem failsWith_error {e : ε} (he : kind e) : FailsWith kind (.error e : Except ε α) := by
  intro e' h
  cases h
  exact he

theorem FailsWith.bind {x : Except ε α} {f : α → Except ε β} (hx : FailsWith kind x)
    (hf : ∀ a, FailsWith kind (f a)) : FailsWith kind (x >>= f) := by
  intro e h
  rcases bind_eq_error_iff.mp h with h | ⟨a, _, h⟩
  · exact hx e h
  · exact hf a e h

theorem failsWith_require (condition : Bool) {fault : ε} (hfault : kind fault) :
    FailsWith kind (require condition fault) := by
  intro e h
  exact (require_eq_error_iff.mp h).2 ▸ hfault

theorem failsWith_orFault (value : Option α) {fault : ε} (hfault : kind fault) :
    FailsWith kind (orFault value fault) := by
  intro e h
  exact (orFault_eq_error_iff.mp h).2 ▸ hfault

theorem FailsWith.asDecoded {x : Checked α} (h : FailsWith QueryError.OfDescriptor x) :
    FailsWith DecodeFault.OfDescriptor x.asDecoded := by
  intro fault hfault
  obtain ⟨e, he, rfl⟩ := mapError_eq_error_iff.mp hfault
  exact h e he

/-- **A handler leaves errors about the descriptor alone** if its own error is one. -/
theorem FailsWith.catching {x : Decoded α} (h : FailsWith DecodeFault.OfDescriptor x)
    {fault : QueryError} (hfault : fault.OfDescriptor) :
    FailsWith QueryError.OfDescriptor (x.catching fault) := by
  intro e he
  obtain ⟨d, hd, rfl⟩ := mapError_eq_error_iff.mp he
  cases d with
  | json => exact hfault
  | query e => exact h _ hd

end Steps

/-! ### Comparisons and filters -/

theorem Operand.failsWith_ofJson (j : Value) : FailsWith QueryError.OfDescriptor (ofJson j) := by
  unfold ofJson ofFieldJson ofValueJson
  repeat' split
  all_goals first | exact failsWith_ok _ | exact failsWith_error trivial

namespace Comparison

theorem failsWith_decodeQuantifier (j : Value) :
    FailsWith DecodeFault.OfDescriptor (decodeQuantifier j) := by
  refine (failsWith_orFault _ (by trivial)).bind fun name => ?_
  exact FailsWith.asDecoded (failsWith_orFault _ (by trivial))

theorem failsWith_decodeSubject (j : Value) :
    FailsWith DecodeFault.OfDescriptor (decodeSubject j) := by
  unfold decodeSubject
  split
  · refine (failsWith_orFault _ (by trivial)).bind fun expression => ?_
    refine (failsWith_decodeQuantifier j).bind fun q => ?_
    exact (failsWith_require _ (by trivial)).bind fun _ => failsWith_pure _
  · refine (failsWith_orFault _ (by trivial)).bind fun name => ?_
    exact (failsWith_decodeQuantifier j).bind fun q => failsWith_pure _
  · exact failsWith_error (by trivial)

theorem failsWith_ofJson (j : Value) : FailsWith QueryError.OfDescriptor (ofJson j) := by
  have hmembers : FailsWith DecodeFault.OfDescriptor (decodeMembers j) := by
    refine (failsWith_decodeSubject j).bind fun subject => ?_
    refine (failsWith_orFault _ (by trivial)).bind fun name => ?_
    refine (FailsWith.asDecoded (failsWith_orFault _ (by trivial))).bind fun op => ?_
    refine (failsWith_orFault _ (by trivial)).bind fun operandJson => ?_
    exact (Operand.failsWith_ofJson operandJson).asDecoded.bind fun operand => failsWith_pure _
  exact (failsWith_require _ (by trivial)).bind fun _ => hmembers.catching (by trivial)

end Comparison

namespace Filter

theorem failsWith_decodeEntries {decodeGroup : Value → Checked Filter}
    (hgroup : ∀ w, FailsWith QueryError.OfDescriptor (decodeGroup w)) (js : List Value) :
    ∀ before, FailsWith QueryError.OfDescriptor (decodeEntries decodeGroup before js) := by
  induction js with
  | nil => exact fun before => failsWith_ok before
  | cons j js ih =>
    intro before
    have hconnective : FailsWith QueryError.OfDescriptor (decodeConnective before j) := by
      unfold decodeConnective
      split
      · exact failsWith_ok _
      · exact (failsWith_orFault _ (by trivial)).bind fun name =>
          (failsWith_orFault _ (by trivial)).bind fun op => failsWith_pure _
    have hterm : FailsWith QueryError.OfDescriptor (decodeTerm decodeGroup j) := by
      unfold decodeTerm
      split
      · exact (hgroup _).bind fun inner => failsWith_pure _
      · exact (Comparison.failsWith_ofJson _).bind fun c => failsWith_pure _
      · exact failsWith_error trivial
    have hentry : FailsWith QueryError.OfDescriptor (decodeEntry decodeGroup before j) :=
      (failsWith_require _ (by trivial)).bind fun _ => hconnective.bind fun op =>
        hterm.bind fun t => failsWith_pure _
    exact hentry.bind ih

theorem failsWith_decodeWithin (levels : Nat) :
    ∀ j, FailsWith QueryError.OfDescriptor (decodeWithin levels j) := by
  induction levels with
  | zero => exact fun j => failsWith_error trivial
  | succ levels ih =>
    exact fun j => (failsWith_orFault _ (by trivial)).bind fun ts =>
      failsWith_decodeEntries ih ts .empty

end Filter

/-! ### Sources and scopes -/

/-- A bound that is no depth is shown in an error about depths, and a bound that cannot be shown
ends in an exception. -/
theorem DepthRange.failsWith_decodeBound (member : String) (v : Value) :
    FailsWith DecodeFault.OfDescriptor (decodeBound member v) := by
  unfold decodeBound
  split
  · exact failsWith_ok _
  · exact (failsWith_orFault _ (by trivial)).bind fun shown => failsWith_error (by trivial)

theorem Hop.failsWith_ofJson (j : Value) : FailsWith DecodeFault.OfDescriptor (ofJson j) := by
  have hdepths : FailsWith DecodeFault.OfDescriptor (DepthRange.ofJson j) := by
    refine (failsWith_orFault _ (by trivial)).bind fun leastJson => ?_
    refine (failsWith_orFault _ (by trivial)).bind fun greatestJson => ?_
    refine (DepthRange.failsWith_decodeBound _ _).bind fun least => ?_
    exact (DepthRange.failsWith_decodeBound _ _).bind fun greatest => failsWith_pure _
  refine hdepths.bind fun depths => ?_
  refine (failsWith_orFault _ (by trivial)).bind fun name => ?_
  refine (FailsWith.asDecoded (failsWith_orFault _ (by trivial))).bind fun direction => ?_
  exact (failsWith_orFault _ (by trivial)).bind fun namedGraph => failsWith_pure _

theorem Source.failsWith_ofJson (j : Value) : FailsWith DecodeFault.OfDescriptor (ofJson j) := by
  unfold ofJson
  split
  · refine (Hop.failsWith_ofJson _).bind fun hop => ?_
    refine (failsWith_orFault _ (by trivial)).bind fun target => ?_
    exact (failsWith_orFault _ (by trivial)).bind fun start => failsWith_pure _
  · exact (failsWith_orFault _ (by trivial)).bind fun name => failsWith_pure _
  · exact failsWith_error (by trivial)

theorem SortKey.failsWith_ofJsonList (js : List Value) :
    FailsWith DecodeFault.OfDescriptor (ofJsonList js) := by
  induction js with
  | nil => exact failsWith_ok _
  | cons j js ih =>
    have hkey : FailsWith DecodeFault.OfDescriptor (ofJson j) := by
      refine (failsWith_orFault _ (by trivial)).bind fun field => ?_
      refine (failsWith_orFault _ (by trivial)).bind fun name => ?_
      exact (FailsWith.asDecoded (failsWith_orFault _ (by trivial))).bind fun direction =>
        failsWith_pure _
    exact hkey.bind fun key => ih.bind fun keys => failsWith_pure _

theorem Limit.failsWith_ofJson (j : Value) : FailsWith DecodeFault.OfDescriptor (ofJson j) := by
  have hcount : ∀ member v, FailsWith QueryError.OfDescriptor (decodeCount member v) :=
    fun _ _ => failsWith_orFault _ (by trivial)
  have hskip : FailsWith QueryError.OfDescriptor (decodeSkip j) := by
    unfold decodeSkip
    split
    · exact failsWith_ok _
    · exact (hcount _ _).bind fun n => failsWith_pure _
  refine (failsWith_orFault _ (by trivial)).bind fun countJson => ?_
  refine (hcount _ _).asDecoded.bind fun count => ?_
  exact hskip.asDecoded.bind fun skip => failsWith_pure _

namespace Scope

theorem failsWith_decodeOptional {ε α : Type} {kind : ε → Prop} {decode : Value → Except ε α}
    (hdecode : ∀ w, FailsWith kind (decode w)) (v : Option Value) :
    FailsWith kind (decodeOptional decode v) := by
  cases v with
  | none => exact failsWith_ok _
  | some w => exact (hdecode w).bind fun a => failsWith_pure _

theorem failsWith_ofJson (j : Value) : FailsWith DecodeFault.OfDescriptor (ofJson j) := by
  have hfilter : ∀ v, FailsWith QueryError.OfDescriptor (decodeOptional Filter.ofJson v) :=
    failsWith_decodeOptional (Filter.failsWith_decodeWithin maxNesting)
  have hsorts : ∀ v, FailsWith DecodeFault.OfDescriptor (decodeSorts v) := fun v => by
    cases v with
    | none => exact failsWith_ok _
    | some w => exact SortKey.failsWith_ofJsonList w.items
  refine (Source.failsWith_ofJson j).bind fun source => ?_
  refine (hfilter _).asDecoded.bind fun filter => ?_
  refine (hfilter _).asDecoded.bind fun prune => ?_
  refine (hsorts _).bind fun sorts => ?_
  refine (failsWith_decodeOptional Limit.failsWith_ofJson _).bind fun limit => ?_
  exact (failsWith_orFault _ (by trivial)).bind fun distinct => failsWith_pure _

end Scope

/-! ### Chains -/

namespace Query

theorem failsWith_decodeMembers {decodeNested : Value → Checked Query}
    (hnested : ∀ w, FailsWith QueryError.OfDescriptor (decodeNested w)) (j : Value) :
    FailsWith DecodeFault.OfDescriptor (decodeMembers decodeNested j) := by
  have hjoin : ∀ v, FailsWith DecodeFault.OfDescriptor (decodeJoin decodeNested v) := fun v => by
    cases v with
    | none => exact failsWith_ok _
    | some w =>
      refine (Hop.failsWith_ofJson w).bind fun hop => ?_
      refine (failsWith_orFault _ (by trivial)).bind fun nestedJson => ?_
      exact (hnested nestedJson).asDecoded.bind fun nested => failsWith_pure _
  refine (Scope.failsWith_ofJson j).bind fun root => ?_
  exact (hjoin _).bind fun joins => failsWith_pure _

theorem failsWith_decodeWithin (scopes : Nat) :
    ∀ j, FailsWith QueryError.OfDescriptor (decodeWithin scopes j) := by
  induction scopes with
  | zero => exact fun j => failsWith_error trivial
  | succ scopes ih =>
    exact fun j => (failsWith_require _ (by trivial)).bind fun _ =>
      (failsWith_decodeMembers ih j).catching (by trivial)

/-- **Decoding fails by the descriptor alone**, whatever value it is given. -/
theorem failsWith_ofJson (j : Value) : FailsWith QueryError.OfDescriptor (ofJson j) :=
  failsWith_decodeWithin maxNesting j

end Query

end GraphQuery
