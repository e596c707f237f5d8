import GraphQuery.Proofs.Descriptor.Decoding
import GraphQuery.Proofs.Filter.Shape

/-!
# The limits of descriptors

Builders accept more than decoders do: a chain of joins, the groups of a filter and a literal may
nest as deep as one likes, and a depth may be negative. This module says which queries lie within
the limits that decoders keep, and that everything decoded does.

* `Query.Fits` are the queries within a limit on the length of the chain, and within `maxNesting`
  and non-negative depths everywhere else.
* `Query.Built` are the queries that the builders make, and `Query.Built.wellFormed` says that all
  their filters are well formed.
* `Query.fits_of_ofJson` and `Query.wellFormed_of_ofJson`: a decoded query is within the limits, and
  its filters are well formed.

A decoder of filters appends entry by entry, so the invariant of filters is carried through one
entry first (`Filter.decodeEntry_fits`), then through all of them.
-/

namespace GraphQuery

/-! ### Limits -/

/-- A literal nests not too deep. -/
def Operand.Fits : Operand → Prop
  | .field _ => True
  | .literal v => v.depth ≤ maxNesting

/-- Filters of at most some levels, their own included, whose literals nest not too deep. -/
structure Filter.Fits (levels : Nat) (f : Filter) : Prop where
  levels : f.levels ≤ levels
  operands : ∀ c ∈ f.comparisons, c.operand.Fits

/-- Neither depth is negative. -/
def DepthRange.Nonnegative (r : DepthRange) : Prop :=
  0 ≤ r.least.toInt ∧ 0 ≤ r.greatest.toInt

instance (r : DepthRange) : Decidable r.Nonnegative :=
  inferInstanceAs (Decidable (_ ∧ _))

def Source.Fits : Source → Prop
  | .collection _ => True
  | .traversal hop _ _ => hop.depths.Nonnegative

structure Scope.Fits (s : Scope) : Prop where
  source : s.source.Fits
  prune : ∀ f ∈ s.prune, f.Fits maxNesting
  filter : ∀ f ∈ s.filter, f.Fits maxNesting

/-- Queries of at most some scopes within all other limits. -/
structure Query.Fits (scopes : Nat) (q : Query) : Prop where
  chain : q.scopes.length ≤ scopes
  root : q.root.Fits
  joins : ∀ j ∈ q.joins, j.1.depths.Nonnegative ∧ j.2.Fits

namespace Filter

theorem fits_empty (levels : Nat) : Filter.empty.Fits (levels + 1) :=
  ⟨Nat.le_add_left 1 levels, fun _ h => nomatch h⟩

theorem fits_comparison_iff {levels : Nat} {before : Filter} {op : Option Connective}
    {c : Comparison} :
    (comparison before op c).Fits levels ↔ before.Fits levels ∧ c.operand.Fits := by
  constructor
  · rintro ⟨hlevels, hoperands⟩
    exact ⟨⟨hlevels, fun d hd => hoperands d (List.mem_append_left _ hd)⟩,
      hoperands c (List.mem_append_right _ (List.mem_singleton.mpr rfl))⟩
  · intro h
    obtain ⟨⟨hlevels, hoperands⟩, hc⟩ := h
    refine ⟨hlevels, fun d hd => ?_⟩
    rcases List.mem_append.mp hd with hd | hd
    · exact hoperands d hd
    · exact List.mem_singleton.mp hd ▸ hc

theorem fits_group_iff {levels : Nat} {before inner : Filter} {op : Option Connective} :
    (group before op inner).Fits (levels + 1) ↔ before.Fits (levels + 1) ∧ inner.Fits levels := by
  have hlevels : (group before op inner).levels ≤ levels + 1 ↔
      before.levels ≤ levels + 1 ∧ inner.levels ≤ levels := by
    simp only [Filter.levels, groupLevels]
    omega
  constructor
  · rintro ⟨h, hoperands⟩
    exact ⟨⟨(hlevels.mp h).1, fun c hc => hoperands c (List.mem_append_left _ hc)⟩,
      (hlevels.mp h).2, fun c hc => hoperands c (List.mem_append_right _ hc)⟩
  · intro h
    obtain ⟨⟨hbefore, hoperands⟩, hinner, hoperands'⟩ := h
    refine ⟨hlevels.mpr ⟨hbefore, hinner⟩, fun c hc => ?_⟩
    rcases List.mem_append.mp hc with hc | hc
    · exact hoperands c hc
    · exact hoperands' c hc

theorem not_fits_zero (f : Filter) : ¬f.Fits 0 :=
  fun h => absurd h.levels (by simp [Filter.levels])

end Filter

namespace Query

theorem not_fits_zero (q : Query) : ¬q.Fits 0 :=
  fun h => absurd h.chain (by simp)

theorem fits_single_iff {scopes : Nat} {root : Scope} :
    Query.Fits (scopes + 1) ⟨root, []⟩ ↔ root.Fits :=
  ⟨fun h => h.root, fun h => ⟨by simp, h, fun _ hj => nomatch hj⟩⟩

/-- A chain is within the limits when its first scope is, and what is joined to it is under a limit
that is one less. -/
theorem fits_join_iff {scopes : Nat} {root : Scope} {hop : Hop} {nested : Query} :
    Query.Fits (scopes + 1) ⟨root, (hop, nested.root) :: nested.joins⟩ ↔
      root.Fits ∧ hop.depths.Nonnegative ∧ nested.Fits scopes := by
  constructor
  · intro h
    obtain ⟨hchain, hroot, hjoins⟩ := h
    obtain ⟨⟨hhop, hscope⟩, hrest⟩ := List.forall_mem_cons.mp hjoins
    exact ⟨hroot, hhop, by simpa using hchain, hscope, hrest⟩
  · intro h
    obtain ⟨hroot, hhop, hchain, hscope, hrest⟩ := h
    exact ⟨by simpa using hchain, hroot, List.forall_mem_cons.mpr ⟨⟨hhop, hscope⟩, hrest⟩⟩

end Query

/-! ### Builders -/

structure Scope.WellFormed (s : Scope) : Prop where
  prune : ∀ f ∈ s.prune, f.WellFormed
  filter : ∀ f ∈ s.filter, f.WellFormed

theorem Scope.wellFormed_ofSource (source : Source) : (Scope.ofSource source).WellFormed where
  prune := fun _ hf => nomatch hf
  filter := fun _ hf => nomatch hf

namespace Query

/-- All filters of all scopes are well formed. -/
structure WellFormed (q : Query) : Prop where
  root : q.root.WellFormed
  joins : ∀ j ∈ q.joins, j.2.WellFormed

/-- The queries that the builders make, from filters that the builders make. -/
inductive Built : Query → Prop where
  | collection (name : Text) : Built (.collection name)
  | traversal (hop : Hop) (target start : Text) : Built (.traversal hop target start)
  | filter {q : Query} {f : Filter} : Built q → f.Built → Built (q.filter f)
  | prune {q : Query} {f : Filter} : Built q → f.Built → Built (q.prune f)
  | sort {q : Query} (key : SortKey) : Built q → Built (q.sort key)
  | limit {q : Query} (l : Limit) : Built q → Built (q.limit l)
  | distinct {q : Query} : Built q → Built q.distinct
  | join {q nested : Query} (hop : Hop) : Built q → Built nested → Built (q.join hop nested)

theorem wellFormed_join_iff {root : Scope} {hop : Hop} {nested : Query} :
    Query.WellFormed ⟨root, (hop, nested.root) :: nested.joins⟩ ↔
      root.WellFormed ∧ nested.WellFormed := by
  constructor
  · rintro ⟨hroot, hjoins⟩
    obtain ⟨hscope, hrest⟩ := List.forall_mem_cons.mp hjoins
    exact ⟨hroot, hscope, hrest⟩
  · intro h
    obtain ⟨hroot, hscope, hrest⟩ := h
    exact ⟨hroot, List.forall_mem_cons.mpr ⟨hscope, hrest⟩⟩

/-- **The filters of a query that is built are well formed.** -/
theorem Built.wellFormed {q : Query} (h : q.Built) : q.WellFormed := by
  induction h with
  | collection name => exact ⟨Scope.wellFormed_ofSource _, fun _ hj => nomatch hj⟩
  | traversal hop target start => exact ⟨Scope.wellFormed_ofSource _, fun _ hj => nomatch hj⟩
  | filter _ hf ih =>
    exact ⟨⟨ih.root.prune, fun g hg => Option.some.inj hg ▸ hf.wellFormed⟩, ih.joins⟩
  | prune _ hf ih =>
    exact ⟨⟨fun g hg => Option.some.inj hg ▸ hf.wellFormed, ih.root.filter⟩, ih.joins⟩
  | sort key _ ih => exact ⟨⟨ih.root.prune, ih.root.filter⟩, ih.joins⟩
  | limit l _ ih => exact ⟨⟨ih.root.prune, ih.root.filter⟩, ih.joins⟩
  | distinct _ ih => exact ⟨⟨ih.root.prune, ih.root.filter⟩, ih.joins⟩
  | join hop _ _ ihq ihn => exact wellFormed_join_iff.mpr ⟨ihq.root, ihn⟩

end Query

/-! ### What is decoded -/

theorem Operand.fits_of_ofJson {j : Value} {o : Operand} (h : Operand.ofJson j = .ok o) :
    o.Fits := by
  rcases Operand.ofJson_eq_ok_iff.mp h with ⟨path, _, rfl⟩ | ⟨_, v, _, hdepth, rfl⟩
  · trivial
  · exact hdepth

namespace Filter

/-- The connective that is decoded is missing exactly where no entry stands before. -/
theorem isNone_of_decodeConnective {before : Filter} {j : Value} {op : Option Connective}
    (h : decodeConnective before j = .ok op) : op.isNone = before.isEmpty := by
  rcases decodeConnective_eq_ok_iff.mp h with ⟨hbefore, rfl⟩ | ⟨hbefore, _, c, _, _, rfl⟩
  · exact hbefore.symm
  · exact hbefore.symm

variable {levels : Nat} {decodeGroup : Value → Checked Filter} {before f : Filter}

theorem decodeEntry_fits {j : Value}
    (hgroup : ∀ w g, decodeGroup w = .ok g → g.WellFormed ∧ g.Fits levels)
    (hbefore : before.WellFormed ∧ before.Fits (levels + 1))
    (h : decodeEntry decodeGroup before j = .ok f) : f.WellFormed ∧ f.Fits (levels + 1) := by
  obtain ⟨op, t, hop, ht, rfl⟩ := decodeEntry_eq_ok_iff.mp h
  have hnone : op.isNone = before.isEmpty := isNone_of_decodeConnective hop
  rcases decodeTerm_eq_ok_iff.mp ht with ⟨w, inner, _, hinner, rfl⟩ | ⟨_, w, c, _, hc, rfl⟩
  · obtain ⟨hwell, hfits⟩ := hgroup w inner hinner
    exact ⟨wellFormed_push_iff.mpr ⟨hbefore.1, hnone, hwell⟩,
      fits_group_iff.mpr ⟨hbefore.2, hfits⟩⟩
  · obtain ⟨_, _, _, _, hoperand⟩ := Comparison.ofJson_eq_ok_iff.mp hc
    exact ⟨wellFormed_push_iff.mpr ⟨hbefore.1, hnone, trivial⟩,
      fits_comparison_iff.mpr ⟨hbefore.2, Operand.fits_of_ofJson hoperand⟩⟩

theorem decodeEntries_fits {js : List Value}
    (hgroup : ∀ w g, decodeGroup w = .ok g → g.WellFormed ∧ g.Fits levels)
    (hbefore : before.WellFormed ∧ before.Fits (levels + 1))
    (h : decodeEntries decodeGroup before js = .ok f) : f.WellFormed ∧ f.Fits (levels + 1) := by
  induction js generalizing before with
  | nil =>
    cases h
    exact hbefore
  | cons j js ih =>
    obtain ⟨g, hg, hrest⟩ := bind_eq_ok_iff.mp h
    exact ih (decodeEntry_fits hgroup hbefore hg) hrest

/-- **A decoded filter is well formed and within the levels it was decoded with.** -/
theorem fits_of_decodeWithin : ∀ {levels : Nat} {j : Value} {f : Filter},
    decodeWithin levels j = .ok f → f.WellFormed ∧ f.Fits levels
  | 0, _, _, h => nomatch h
  | levels + 1, _, _, h => by
    obtain ⟨ts, _, hts⟩ := decodeWithin_succ_eq_ok_iff.mp h
    have hempty : empty.WellFormed := trivial
    exact decodeEntries_fits (fun _ _ => fits_of_decodeWithin) ⟨hempty, fits_empty levels⟩ hts

end Filter

theorem DepthRange.nonnegative_of_ofJson {j : Value} {r : DepthRange} (h : ofJson j = .ok r) :
    r.Nonnegative := by
  obtain ⟨⟨_, _, hleast⟩, _, _, hgreatest⟩ := ofJson_eq_ok_iff.mp h
  exact ⟨(depthOf?_eq_some_iff.mp hleast).1, (depthOf?_eq_some_iff.mp hgreatest).1⟩

theorem Hop.nonnegative_of_ofJson {j : Value} {hop : Hop} (h : ofJson j = .ok hop) :
    hop.depths.Nonnegative :=
  DepthRange.nonnegative_of_ofJson (ofJson_eq_ok_iff.mp h).1

theorem Source.fits_of_ofJson {j : Value} {s : Source} (h : ofJson j = .ok s) : s.Fits := by
  rcases ofJson_eq_ok_iff.mp h with ⟨t, _, ht⟩ | ⟨_, name, _, rfl⟩
  · obtain ⟨hop, _, _, hhop, _, _, rfl⟩ := ofTraversalJson_eq_ok_iff.mp ht
    exact Hop.nonnegative_of_ofJson hhop
  · trivial

namespace Scope

/-- What is decoded at a member that may be missing has what everything decoded there has. -/
theorem forall_of_decodeOptional {α : Type} {decode : Value → Checked α} {P : α → Prop}
    {v : Option Value} {a : Option α} (hdecode : ∀ w b, decode w = .ok b → P b)
    (h : decodeOptional decode v = .ok a) : ∀ b ∈ a, P b := by
  rcases decodeOptional_eq_ok_iff.mp h with ⟨_, rfl⟩ | ⟨w, b, _, hb, rfl⟩
  · exact fun _ h => nomatch h
  · exact fun _ h => Option.some.inj h ▸ hdecode w b hb

theorem fits_of_ofJson {j : Value} {s : Scope} (h : ofJson j = .ok s) : s.WellFormed ∧ s.Fits := by
  obtain ⟨hsource, hfilter, hprune, _⟩ := ofJson_eq_ok_iff.mp h
  have hfilter := forall_of_decodeOptional (fun _ _ => Filter.fits_of_decodeWithin) hfilter
  have hprune := forall_of_decodeOptional (fun _ _ => Filter.fits_of_decodeWithin) hprune
  exact ⟨⟨fun f hf => (hprune f hf).1, fun f hf => (hfilter f hf).1⟩,
    ⟨Source.fits_of_ofJson hsource, fun f hf => (hprune f hf).2, fun f hf => (hfilter f hf).2⟩⟩

end Scope

namespace Query

/-- **A decoded chain is well formed and has at most the scopes it was decoded with.** -/
theorem fits_of_decodeWithin {scopes : Nat} {j : Value} {q : Query}
    (h : decodeWithin scopes j = .ok q) : q.WellFormed ∧ q.Fits scopes := by
  induction scopes generalizing j q with
  | zero => cases h
  | succ scopes ih =>
    obtain ⟨root, joins⟩ := q
    obtain ⟨hroot, hjoins⟩ := decodeWithin_succ_eq_ok_iff.mp h
    obtain ⟨hwell, hfits⟩ := Scope.fits_of_ofJson hroot
    rcases decodeJoin_eq_ok_iff.mp hjoins with
      ⟨_, hnil⟩ | ⟨w, nestedJson, hop, nested, _, hhop, _, hnested, hcons⟩
    · cases hnil
      exact ⟨⟨hwell, fun _ hj => nomatch hj⟩, fits_single_iff.mpr hfits⟩
    · cases hcons
      obtain ⟨hwell', hfits'⟩ := ih hnested
      exact ⟨wellFormed_join_iff.mpr ⟨hwell, hwell'⟩,
        fits_join_iff.mpr ⟨hfits, Hop.nonnegative_of_ofJson hhop, hfits'⟩⟩

end Query

end GraphQuery
