import GraphQuery.Proofs.Descriptor.Decoding
import GraphQuery.Proofs.Descriptor.Faults

/-!
# The grammar of descriptors

Which values describe a query can be said without decoding them. Each predicate of this module is a
rule of the grammar, about one value and the members that it must or may have; members that no rule
names are free. Filters and chains have rules under a bound on how deep they nest, by recursion on
that bound.

* `Value.IsQuery` is the rule of queries, made up of those of scopes, filters, comparisons and hops.
* `exists_ofJson_iff` theorems say of one decoder each that it accepts what follows the rule.
* `accepts_iff` says so of queries, and that everything else is refused by an error about the
  descriptor or about a depth in it.
-/

namespace GraphQuery

namespace Value

/-! ### Members -/

/-- There is a member of a key, and it follows the rule. -/
def Has (j : Value) (key : String) (rule : Value → Prop) : Prop :=
  ∃ v, j.get? (utf8 key) = some v ∧ rule v

/-- There is no member of a key. -/
def Lacks (j : Value) (key : String) : Prop :=
  j.get? (utf8 key) = none

/-- A member of a key follows the rule, where there is one. -/
def MayHave (j : Value) (key : String) (rule : Value → Prop) : Prop :=
  ∀ v, j.get? (utf8 key) = some v → rule v

/-! ### Rules -/

def IsText (v : Value) : Prop :=
  ∃ s, v = .string s

def IsFlag (v : Value) : Prop :=
  ∃ b, v = .bool b

/-- One of some words. -/
def IsWord (words : List String) (v : Value) : Prop :=
  ∃ word ∈ words, v = .string (utf8 word)

def IsOperator : Value → Prop :=
  IsWord ["==", "!=", ">", ">=", "<", "<=", "LIKE", "NOT LIKE", "=~", "!~", "IN", "NOT IN"]

/-- The empty word stands for no quantifier. -/
def IsQuantifier : Value → Prop :=
  IsWord ["", "ALL", "ANY", "NONE"]

def IsConnective : Value → Prop :=
  IsWord ["AND", "OR", "&&", "||"]

def IsDirection : Value → Prop :=
  IsWord ["OUTBOUND", "INBOUND", "ANY"]

def IsSortDirection : Value → Prop :=
  IsWord ["ASC", "DESC"]

/-- A whole number from zero to the largest signed number of 32 bits. -/
def IsDepth (v : Value) : Prop :=
  ∃ n, v.IsWhole n ∧ 0 ≤ n ∧ n ≤ 2147483647

/-- A whole number that is held unsigned and fits 32 bits. -/
def IsCount (v : Value) : Prop :=
  ∃ n : UInt64, v = .unsigned n ∧ n.toNat ≤ 4294967295

/-- A field, or where none is named, a value that nests not too deep. -/
def IsOperand (j : Value) : Prop :=
  j.Has "field" IsText ∨ j.Lacks "field" ∧ j.Has "value" fun v => v.depth ≤ 256

/-- An expression, which is not quantified over, or where there is none, a field. -/
def IsSubject (j : Value) : Prop :=
  j.Has "statement" IsText ∧ j.MayHave "quantifier" (IsWord [""]) ∨
    j.Lacks "statement" ∧ j.Has "field" IsText ∧
      j.MayHave "quantifier" IsQuantifier

structure IsComparison (j : Value) : Prop where
  subject : j.IsSubject
  operator : j.Has "operator" IsOperator
  operand : j.Has "operand" IsOperand

/-- A filter of at most some levels, its own included. Every entry holds a filter, or where there is
none, a comparison, and every entry after the first has a connective. -/
def IsFilter : Nat → Value → Prop
  | 0, _ => False
  | levels + 1, j => ∃ entries, j.get? (utf8 "terms") = some (.array entries) ∧
      (∀ entry ∈ entries, entry.Has "filter" (IsFilter levels) ∨
        entry.Lacks "filter" ∧ entry.Has "comparison" IsComparison) ∧
      ∀ entry ∈ entries.tail, entry.Has "op" IsConnective

structure IsHop (j : Value) : Prop where
  least : j.Has "min_depth" IsDepth
  greatest : j.Has "max_depth" IsDepth
  direction : j.Has "direction" IsDirection
  namedGraph : j.MayHave "named_graph" IsFlag

structure IsTraversal (j : Value) : Prop where
  hop : j.IsHop
  target : j.Has "target" IsText
  start : j.Has "start_vertex" IsText

structure IsSortKey (j : Value) : Prop where
  field : j.Has "field" IsText
  direction : j.MayHave "direction" IsSortDirection

structure IsLimit (j : Value) : Prop where
  count : j.Has "count" IsCount
  skip : j.MayHave "skip" IsCount

/-- A query without regard to what is joined to it. -/
structure IsScope (j : Value) : Prop where
  source : j.Has "traversal" IsTraversal ∨ j.Lacks "traversal" ∧ j.Has "collection" IsText
  filter : j.MayHave "filter" (IsFilter 256)
  prune : j.MayHave "prune" (IsFilter 256)
  /-- Sort keys are the values that a walk over the member visits. -/
  sorts : j.MayHave "sort" fun v => ∀ key ∈ v.items, key.IsSortKey
  limit : j.MayHave "limit" IsLimit
  distinct : j.MayHave "distinct" IsFlag

/-- A query of at most some scopes. -/
def IsQuery : Nat → Value → Prop
  | 0, _ => False
  | scopes + 1, j => j.IsScope ∧ j.MayHave "join" fun hop =>
      hop.IsHop ∧ hop.Has "query" (IsQuery scopes)

variable {α : Type} {j : Value} {key : String} {rule : Value → Prop} {f : α → Value}

theorem has_iff (hrule : ∀ v, rule v ↔ ∃ a, v = f a) :
    j.Has key rule ↔ ∃ a, j.get? (utf8 key) = some (f a) := by
  constructor
  · intro h
    obtain ⟨v, hv, hrulev⟩ := h
    obtain ⟨a, rfl⟩ := (hrule v).mp hrulev
    exact ⟨a, hv⟩
  · rintro ⟨a, ha⟩
    exact ⟨f a, ha, (hrule (f a)).mpr ⟨a, rfl⟩⟩

/-- A member that may be missing stands for something, and for a default where it is missing. -/
theorem mayHave_iff (default : α) (hrule : ∀ v, rule v ↔ ∃ a, v = f a) :
    j.MayHave key rule ↔
      ∃ a, j.get? (utf8 key) = none ∧ a = default ∨ j.get? (utf8 key) = some (f a) := by
  constructor
  · intro h
    cases hv : j.get? (utf8 key) with
    | none => exact ⟨default, Or.inl ⟨rfl, rfl⟩⟩
    | some v =>
      obtain ⟨a, rfl⟩ := (hrule v).mp (h v hv)
      exact ⟨a, Or.inr rfl⟩
  · rintro ⟨a, ⟨hnone, _⟩ | hsome⟩ v hv
    · rw [hnone] at hv
      cases hv
    · rw [hsome] at hv
      exact (hrule v).mpr ⟨a, (Option.some.inj hv).symm⟩

/-- Being one of some words is having a name of a vocabulary that has just these names. -/
theorem isWord_iff (words : Vocabulary α) {spelled : List String}
    (hspelled : spelled.map utf8 = words.all.map words.name) (v : Value) :
    v.IsWord spelled ↔ ∃ a, v = .string (words.name a) := by
  constructor
  · intro h
    obtain ⟨word, hword, rfl⟩ := h
    have hname : utf8 word ∈ words.all.map words.name := hspelled ▸ List.mem_map_of_mem hword
    obtain ⟨a, _, ha⟩ := List.mem_map.mp hname
    exact ⟨a, ha ▸ rfl⟩
  · intro h
    obtain ⟨a, rfl⟩ := h
    have hname : words.name a ∈ spelled.map utf8 :=
      hspelled ▸ List.mem_map_of_mem (words.mem_all a)
    obtain ⟨word, hword, hname⟩ := List.mem_map.mp hname
    exact ⟨word, hword, hname ▸ rfl⟩

theorem isOperator_iff (v : Value) : v.IsOperator ↔ ∃ op : Operator, v = .string op.name :=
  isWord_iff Operator.vocabulary rfl v

theorem isQuantifier_iff (v : Value) :
    v.IsQuantifier ↔ ∃ q, v = .string (Quantifier.nameOrEmpty q) :=
  isWord_iff Quantifier.vocabulary rfl v

theorem isDirection_iff (v : Value) : v.IsDirection ↔ ∃ d : Direction, v = .string d.name :=
  isWord_iff Direction.vocabulary rfl v

theorem isSortDirection_iff (v : Value) :
    v.IsSortDirection ↔ ∃ d : SortDirection, v = .string d.name :=
  isWord_iff SortDirection.vocabulary rfl v

/-- The words for connectives are the names and the symbols together. -/
theorem isConnective_iff (v : Value) :
    v.IsConnective ↔ ∃ s c, v = .string s ∧ Connective.ofName s = .ok c := by
  have hnames : v.IsWord ["AND", "OR"] ↔ ∃ c : Connective, v = .string c.name :=
    isWord_iff Connective.names rfl v
  have hsymbols : v.IsWord ["&&", "||"] ↔ ∃ c : Connective, v = .string c.symbol :=
    isWord_iff Connective.symbols rfl v
  have hwords : v.IsConnective ↔ v.IsWord ["AND", "OR"] ∨ v.IsWord ["&&", "||"] := by
    simp [IsConnective, IsWord, or_assoc]
  rw [hwords, hnames, hsymbols]
  simp only [Connective.ofName_eq_ok_iff]
  constructor
  · intro h
    rcases h with ⟨c, rfl⟩ | ⟨c, rfl⟩
    · exact ⟨c.name, c, rfl, Or.inr rfl⟩
    · exact ⟨c.symbol, c, rfl, Or.inl rfl⟩
  · intro h
    rcases h with ⟨_, c, rfl, rfl | rfl⟩
    · exact Or.inr ⟨c, rfl⟩
    · exact Or.inl ⟨c, rfl⟩

theorem isFlag_iff (v : Value) : v.IsFlag ↔ ∃ b, v = .bool b :=
  Iff.rfl

theorem isDepth_iff (v : Value) : v.IsDepth ↔ ∃ n, DepthRange.depthOf? v = some n := by
  simp only [DepthRange.depthOf?_eq_some_iff]
  constructor
  · intro h
    obtain ⟨n, hn, hzero, hmax⟩ := h
    have hcast : (Int32.ofInt n).toInt = n := Int32.toInt_ofInt_of_le (by omega) (by omega)
    exact ⟨Int32.ofInt n, by rwa [hcast], by rwa [hcast]⟩
  · intro h
    obtain ⟨n, hzero, hn⟩ := h
    exact ⟨n.toInt, hn, hzero, n.toInt_le⟩

theorem isCount_iff (v : Value) : v.IsCount ↔ ∃ n, v = Limit.countJson n := by
  simp only [← Limit.countOf?_eq_some_iff]
  constructor
  · intro h
    obtain ⟨n, rfl, hmax⟩ := h
    exact ⟨n.toUInt32, if_pos (Nat.lt_succ_of_le hmax)⟩
  · rintro ⟨n, hn⟩
    obtain rfl := Limit.countOf?_eq_some_iff.mp hn
    refine ⟨n.toUInt64, rfl, ?_⟩
    rw [UInt32.toNat_toUInt64]
    exact Nat.le_of_lt_succ n.toNat_lt

end Value

open Value

/-! ### Comparisons -/

theorem Operand.exists_ofJson_iff {j : Value} : (∃ o, Operand.ofJson j = .ok o) ↔ j.IsOperand := by
  simp only [Operand.ofJson_eq_ok_iff, IsOperand, Has, Lacks, IsText]
  constructor
  · intro h
    rcases h with ⟨_, ⟨path, hpath, rfl⟩ | ⟨hnone, v, hv, hdepth, rfl⟩⟩
    · exact Or.inl ⟨_, hpath, path, rfl⟩
    · exact Or.inr ⟨hnone, v, hv, hdepth⟩
  · intro h
    rcases h with ⟨_, hpath, path, rfl⟩ | ⟨hnone, v, hv, hdepth⟩
    · exact ⟨.field path, Or.inl ⟨path, hpath, rfl⟩⟩
    · exact ⟨.literal v, Or.inr ⟨hnone, v, hv, hdepth, rfl⟩⟩

namespace Comparison

theorem exists_decodeQuantifier_iff {j : Value} (hobject : j.isObject = true) :
    (∃ q, decodeQuantifier j = .ok q) ↔
      j.MayHave "quantifier" IsQuantifier := by
  rw [mayHave_iff none isQuantifier_iff]
  simp only [decodeQuantifier_eq_ok_iff, hobject, true_and]

theorem decodeQuantifier_eq_none_iff {j : Value} (hobject : j.isObject = true) :
    decodeQuantifier j = .ok none ↔ j.MayHave "quantifier" (IsWord [""]) := by
  have hempty : Quantifier.nameOrEmpty none = utf8 "" := by decide
  rw [decodeQuantifier_eq_ok_iff, MayHave, hempty]
  cases j.get? (utf8 "quantifier") <;> simp [hobject, IsWord]

theorem exists_decodeSubject_iff {j : Value} : (∃ s, decodeSubject j = .ok s) ↔ j.IsSubject := by
  simp only [decodeSubject_eq_ok_iff]
  constructor
  · intro h
    rcases h with ⟨_, ⟨expression, hstatement, hq, rfl⟩ | ⟨hnone, name, q, hname, hq, rfl⟩⟩
    · have hobject : j.isObject = true := isObject_of_get? hstatement
      exact Or.inl ⟨⟨_, hstatement, expression, rfl⟩, (decodeQuantifier_eq_none_iff hobject).mp hq⟩
    · have hobject : j.isObject = true := isObject_of_get? hname
      exact Or.inr ⟨hnone, ⟨_, hname, name, rfl⟩, (exists_decodeQuantifier_iff hobject).mp ⟨q, hq⟩⟩
  · intro h
    rcases h with ⟨⟨_, hstatement, expression, rfl⟩, hq⟩ | ⟨hnone, ⟨_, hname, name, rfl⟩, hq⟩
    · have hobject : j.isObject = true := isObject_of_get? hstatement
      exact ⟨.statement expression, Or.inl
        ⟨expression, hstatement, (decodeQuantifier_eq_none_iff hobject).mpr hq, rfl⟩⟩
    · have hobject : j.isObject = true := isObject_of_get? hname
      obtain ⟨q, hq⟩ := (exists_decodeQuantifier_iff hobject).mpr hq
      exact ⟨.field name q, Or.inr ⟨hnone, name, q, hname, hq, rfl⟩⟩

theorem exists_ofJson_iff {j : Value} : (∃ c, ofJson j = .ok c) ↔ j.IsComparison := by
  simp only [ofJson_eq_ok_iff]
  constructor
  · intro h
    obtain ⟨c, hsubject, hoperator, w, hw, hoperand⟩ := h
    exact ⟨exists_decodeSubject_iff.mp ⟨_, hsubject⟩,
      (has_iff isOperator_iff).mpr ⟨_, hoperator⟩,
      w, hw, Operand.exists_ofJson_iff.mp ⟨_, hoperand⟩⟩
  · intro h
    obtain ⟨hsubject, hoperator, w, hw, hoperand⟩ := h
    obtain ⟨subject, hsubject⟩ := exists_decodeSubject_iff.mpr hsubject
    obtain ⟨op, hop⟩ := (has_iff isOperator_iff).mp hoperator
    obtain ⟨operand, hoperand⟩ := Operand.exists_ofJson_iff.mpr hoperand
    exact ⟨⟨subject, op, operand⟩, hsubject, hop, w, hw, hoperand⟩

end Comparison

/-! ### Filters -/

namespace Filter

theorem exists_decodeConnective_iff {before : Filter} {j : Value} :
    (∃ op, decodeConnective before j = .ok op) ↔
      (before.isEmpty = false → j.Has "op" IsConnective) := by
  simp only [decodeConnective_eq_ok_iff]
  cases before.isEmpty with
  | true => simp
  | false =>
    constructor
    · rintro ⟨_, ⟨h, _⟩ | ⟨_, s, c, hs, hc, rfl⟩⟩ _
      · cases h
      · exact ⟨_, hs, (isConnective_iff _).mpr ⟨s, c, rfl, hc⟩⟩
    · intro h
      obtain ⟨_, hv, hword⟩ := h rfl
      obtain ⟨s, c, rfl, hc⟩ := (isConnective_iff _).mp hword
      exact ⟨some c, Or.inr ⟨rfl, s, c, hv, hc, rfl⟩⟩

section Entries

variable {decodeGroup : Value → Checked Filter} {rule : Value → Prop}
  (hgroup : ∀ w, (∃ f, decodeGroup w = .ok f) ↔ rule w)

include hgroup

theorem exists_decodeTerm_iff {j : Value} :
    (∃ t, decodeTerm decodeGroup j = .ok t) ↔
      j.Has "filter" rule ∨ j.Lacks "filter" ∧ j.Has "comparison" IsComparison := by
  simp only [decodeTerm_eq_ok_iff]
  constructor
  · intro h
    rcases h with ⟨_, ⟨w, f, hw, hf, rfl⟩ | ⟨hnone, w, c, hw, hc, rfl⟩⟩
    · exact Or.inl ⟨w, hw, (hgroup w).mp ⟨f, hf⟩⟩
    · exact Or.inr ⟨hnone, w, hw, Comparison.exists_ofJson_iff.mp ⟨c, hc⟩⟩
  · intro h
    rcases h with ⟨w, hw, hrule⟩ | ⟨hnone, w, hw, hrule⟩
    · obtain ⟨f, hf⟩ := (hgroup w).mpr hrule
      exact ⟨.group f, Or.inl ⟨w, f, hw, hf, rfl⟩⟩
    · obtain ⟨c, hc⟩ := Comparison.exists_ofJson_iff.mpr hrule
      exact ⟨.comparison c, Or.inr ⟨hnone, w, c, hw, hc, rfl⟩⟩

theorem exists_decodeEntry_iff {before : Filter} {j : Value} :
    (∃ f, decodeEntry decodeGroup before j = .ok f) ↔
      (before.isEmpty = false → j.Has "op" IsConnective) ∧
        (j.Has "filter" rule ∨ j.Lacks "filter" ∧ j.Has "comparison" IsComparison) := by
  simp only [decodeEntry_eq_ok_iff]
  rw [← exists_decodeConnective_iff, ← exists_decodeTerm_iff hgroup]
  constructor
  · intro h
    obtain ⟨_, op, t, hop, ht, rfl⟩ := h
    exact ⟨⟨op, hop⟩, t, ht⟩
  · intro h
    obtain ⟨⟨op, hop⟩, t, ht⟩ := h
    exact ⟨_, op, t, hop, ht, rfl⟩

/-- Entries are decoded after others when each of them has a connective and holds what follows the
rules; the first one needs no connective where nothing stands before it. -/
theorem exists_decodeEntries_iff (js : List Value) :
    ∀ before, (∃ f, decodeEntries decodeGroup before js = .ok f) ↔
      (∀ j ∈ js, j.Has "filter" rule ∨ j.Lacks "filter" ∧ j.Has "comparison" IsComparison) ∧
        ∀ j ∈ if before.isEmpty then js.tail else js,
          j.Has "op" IsConnective := by
  induction js with
  | nil => simp [decodeEntries]
  | cons j js ih =>
    intro before
    -- What stands before the remaining entries is not empty any more.
    have hrest : ∀ g, decodeEntry decodeGroup before j = .ok g →
        ((∃ f, decodeEntries decodeGroup g js = .ok f) ↔
          (∀ j ∈ js, j.Has "filter" rule ∨ j.Lacks "filter" ∧ j.Has "comparison" IsComparison) ∧
            ∀ j ∈ js, j.Has "op" IsConnective) := fun g hg => by
      obtain ⟨op, t, _, _, rfl⟩ := decodeEntry_eq_ok_iff.mp hg
      rw [ih, isEmpty_push]
      simp
    have hops : (∀ k ∈ if before.isEmpty then (j :: js).tail else j :: js,
          k.Has "op" IsConnective) ↔
        (before.isEmpty = false → j.Has "op" IsConnective) ∧
          ∀ k ∈ js, k.Has "op" IsConnective := by
      cases before.isEmpty <;> simp
    rw [decodeEntries, exists_bind_eq_ok_iff, hops, List.forall_mem_cons]
    constructor
    · intro h
      obtain ⟨g, hg, hf⟩ := h
      obtain ⟨hop, hterm⟩ := (exists_decodeEntry_iff hgroup).mp ⟨g, hg⟩
      obtain ⟨hterms, hops⟩ := (hrest g hg).mp hf
      exact ⟨⟨hterm, hterms⟩, hop, hops⟩
    · intro h
      obtain ⟨⟨hterm, hterms⟩, hop, hops⟩ := h
      obtain ⟨g, hg⟩ := (exists_decodeEntry_iff hgroup).mpr ⟨hop, hterm⟩
      exact ⟨g, hg, (hrest g hg).mpr ⟨hterms, hops⟩⟩

end Entries

/-- **Filters are accepted by their rule**, with every number of levels. -/
theorem exists_decodeWithin_iff : ∀ {levels : Nat} {j : Value},
    (∃ f, decodeWithin levels j = .ok f) ↔ j.IsFilter levels
  | 0, j => by simp [decodeWithin, IsFilter]
  | levels + 1, j => by
    simp only [decodeWithin_succ_eq_ok_iff, IsFilter]
    constructor
    · intro h
      obtain ⟨f, entries, hentries, hf⟩ := h
      exact ⟨entries, hentries,
        (exists_decodeEntries_iff (fun _ => exists_decodeWithin_iff) entries .empty).mp ⟨f, hf⟩⟩
    · intro h
      obtain ⟨entries, hentries, hrules⟩ := h
      obtain ⟨f, hf⟩ :=
        (exists_decodeEntries_iff (fun _ => exists_decodeWithin_iff) entries .empty).mpr hrules
      exact ⟨f, entries, hentries, hf⟩

end Filter

/-! ### Sources -/

theorem DepthRange.exists_ofJson_iff {j : Value} :
    (∃ r, DepthRange.ofJson j = .ok r) ↔
      j.Has "min_depth" IsDepth ∧ j.Has "max_depth" IsDepth := by
  simp only [DepthRange.ofJson_eq_ok_iff, Has, isDepth_iff]
  constructor
  · intro h
    obtain ⟨⟨least, greatest⟩, ⟨v, hv, hleast⟩, w, hw, hgreatest⟩ := h
    exact ⟨⟨v, hv, least, hleast⟩, w, hw, greatest, hgreatest⟩
  · intro h
    obtain ⟨⟨v, hv, least, hleast⟩, w, hw, greatest, hgreatest⟩ := h
    exact ⟨⟨least, greatest⟩, ⟨v, hv, hleast⟩, w, hw, hgreatest⟩

theorem Hop.exists_ofJson_iff {j : Value} : (∃ hop, Hop.ofJson j = .ok hop) ↔ j.IsHop := by
  simp only [Hop.ofJson_eq_ok_iff]
  constructor
  · intro h
    obtain ⟨⟨direction, depths, namedGraph⟩, hdepths, hdir, hnamed⟩ := h
    obtain ⟨hleast, hgreatest⟩ := DepthRange.exists_ofJson_iff.mp ⟨depths, hdepths⟩
    exact ⟨hleast, hgreatest, (has_iff isDirection_iff).mpr ⟨direction, hdir⟩,
      (mayHave_iff false isFlag_iff).mpr ⟨namedGraph, hnamed⟩⟩
  · intro h
    obtain ⟨hleast, hgreatest, hdir, hnamed⟩ := h
    obtain ⟨depths, hdepths⟩ := DepthRange.exists_ofJson_iff.mpr ⟨hleast, hgreatest⟩
    obtain ⟨direction, hdir⟩ := (has_iff isDirection_iff).mp hdir
    obtain ⟨namedGraph, hnamed⟩ := (mayHave_iff false isFlag_iff).mp hnamed
    exact ⟨⟨direction, depths, namedGraph⟩, hdepths, hdir, hnamed⟩

theorem Source.exists_ofTraversalJson_iff {j : Value} :
    (∃ s, ofTraversalJson j = .ok s) ↔ j.IsTraversal := by
  simp only [ofTraversalJson_eq_ok_iff]
  constructor
  · intro h
    obtain ⟨_, hop, target, start, hhop, htarget, hstart, rfl⟩ := h
    exact ⟨Hop.exists_ofJson_iff.mp ⟨hop, hhop⟩, ⟨_, htarget, target, rfl⟩, _, hstart, start, rfl⟩
  · intro h
    obtain ⟨hhop, ⟨_, htarget, target, rfl⟩, _, hstart, start, rfl⟩ := h
    obtain ⟨hop, hhop⟩ := Hop.exists_ofJson_iff.mpr hhop
    exact ⟨_, hop, target, start, hhop, htarget, hstart, rfl⟩

theorem Source.exists_ofJson_iff {j : Value} :
    (∃ s, Source.ofJson j = .ok s) ↔
      j.Has "traversal" IsTraversal ∨ j.Lacks "traversal" ∧ j.Has "collection" IsText := by
  simp only [Source.ofJson_eq_ok_iff]
  constructor
  · intro h
    rcases h with ⟨s, ⟨t, ht, hs⟩ | ⟨hnone, name, hname, rfl⟩⟩
    · exact Or.inl ⟨t, ht, exists_ofTraversalJson_iff.mp ⟨s, hs⟩⟩
    · exact Or.inr ⟨hnone, _, hname, name, rfl⟩
  · intro h
    rcases h with ⟨t, ht, hrule⟩ | ⟨hnone, _, hname, name, rfl⟩
    · obtain ⟨s, hs⟩ := exists_ofTraversalJson_iff.mpr hrule
      exact ⟨s, Or.inl ⟨t, ht, hs⟩⟩
    · exact ⟨.collection name, Or.inr ⟨hnone, name, hname, rfl⟩⟩

/-! ### Scopes -/

theorem SortKey.exists_ofJson_iff {j : Value} :
    (∃ key, SortKey.ofJson j = .ok key) ↔ j.IsSortKey := by
  simp only [SortKey.ofJson_eq_ok_iff]
  constructor
  · intro h
    obtain ⟨⟨field, direction⟩, hfield, hdir⟩ := h
    exact ⟨⟨_, hfield, field, rfl⟩, (mayHave_iff .ascending isSortDirection_iff).mpr ⟨direction, hdir⟩⟩
  · intro h
    obtain ⟨⟨_, hfield, field, rfl⟩, hdir⟩ := h
    obtain ⟨direction, hdir⟩ := (mayHave_iff .ascending isSortDirection_iff).mp hdir
    exact ⟨⟨field, direction⟩, hfield, hdir⟩

theorem SortKey.exists_ofJsonList_iff {js : List Value} :
    (∃ keys, ofJsonList js = .ok keys) ↔ ∀ j ∈ js, j.IsSortKey := by
  induction js with
  | nil => simp [ofJsonList]
  | cons j js ih =>
    rw [List.forall_mem_cons, ← ih, ← SortKey.exists_ofJson_iff]
    simp only [ofJsonList_cons_eq_ok_iff]
    constructor
    · intro h
      obtain ⟨_, key, rest, hkey, hrest, rfl⟩ := h
      exact ⟨⟨key, hkey⟩, rest, hrest⟩
    · intro h
      obtain ⟨⟨key, hkey⟩, rest, hrest⟩ := h
      exact ⟨_, key, rest, hkey, hrest, rfl⟩

theorem Limit.exists_ofJson_iff {j : Value} : (∃ l, Limit.ofJson j = .ok l) ↔ j.IsLimit := by
  simp only [Limit.ofJson_eq_ok_iff]
  constructor
  · intro h
    obtain ⟨⟨count, skip⟩, hcount, hskip⟩ := h
    refine ⟨(has_iff isCount_iff).mpr ⟨count, hcount⟩, fun v hv => (isCount_iff v).mpr ?_⟩
    rw [hskip] at hv
    obtain ⟨n, _, rfl⟩ := Option.map_eq_some_iff.mp hv
    exact ⟨n, rfl⟩
  · rintro ⟨hcount, hskip⟩
    obtain ⟨count, hcount⟩ := (has_iff isCount_iff).mp hcount
    cases hv : j.get? (utf8 "skip") with
    | none => exact ⟨⟨count, none⟩, hcount, rfl⟩
    | some v =>
      obtain ⟨n, rfl⟩ := (isCount_iff v).mp (hskip v hv)
      exact ⟨⟨count, some n⟩, hcount, rfl⟩

namespace Scope

theorem exists_decodeOptional_iff {ε α : Type} {decode : Value → Except ε α} {rule : Value → Prop}
    (hdecode : ∀ v, (∃ a, decode v = .ok a) ↔ rule v) {j : Value} {key : String} :
    (∃ a, decodeOptional decode (j.get? (utf8 key)) = .ok a) ↔ j.MayHave key rule := by
  simp only [decodeOptional_eq_ok_iff]
  constructor
  · rintro ⟨_, ⟨hnone, _⟩ | ⟨w, a, hw, ha, _⟩⟩ v hv
    · rw [hnone] at hv
      cases hv
    · rw [hw] at hv
      exact Option.some.inj hv ▸ (hdecode w).mp ⟨a, ha⟩
  · intro h
    cases hv : j.get? (utf8 key) with
    | none => exact ⟨none, Or.inl ⟨rfl, rfl⟩⟩
    | some v =>
      obtain ⟨a, ha⟩ := (hdecode v).mpr (h v hv)
      exact ⟨some a, Or.inr ⟨v, a, rfl, ha, rfl⟩⟩

theorem exists_decodeSorts_iff {j : Value} :
    (∃ keys, decodeSorts (j.get? (utf8 "sort")) = .ok keys) ↔
      j.MayHave "sort" fun v => ∀ key ∈ v.items, key.IsSortKey := by
  unfold MayHave
  cases j.get? (utf8 "sort") with
  | none => simp [decodeSorts]
  | some v => simpa [decodeSorts] using SortKey.exists_ofJsonList_iff

theorem exists_ofJson_iff {j : Value} : (∃ s, ofJson j = .ok s) ↔ j.IsScope := by
  have hfilter : ∀ v, (∃ f, Filter.ofJson v = .ok f) ↔ v.IsFilter 256 := fun _ =>
    Filter.exists_decodeWithin_iff
  simp only [ofJson_eq_ok_iff]
  constructor
  · intro h
    obtain ⟨s, hsource, hfilters, hprune, hsorts, hlimit, hdistinct⟩ := h
    exact ⟨Source.exists_ofJson_iff.mp ⟨_, hsource⟩,
      (exists_decodeOptional_iff hfilter).mp ⟨_, hfilters⟩,
      (exists_decodeOptional_iff hfilter).mp ⟨_, hprune⟩,
      exists_decodeSorts_iff.mp ⟨_, hsorts⟩,
      (exists_decodeOptional_iff fun _ => Limit.exists_ofJson_iff).mp ⟨_, hlimit⟩,
      (mayHave_iff false isFlag_iff).mpr ⟨_, hdistinct⟩⟩
  · intro h
    obtain ⟨source, hsource⟩ := Source.exists_ofJson_iff.mpr h.source
    obtain ⟨filter, hfilters⟩ := (exists_decodeOptional_iff hfilter).mpr h.filter
    obtain ⟨prune, hprune⟩ := (exists_decodeOptional_iff hfilter).mpr h.prune
    obtain ⟨sorts, hsorts⟩ := exists_decodeSorts_iff.mpr h.sorts
    obtain ⟨limit, hlimit⟩ :=
      (exists_decodeOptional_iff fun _ => Limit.exists_ofJson_iff).mpr h.limit
    obtain ⟨distinct, hdistinct⟩ := (mayHave_iff false isFlag_iff).mp h.distinct
    exact ⟨⟨source, prune, filter, sorts, limit, distinct⟩, hsource, hfilters, hprune, hsorts,
      hlimit, hdistinct⟩

end Scope

/-! ### Chains -/

namespace Query

theorem exists_decodeJoin_iff {decodeNested : Value → Checked Query} {rule : Value → Prop}
    (hnested : ∀ v, (∃ q, decodeNested v = .ok q) ↔ rule v) {j : Value} :
    (∃ joins, decodeJoin decodeNested (j.get? (utf8 "join")) = .ok joins) ↔
      j.MayHave "join" fun hop => hop.IsHop ∧ hop.Has "query" rule := by
  simp only [decodeJoin_eq_ok_iff]
  constructor
  · rintro ⟨_, ⟨hnone, _⟩ | ⟨w, nestedJson, hop, nested, hw, hhop, hjson, hq, _⟩⟩ v hv
    · rw [hnone] at hv
      cases hv
    · rw [hw] at hv
      cases hv
      exact ⟨Hop.exists_ofJson_iff.mp ⟨hop, hhop⟩, nestedJson, hjson,
        (hnested nestedJson).mp ⟨nested, hq⟩⟩
  · intro h
    cases hv : j.get? (utf8 "join") with
    | none => exact ⟨[], Or.inl ⟨rfl, rfl⟩⟩
    | some v =>
      obtain ⟨hhop, nestedJson, hjson, hrule⟩ := h v hv
      obtain ⟨hop, hhop⟩ := Hop.exists_ofJson_iff.mpr hhop
      obtain ⟨nested, hq⟩ := (hnested nestedJson).mpr hrule
      exact ⟨_, Or.inr ⟨v, nestedJson, hop, nested, rfl, hhop, hjson, hq, rfl⟩⟩

/-- **Chains are accepted by their rule**, with every number of scopes. -/
theorem exists_decodeWithin_iff {scopes : Nat} {j : Value} :
    (∃ q, decodeWithin scopes j = .ok q) ↔ j.IsQuery scopes := by
  induction scopes generalizing j with
  | zero => simp [decodeWithin, IsQuery]
  | succ scopes ih =>
    simp only [decodeWithin_succ_eq_ok_iff, IsQuery]
    rw [← Scope.exists_ofJson_iff, ← exists_decodeJoin_iff fun _ => ih]
    constructor
    · intro h
      obtain ⟨q, hroot, hjoins⟩ := h
      exact ⟨⟨q.root, hroot⟩, q.joins, hjoins⟩
    · intro h
      obtain ⟨⟨root, hroot⟩, joins, hjoins⟩ := h
      exact ⟨⟨root, joins⟩, hroot, hjoins⟩

end Query

/-- **Descriptors are accepted by their grammar.** A value is decoded to a query exactly when it
follows the rule of queries of at most 256 scopes, and every other value is refused by one of two
kinds of error. -/
theorem accepts_iff (j : Value) :
    ((∃ q, Query.ofJson j = .ok q) ↔ j.IsQuery 256) ∧
      ∀ e, Query.ofJson j = .error e →
        e.code = utf8 "InvalidDescriptor" ∨ e.code = utf8 "InvalidTraversalDepth" :=
  ⟨Query.exists_decodeWithin_iff, fun e h => (Query.failsWith_ofJson j e h).code⟩

/-- The name of a collection is a query, a list of names is none. -/
theorem accepts_collection :
    let users : Value := .string (utf8 "User")
    (∃ q, Query.ofJson (.ofMembers [(utf8 "collection", users)]) = .ok q) ∧
      ∃ e, Query.ofJson (.array [users]) = .error e ∧
        (e.code = utf8 "InvalidDescriptor" ∨ e.code = utf8 "InvalidTraversalDepth") := by
  intro users
  have hrest : ∀ key rule, key ≠ "collection" →
      (ofMembers [(utf8 "collection", users)]).MayHave key rule := by
    intro key rule hkey v hv
    simp [get?_ofMembers, lookup?, hkey] at hv
  have hscope : (ofMembers [(utf8 "collection", users)]).IsScope := by
    refine ⟨Or.inr ⟨rfl, users, rfl, _, rfl⟩, ?_, ?_, ?_, ?_, ?_⟩
    all_goals exact hrest _ _ (by simp)
  refine ⟨(accepts_iff _).1.mpr ⟨hscope, hrest _ _ (by simp)⟩, ?_⟩
  exact ⟨.invalidDescriptor .queryNotObject, rfl, (accepts_iff (.array [users])).2 _ rfl⟩

end GraphQuery
