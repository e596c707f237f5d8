import GraphQuery.Proofs.Filter.LiteralRecovery
import GraphQuery.Statement.Compile

/-!
# What does not depend on how whole numbers are held

A whole number that is not negative can be held signed or unsigned, and its canonical form does not
show which. Neither does what is written of a value, nor what most readers find in it: they treat a
value and its canonical form alike.

* `Value.literalWithin_canonical` and `Value.compact?_canonical`: the same text is written.
* `Value.get?_canonical` and `Value.items_canonical`: the same parts are found, in their canonical
  form.
* `Query.compile_canonical`: a query and its canonical form have the same statement.
-/

namespace GraphQuery

namespace Value

/-! ### Whole numbers -/

/-- A signed number that is not negative is the same number when held unsigned. -/
theorem toNat_toUInt64 {n : Int64} (h : 0 ≤ n.toInt) : (n.toUInt64.toNat : Int) = n.toInt := by
  have hlt : n.toInt < 2 ^ 63 := n.toInt_lt
  have hsmall : n.toInt.toNat < UInt64.size := by
    have hsize : UInt64.size = 2 ^ 64 := rfl
    omega
  rw [toUInt64_eq_ofNat h, UInt64.toNat_ofNat_of_lt' hsmall, Int.toNat_of_nonneg h]

/-- It also has the same digits. -/
theorem decimal_toUInt64 {n : Int64} (h : 0 ≤ n.toInt) :
    decimal n.toUInt64.toNat = signedDecimal n.toInt := by
  rw [← toNat_toUInt64 h]
  rfl

/-- A signed number is canonical where it is negative. -/
theorem canonical_signed_cases (n : Int64) :
    (0 ≤ n.toInt ∧ (Value.signed n).canonical = .unsigned n.toUInt64) ∨
      (Value.signed n).canonical = .signed n := by
  by_cases h : 0 ≤ n.toInt
  · exact Or.inl ⟨h, by rw [canonical, if_pos h]⟩
  · exact Or.inr (by rw [canonical, if_neg h])

@[simp] theorem canonical_array (items : List Value) :
    (Value.array items).canonical = .array (items.map canonical) := by
  rw [canonical, canonicalItems_eq_map]

@[simp] theorem canonical_object (members : List (Text × Value)) :
    (Value.object members).canonical = .object (members.map fun m => (m.1, m.2.canonical)) := by
  rw [canonical, canonicalMembers_eq_map]

/-- What treats alike every signed number and its canonical form, and does not look into arrays and
objects, treats every value and its canonical form alike. -/
theorem eq_of_canonical {α : Type} {f : Value → α} {v : Value}
    (hsigned : ∀ n : Int64, 0 ≤ n.toInt → f (.unsigned n.toUInt64) = f (.signed n))
    (harray : ∀ items, f (Value.array items).canonical = f (.array items))
    (hobject : ∀ members, f (Value.object members).canonical = f (.object members)) :
    f v.canonical = f v := by
  cases v with
  | signed n =>
    rcases canonical_signed_cases n with ⟨hn, heq⟩ | heq
    · rw [heq, hsigned n hn]
    · rw [heq]
  | array items => exact harray items
  | object members => exact hobject members
  | _ => rfl

theorem isWhole_canonical_iff {v : Value} {m : Int} : v.canonical.IsWhole m ↔ v.IsWhole m := by
  have heq : v.canonical.IsWhole m = v.IsWhole m := by
    refine eq_of_canonical (f := (IsWhole · m)) ?_ (fun _ => ?_) fun _ => ?_
    · intro n hn
      simp only [IsWhole, toNat_toUInt64 hn]
    · rw [canonical_array]
      rfl
    · rw [canonical_object]
      rfl
  rw [heq]

/-! ### What is written of a value -/

mutual

@[simp] theorem depth_canonical : ∀ v : Value, v.canonical.depth = v.depth
  | .array items => by rw [canonical, depth, depth, itemsDepth_canonical items]
  | .object members => by rw [canonical, depth, depth, membersDepth_canonical members]
  | .signed n => by
    rcases canonical_signed_cases n with ⟨-, heq⟩ | heq
    · rw [heq]
      rfl
    · rw [heq]
  | .null | .bool _ | .unsigned _ | .double _ | .string _ | .binary _ | .discarded => rfl

theorem itemsDepth_canonical : ∀ items, itemsDepth (canonicalItems items) = itemsDepth items
  | [] => rfl
  | v :: rest => by
    rw [canonicalItems, itemsDepth, itemsDepth, depth_canonical v, itemsDepth_canonical rest]

theorem membersDepth_canonical : ∀ members,
    membersDepth (canonicalMembers members) = membersDepth members
  | [] => rfl
  | (key, v) :: rest => by
    rw [canonicalMembers, membersDepth, membersDepth, depth_canonical v,
      membersDepth_canonical rest]

end

mutual

/-- The literal of a value does not show how its whole numbers are held, with any number of
levels. -/
@[simp] theorem literalWithin_canonical (levels : Nat) : ∀ v : Value,
    v.canonical.literalWithin levels = v.literalWithin levels
  | .array items => by
    rw [canonical, literalWithin, literalWithin, itemLiterals_canonical (levels - 1) items]
  | .object members => by
    rw [canonical, literalWithin, literalWithin, memberLiterals_canonical (levels - 1) members]
  | .signed n => by
    rcases canonical_signed_cases n with ⟨hn, heq⟩ | heq
    · rw [heq, literalWithin, literalWithin, decimal_toUInt64 hn]
    · rw [heq]
  | .null | .bool _ | .unsigned _ | .double _ | .string _ | .binary _ | .discarded => rfl

theorem itemLiterals_canonical (levels : Nat) : ∀ items,
    itemLiterals levels (canonicalItems items) = itemLiterals levels items
  | [] => rfl
  | v :: rest => by
    rw [canonicalItems, itemLiterals, itemLiterals, literalWithin_canonical levels v,
      itemLiterals_canonical levels rest]

theorem memberLiterals_canonical (levels : Nat) : ∀ members,
    memberLiterals levels (canonicalMembers members) = memberLiterals levels members
  | [] => rfl
  | (key, v) :: rest => by
    rw [canonicalMembers, memberLiterals, memberLiterals, literalWithin_canonical levels v,
      memberLiterals_canonical levels rest]

end

mutual

/-- Neither does its JSON text. -/
@[simp] theorem compact?_canonical : ∀ v : Value, v.canonical.compact? = v.compact?
  | .array items => by rw [canonical, compact?, compact?, compactItems?_canonical items]
  | .object members => by rw [canonical, compact?, compact?, compactMembers?_canonical members]
  | .signed n => by
    rcases canonical_signed_cases n with ⟨hn, heq⟩ | heq
    · rw [heq, compact?, compact?, decimal_toUInt64 hn]
    · rw [heq]
  | .null | .bool _ | .unsigned _ | .double _ | .string _ | .binary _ | .discarded => rfl

theorem compactItems?_canonical : ∀ items,
    compactItems? (canonicalItems items) = compactItems? items
  | [] => rfl
  | v :: rest => by
    rw [canonicalItems, compactItems?, compactItems?, compact?_canonical v,
      compactItems?_canonical rest]

theorem compactMembers?_canonical : ∀ members,
    compactMembers? (canonicalMembers members) = compactMembers? members
  | [] => rfl
  | (key, v) :: rest => by
    rw [canonicalMembers, compactMembers?, compactMembers?, compact?_canonical v,
      compactMembers?_canonical rest]

end

/-! ### What is found in a value -/

@[simp] theorem isObject_canonical (v : Value) : v.canonical.isObject = v.isObject :=
  eq_of_canonical (fun _ _ => rfl) (fun _ => rfl) fun _ => rfl

@[simp] theorem text?_canonical (v : Value) : v.canonical.text? = v.text? :=
  eq_of_canonical (fun _ _ => rfl) (fun _ => rfl) fun _ => rfl

@[simp] theorem flag?_canonical (v : Value) : v.canonical.flag? = v.flag? :=
  eq_of_canonical (fun _ _ => rfl) (fun _ => rfl) fun _ => rfl

theorem lookup?_map_canonical (key : Text) (members : List (Text × Value)) :
    lookup? key (members.map fun m => (m.1, m.2.canonical)) =
      (lookup? key members).map canonical := by
  induction members with
  | nil => rfl
  | cons m members ih =>
    obtain ⟨k, v⟩ := m
    rw [List.map_cons, lookup?, lookup?, ih]
    by_cases h : key = k
    · rw [if_pos h, if_pos h, Option.map_some]
    · rw [if_neg h, if_neg h]

/-- The canonical form has the same members, in their canonical form. -/
@[simp] theorem get?_canonical (v : Value) (key : Text) :
    v.canonical.get? key = (v.get? key).map canonical := by
  cases v with
  | object members =>
    rw [canonical_object]
    exact lookup?_map_canonical key members
  | signed n =>
    rcases canonical_signed_cases n with ⟨-, heq⟩ | heq
    · rw [heq]
      rfl
    · rw [heq]
      rfl
  | _ => rfl

@[simp] theorem textAt?_canonical (v : Value) (key : Text) :
    v.canonical.textAt? key = v.textAt? key := by
  rw [textAt?, textAt?, get?_canonical]
  cases v.get? key with
  | none => rfl
  | some w => exact text?_canonical w

@[simp] theorem textOr?_canonical (v : Value) (key default : Text) :
    v.canonical.textOr? key default = v.textOr? key default := by
  rw [textOr?, textOr?, isObject_canonical, get?_canonical]
  cases v.get? key with
  | none => rfl
  | some w => simp only [Option.map_some, text?_canonical]

@[simp] theorem flagOr?_canonical (v : Value) (key : Text) (default : Bool) :
    v.canonical.flagOr? key default = v.flagOr? key default := by
  rw [flagOr?, flagOr?, isObject_canonical, get?_canonical]
  cases v.get? key with
  | none => rfl
  | some w => simp only [Option.map_some, flag?_canonical]

/-- A walk over the canonical form visits the same values, in their canonical form. -/
@[simp] theorem items_canonical (v : Value) : v.canonical.items = v.items.map canonical := by
  cases v with
  | array items =>
    rw [canonical_array]
    rfl
  | object members =>
    rw [canonical_object]
    simp [items]
  | signed n =>
    rcases canonical_signed_cases n with ⟨hn, heq⟩ | heq
    · rw [heq]
      simp [items, heq]
    · rw [heq]
      simp [items, heq]
  | _ => rfl

end Value

/-! ### Canonical queries -/

/-- An operand with its literal in the canonical form. -/
def Operand.canonical : Operand → Operand
  | .field path => .field path
  | .literal v => .literal v.canonical

/-- A comparison with its operand in the canonical form. -/
def Comparison.canonical (c : Comparison) : Comparison :=
  { c with operand := c.operand.canonical }

/-- A filter with its literals in the canonical form. -/
def Filter.canonical : Filter → Filter
  | .empty => .empty
  | .comparison before op c => .comparison before.canonical op c.canonical
  | .group before op inner => .group before.canonical op inner.canonical

/-- A scope with its literals in the canonical form. -/
def Scope.canonical (s : Scope) : Scope :=
  { s with prune := s.prune.map Filter.canonical, filter := s.filter.map Filter.canonical }

/-- Joined scopes with their literals in the canonical form. -/
def Query.canonicalJoins (joins : List (Hop × Scope)) : List (Hop × Scope) :=
  joins.map fun (hop, s) => (hop, s.canonical)

/-- A query with its literals in the canonical form. -/
def Query.canonical (q : Query) : Query :=
  ⟨q.root.canonical, canonicalJoins q.joins⟩

/-! ### Statements -/

@[simp] theorem Operand.render_canonical (scope : Text) (o : Operand) :
    o.canonical.render scope = o.render scope := by
  cases o with
  | field path => rfl
  | literal v => exact Value.literalWithin_canonical maxNesting v

@[simp] theorem Comparison.render_canonical (scope : Text) (c : Comparison) :
    c.canonical.render scope = c.render scope := by
  simp only [render, canonical, Operand.render_canonical]

namespace Filter

@[simp] theorem isEmpty_canonical (f : Filter) : f.canonical.isEmpty = f.isEmpty := by
  cases f <;> rfl

theorem checkGroup_canonical (levels : Nat) (f : Filter) :
    checkGroup levels f.canonical = checkGroup levels f := by
  rw [checkGroup, checkGroup, isEmpty_canonical]

theorem renderEntries_canonical (scope : Text) (levels : Nat) (f : Filter) :
    renderEntries scope levels f.canonical = renderEntries scope levels f := by
  induction f generalizing levels with
  | empty => rfl
  | comparison before op c ih =>
    rw [canonical, renderEntries, renderEntries, ih, Comparison.render_canonical]
  | group before op inner ih ihInner =>
    rw [canonical, renderEntries, renderEntries, ih, ihInner, checkGroup_canonical]

@[simp] theorem render_canonical (scope : Text) (f : Filter) :
    f.canonical.render scope = f.render scope := by
  rw [render, render, renderWithin, renderWithin, checkGroup_canonical, renderEntries_canonical]

end Filter

theorem filterClause_map_canonical (keyword : String) (index : Nat) (f : Option Filter) :
    filterClause keyword index (f.map Filter.canonical) = filterClause keyword index f := by
  cases f with
  | none => rfl
  | some f => simp only [Option.map_some, filterClause, Filter.render_canonical]

theorem domain_canonical (limit : Int32) (index : Nat) (hop : Option Hop) (s : Scope) :
    domain limit index hop s.canonical = domain limit index hop s := by
  cases hop with
  | none => simp only [domain, rootDomain, Scope.canonical, Option.isNone_map]
  | some hop => rfl

theorem headOf_canonical (limit : Int32) (index : Nat) (hop : Option Hop) (s : Scope) :
    headOf limit index hop s.canonical = headOf limit index hop s := by
  rw [headOf, headOf, domain_canonical]
  simp only [Scope.canonical, filterClause_map_canonical]

/-- The scopes of a chain in the canonical form. -/
def canonicalScopes (scopes : List (Option Hop × Scope)) : List (Option Hop × Scope) :=
  scopes.map fun (hop, s) => (hop, s.canonical)

theorem headClauses_canonical (limit : Int32) (index : Nat) (scopes : List (Option Hop × Scope)) :
    headClauses limit index (canonicalScopes scopes) = headClauses limit index scopes := by
  induction scopes generalizing index with
  | nil => rfl
  | cons entry scopes ih =>
    have htail := ih (index + 1)
    simp only [canonicalScopes, List.map_cons, headClauses, headOf_canonical] at htail ⊢
    rw [htail]

theorem tailClauses_canonical (index : Nat) (scopes : List (Option Hop × Scope)) :
    tailClauses index (canonicalScopes scopes) = tailClauses index scopes := by
  induction scopes generalizing index with
  | nil => rfl
  | cons entry scopes ih =>
    have htail := ih (index + 1)
    simp only [canonicalScopes, List.map_cons, tailClauses] at htail ⊢
    rw [htail]
    rfl

theorem returnClause_canonical (scopes : List (Option Hop × Scope)) :
    returnClause (canonicalScopes scopes) = returnClause scopes := by
  simp only [returnClause, canonicalScopes, List.length_map, List.any_map]
  rfl

namespace Query

theorem scopes_canonical (q : Query) : q.canonical.scopes = canonicalScopes q.scopes := by
  simp [scopes, canonical, canonicalJoins, canonicalScopes]

/-- **A query and its canonical form have the same statement**, or the same fault. -/
theorem compile_canonical (o : Options) (q : Query) : q.canonical.compile o = q.compile o := by
  rw [compile, compile, clauses, clauses, scopes_canonical, headClauses_canonical,
    tailClauses_canonical, returnClause_canonical]
  simp only [canonicalScopes, List.length_map]

end Query

end GraphQuery
