import GraphQuery.Operand

/-!
# Values with a literal

Writing a literal fails for different reasons at different places of a value. This module says in
one place which values have a literal.

* `Value.Plain` are the values made of what a literal can show: no binary data, nothing discarded,
  finite numbers, and UTF-8 in every string and key.
* `exists_literal_iff`: a value has a literal exactly when it is plain and its arrays and objects
  nest at most `maxNesting` levels.
-/

namespace GraphQuery

namespace Value

/-- Values made of what a literal can show. -/
inductive Plain : Value → Prop where
  | null : Plain .null
  | bool (b : Bool) : Plain (.bool b)
  | signed (n : Int64) : Plain (.signed n)
  | unsigned (n : UInt64) : Plain (.unsigned n)
  | double {x : Binary64} : x.isFinite = true → Plain (.double x)
  | string {s : Text} : Utf8.valid s = true → Plain (.string s)
  | array {items : List Value} : (∀ v ∈ items, Plain v) → Plain (.array items)
  | object {members : List (Text × Value)} : (∀ m ∈ members, Utf8.valid m.1 = true) →
      (∀ m ∈ members, Plain m.2) → Plain (.object members)

theorem plain_array_iff {items : List Value} :
    (Value.array items).Plain ↔ ∀ v ∈ items, v.Plain := by
  constructor
  · intro h
    cases h with
    | array hitems => exact hitems
  · exact .array

theorem plain_object_iff {members : List (Text × Value)} :
    (Value.object members).Plain ↔ ∀ m ∈ members, Utf8.valid m.1 = true ∧ m.2.Plain := by
  constructor
  · intro h
    cases h with
    | object hkeys hvalues => exact fun m hm => ⟨hkeys m hm, hvalues m hm⟩
  · intro h
    exact .object (fun m hm => (h m hm).1) fun m hm => (h m hm).2

end Value

/-- A text has a literal exactly when it is UTF-8. -/
theorem exists_textLiteral_iff {s : Text} :
    (∃ t, textLiteral s = .ok t) ↔ Utf8.valid s = true := by
  cases h : Utf8.valid s <;> simp [textLiteral, quoted?, h]

namespace Value

theorem exists_doubleLiteral_iff {x : Binary64} :
    (∃ t, doubleLiteral x = .ok t) ↔ x.isFinite = true := by
  cases h : x.isFinite <;> simp [doubleLiteral, h]

theorem plain_double_iff {x : Binary64} : (Value.double x).Plain ↔ x.isFinite = true := by
  constructor
  · intro h
    cases h with
    | double hx => exact hx
  · exact .double

theorem plain_string_iff {s : Text} : (Value.string s).Plain ↔ Utf8.valid s = true := by
  constructor
  · intro h
    cases h with
    | string hs => exact hs
  · exact .string

theorem not_plain_binary (data : Text) : ¬ (Value.binary data).Plain := by
  intro h
  cases h

theorem not_plain_discarded : ¬ Value.discarded.Plain := by
  intro h
  cases h

/-! ### The writer level by level -/

mutual

/-- The writer follows the value, and gives up one level at each array and each object. -/
theorem exists_literalWithin_iff : ∀ (v : Value) (levels : Nat),
    (∃ t, v.literalWithin levels = .ok t) ↔ v.depth ≤ levels ∧ v.Plain
  | .null, levels => by simp [literalWithin, depth, Plain.null]
  | .bool b, levels => by simp [literalWithin, depth, Plain.bool]
  | .signed n, levels => by simp [literalWithin, depth, Plain.signed]
  | .unsigned n, levels => by simp [literalWithin, depth, Plain.unsigned]
  | .double x, levels => by
    rw [literalWithin, exists_doubleLiteral_iff, plain_double_iff]
    simp [depth]
  | .string s, levels => by
    rw [literalWithin, exists_textLiteral_iff, plain_string_iff]
    simp [depth]
  | .array items, 0 => by simp [literalWithin, depth]
  | .array items, levels + 1 => by
    have hitems := exists_itemLiterals_iff items levels
    rw [plain_array_iff, depth, Nat.add_le_add_iff_right, ← hitems]
    simp only [literalWithin, Nat.add_one_ne_zero, if_false, Nat.add_sub_cancel,
      exists_bind_eq_ok_iff, pure_eq_ok_iff, exists_eq', and_true]
  | .object members, 0 => by simp [literalWithin, depth]
  | .object members, levels + 1 => by
    have hmembers := exists_memberLiterals_iff members levels
    rw [plain_object_iff, depth, Nat.add_le_add_iff_right, ← hmembers]
    simp only [literalWithin, Nat.add_one_ne_zero, if_false, Nat.add_sub_cancel,
      exists_bind_eq_ok_iff, pure_eq_ok_iff, exists_eq', and_true]
  | .binary data, levels => by simp [literalWithin, not_plain_binary]
  | .discarded, levels => by simp [literalWithin, not_plain_discarded]

theorem exists_itemLiterals_iff : ∀ (items : List Value) (levels : Nat),
    (∃ ts, itemLiterals levels items = .ok ts) ↔
      itemsDepth items ≤ levels ∧ ∀ v ∈ items, v.Plain
  | [], levels => by simp [itemLiterals, itemsDepth]
  | v :: rest, levels => by
    have hv := exists_literalWithin_iff v levels
    have hrest := exists_itemLiterals_iff rest levels
    simp only [itemLiterals, exists_bind_eq_ok_iff, pure_eq_ok_iff, exists_eq', and_true,
      exists_and_right, hv, hrest, itemsDepth, Nat.max_le, List.forall_mem_cons]
    exact and_and_and_comm

theorem exists_memberLiterals_iff : ∀ (members : List (Text × Value)) (levels : Nat),
    (∃ ts, memberLiterals levels members = .ok ts) ↔
      membersDepth members ≤ levels ∧ ∀ m ∈ members, Utf8.valid m.1 = true ∧ m.2.Plain
  | [], levels => by simp [memberLiterals, membersDepth]
  | (key, v) :: rest, levels => by
    have hv := exists_literalWithin_iff v levels
    have hrest := exists_memberLiterals_iff rest levels
    simp only [memberLiterals, exists_bind_eq_ok_iff, pure_eq_ok_iff, exists_eq', and_true,
      exists_and_right, exists_textLiteral_iff, hv, hrest, membersDepth, Nat.max_le,
      List.forall_mem_cons]
    constructor
    · intro h
      obtain ⟨hkey, ⟨hdepth, hplain⟩, hdepths, hplains⟩ := h
      exact ⟨⟨hdepth, hdepths⟩, ⟨hkey, hplain⟩, hplains⟩
    · intro h
      obtain ⟨⟨hdepth, hdepths⟩, ⟨hkey, hplain⟩, hplains⟩ := h
      exact ⟨hkey, ⟨hdepth, hplain⟩, hdepths, hplains⟩

end

/-- **A value has a literal** exactly when it is plain and nests at most `maxNesting` levels. -/
theorem exists_literal_iff (v : Value) :
    (∃ t, v.literal = .ok t) ↔ v.depth ≤ maxNesting ∧ v.Plain :=
  exists_literalWithin_iff v maxNesting

end Value

end GraphQuery
