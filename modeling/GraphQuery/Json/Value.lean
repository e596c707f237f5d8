import GraphQuery.Text.Basic
import GraphQuery.Number.Binary64

/-!
# JSON values

A value is a JSON tree whose whole numbers remember whether they are held signed or unsigned. Two
further kinds, binary data and a discarded value, arise in programs but have no JSON text.

Objects list their members; `Value.ofMembers` lists them in the order of their keys, compared byte
by byte, with one member a key. The readers below are those that descriptors are decoded with:

* `Value.get?` and the typed `textAt?`, `textOr?`, `flagOr?` read a member of an object;
* `Value.items` are the values that a walk over a value visits;
* `Value.depth` counts how deep arrays and objects nest.
-/

namespace GraphQuery

/-- A JSON value, or one of the two kinds without a JSON text. -/
inductive Value where
  | null
  | bool (b : Bool)
  | signed (n : Int64)
  | unsigned (n : UInt64)
  | double (x : Binary64)
  | string (s : Text)
  | array (items : List Value)
  | object (members : List (Text × Value))
  | binary (data : Text)
  | discarded
  deriving Repr, Inhabited

namespace Value

/-! ### Objects -/

/-- Puts a member in its place among members in key order; a member of the same key is replaced. -/
def insertMember (key : Text) (v : Value) : List (Text × Value) → List (Text × Value)
  | [] => [(key, v)]
  | (k, w) :: rest =>
    if key = k then (key, v) :: rest
    else if key.precedes k then (key, v) :: (k, w) :: rest
    else (k, w) :: insertMember key v rest

/-- The members in key order; of two members of one key the later stays. -/
def sortMembers (members : List (Text × Value)) : List (Text × Value) :=
  members.foldl (fun sorted (key, v) => insertMember key v sorted) []

/-- The object of the members, which may come in any order. -/
def ofMembers (members : List (Text × Value)) : Value :=
  .object (sortMembers members)

/-- The first member of a key. -/
def lookup? (key : Text) : List (Text × Value) → Option Value
  | [] => none
  | (k, v) :: rest => if key = k then some v else lookup? key rest

/-- The member of a key, where the value is an object that has one. -/
def get? (v : Value) (key : Text) : Option Value :=
  match v with
  | .object members => lookup? key members
  | _ => none

/-- Whether the value is an object. -/
def isObject : Value → Bool
  | .object _ => true
  | _ => false

@[simp] theorem lookup?_insertMember (key k : Text) (v : Value) (members : List (Text × Value)) :
    lookup? k (insertMember key v members) = if k = key then some v else lookup? k members := by
  fun_induction insertMember key v members with
  | case1 => rfl
  | case2 w rest => by_cases h : k = key <;> simp [lookup?, h]
  | case3 k' w rest hk hp => rfl
  | case4 k' w rest hk hp ih =>
    by_cases h : k = k'
    · subst h
      simp [lookup?, Ne.symm hk]
    · simp [lookup?, h, ih]

theorem lookup?_append (key : Text) (ms ns : List (Text × Value)) :
    lookup? key (ms ++ ns) = (lookup? key ms).or (lookup? key ns) := by
  induction ms with
  | nil => simp [lookup?]
  | cons m ms ih =>
    obtain ⟨k, v⟩ := m
    by_cases h : key = k <;> simp [lookup?, h, ih]

/-- In key order the last member of a key is the one that is found. -/
theorem lookup?_sortMembers (key : Text) (members : List (Text × Value)) :
    lookup? key (sortMembers members) = lookup? key members.reverse := by
  suffices general : ∀ sorted : List (Text × Value),
      lookup? key (members.foldl (fun sorted (key, v) => insertMember key v sorted) sorted) =
        (lookup? key members.reverse).or (lookup? key sorted) by
    simpa [sortMembers, lookup?] using general []
  induction members with
  | nil => intro sorted; simp [lookup?]
  | cons m rest ih =>
    intro sorted
    obtain ⟨k, v⟩ := m
    rw [List.foldl_cons, ih, List.reverse_cons, lookup?_append]
    by_cases h : key = k <;> simp [lookup?, h]

theorem get?_ofMembers (members : List (Text × Value)) (key : Text) :
    (ofMembers members).get? key = lookup? key members.reverse :=
  lookup?_sortMembers key members

@[simp] theorem isObject_ofMembers (members : List (Text × Value)) :
    (ofMembers members).isObject = true := rfl

/-! ### Typed readers -/

/-- The text of a string. -/
def text? : Value → Option Text
  | .string s => some s
  | _ => none

/-- The truth value of a boolean. -/
def flag? : Value → Option Bool
  | .bool b => some b
  | _ => none

/-- The string member of a key. -/
def textAt? (v : Value) (key : Text) : Option Text :=
  (v.get? key).bind text?

/-- The string member of a key of an object, or a default where the object has no such member. -/
def textOr? (v : Value) (key default : Text) : Option Text :=
  if v.isObject then
    match v.get? key with
    | none => some default
    | some w => w.text?
  else none

/-- The boolean member of a key of an object, or a default where the object has no such member. -/
def flagOr? (v : Value) (key : Text) (default : Bool) : Option Bool :=
  if v.isObject then
    match v.get? key with
    | none => some default
    | some w => w.flag?
  else none

theorem isObject_of_get? {v w : Value} {key : Text} (h : v.get? key = some w) :
    v.isObject = true := by
  cases v with
  | object members => rfl
  | _ => cases h

theorem text?_eq_some_iff {v : Value} {s : Text} : v.text? = some s ↔ v = .string s := by
  cases v <;> simp [text?]

theorem flag?_eq_some_iff {v : Value} {b : Bool} : v.flag? = some b ↔ v = .bool b := by
  cases v <;> simp [flag?]

theorem textAt?_eq_some_iff {v : Value} {key s : Text} :
    v.textAt? key = some s ↔ v.get? key = some (.string s) := by
  simp [textAt?, Option.bind_eq_some_iff, text?_eq_some_iff]

theorem textOr?_eq_some_iff {v : Value} {key default s : Text} :
    v.textOr? key default = some s ↔
      v.isObject = true ∧
        (v.get? key = none ∧ s = default ∨ v.get? key = some (.string s)) := by
  cases hv : v.isObject with
  | false => simp [textOr?, hv]
  | true => cases hw : v.get? key <;> simp [textOr?, hv, hw, text?_eq_some_iff, eq_comm (a := s)]

theorem flagOr?_eq_some_iff {v : Value} {key : Text} {default b : Bool} :
    v.flagOr? key default = some b ↔
      v.isObject = true ∧
        (v.get? key = none ∧ b = default ∨ v.get? key = some (.bool b)) := by
  cases hv : v.isObject with
  | false => simp [flagOr?, hv]
  | true => cases hw : v.get? key <;> simp [flagOr?, hv, hw, flag?_eq_some_iff, eq_comm (a := b)]

/-- The values that a walk visits: the items of an array, the member values of an object in key
order, nothing of null, and any other value itself. -/
def items : Value → List Value
  | .array items => items
  | .object members => members.map Prod.snd
  | .null => []
  | v => [v]

/-- The 32-bit integer of a number or a boolean: whole numbers wrap, doubles are cut towards zero,
and one that does not fit becomes the least integer. -/
def int32? : Value → Option Int32
  | .bool b => some (if b then 1 else 0)
  | .signed n => some n.toInt32
  | .unsigned n => some n.toUInt32.toInt32
  | .double x =>
    match x.truncate? with
    | none => some Int32.minValue
    | some n =>
      if Int32.minValue.toInt ≤ n ∧ n ≤ Int32.maxValue.toInt then some (Int32.ofInt n)
      else some Int32.minValue
  | _ => none

/-! ### Nesting -/

mutual

/-- The count of arrays and objects on the longest way down. -/
def depth : Value → Nat
  | .array items => itemsDepth items + 1
  | .object members => membersDepth members + 1
  | _ => 0

/-- The greatest depth of some values. -/
def itemsDepth : List Value → Nat
  | [] => 0
  | v :: rest => max v.depth (itemsDepth rest)

/-- The greatest depth of some member values. -/
def membersDepth : List (Text × Value) → Nat
  | [] => 0
  | (_, v) :: rest => max v.depth (membersDepth rest)

end

/-- The name of the kind of a value. -/
def kindName : Value → String
  | .null => "null"
  | .bool _ => "boolean"
  | .signed _ | .unsigned _ | .double _ => "number"
  | .string _ => "string"
  | .array _ => "array"
  | .object _ => "object"
  | .binary _ => "binary"
  | .discarded => "discarded"

end Value

end GraphQuery
