import GraphQuery.Comparison

/-!
# Filters

A filter is a sequence of comparisons and groups, grown at its right end. Each entry after the first
is preceded by the connective that joins it to what stands before; nothing is reordered and no
precedence is applied, as a group shows its own parentheses. The empty filter can be built but has
no text.

* `Filter.append` adds an entry; a connective in front of the first entry is dropped.
* `Filter.render` writes a filter in a scope.
* `Filter.toJson` and `Filter.ofJson` are its descriptor.
-/

namespace GraphQuery

/-- How an entry of a filter is joined to the entries before it. -/
inductive Connective where
  | and
  | or
  deriving DecidableEq, Repr

namespace Connective

/-- The connective as it stands in a statement. -/
def symbol : Connective → Text
  | .and => utf8 "&&"
  | .or => utf8 "||"

/-- The connective as it stands in a descriptor. -/
def name : Connective → Text
  | .and => utf8 "AND"
  | .or => utf8 "OR"

/-- The connectives by their symbols. -/
def symbols : Vocabulary Connective where
  name := symbol
  all := [.and, .or]
  mem_all := by intro op; cases op <;> decide
  name_inj := by intro op op'; cases op <;> cases op' <;> simp [symbol]

/-- The connectives by their names. -/
def names : Vocabulary Connective where
  name := name
  all := [.and, .or]
  mem_all := by intro op; cases op <;> decide
  name_inj := by intro op op'; cases op <;> cases op' <;> simp [name]

/-- The connective of a symbol or a name. -/
def ofName (s : Text) : Checked Connective :=
  orFault ((symbols.ofName? s).or (names.ofName? s)) (.invalidDescriptor (.unknownConnective s))

theorem ofName_eq_ok_iff {s : Text} {op : Connective} :
    ofName s = .ok op ↔ s = op.symbol ∨ s = op.name := by
  have hsymbol : symbols.ofName? s = some op ↔ s = op.symbol := symbols.ofName?_eq_some_iff
  have hname : names.ofName? s = some op ↔ s = op.name := names.ofName?_eq_some_iff
  -- No name is a symbol, so that the symbols being looked up first does not matter.
  have hdisjoint : s = op.name → symbols.ofName? s = none := by
    rintro rfl
    cases op <;> decide
  rw [ofName, orFault_eq_ok_iff, Option.or_eq_some_iff, hsymbol, hname]
  exact or_congr_right ⟨fun h => h.2, fun h => ⟨hdisjoint h, h⟩⟩

@[simp] theorem ofName_name (op : Connective) : ofName op.name = .ok op :=
  ofName_eq_ok_iff.mpr (Or.inr rfl)

end Connective

/-- A sequence of comparisons and groups, grown at its right end. -/
inductive Filter where
  | empty
  /-- A comparison after the entries before it. -/
  | comparison (before : Filter) (connective : Option Connective) (c : Comparison)
  /-- A filter in parentheses after the entries before it. -/
  | group (before : Filter) (connective : Option Connective) (inner : Filter)
  deriving Repr, Inhabited

/-- What an entry of a filter holds. -/
inductive Term where
  | comparison (c : Comparison)
  | group (inner : Filter)
  deriving Repr

namespace Filter

/-- Whether the filter has no entry. -/
def isEmpty : Filter → Bool
  | .empty => true
  | _ => false

/-- The count of entries. -/
def size : Filter → Nat
  | .empty => 0
  | .comparison before _ _ => before.size + 1
  | .group before _ _ => before.size + 1

/-- The connectives of the entries in order. -/
def connectives : Filter → List (Option Connective)
  | .empty => []
  | .comparison before op _ => before.connectives ++ [op]
  | .group before op _ => before.connectives ++ [op]

/-! ### Building -/

/-- An entry at the right end under a connective that may be missing. -/
def push (f : Filter) (op : Option Connective) : Term → Filter
  | .comparison c => .comparison f op c
  | .group inner => .group f op inner

@[simp] theorem isEmpty_push (f : Filter) (op : Option Connective) (t : Term) :
    (f.push op t).isEmpty = false := by
  cases t <;> rfl

/-- Adds an entry. The first entry needs no connective, and drops the one it is given. -/
def append (f : Filter) (op : Connective) (t : Term) : Filter :=
  f.push (if f.isEmpty then none else some op) t

/-- The filter of one entry. -/
def single (t : Term) : Filter :=
  empty.push none t

/-- The filter of one comparison. -/
def ofComparison (c : Comparison) : Filter :=
  single (.comparison c)

/-- The filter whose only entry is another filter in parentheses. -/
def ofGroup (inner : Filter) : Filter :=
  single (.group inner)

/-- Adds an entry that has to hold as well. -/
def and (f : Filter) (t : Term) : Filter :=
  f.append .and t

/-- Adds an entry that may hold instead. -/
def or (f : Filter) (t : Term) : Filter :=
  f.append .or t

/-! ### Text -/

/-- The text between an entry and what stands before it. -/
def separator : Option Connective → Text
  | none => []
  | some op => utf8 " " ++ op.symbol ++ utf8 " "

/-- What every filter and every group needs before its entries are written: a level of nesting that
is left, and an entry. -/
def checkGroup (levels : Nat) (f : Filter) : Checked Unit := do
  require (levels ≠ 0) (.malformedFilter .tooDeep)
  require (!f.isEmpty) (.malformedFilter .noTerm)

/-- The text of the entries in a scope, where groups may nest some levels deep. -/
def renderEntries (scope : Text) (levels : Nat) : Filter → Checked Text
  | .empty => .ok []
  | .comparison before op c => do
    let left ← renderEntries scope levels before
    let right ← c.render scope
    pure (left ++ separator op ++ right)
  | .group before op inner => do
    let left ← renderEntries scope levels before
    checkGroup levels inner
    let right ← renderEntries scope (levels - 1) inner
    pure (left ++ separator op ++ utf8 "(" ++ right ++ utf8 ")")

/-- The text of a filter in a scope, with at most some levels of nesting, its own included. -/
def renderWithin (scope : Text) (levels : Nat) (f : Filter) : Checked Text := do
  checkGroup levels f
  renderEntries scope (levels - 1) f

/-- The text of a filter in a scope. -/
def render (scope : Text) (f : Filter) : Checked Text :=
  f.renderWithin scope maxNesting

/-! ### Descriptors -/

/-- The member that describes a connective. -/
def connectiveMember : Option Connective → List (Text × Value)
  | none => []
  | some op => [(utf8 "op", .string op.name)]

/-- The descriptors of the entries in order. -/
def termsJson : Filter → List Value
  | .empty => []
  | .comparison before op c =>
    before.termsJson ++ [.ofMembers (connectiveMember op ++ [(utf8 "comparison", c.toJson)])]
  | .group before op inner =>
    before.termsJson ++ [.ofMembers (connectiveMember op ++
      [(utf8 "filter", .ofMembers [(utf8 "terms", .array inner.termsJson)])])]

/-- The descriptor of a filter. -/
def toJson (f : Filter) : Value :=
  .ofMembers [(utf8 "terms", .array f.termsJson)]

/-- The connective of an entry's descriptor. The first entry has none, and is not asked for one. -/
def decodeConnective (before : Filter) (j : Value) : Checked (Option Connective) :=
  if before.isEmpty then .ok none
  else do
    let name ← orFault (j.textAt? (utf8 "op")) (.invalidDescriptor .connectiveMissing)
    let op ← Connective.ofName name
    pure (some op)

/-- What the descriptor of an entry holds, groups being decoded by `decodeGroup`. A group wins over
a comparison. -/
def decodeTerm (decodeGroup : Value → Checked Filter) (j : Value) : Checked Term :=
  match j.get? (utf8 "filter"), j.get? (utf8 "comparison") with
  | some inner, _ => do
    let inner ← decodeGroup inner
    pure (.group inner)
  | none, some c => do
    let c ← Comparison.ofJson c
    pure (.comparison c)
  | none, none => .error (.invalidDescriptor .termMissing)

/-- Adds the entry of a descriptor. -/
def decodeEntry (decodeGroup : Value → Checked Filter) (before : Filter) (j : Value) :
    Checked Filter := do
  require j.isObject (.invalidDescriptor .termNotObject)
  let op ← decodeConnective before j
  let term ← decodeTerm decodeGroup j
  pure (before.push op term)

/-- Adds the entries of some descriptors. -/
def decodeEntries (decodeGroup : Value → Checked Filter) (before : Filter) :
    List Value → Checked Filter
  | [] => .ok before
  | j :: rest => do
    let f ← decodeEntry decodeGroup before j
    decodeEntries decodeGroup f rest

/-- The array of the descriptors of a filter's entries. -/
def terms? (j : Value) : Option (List Value) :=
  match j.get? (utf8 "terms") with
  | some (.array terms) => some terms
  | _ => none

/-- The filter of a descriptor with at most some levels of nesting, its own included. -/
def decodeWithin : Nat → Value → Checked Filter
  | 0, _ => .error (.invalidDescriptor .filterTooDeep)
  | levels + 1, j => do
    let terms ← orFault (terms? j) (.invalidDescriptor .termsMissing)
    decodeEntries (decodeWithin levels) .empty terms

/-- The filter of a descriptor. -/
def ofJson (j : Value) : Checked Filter :=
  decodeWithin maxNesting j

end Filter

end GraphQuery
