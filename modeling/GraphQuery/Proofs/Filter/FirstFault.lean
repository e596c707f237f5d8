import GraphQuery.Filter

/-!
# The first fault of a filter

A filter can have many faults, and rendering stops at the first. Which one that is must not be read
off the renderer. Here the faults of a literal and of a filter are listed in the order in which they
are written, without any text and without stopping, and the renderer is shown to fail with the head
of the list.

* `FailsFirst` relates a result and a list of faults; it holds of a sequence of steps with the lists
  of the steps one after the other (`FailsFirst.bind`).
* `Value.faults`: a container that nests too deep comes before what it contains, a key before its
  value.
* `Filter.faults`: the nesting and the emptiness of a group come before its entries, and the entries
  from left to right.
* `Filter.failsFirst_render`: a filter fails with its first fault.
-/

namespace GraphQuery

/-- A result that fails with the first of some faults, and does not fail where there are none. -/
def FailsFirst {α : Type} (x : Checked α) (faults : List QueryError) : Prop :=
  ∀ e, x = .error e ↔ faults.head? = some e

/-! ### Steps -/

section Steps

variable {α β : Type}

theorem failsFirst_ok (a : α) : FailsFirst (.ok a) [] := by
  intro e
  simp

theorem failsFirst_pure (a : α) : FailsFirst (pure a) [] :=
  failsFirst_ok a

theorem failsFirst_error (e : QueryError) (more : List QueryError) :
    FailsFirst (.error e : Checked α) (e :: more) := by
  intro e'
  simp

theorem failsFirst_require (condition : Bool) (fault : QueryError) :
    FailsFirst (require condition fault) (if condition then [] else [fault]) := by
  cases condition
  · exact failsFirst_error fault []
  · exact failsFirst_ok ()

/-- What has a result has no faults. -/
theorem FailsFirst.eq_nil {a : α} {faults : List QueryError} (h : FailsFirst (.ok a) faults) :
    faults = [] := by
  cases faults with
  | nil => rfl
  | cons e more => cases (h e).mpr rfl

/-- The faults of a first step come before those of the steps behind it. -/
theorem FailsFirst.bind {x : Checked α} {f : α → Checked β} {first next : List QueryError}
    (hx : FailsFirst x first) (hf : ∀ a, FailsFirst (f a) next) :
    FailsFirst (x >>= f) (first ++ next) := by
  intro e
  rw [bind_eq_error_iff]
  -- Where the first step fails, the faults behind it do not count; where it does not, it has none.
  cases x with
  | error e' =>
    have hfirst : first.head? = some e' := (hx e').mp rfl
    simp [List.head?_append, hfirst]
  | ok a =>
    rw [hx.eq_nil, List.nil_append, ← hf a e]
    simp

/-- A step behind which nothing can fail. -/
theorem FailsFirst.bind_pure {x : Checked α} {g : α → β} {faults : List QueryError}
    (hx : FailsFirst x faults) : FailsFirst (x >>= fun a => pure (g a)) faults := by
  simpa using hx.bind fun a => failsFirst_pure (g a)

end Steps

/-! ### Literals -/

/-- The faults of a text that is to be a literal. -/
def textFaults (s : Text) : List QueryError :=
  if Utf8.valid s then [] else [.unsupportedOperand .notUtf8]

/-- The fault of a container where no level is left. -/
def nestingFaults (levels : Nat) (fault : QueryError) : List QueryError :=
  if levels = 0 then [fault] else []

theorem failsFirst_textLiteral (s : Text) : FailsFirst (textLiteral s) (textFaults s) := by
  cases h : Utf8.valid s
  · simpa [textLiteral, quoted?, textFaults, h] using failsFirst_error _ _
  · simpa [textLiteral, quoted?, textFaults, h] using failsFirst_ok _

/-- Where no level is left, that is the first fault. -/
theorem failsFirst_nesting {α : Type} {levels : Nat} {fault : QueryError} {x : Checked α}
    {faults : List QueryError} (hx : FailsFirst x faults) :
    FailsFirst (if levels = 0 then .error fault else x) (nestingFaults levels fault ++ faults) := by
  unfold nestingFaults
  split
  · exact failsFirst_error fault faults
  · exact hx

namespace Value

mutual

/-- The faults of a literal with at most some levels of arrays and objects. -/
def faults (levels : Nat) : Value → List QueryError
  | .null => []
  | .bool _ => []
  | .signed _ => []
  | .unsigned _ => []
  | .double x => if x.isFinite then [] else [.unsupportedOperand .notFinite]
  | .string s => textFaults s
  | .array items =>
    nestingFaults levels (.unsupportedOperand .tooDeep) ++ itemFaults (levels - 1) items
  | .object members =>
    nestingFaults levels (.unsupportedOperand .tooDeep) ++ memberFaults (levels - 1) members
  | .binary data => [.unsupportedOperand (.noLiteral (kindName (.binary data)))]
  | .discarded => [.unsupportedOperand (.noLiteral (kindName .discarded))]

/-- The faults of the items of an array. -/
def itemFaults (levels : Nat) : List Value → List QueryError
  | [] => []
  | v :: rest => v.faults levels ++ itemFaults levels rest

/-- The faults of the members of an object: of each key, then of its value. -/
def memberFaults (levels : Nat) : List (Text × Value) → List QueryError
  | [] => []
  | (key, v) :: rest => textFaults key ++ (v.faults levels ++ memberFaults levels rest)

end

theorem failsFirst_doubleLiteral (x : Binary64) :
    FailsFirst (doubleLiteral x)
      (if x.isFinite then [] else [.unsupportedOperand .notFinite]) := by
  unfold doubleLiteral
  split
  · exact failsFirst_ok _
  · exact failsFirst_error _ _

mutual

/-- A literal fails with its first fault. -/
theorem failsFirst_literalWithin : ∀ (v : Value) (levels : Nat),
    FailsFirst (v.literalWithin levels) (v.faults levels)
  | .null, _ => failsFirst_ok _
  | .bool _, _ => failsFirst_ok _
  | .signed _, _ => failsFirst_ok _
  | .unsigned _, _ => failsFirst_ok _
  | .double x, _ => failsFirst_doubleLiteral x
  | .string s, _ => failsFirst_textLiteral s
  | .array items, levels => by
    rw [literalWithin, faults]
    exact failsFirst_nesting (failsFirst_itemLiterals items (levels - 1)).bind_pure
  | .object members, levels => by
    rw [literalWithin, faults]
    exact failsFirst_nesting (failsFirst_memberLiterals members (levels - 1)).bind_pure
  | .binary _, _ => failsFirst_error _ _
  | .discarded, _ => failsFirst_error _ _

theorem failsFirst_itemLiterals : ∀ (items : List Value) (levels : Nat),
    FailsFirst (itemLiterals levels items) (itemFaults levels items)
  | [], _ => failsFirst_ok _
  | v :: rest, levels => by
    rw [itemLiterals, itemFaults]
    refine (failsFirst_literalWithin v levels).bind fun part => ?_
    exact (failsFirst_itemLiterals rest levels).bind_pure

theorem failsFirst_memberLiterals : ∀ (members : List (Text × Value)) (levels : Nat),
    FailsFirst (memberLiterals levels members) (memberFaults levels members)
  | [], _ => failsFirst_ok _
  | (key, v) :: rest, levels => by
    rw [memberLiterals, memberFaults]
    refine (failsFirst_textLiteral key).bind fun name => ?_
    refine (failsFirst_literalWithin v levels).bind fun part => ?_
    exact (failsFirst_memberLiterals rest levels).bind_pure

end

end Value

/-! ### Filters -/

/-- The faults of an operand: only a literal can have any. -/
def Operand.faults : Operand → List QueryError
  | .field _ => []
  | .literal v => v.faults maxNesting

theorem Operand.failsFirst_render (scope : Text) (o : Operand) :
    FailsFirst (o.render scope) o.faults := by
  cases o with
  | field path => exact failsFirst_ok _
  | literal v => exact v.failsFirst_literalWithin maxNesting

theorem Comparison.failsFirst_render (scope : Text) (c : Comparison) :
    FailsFirst (c.render scope) c.operand.faults :=
  (c.operand.failsFirst_render scope).bind_pure

namespace Filter

/-- The faults of a filter or a group itself, its entries left aside. -/
def groupFaults (levels : Nat) (f : Filter) : List QueryError :=
  nestingFaults levels (.malformedFilter .tooDeep)
    ++ if f.isEmpty then [.malformedFilter .noTerm] else []

/-- The faults of the entries of a filter from left to right, those of a group itself before those of
its entries. -/
def entryFaults (levels : Nat) : Filter → List QueryError
  | .empty => []
  | .comparison before _ c => before.entryFaults levels ++ c.operand.faults
  | .group before _ inner =>
    before.entryFaults levels ++ (groupFaults levels inner ++ inner.entryFaults (levels - 1))

/-- The faults of a filter. -/
def faults (f : Filter) : List QueryError :=
  groupFaults maxNesting f ++ f.entryFaults (maxNesting - 1)

theorem failsFirst_checkGroup (levels : Nat) (f : Filter) :
    FailsFirst (checkGroup levels f) (groupFaults levels f) := by
  have hlevels := failsFirst_require (levels ≠ 0) (.malformedFilter .tooDeep)
  have hterm := failsFirst_require (!f.isEmpty) (.malformedFilter .noTerm)
  have h := hlevels.bind fun _ => hterm
  cases hempty : f.isEmpty <;> simpa [groupFaults, nestingFaults, checkGroup, hempty] using h

/-- The entries of a filter fail with their first fault, whatever was written before. -/
theorem failsFirst_renderEntries (scope : Text) (f : Filter) :
    ∀ levels, FailsFirst (f.renderEntries scope levels) (f.entryFaults levels) := by
  induction f with
  | empty => exact fun _ => failsFirst_ok _
  | comparison before op c ih =>
    intro levels
    rw [renderEntries, entryFaults]
    refine (ih levels).bind fun left => ?_
    exact (c.failsFirst_render scope).bind_pure
  | group before op inner ihBefore ihInner =>
    intro levels
    rw [renderEntries, entryFaults]
    refine (ihBefore levels).bind fun left => ?_
    refine (failsFirst_checkGroup levels inner).bind fun _ => ?_
    exact (ihInner (levels - 1)).bind_pure

/-- **A filter fails with its first fault**, in every scope. -/
theorem failsFirst_render (scope : Text) (f : Filter) : FailsFirst (f.render scope) f.faults :=
  (failsFirst_checkGroup maxNesting f).bind fun _ =>
    failsFirst_renderEntries scope f (maxNesting - 1)

end Filter

end GraphQuery
