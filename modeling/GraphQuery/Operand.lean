import GraphQuery.Checked
import GraphQuery.Json.Writer

/-!
# Operands

The right side of a comparison is a literal or a field of the same scope. Literals are written in
the statement's own syntax, a superset of JSON; this is the only way by which values enter a
statement.

* `Value.literal` writes a value, or says why it has no literal.
* `Operand.render` writes an operand in a scope.
* `Operand.toJson` and `Operand.ofJson` are its descriptor.
-/

namespace GraphQuery

/-- The literal of a text, which has to be UTF-8. -/
def textLiteral (s : Text) : Checked Text :=
  orFault (quoted? s) (.unsupportedOperand .notUtf8)

namespace Value

/-- The literal of a double, which has to be finite. -/
def doubleLiteral (x : Binary64) : Checked Text :=
  if x.isFinite then .ok (jsonLayout.write x) else .error (.unsupportedOperand .notFinite)

mutual

/-- The literal of a value with at most some levels of arrays and objects. Faults are met in the
order in which the literal is written. -/
def literalWithin (levels : Nat) : Value → Checked Text
  | .null => .ok (utf8 "null")
  | .bool b => .ok (utf8 (if b then "true" else "false"))
  | .signed n => .ok (signedDecimal n.toInt)
  | .unsigned n => .ok (decimal n.toNat)
  | .double x => doubleLiteral x
  | .string s => textLiteral s
  | .array items =>
    if levels = 0 then .error (.unsupportedOperand .tooDeep)
    else do
      let parts ← itemLiterals (levels - 1) items
      pure (utf8 "[" ++ Text.joinWith (utf8 ", ") parts ++ utf8 "]")
  | .object members =>
    if levels = 0 then .error (.unsupportedOperand .tooDeep)
    else do
      let parts ← memberLiterals (levels - 1) members
      pure (utf8 "\x7b" ++ Text.joinWith (utf8 ", ") parts ++ utf8 "\x7d")
  | .binary data => .error (.unsupportedOperand (.noLiteral (kindName (.binary data))))
  | .discarded => .error (.unsupportedOperand (.noLiteral (kindName .discarded)))

/-- The literals of the items of an array. -/
def itemLiterals (levels : Nat) : List Value → Checked (List Text)
  | [] => .ok []
  | v :: rest => do
    let part ← v.literalWithin levels
    let parts ← itemLiterals levels rest
    pure (part :: parts)

/-- The literals of the members of an object, each a key, a colon and a value. -/
def memberLiterals (levels : Nat) : List (Text × Value) → Checked (List Text)
  | [] => .ok []
  | (key, v) :: rest => do
    let name ← textLiteral key
    let part ← v.literalWithin levels
    let parts ← memberLiterals levels rest
    pure ((name ++ utf8 ": " ++ part) :: parts)

end

/-- The literal of a value. -/
def literal (v : Value) : Checked Text :=
  v.literalWithin maxNesting

end Value

/-- The right side of a comparison. -/
inductive Operand where
  /-- A value that is written into the statement. -/
  | literal (v : Value)
  /-- A field of the scope that the comparison stands in. -/
  | field (path : Text)
  deriving Repr, Inhabited

namespace Operand

/-- Whether the operand refers to a field. -/
def isField : Operand → Bool
  | .field _ => true
  | .literal _ => false

/-- A field path under the variable of a scope. -/
def qualified (scope path : Text) : Text :=
  scope ++ utf8 "." ++ path

/-- The text of an operand in a scope. -/
def render (scope : Text) : Operand → Checked Text
  | .field path => .ok (qualified scope path)
  | .literal v => v.literal

/-- The descriptor of an operand. -/
def toJson : Operand → Value
  | .field path => .ofMembers [(utf8 "field", .string path)]
  | .literal v => .ofMembers [(utf8 "value", v)]

/-- The field that a member refers to. -/
def ofFieldJson : Value → Checked Operand
  | .string path => .ok (.field path)
  | _ => .error (.invalidDescriptor .operandFieldNotString)

/-- The literal of a member, which must not nest too deep. -/
def ofValueJson (v : Value) : Checked Operand :=
  if v.depth ≤ maxNesting then .ok (.literal v) else .error (.invalidDescriptor .operandTooDeep)

/-- The operand of a descriptor. A field wins over a value. -/
def ofJson (j : Value) : Checked Operand :=
  if !j.isObject then .error (.invalidDescriptor .operandNotObject)
  else
    match j.get? (utf8 "field"), j.get? (utf8 "value") with
    | some reference, _ => ofFieldJson reference
    | none, some v => ofValueJson v
    | none, none => .error (.invalidDescriptor .operandMissing)

end Operand

end GraphQuery
