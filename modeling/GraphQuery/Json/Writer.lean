import GraphQuery.Json.Value
import GraphQuery.Number.Layout
import GraphQuery.Text.Quoted

/-!
# JSON texts of values

`Value.compact?` writes a value without blanks. It fails exactly on values that hold a string or a
key that is not UTF-8. Numbers that are not finite have no JSON text and are written as null.
-/

namespace GraphQuery

/-- Doubles are written without an exponent from `0.0001` up to fifteen digits before the point;
beyond that with an exponent of at least two digits. -/
def jsonLayout : Layout where
  lastPosition := 15
  firstPosition := -3
  exponentDigits := 2

/-- The literal of a text that is UTF-8. -/
def quoted? (s : Text) : Option Text :=
  if Utf8.valid s then some (Quoted.encode s) else none

namespace Value

/-- An array of the bytes, under the name that binary data goes by. -/
def binaryText (data : Text) : Text :=
  utf8 "\x7b\"bytes\":["
    ++ Text.joinWith (utf8 ",") (data.map fun b => decimal b.toNat)
    ++ utf8 "],\"subtype\":null\x7d"

mutual

/-- The JSON text of a value without blanks, where its strings and keys are UTF-8. -/
def compact? : Value → Option Text
  | .null => some (utf8 "null")
  | .bool b => some (utf8 (if b then "true" else "false"))
  | .signed n => some (signedDecimal n.toInt)
  | .unsigned n => some (decimal n.toNat)
  | .double x => some (if x.isFinite then jsonLayout.write x else utf8 "null")
  | .string s => quoted? s
  | .array items => do
    let parts ← compactItems? items
    pure (utf8 "[" ++ Text.joinWith (utf8 ",") parts ++ utf8 "]")
  | .object members => do
    let parts ← compactMembers? members
    pure (utf8 "\x7b" ++ Text.joinWith (utf8 ",") parts ++ utf8 "\x7d")
  | .binary data => some (binaryText data)
  | .discarded => some (utf8 "<discarded>")

/-- The texts of some values. -/
def compactItems? : List Value → Option (List Text)
  | [] => some []
  | v :: rest => do
    let part ← v.compact?
    let parts ← compactItems? rest
    pure (part :: parts)

/-- The texts of some members, each a key, a colon and a value. -/
def compactMembers? : List (Text × Value) → Option (List Text)
  | [] => some []
  | (key, v) :: rest => do
    let name ← quoted? key
    let part ← v.compact?
    let parts ← compactMembers? rest
    pure ((name ++ utf8 ":" ++ part) :: parts)

end

end Value

end GraphQuery
