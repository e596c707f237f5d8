import GraphQuery.Text.Basic

/-!
# UTF-8

`Utf8.valid` accepts exactly the byte strings that encode a sequence of Unicode scalar values. A
lead byte fixes the ranges in which the bytes after it must lie (`Utf8.owed?`); the check walks the
text with the ranges still owed. Overlong forms, surrogates, values above U+10FFFF and characters
cut short have no such walk.
-/

namespace GraphQuery.Utf8

/-- A closed range of bytes. -/
structure ByteRange where
  first : UInt8
  last : UInt8
  deriving DecidableEq, Repr

/-- Whether a byte lies in the range. -/
def ByteRange.contains (r : ByteRange) (b : UInt8) : Bool :=
  decide (r.first ≤ b) && decide (b ≤ r.last)

/-- The range of every byte that continues a character, where the lead byte asks for no less. -/
def tail : ByteRange := ⟨0x80, 0xbf⟩

/-- The ranges of the bytes that must follow a lead byte; nothing for a byte that cannot lead. -/
def owed? (lead : UInt8) : Option (List ByteRange) :=
  if lead ≤ 0x7f then some []
  else if lead < 0xc2 then none
  else if lead ≤ 0xdf then some [tail]
  else if lead = 0xe0 then some [⟨0xa0, 0xbf⟩, tail]
  else if lead = 0xed then some [⟨0x80, 0x9f⟩, tail]
  else if lead ≤ 0xef then some [tail, tail]
  else if lead = 0xf0 then some [⟨0x90, 0xbf⟩, tail, tail]
  else if lead ≤ 0xf3 then some [tail, tail, tail]
  else if lead = 0xf4 then some [⟨0x80, 0x8f⟩, tail, tail]
  else none

/-- Whether a text pays what is owed and goes on with whole characters. -/
def validFrom : List ByteRange → Text → Bool
  | [], [] => true
  | _ :: _, [] => false
  | r :: owed, b :: rest => if r.contains b then validFrom owed rest else false
  | [], b :: rest =>
    match owed? b with
    | some owed => validFrom owed rest
    | none => false

/-- Whether a text is UTF-8. -/
def valid (s : Text) : Bool :=
  validFrom [] s

/-- The UTF-8 bytes of a Unicode scalar value. -/
def ofScalar (n : Nat) : Text :=
  String.utf8EncodeChar (Char.ofNat n)

@[simp] theorem valid_nil : valid [] = true := rfl

/-- An ASCII byte is a whole character. -/
theorem valid_cons_ascii {b : UInt8} {rest : Text} (h : b ≤ 0x7f) :
    valid (b :: rest) = valid rest := by
  simp [valid, validFrom, owed?, h]

end GraphQuery.Utf8
