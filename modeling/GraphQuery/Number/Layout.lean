import GraphQuery.Text.Decimal
import GraphQuery.Number.Shortest

/-!
# Texts of floating-point numbers

A `Layout` records the choices of a number format: between which positions of the point a number is
written without an exponent, and how many digits an exponent has at least. `Layout.write` writes a
finite number with its shortest digits in such a format. A number always shows a point or an
exponent, so its text is never that of a whole number.
-/

namespace GraphQuery

/-- The choices of a number format. With the digits `d1..dk` the value is
`0.d1..dk * 10 ^ position`. -/
structure Layout where
  /-- The largest position that is written without an exponent. -/
  lastPosition : Int
  /-- The smallest position that is written without an exponent. -/
  firstPosition : Int
  /-- The least count of exponent digits. -/
  exponentDigits : Nat
  deriving Repr

namespace Layout

/-- Digits with zeros in front, up to a width. -/
def padded (width : Nat) (digits : Text) : Text :=
  List.replicate (width - digits.length) 0x30 ++ digits

/-- The exponent with its sign. -/
def exponentText (layout : Layout) (power : Int) : Text :=
  utf8 (if power < 0 then "e-" else "e+") ++ padded layout.exponentDigits (decimal power.natAbs)

/-- Digits with the point at a position. -/
def place (layout : Layout) (digits : Text) (position : Int) : Text :=
  let count : Int := digits.length
  if count ≤ position ∧ position ≤ layout.lastPosition then
    digits ++ List.replicate (position - count).toNat 0x30 ++ utf8 ".0"
  else if 0 < position ∧ position ≤ layout.lastPosition then
    digits.take position.toNat ++ utf8 "." ++ digits.drop position.toNat
  else if layout.firstPosition ≤ position ∧ position ≤ 0 then
    utf8 "0." ++ List.replicate (-position).toNat 0x30 ++ digits
  else
    digits.take 1 ++ (if digits.length = 1 then [] else utf8 "." ++ digits.drop 1)
      ++ layout.exponentText (position - 1)

/-- The text of a finite number. -/
def write (layout : Layout) (x : Binary64) : Text :=
  let sign := if x.negative then utf8 "-" else []
  if x.isZero then sign ++ utf8 "0.0"
  else
    let shortest := Shortest.ofBinary64 x
    let digits := decimal shortest.digits
    sign ++ layout.place digits (digits.length + shortest.power)

end Layout

end GraphQuery
