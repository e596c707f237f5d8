/-!
# Binary floating-point numbers

A `Binary64` is a 64-bit word read as a sign, an exponent field and a fraction field. A finite one
denotes `significand * 2 ^ exponent`, with the sign in front (`Binary64.significand`,
`Binary64.exponent`); only whole-number arithmetic is used to read and to round.

* `Binary64.round?` is the finite number nearest to a quotient, ties to the even significand.
* `Binary64.ofScientific?` does the same for a decimal `digits * 10 ^ power`.
* `Binary64.truncate?` is the whole part of a finite number.
-/

namespace GraphQuery

/-- A power of two. -/
def twoTo (n : Nat) : Nat :=
  Nat.pow 2 n

/-- A power of ten. -/
def tenTo (n : Nat) : Nat :=
  Nat.pow 10 n

/-- A floating-point number, held as its 64-bit word. -/
structure Binary64 where
  bits : UInt64
  deriving DecidableEq, Repr, Inhabited

namespace Binary64

/-- The sign bit of a word. -/
def signBit : Nat := 0x8000000000000000

/-- The unit of the exponent field, which is also the leading bit of a normal significand. -/
def leadingBit : Nat := 0x10000000000000

/-- The exponent field of infinities and of what is not a number. -/
def exponentMax : Nat := 0x7ff

/-- The word as a number. -/
def word (x : Binary64) : Nat :=
  x.bits.toNat

/-- Whether the sign bit is set. -/
def negative (x : Binary64) : Bool :=
  decide (signBit ≤ x.word)

/-- The exponent field. -/
def exponentField (x : Binary64) : Nat :=
  x.word / leadingBit % (exponentMax + 1)

/-- The fraction field. -/
def fractionField (x : Binary64) : Nat :=
  x.word % leadingBit

/-- Infinities and numbers that are not a number have the largest exponent field. -/
def isFinite (x : Binary64) : Bool :=
  decide (x.exponentField < exponentMax)

/-- The significand of a finite number, with the leading bit of a normal one. -/
def significand (x : Binary64) : Nat :=
  if x.exponentField = 0 then x.fractionField else leadingBit + x.fractionField

/-- The power of two that the significand of a finite number is taken times. -/
def exponent (x : Binary64) : Int :=
  if x.exponentField = 0 then -1074 else (x.exponentField : Int) - 1075

/-- Whether the number is zero of either sign. -/
def isZero (x : Binary64) : Bool :=
  decide (x.exponentField = 0) && decide (x.fractionField = 0)

/-- The positive infinity. -/
def infinity : Binary64 := ⟨0x7ff0000000000000⟩

/-- The negative infinity. -/
def negativeInfinity : Binary64 := ⟨0xfff0000000000000⟩

/-- A word that is not a number. -/
def notANumber : Binary64 := ⟨0x7ff8000000000000⟩

/-- The magnitude of a finite number as a quotient of whole numbers. -/
def magnitude (x : Binary64) : Nat × Nat :=
  if 0 ≤ x.exponent then (x.significand * twoTo x.exponent.toNat, 1)
  else (x.significand, twoTo (-x.exponent).toNat)

/-- The whole part of a finite number, cut towards zero. -/
def truncate? (x : Binary64) : Option Int :=
  if x.isFinite then
    let (num, den) := x.magnitude
    let whole : Int := (num / den : Nat)
    some (if x.negative then -whole else whole)
  else none

/-! ### Rounding -/

/-- The whole number nearest to a quotient; halfway the even one. -/
def roundHalfEven (num den : Nat) : Nat :=
  let quotient := num / den
  let twice := 2 * (num % den)
  if twice < den then quotient
  else if den < twice then quotient + 1
  else quotient + quotient % 2

/-- The quotient times a power of two, as a quotient. -/
def scaleByTwo (num den : Nat) (power : Int) : Nat × Nat :=
  if 0 ≤ power then (num * twoTo power.toNat, den) else (num, den * twoTo (-power).toNat)

/-- The largest power of two that is at most a quotient, as its exponent. -/
def floorLog2 (num den : Nat) : Int :=
  let guess : Int := (num.log2 : Int) - den.log2
  let (n, d) := scaleByTwo num den (-guess)
  if d ≤ n then guess else guess - 1

/-- The finite number nearest to a quotient, ties to the even significand; nothing where it would
exceed the largest finite number. A significand that rounds up to the next power of two carries into
the exponent field by itself, since the two fields are neighbours in the word. -/
def round? (negative : Bool) (num den : Nat) : Option Binary64 :=
  let sign : Nat := if negative then signBit else 0
  if num = 0 then some ⟨UInt64.ofNat sign⟩
  else
    let power := max (floorLog2 num den - 52) (-1074)
    let (n, d) := scaleByTwo num den (-power)
    let field := (power + 1074).toNat * leadingBit + roundHalfEven n d
    if field < exponentMax * leadingBit then some ⟨UInt64.ofNat (sign + field)⟩ else none

/-- The finite number nearest to `digits * 10 ^ power`; nothing where that is too large. Decimals
far outside the range are decided by their size alone. -/
def ofScientific? (negative : Bool) (digits : Nat) (power : Int) : Option Binary64 :=
  let size : Int := (Nat.toDigits 10 digits).length + power
  if digits = 0 then round? negative 0 1
  else if 400 < size then none
  else if size < -400 then round? negative 0 1
  else if 0 ≤ power then round? negative (digits * tenTo power.toNat) 1
  else round? negative digits (tenTo (-power).toNat)

end Binary64

end GraphQuery
