import GraphQuery.Number.Binary64

/-!
# Shortest decimals

`Shortest.ofBinary64` gives the fewest decimal digits that round back to a finite number, and of
those with the fewest digits the nearest. A decimal rounds back when it lies in the interval between
the midpoints to the two neighbouring numbers, the ends included when the significand is even.

For each count of digits from one to seventeen the two neighbours of the number on the grid of that
count are tried. A point of the grid that lies in the interval is at most as near as one of the two
neighbours, so the first count with a neighbour in the interval is the least, and seventeen digits
always suffice.

The search is exact. A printer that keeps to 64 bits on the way may find other digits for some
numbers; as long as the number covers them they are read as the same number all the same.
-/

namespace GraphQuery.Shortest

/-- A decimal `digits * 10 ^ power`. -/
structure Decimal where
  digits : Nat
  power : Int
  deriving DecidableEq, Repr

/-- The open or closed interval of magnitudes that round to one number, as quotients over one
denominator: `low / den` to `high / den` around `value / den`. -/
structure Interval where
  low : Nat
  value : Nat
  high : Nat
  den : Nat
  closed : Bool
  deriving Repr

/-- The interval of a finite number. Below a power of two the neighbour is nearer by half. -/
def interval (x : Binary64) : Interval :=
  let m := x.significand
  let below := if x.fractionField = 0 ∧ 1 < x.exponentField then 1 else 2
  let power := x.exponent - 2
  let scale := if 0 ≤ power then twoTo power.toNat else 1
  { low := (4 * m - below) * scale
    value := 4 * m * scale
    high := (4 * m + 2) * scale
    den := if 0 ≤ power then 1 else twoTo (-power).toNat
    closed := m % 2 = 0 }

/-- A decimal over a denominator, as a numerator and the factor the others are taken times. -/
def Decimal.scaled (d : Decimal) (den : Nat) : Nat × Nat :=
  if 0 ≤ d.power then (d.digits * tenTo d.power.toNat * den, 1)
  else (d.digits * den, tenTo (-d.power).toNat)

/-- Whether a decimal lies in the interval. -/
def Interval.contains (i : Interval) (d : Decimal) : Bool :=
  let (num, factor) := d.scaled i.den
  if i.closed then decide (i.low * factor ≤ num) && decide (num ≤ i.high * factor)
  else decide (i.low * factor < num) && decide (num < i.high * factor)

/-- Whether the first decimal is at least as near to the number as the second, which is not below
it; halfway the one with even digits. -/
def Interval.prefersLower (i : Interval) (lower upper : Decimal) : Bool :=
  let (lowerNum, factor) := lower.scaled i.den
  let (upperNum, _) := upper.scaled i.den
  let value := i.value * factor
  if value - lowerNum = upperNum - value then lower.digits % 2 = 0
  else decide (value - lowerNum < upperNum - value)

/-- The count of digits before the point of a quotient, at most zero for one below one:
`10 ^ (n - 1) ≤ num / den < 10 ^ n`. -/
def pointPosition (num den : Nat) : Int :=
  if den ≤ num then (Nat.toDigits 10 (num / den)).length
  else
    let gap := (den - 1) / num
    1 - (if gap = 0 then 0 else ((Nat.toDigits 10 gap).length : Int))

/-- The greatest decimal on a grid that is not above the number. -/
def Interval.floorAt (i : Interval) (power : Int) : Decimal :=
  if 0 ≤ power then ⟨i.value / (i.den * tenTo power.toNat), power⟩
  else ⟨i.value * tenTo (-power).toNat / i.den, power⟩

/-- The nearer of a number's two neighbours on a grid, of those in the interval. -/
def Interval.onGrid? (i : Interval) (power : Int) : Option Decimal :=
  let lower := i.floorAt power
  let upper : Decimal := ⟨lower.digits + 1, power⟩
  match i.contains lower, i.contains upper with
  | true, true => some (if i.prefersLower lower upper then lower else upper)
  | true, false => some lower
  | false, true => some upper
  | false, false => none

/-- The first hit on the grids of ever more digits, at most `fuel` of them. -/
def Interval.search (i : Interval) (power : Int) : Nat → Decimal
  | 0 => i.floorAt power
  | fuel + 1 =>
    match i.onGrid? power with
    | some d => d
    | none => i.search (power - 1) fuel

/-- The decimal without the zeros at its end. -/
def Decimal.strip (d : Decimal) : Nat → Decimal
  | 0 => d
  | fuel + 1 =>
    if d.digits % 10 = 0 ∧ d.digits ≠ 0 then Decimal.strip ⟨d.digits / 10, d.power + 1⟩ fuel else d

/-- The shortest decimal that rounds to a finite number other than zero, sign aside, without zeros
at its end. -/
def ofBinary64 (x : Binary64) : Decimal :=
  let i := interval x
  (i.search (pointPosition i.value i.den - 1) 17).strip 17

end GraphQuery.Shortest
