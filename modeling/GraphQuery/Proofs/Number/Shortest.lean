import GraphQuery.Number.Shortest
import GraphQuery.Proofs.Number.Rounding
import Mathlib.Tactic.LinearCombination

/-!
# Shortest decimals round back

The digits that a finite number is written with are searched for among the decimals that the number
covers, on grids of ever more digits. A grid of seventeen digits is always fine enough: its points
are nearer to one another than the midpoints around the number, so one of the two neighbours of the
number is covered.

* `contains_iff`: the interval of a number holds the decimals that it covers.
* `exists_onGrid?`, `exists_covers_of_fine`: a grid with a point in the interval has a neighbour of
  the number there, and seventeen digits make a grid with a point in the interval.
* `covers_ofBinary64`, `ofScientific?_ofBinary64`: the decimal that is found is covered, so it
  rounds back to the number.
* `length_digits_ofBinary64_le`: no decimal with fewer digits does.
-/

namespace GraphQuery.Shortest

open Binary64

/-- The magnitude that a decimal denotes. -/
def Decimal.value (d : Decimal) : ℚ :=
  d.digits * 10 ^ d.power

theorem scaled_eq (d : Decimal) (den : Nat) :
    0 < (d.scaled den).2 ∧ ((d.scaled den).1 : ℚ) = d.value * den * (d.scaled den).2 := by
  unfold Decimal.scaled Decimal.value
  split
  · rename_i h
    refine ⟨Nat.one_pos, ?_⟩
    push_cast
    rw [cast_tenTo, zpow_toNat h]
    ring
  · rename_i h
    refine ⟨Nat.pow_pos (by decide), ?_⟩
    push_cast
    have hinverse : (10 : ℚ) ^ d.power * tenTo (-d.power).toNat = 1 := by
      rw [cast_tenTo, zpow_toNat (by omega), zpow_neg]
      exact mul_inv_cancel₀ (by positivity)
    linear_combination -(d.digits * den : ℚ) * hinverse

/-! ### The interval -/

section Interval

variable {x : Binary64}

/-- The denominator of an interval, and the unit in the last place over it. -/
theorem scale_eq (power : Int) :
    ((if 0 ≤ power then twoTo power.toNat else 1 : Nat) : ℚ) =
      2 ^ power * (if 0 ≤ power then 1 else twoTo (-power).toNat : Nat) := by
  split
  · rename_i h
    rw [cast_twoTo, zpow_toNat h, Nat.cast_one, mul_one]
  · rename_i h
    rw [cast_twoTo, zpow_toNat (by omega), zpow_neg, Nat.cast_one]
    exact (mul_inv_cancel₀ (by positivity)).symm

theorem interval_den_pos (x : Binary64) : 0 < (interval x).den := by
  unfold interval
  dsimp only
  split
  · exact Nat.one_pos
  · exact Nat.pow_pos (by decide)

/-- The bounds of an interval are the midpoints to the neighbours, over its denominator. -/
theorem interval_eq (hzero : x.isZero = false) :
    ((interval x).low : ℚ) = (x.significand - x.below / 4) * (2 ^ x.exponent * (interval x).den) ∧
      ((interval x).value : ℚ) = x.significand * (2 ^ x.exponent * (interval x).den) ∧
      ((interval x).high : ℚ) = (x.significand + 1 / 2) * (2 ^ x.exponent * (interval x).den) := by
  have hone := one_le_significand hzero
  have hbelow : x.below ≤ 4 * x.significand := by
    rcases below_cases x with h | h <;> omega
  have hquarter : (2 : ℚ) ^ x.exponent = 4 * 2 ^ (x.exponent - 2) := by
    rw [zpow_sub₀ two_ne_zero]
    norm_num
    ring
  have hscale := scale_eq (x.exponent - 2)
  unfold interval
  dsimp only
  rw [← below]
  push_cast [Nat.cast_sub hbelow] at *
  rw [hscale, hquarter]
  refine ⟨?_, ?_, ?_⟩ <;> ring

/-- A bound of an interval is compared with a decimal in units in the last place. -/
theorem mul_scaled_le_iff {a : Nat} {q : ℚ}
    (ha : (a : ℚ) = q * (2 ^ x.exponent * (interval x).den)) (d : Decimal) :
    (a * (d.scaled (interval x).den).2 ≤ (d.scaled (interval x).den).1 ↔
        q ≤ d.value / 2 ^ x.exponent) ∧
      ((d.scaled (interval x).den).1 ≤ a * (d.scaled (interval x).den).2 ↔
        d.value / 2 ^ x.exponent ≤ q) := by
  obtain ⟨hfactor, hnum⟩ := scaled_eq d (interval x).den
  generalize (d.scaled (interval x).den).1 = num at *
  generalize (d.scaled (interval x).den).2 = factor at *
  have hunit : (0 : ℚ) < 2 ^ x.exponent := by positivity
  have hpos : (0 : ℚ) < 2 ^ x.exponent * (interval x).den * factor :=
    mul_pos (mul_pos hunit (Nat.cast_pos.mpr (interval_den_pos x))) (Nat.cast_pos.mpr hfactor)
  have hbound : ((a * factor : Nat) : ℚ) = q * (2 ^ x.exponent * (interval x).den * factor) := by
    push_cast
    rw [ha]
    ring
  have hdecimal :
      (num : ℚ) = d.value / 2 ^ x.exponent * (2 ^ x.exponent * (interval x).den * factor) := by
    rw [hnum]
    field_simp
  rw [← Nat.cast_le (α := ℚ), ← Nat.cast_le (α := ℚ), hbound, hdecimal]
  exact ⟨mul_le_mul_iff_of_pos_right hpos, mul_le_mul_iff_of_pos_right hpos⟩

/-- **The interval of a number holds the decimals that the number covers.** -/
theorem contains_iff (hzero : x.isZero = false) (d : Decimal) :
    (interval x).contains d = true ↔ x.Covers d.value := by
  obtain ⟨hlow, -, hhigh⟩ := interval_eq hzero
  obtain ⟨hlowle, hlelow⟩ := mul_scaled_le_iff hlow d
  obtain ⟨hhighle, hlehigh⟩ := mul_scaled_le_iff hhigh d
  have hclosed : (interval x).closed = decide (x.significand % 2 = 0) := rfl
  unfold Interval.contains
  dsimp only
  rw [hclosed]
  by_cases heven : x.significand % 2 = 0
  · simp only [heven, decide_true, if_true, Bool.and_eq_true, decide_eq_true_eq]
    rw [hlowle, hlehigh]
    exact ⟨fun ⟨hl, hh⟩ => ⟨hl, hh, fun hodd => by omega⟩, fun h => ⟨h.low, h.high⟩⟩
  · simp only [heven, decide_false, Bool.false_eq_true, if_false, Bool.and_eq_true,
      decide_eq_true_eq]
    rw [← not_le, ← not_le, hlelow, hhighle, not_le, not_le]
    exact ⟨fun ⟨hl, hh⟩ => ⟨hl.le, hh.le, fun _ => ⟨hl, hh⟩⟩, fun h => h.ties (by omega)⟩

/-! ### Grids -/

/-- The lower neighbour of a number on a grid, in digits of that grid. -/
theorem floorAt_eq (hzero : x.isZero = false) (power : Int) :
    ∃ digits : Nat, (interval x).floorAt power = ⟨digits, power⟩ ∧
      digits * 10 ^ power ≤ x.size ∧ x.size < (digits + 1 : Nat) * 10 ^ power := by
  obtain ⟨-, hvalue, -⟩ := interval_eq hzero
  have hden : (0 : ℚ) < (interval x).den := Nat.cast_pos.mpr (interval_den_pos x)
  have hpower : (0 : ℚ) < 10 ^ power := by positivity
  have hvalue : ((interval x).value : ℚ) = x.size * (interval x).den := by
    rw [hvalue, size]
    ring
  -- Both branches divide two numbers whose quotient is the number in steps of the grid.
  obtain ⟨num, den, hpos, hquotient, hfloor⟩ : ∃ num den : Nat, 0 < den ∧
      (num : ℚ) = x.size / 10 ^ power * den ∧
      (interval x).floorAt power = ⟨num / den, power⟩ := by
    unfold Interval.floorAt
    split
    · rename_i h
      refine ⟨_, (interval x).den * tenTo power.toNat,
        Nat.mul_pos (interval_den_pos x) (Nat.pow_pos (by decide)), ?_, rfl⟩
      push_cast
      rw [hvalue, cast_tenTo, zpow_toNat h]
      field_simp
    · rename_i h
      refine ⟨_, _, interval_den_pos x, ?_, rfl⟩
      push_cast
      rw [hvalue, cast_tenTo, zpow_toNat (by omega), zpow_neg]
      field_simp
  have hposq : (0 : ℚ) < den := Nat.cast_pos.mpr hpos
  refine ⟨num / den, hfloor, ?_, ?_⟩
  · have hle : ((num / den : Nat) : ℚ) * den ≤ x.size / 10 ^ power * den := by
      rw [← hquotient]
      exact_mod_cast Nat.div_mul_le_self num den
    exact (le_div_iff₀ hpower).mp (le_of_mul_le_mul_right hle hposq)
  · have hlt : x.size / 10 ^ power * den < ((num / den + 1 : Nat) : ℚ) * den := by
      rw [← hquotient]
      exact_mod_cast (Nat.div_lt_iff_lt_mul hpos).mp (Nat.lt_succ_self _)
    exact (div_lt_iff₀ hpower).mp (lt_of_mul_lt_mul_right hlt hposq.le)

/-- A neighbour on a grid is found where one of the two is in the interval. -/
theorem onGrid?_cases (i : Interval) (power : Int) :
    (i.onGrid? power = none ∧ i.contains (i.floorAt power) = false ∧
        i.contains ⟨(i.floorAt power).digits + 1, power⟩ = false) ∨
      ∃ d, i.onGrid? power = some d ∧ i.contains d = true ∧
        (d = i.floorAt power ∨ d = ⟨(i.floorAt power).digits + 1, power⟩) := by
  unfold Interval.onGrid?
  dsimp only
  cases hlower : i.contains (i.floorAt power) <;>
    cases hupper : i.contains ⟨(i.floorAt power).digits + 1, power⟩
  · exact Or.inl ⟨rfl, rfl, rfl⟩
  · exact Or.inr ⟨_, rfl, hupper, Or.inr rfl⟩
  · exact Or.inr ⟨_, rfl, hlower, Or.inl rfl⟩
  · refine Or.inr ⟨_, rfl, ?_⟩
    split
    · exact ⟨hlower, Or.inl rfl⟩
    · exact ⟨hupper, Or.inr rfl⟩

/-- **A grid with a point in the interval has a neighbour of the number in it**, which lies between
the point and the number. -/
theorem exists_onGrid? (hzero : x.isZero = false) {n : Nat} {power : Int}
    (h : x.Covers (n * 10 ^ power)) : ∃ d, (interval x).onGrid? power = some d := by
  obtain ⟨digits, hfloor, hle, hlt⟩ := floorAt_eq hzero power
  rcases onGrid?_cases (interval x) power with ⟨-, hlower, hupper⟩ | ⟨d, hd, -⟩
  · rw [hfloor, Bool.eq_false_iff, ne_eq, contains_iff hzero, Decimal.value] at hlower hupper
    have hpower : (0 : ℚ) < 10 ^ power := by positivity
    rcases Nat.lt_or_ge digits n with hn | hn
    · refine absurd (covers_size x |>.of_between h hlt.le ?_) hupper
      gcongr
      exact hn
    · refine absurd (h.of_between (covers_size x) ?_ hle) hlower
      gcongr
  · exact ⟨d, hd⟩

/-- The significand below which the midpoint is nearer is that of a power of two. -/
theorem significand_of_below_eq_one (h : x.below = 1) : x.significand = leadingBit := by
  unfold below at h
  split at h
  · rename_i hfields
    rw [significand, if_neg (by omega), hfields.1]
    rfl
  · cases h

/-- **Seventeen digits are enough**: a number covers one of its neighbours on a grid that is finer
than the number by that much. -/
theorem exists_covers_of_fine (hzero : x.isZero = false) {power : Int}
    (hfine : 10 ^ (power + 16) ≤ x.size) : ∃ n : Nat, x.Covers (n * 10 ^ power) := by
  obtain ⟨digits, -, hle, hlt⟩ := floorAt_eq hzero power
  have hunit : (0 : ℚ) < 2 ^ x.exponent := by positivity
  have hsize : x.size / 2 ^ x.exponent = x.significand := mul_div_cancel_right₀ _ hunit.ne'
  have hsignificand : (x.significand : ℚ) < 2 ^ 53 := by exact_mod_cast significand_lt x
  -- Everything in units in the last place: the lower neighbour and the step of the grid.
  have hle := (div_le_div_iff_of_pos_right hunit).mpr hle
  have hlt := (div_lt_div_iff_of_pos_right hunit).mpr hlt
  have hfine := (div_le_div_iff_of_pos_right hunit).mpr hfine
  rw [hsize] at hle hlt hfine
  have hstep : ((digits + 1 : Nat) : ℚ) * 10 ^ power / 2 ^ x.exponent =
      digits * 10 ^ power / 2 ^ x.exponent + 10 ^ power / 2 ^ x.exponent := by
    push_cast
    ring
  have hsixteen : (10 : ℚ) ^ (power + 16) / 2 ^ x.exponent =
      10 ^ 16 * (10 ^ power / 2 ^ x.exponent) := by
    rw [zpow_add₀ (by norm_num)]
    norm_num
    ring
  rw [hstep] at hlt
  rw [hsixteen] at hfine
  generalize hlower : (digits : ℚ) * 10 ^ power / 2 ^ x.exponent = lower at *
  generalize (10 : ℚ) ^ power / 2 ^ x.exponent = step at *
  rcases below_cases x with hbelow | hbelow
  · -- Here the number is a power of two, and the step is less than half a unit.
    rw [significand_of_below_eq_one hbelow] at hfine
    have hquarter : (x.below : ℚ) = 1 := by rw [hbelow, Nat.cast_one]
    norm_num [leadingBit] at hfine
    refine ⟨digits + 1, .of_strict ?_ ?_⟩ <;> rw [hstep] <;> linarith
  · have hquarter : (x.below : ℚ) = 2 := by rw [hbelow, Nat.cast_two]
    by_cases hnear : (x.significand : ℚ) < lower + 1 / 2
    · refine ⟨digits, .of_strict ?_ ?_⟩ <;> rw [hlower] <;> linarith
    · have hnear := not_lt.mp hnear
      refine ⟨digits + 1, .of_strict ?_ ?_⟩ <;> rw [hstep] <;> linarith

end Interval

/-! ### The search -/

/-- The position of the point is the count of digits before it. -/
theorem pointPosition_spec {num den : Nat} (hnum : 0 < num) (hden : 0 < den) :
    (10 : ℚ) ^ (pointPosition num den - 1) ≤ num / den ∧
      (num / den : ℚ) < 10 ^ pointPosition num den := by
  have hdenq : (0 : ℚ) < den := Nat.cast_pos.mpr hden
  rw [le_div_iff₀ hdenq, div_lt_iff₀ hdenq]
  unfold pointPosition
  split
  · rename_i h
    obtain ⟨hlow, hhigh⟩ := pow_length_toDigits (Nat.div_pos h hden)
    have hlength : 0 < (Nat.toDigits 10 (num / den)).length := Nat.length_toDigits_pos
    generalize (Nat.toDigits 10 (num / den)).length = length at *
    obtain ⟨before, rfl⟩ := Nat.exists_eq_add_one_of_ne_zero hlength.ne'
    rw [Nat.le_div_iff_mul_le hden] at hlow
    rw [Nat.div_lt_iff_lt_mul hden] at hhigh
    constructor
    · rw [Nat.cast_succ, add_sub_cancel_right, zpow_natCast]
      exact_mod_cast hlow
    · rw [zpow_natCast]
      exact_mod_cast hhigh
  · rename_i h
    -- The quotient is between the reciprocals of the two powers of ten around the gap.
    dsimp only
    have hgap : (den - 1) / num ≠ 0 := by
      rw [Nat.div_ne_zero_iff]
      omega
    obtain ⟨hlow, hhigh⟩ := pow_length_toDigits (Nat.pos_of_ne_zero hgap)
    have hlength : 0 < (Nat.toDigits 10 ((den - 1) / num)).length := Nat.length_toDigits_pos
    rw [if_neg hgap]
    generalize (Nat.toDigits 10 ((den - 1) / num)).length = length at *
    obtain ⟨before, rfl⟩ := Nat.exists_eq_add_one_of_ne_zero hlength.ne'
    rw [Nat.le_div_iff_mul_le hnum] at hlow
    rw [Nat.div_lt_iff_lt_mul hnum] at hhigh
    rw [Nat.add_sub_cancel] at hlow
    have hle : den ≤ 10 ^ (before + 1) * num := by omega
    have hlt : 10 ^ before * num < den := by omega
    constructor
    · rw [show (1 - ((before + 1 : Nat) : Int) - 1) = -((before + 1 : Nat) : Int) by omega, zpow_neg,
        zpow_natCast, inv_mul_le_iff₀ (by positivity)]
      exact_mod_cast hle
    · rw [show (1 - ((before + 1 : Nat) : Int)) = -(before : Int) by omega, zpow_neg, zpow_natCast,
        lt_inv_mul_iff₀ (by positivity)]
      exact_mod_cast hlt

/-- The search ends on the first grid that has a point in the interval. -/
theorem search_spec (i : Interval) {fuel : Nat} : ∀ {power : Int},
    (∃ k < fuel, ∃ d, i.onGrid? (power - k) = some d) →
      ∃ k < fuel, i.onGrid? (power - k) = some (i.search power fuel) ∧
        ∀ j < k, i.onGrid? (power - j) = none := by
  induction fuel with
  | zero =>
    rintro power ⟨k, hk, -⟩
    exact absurd hk (Nat.not_lt_zero k)
  | succ fuel ih =>
    rintro power ⟨k, hk, d, hd⟩
    rw [Interval.search]
    cases hfirst : i.onGrid? power with
    | some first =>
      refine ⟨0, Nat.succ_pos fuel, ?_, fun j hj => absurd hj (Nat.not_lt_zero j)⟩
      simpa using hfirst
    | none =>
      have hshift : ∀ j : Nat, power - (j + 1 : Nat) = power - 1 - j := fun j => by omega
      obtain ⟨rest, rfl⟩ : ∃ rest, k = rest + 1 := by
        cases k with
        | zero =>
          rw [Nat.cast_zero, sub_zero, hfirst] at hd
          cases hd
        | succ rest => exact ⟨rest, rfl⟩
      rw [hshift] at hd
      obtain ⟨found, hlt, hfound, hbefore⟩ := ih ⟨rest, Nat.lt_of_succ_lt_succ hk, d, hd⟩
      refine ⟨found + 1, Nat.succ_lt_succ hlt, by rw [hshift, hfound], fun j hj => ?_⟩
      cases j with
      | zero => simpa using hfirst
      | succ j =>
        rw [hshift]
        exact hbefore j (Nat.lt_of_succ_lt_succ hj)

/-- Zeros at the end are moved into the power of ten. -/
theorem value_strip (fuel : Nat) : ∀ d : Decimal, (d.strip fuel).value = d.value := by
  induction fuel with
  | zero => exact fun d => rfl
  | succ fuel ih =>
    intro d
    rw [Decimal.strip]
    split
    · rename_i h
      have hdigits : (d.digits : ℚ) = (d.digits / 10 : Nat) * 10 := by
        exact_mod_cast (Nat.div_mul_cancel (Nat.dvd_of_mod_eq_zero h.1)).symm
      rw [ih, Decimal.value, Decimal.value, hdigits, zpow_add_one₀ (by norm_num)]
      ring
    · rfl

theorem digits_strip_le (fuel : Nat) : ∀ d : Decimal, (d.strip fuel).digits ≤ d.digits := by
  induction fuel with
  | zero => exact fun d => Nat.le_refl _
  | succ fuel ih =>
    intro d
    rw [Decimal.strip]
    split
    · exact (ih _).trans (Nat.div_le_self d.digits 10)
    · exact Nat.le_refl _

/-- A power of ten has fewer digits without its zeros. -/
theorem digits_strip_lt {d : Decimal} {count : Nat} (h : d.digits ≤ 10 ^ (count + 1)) (fuel : Nat) :
    (d.strip (fuel + 1)).digits < 10 ^ (count + 1) := by
  have hpos : 0 < 10 ^ count := Nat.pow_pos (by decide)
  rw [Nat.pow_succ] at *
  rw [Decimal.strip]
  split
  · refine lt_of_le_of_lt (digits_strip_le fuel _) ?_
    dsimp only
    omega
  · omega

/-! ### Rounding back -/

section Found

variable {x : Binary64}

/-- The exponent of the first digit of a number. -/
def leadingPower (x : Binary64) : Int :=
  pointPosition (interval x).value (interval x).den - 1

theorem leadingPower_spec (hzero : x.isZero = false) :
    (10 : ℚ) ^ leadingPower x ≤ x.size ∧ x.size < 10 ^ (leadingPower x + 1) := by
  obtain ⟨-, hvalue, -⟩ := interval_eq hzero
  have hden : (0 : ℚ) < (interval x).den := Nat.cast_pos.mpr (interval_den_pos x)
  have hquotient : ((interval x).value : ℚ) / (interval x).den = x.size := by
    rw [hvalue, size, ← mul_assoc]
    exact mul_div_cancel_right₀ _ hden.ne'
  have hpos : 0 < (interval x).value := by
    have hsize : 0 < x.size := (covers_size x).pos hzero
    rw [← hquotient, div_pos_iff_of_pos_right hden] at hsize
    exact_mod_cast hsize
  rw [leadingPower, sub_add_cancel, ← hquotient]
  exact pointPosition_spec hpos (interval_den_pos x)

/-- What the search finds is covered, has no more digits than the grids that were tried, and no
grid before has a point that is covered. -/
theorem search_ofBinary64 (hzero : x.isZero = false) :
    ∃ (k : Nat) (d : Decimal), ofBinary64 x = d.strip 17 ∧ x.Covers d.value ∧
      d.digits ≤ 10 ^ (k + 1) ∧
      ∀ j < k, ∀ n : Nat, ¬x.Covers (n * 10 ^ (leadingPower x - j)) := by
  obtain ⟨hlow, hhigh⟩ := leadingPower_spec hzero
  have hfine : (10 : ℚ) ^ (leadingPower x - (16 : Nat) + 16) ≤ x.size := by
    rwa [Nat.cast_ofNat, sub_add_cancel]
  obtain ⟨n, hn⟩ := exists_covers_of_fine hzero hfine
  have hgrid : ∃ k < 17, ∃ d, (interval x).onGrid? (leadingPower x - (k : Nat)) = some d :=
    ⟨16, by decide, exists_onGrid? hzero hn⟩
  obtain ⟨k, -, hfound, hbefore⟩ := search_spec (interval x) hgrid
  refine ⟨k, (interval x).search (leadingPower x) 17, rfl, ?_⟩
  rcases onGrid?_cases (interval x) (leadingPower x - k) with ⟨hnone, -⟩ | ⟨d, hd, hcontains, hd'⟩
  · rw [hnone] at hfound
    cases hfound
  · obtain rfl := Option.some.inj (hd.symm.trans hfound)
    obtain ⟨digits, hfloor, hle, -⟩ := floorAt_eq hzero (leadingPower x - k)
    have hdigits : digits < 10 ^ (k + 1) := by
      have hlt : (digits : ℚ) * 10 ^ (leadingPower x - k) <
          (10 ^ (k + 1) : Nat) * 10 ^ (leadingPower x - k) := by
        calc (digits : ℚ) * 10 ^ (leadingPower x - k) ≤ x.size := hle
          _ < 10 ^ (leadingPower x + 1) := hhigh
          _ = (10 ^ (k + 1) : Nat) * 10 ^ (leadingPower x - k) := by
            push_cast
            rw [← zpow_natCast, ← zpow_add₀ (by norm_num)]
            congr 1
            push_cast
            ring
      exact_mod_cast lt_of_mul_lt_mul_right hlt (by positivity)
    refine ⟨(contains_iff hzero _).mp hcontains, ?_, fun j hj n hcovered => ?_⟩
    · rw [hfloor] at hd'
      rcases hd' with heq | heq
      · rw [heq]
        exact hdigits.le
      · rw [heq]
        exact hdigits
    · obtain ⟨earlier, hearlier⟩ := exists_onGrid? hzero hcovered
      rw [hbefore j hj] at hearlier
      cases hearlier

/-- **A number covers its shortest decimal.** -/
theorem covers_ofBinary64 (hzero : x.isZero = false) : x.Covers (ofBinary64 x).value := by
  obtain ⟨k, d, hd, hcovers, -⟩ := search_ofBinary64 hzero
  rwa [hd, value_strip]

theorem digits_pos_of_covers (hzero : x.isZero = false) {d : Decimal} (h : x.Covers d.value) :
    0 < d.digits := by
  rcases Nat.eq_zero_or_pos d.digits with hdigits | hpos
  · have hvalue := h.pos hzero
    simp [Decimal.value, hdigits] at hvalue
  · exact hpos

/-- **The shortest decimal of a number rounds back to it.** -/
theorem ofScientific?_ofBinary64 (hfinite : x.isFinite = true) (hzero : x.isZero = false) :
    ofScientific? x.negative (ofBinary64 x).digits (ofBinary64 x).power = some x :=
  ofScientific?_of_covers hfinite hzero (covers_ofBinary64 hzero)

/-- A covered decimal of so many digits is on the grid of as many, or a power of ten is that lies
between it and the number. -/
theorem exists_covers_of_digits_lt (hzero : x.isZero = false) {d : Decimal} (h : x.Covers d.value)
    {count : Nat} (hdigits : d.digits < 10 ^ (count + 1)) :
    ∃ n : Nat, x.Covers (n * 10 ^ (leadingPower x - count)) := by
  obtain ⟨hlow, -⟩ := leadingPower_spec hzero
  by_cases hpower : leadingPower x - count ≤ d.power
  · refine ⟨d.digits * 10 ^ (d.power - (leadingPower x - count)).toNat, ?_⟩
    have hvalue : ((d.digits * 10 ^ (d.power - (leadingPower x - count)).toNat : Nat) : ℚ) *
        10 ^ (leadingPower x - count) = d.value := by
      push_cast
      rw [zpow_toNat (by omega), mul_assoc, ← zpow_add₀ (by norm_num), sub_add_cancel]
      rfl
    rwa [hvalue]
  · refine ⟨10 ^ count, ?_⟩
    have hleading : ((10 ^ count : Nat) : ℚ) * 10 ^ (leadingPower x - count) =
        10 ^ leadingPower x := by
      push_cast
      rw [← zpow_natCast, ← zpow_add₀ (by norm_num)]
      congr 1
      ring
    rw [hleading]
    refine h.of_between (covers_size x) ?_ hlow
    calc d.value ≤ (10 ^ (count + 1) : Nat) * (10 : ℚ) ^ d.power := by
          unfold Decimal.value
          gcongr
      _ = 10 ^ (((count + 1 : Nat) : Int) + d.power) := by
          push_cast
          rw [← zpow_natCast, ← zpow_add₀ (by norm_num)]
          push_cast
          rfl
      _ ≤ 10 ^ leadingPower x := zpow_le_zpow_right₀ (by norm_num) (by omega)

/-- **No decimal with fewer digits does**, as no number covers one. -/
theorem length_digits_ofBinary64_le (hzero : x.isZero = false) {d : Decimal}
    (h : x.Covers d.value) :
    (Nat.toDigits 10 (ofBinary64 x).digits).length ≤ (Nat.toDigits 10 d.digits).length := by
  obtain ⟨k, found, hfound, -, hdigits, hnone⟩ := search_ofBinary64 hzero
  obtain ⟨-, hhigh⟩ := pow_length_toDigits (digits_pos_of_covers hzero h)
  have hlength : 0 < (Nat.toDigits 10 d.digits).length := Nat.length_toDigits_pos
  generalize (Nat.toDigits 10 d.digits).length = length at *
  obtain ⟨count, rfl⟩ := Nat.exists_eq_add_one_of_ne_zero hlength.ne'
  obtain ⟨n, hn⟩ := exists_covers_of_digits_lt hzero h hhigh
  have hk : k ≤ count := by
    by_contra hlt
    exact hnone count (by omega) n hn
  rw [Nat.length_toDigits_le_iff (by decide) (Nat.succ_pos count), hfound]
  calc (found.strip 17).digits < 10 ^ (k + 1) := digits_strip_lt hdigits 16
    _ ≤ 10 ^ (count + 1) := Nat.pow_le_pow_right (by decide) (by omega)

end Found

end GraphQuery.Shortest
