import GraphQuery.Number.Binary64
import Mathlib.Algebra.Order.Field.Power
import Mathlib.Algebra.Order.Ring.Rat
import Mathlib.Tactic.Linarith
import Mathlib.Tactic.Positivity
import Mathlib.Tactic.Ring
import Mathlib.Tactic.FieldSimp

/-!
# Rounding to floating-point numbers

A finite number is the one that a magnitude is rounded to when the magnitude lies between the
midpoints to the neighbouring numbers, where a midpoint itself counts for the number with the even
significand. `Binary64.Covers` says this over the rationals, without regard to how rounding is done.

* `cast_scaleByTwo`, `floorLog2_spec` and `roundHalfEven_eq` say of each step what it computes.
* `Binary64.word_eq` takes a word apart into its sign, exponent and significand.
* `round?_of_covers` and `ofScientific?_of_covers`: whatever a number covers is rounded to it.
-/

namespace GraphQuery.Binary64

/-! ### Powers -/

theorem cast_twoTo (n : Nat) : (twoTo n : ℚ) = 2 ^ n := by
  rw [twoTo, Nat.pow_eq]
  push_cast
  rfl

theorem cast_tenTo (n : Nat) : (tenTo n : ℚ) = 10 ^ n := by
  rw [tenTo, Nat.pow_eq]
  push_cast
  rfl

theorem zpow_toNat {b : ℚ} {k : Int} (h : 0 ≤ k) : b ^ k.toNat = b ^ k := by
  rw [← zpow_natCast, Int.toNat_of_nonneg h]

/-! ### The steps of rounding -/

theorem cast_scaleByTwo (num : Nat) {den : Nat} (hden : 0 < den) (power : Int) :
    0 < (scaleByTwo num den power).2 ∧
      ((scaleByTwo num den power).1 : ℚ) / (scaleByTwo num den power).2 = num / den * 2 ^ power := by
  unfold scaleByTwo
  split
  · rename_i h
    refine ⟨hden, ?_⟩
    push_cast
    rw [cast_twoTo, zpow_toNat h]
    ring
  · rename_i h
    refine ⟨Nat.mul_pos hden (Nat.pow_pos (by decide)), ?_⟩
    push_cast
    rw [cast_twoTo, zpow_toNat (by omega), zpow_neg]
    field_simp

/-- The guess from the lengths of both numbers is right or one too high. -/
theorem floorLog2_spec {num den : Nat} (hnum : 0 < num) (hden : 0 < den) :
    (2 : ℚ) ^ floorLog2 num den ≤ num / den ∧ (num / den : ℚ) < 2 ^ (floorLog2 num den + 1) := by
  have hdenq : (0 : ℚ) < den := Nat.cast_pos.mpr hden
  have hnumlow : (2 : ℚ) ^ num.log2 ≤ num := by exact_mod_cast Nat.log2_self_le hnum.ne'
  have hnumhigh : (num : ℚ) < 2 ^ (num.log2 + 1) := by
    exact_mod_cast Nat.lt_log2_self
  have hdenlow : (2 : ℚ) ^ den.log2 ≤ den := by exact_mod_cast Nat.log2_self_le hden.ne'
  have hdenhigh : (den : ℚ) < 2 ^ (den.log2 + 1) := by
    exact_mod_cast Nat.lt_log2_self
  generalize hguess : (num.log2 : Int) - den.log2 = guess
  have hlow : (2 : ℚ) ^ (guess - 1) ≤ num / den := by
    rw [le_div_iff₀ hdenq]
    calc (2 : ℚ) ^ (guess - 1) * den
        ≤ 2 ^ (guess - 1) * 2 ^ ((den.log2 : Int) + 1) := by
          gcongr
          exact_mod_cast hdenhigh.le
      _ = 2 ^ num.log2 := by
          rw [← zpow_add₀ two_ne_zero, ← zpow_natCast]
          congr 1
          omega
      _ ≤ num := hnumlow
  have hhigh : (num / den : ℚ) < 2 ^ (guess + 1) := by
    rw [div_lt_iff₀ hdenq]
    calc (num : ℚ) < 2 ^ (num.log2 + 1) := hnumhigh
      _ = 2 ^ (guess + 1) * 2 ^ den.log2 := by
          rw [← zpow_natCast, ← zpow_natCast, ← zpow_add₀ two_ne_zero]
          congr 1
          push_cast
          omega
      _ ≤ 2 ^ (guess + 1) * den := by gcongr
  obtain ⟨hpos, hscaled⟩ := cast_scaleByTwo num hden (-guess)
  have hcompare : (scaleByTwo num den (-guess)).2 ≤ (scaleByTwo num den (-guess)).1 ↔
      (2 : ℚ) ^ guess ≤ num / den := by
    rw [← Nat.cast_le (α := ℚ), ← one_le_div (Nat.cast_pos.mpr hpos), hscaled, zpow_neg,
      ← div_eq_mul_inv, one_le_div (by positivity)]
  have hdef : floorLog2 num den = if (scaleByTwo num den (-guess)).2 ≤
      (scaleByTwo num den (-guess)).1 then guess else guess - 1 := by
    rw [floorLog2, hguess]
  rw [hdef]
  split
  · rename_i h
    exact ⟨hcompare.mp h, hhigh⟩
  · rename_i h
    rw [Int.sub_add_cancel]
    exact ⟨hlow, not_le.mp (mt hcompare.mpr h)⟩

/-- A power of two is at most a quotient when its exponent is at most the logarithm. -/
theorem floorLog2_lt_iff {num den : Nat} (hnum : 0 < num) (hden : 0 < den) (k : Int) :
    floorLog2 num den < k ↔ (num / den : ℚ) < 2 ^ k := by
  obtain ⟨hlow, hhigh⟩ := floorLog2_spec hnum hden
  constructor
  · intro h
    exact hhigh.trans_le (zpow_le_zpow_right₀ one_le_two h)
  · intro h
    exact (zpow_lt_zpow_iff_right₀ one_lt_two).mp (hlow.trans_lt h)

theorem floorLog2_lt_add_iff {num den : Nat} (hnum : 0 < num) (hden : 0 < den) (e : Int) (k : Nat) :
    floorLog2 num den < e + k ↔ (num / den / 2 ^ e : ℚ) < 2 ^ k := by
  rw [floorLog2_lt_iff hnum hden, zpow_add₀ two_ne_zero, zpow_natCast, mul_comm]
  exact (div_lt_iff₀ (by positivity)).symm

/-- A whole number that is less than half away, or just half away and even. -/
structure IsNearest (m : Nat) (v : ℚ) : Prop where
  low : (m : ℚ) - 1 / 2 ≤ v
  high : v ≤ m + 1 / 2
  ties : m % 2 = 1 → (m : ℚ) - 1 / 2 < v ∧ v < m + 1 / 2

/-- **A quotient is rounded to the nearest whole number.** -/
theorem roundHalfEven_eq {num den m : Nat} (hden : 0 < den) (h : IsNearest m (num / den)) :
    roundHalfEven num den = m := by
  have hdenq : (0 : ℚ) < den := Nat.cast_pos.mpr hden
  have hlow : 2 * (m * den) ≤ 2 * num + den := by
    have hlow := (le_div_iff₀ hdenq).mp h.low
    have hlow : 2 * ((m : ℚ) * den) ≤ 2 * num + den := by linarith
    exact_mod_cast hlow
  have hhigh : 2 * num ≤ 2 * (m * den) + den := by
    have hhigh := (div_le_iff₀ hdenq).mp h.high
    have hhigh : 2 * (num : ℚ) ≤ 2 * (m * den) + den := by linarith
    exact_mod_cast hhigh
  have hties : m % 2 = 1 → 2 * (m * den) < 2 * num + den ∧ 2 * num < 2 * (m * den) + den := by
    intro hodd
    obtain ⟨hlow, hhigh⟩ := h.ties hodd
    rw [lt_div_iff₀ hdenq] at hlow
    rw [div_lt_iff₀ hdenq] at hhigh
    have hlow : 2 * ((m : ℚ) * den) < 2 * num + den := by linarith
    have hhigh : 2 * (num : ℚ) < 2 * (m * den) + den := by linarith
    exact ⟨by exact_mod_cast hlow, by exact_mod_cast hhigh⟩
  have hsplit : num = num / den * den + num % den := by
    rw [Nat.mul_comm]
    exact (Nat.div_add_mod num den).symm
  have hrest : num % den < den := Nat.mod_lt num hden
  unfold roundHalfEven
  generalize num / den = quotient at *
  generalize num % den = rest at *
  -- The whole number is the quotient or the next one: all others are too far away.
  obtain hm | rfl | rfl | hm : m + 1 ≤ quotient ∨ m = quotient ∨ m = quotient + 1 ∨
      quotient + 2 ≤ m := by omega
  · have := Nat.mul_le_mul_right den hm
    rw [Nat.add_mul] at this
    omega
  · simp only
    split
    · rfl
    · split <;> omega
  · rw [Nat.add_mul] at *
    simp only
    split
    · omega
    · split <;> omega
  · have := Nat.mul_le_mul_right den hm
    rw [Nat.add_mul] at this
    omega

/-! ### Words -/

section Words

variable {x : Binary64}

/-- The exponent field and the fraction field without the sign bit. -/
def field (x : Binary64) : Nat :=
  (x.exponent + 1074).toNat * leadingBit + x.significand

theorem exponent_ge (x : Binary64) : -1074 ≤ x.exponent := by
  unfold exponent
  split <;> omega

theorem exponent_le (hfinite : x.isFinite = true) : x.exponent ≤ 971 := by
  have hfield : x.exponentField < exponentMax := of_decide_eq_true hfinite
  simp only [exponent, exponentMax] at *
  split <;> omega

theorem significand_lt (x : Binary64) : x.significand < 2 ^ 53 := by
  have hfraction : x.fractionField < leadingBit := Nat.mod_lt _ (by decide)
  unfold significand
  simp only [leadingBit] at *
  split <;> omega

/-- Only a number with the least exponent has a significand without the leading bit. -/
theorem leadingBit_le_significand (h : -1074 < x.exponent) : leadingBit ≤ x.significand := by
  unfold exponent at h
  unfold significand
  split
  · simp_all
  · omega

/-- The leading bit of a normal significand counts as one in the exponent field, so normal and
subnormal numbers are no different here. -/
theorem field_eq (x : Binary64) :
    x.field = x.exponentField * leadingBit + x.fractionField := by
  unfold field exponent significand
  simp only [leadingBit]
  split <;> omega

theorem field_lt (hfinite : x.isFinite = true) : x.field < exponentMax * leadingBit := by
  have hfield : x.exponentField < exponentMax := of_decide_eq_true hfinite
  have hfraction : x.fractionField < leadingBit := Nat.mod_lt _ (by decide)
  rw [field_eq]
  simp only [leadingBit, exponentMax] at *
  omega

/-- **A word is its sign, its exponent and its significand.** -/
theorem word_eq (x : Binary64) : x.word = (if x.negative then signBit else 0) + x.field := by
  have hword : x.word < 2 ^ 64 := x.bits.toNat_lt
  rw [field_eq, exponentField, fractionField]
  by_cases hsign : signBit ≤ x.word
  · simp only [negative, hsign, decide_true, if_true]
    simp only [signBit, leadingBit, exponentMax] at *
    omega
  · simp only [negative, hsign, decide_false, Bool.false_eq_true, if_false]
    simp only [signBit, leadingBit, exponentMax] at *
    omega

theorem ofNat_word_eq (x : Binary64) :
    (⟨UInt64.ofNat ((if x.negative then signBit else 0) + x.field)⟩ : Binary64) = x := by
  rw [← word_eq, word, UInt64.ofNat_toNat]

end Words

/-! ### What a number covers -/

/-- The distance to the midpoint below, in quarters of a unit in the last place. Below a power of
two the neighbour is nearer by half, unless the exponent is the least one. -/
def below (x : Binary64) : Nat :=
  if x.fractionField = 0 ∧ 1 < x.exponentField then 1 else 2

/-- A magnitude lies between the midpoints to the neighbouring numbers; at a midpoint the number
with the even significand wins. All in units in the last place. -/
structure Covers (x : Binary64) (v : ℚ) : Prop where
  low : x.significand - x.below / 4 ≤ v / 2 ^ x.exponent
  high : v / 2 ^ x.exponent ≤ x.significand + 1 / 2
  ties : x.significand % 2 = 1 →
    x.significand - x.below / 4 < v / 2 ^ x.exponent ∧ v / 2 ^ x.exponent < x.significand + 1 / 2

section Covers

variable {x : Binary64}

theorem one_le_significand (hzero : x.isZero = false) : 1 ≤ x.significand := by
  unfold significand
  simp only [leadingBit]
  split
  · rename_i hfield
    simp only [isZero, hfield, decide_true, Bool.true_and, decide_eq_false_iff_not] at hzero
    omega
  · omega

theorem below_cases (x : Binary64) : x.below = 1 ∨ x.below = 2 := by
  unfold below
  split
  · exact Or.inl rfl
  · exact Or.inr rfl

theorem below_le (x : Binary64) : (x.below : ℚ) / 4 ≤ 1 / 2 := by
  rcases below_cases x with h | h <;> norm_num [h]

theorem Covers.isNearest {v : ℚ} (h : x.Covers v) :
    IsNearest x.significand (v / 2 ^ x.exponent) where
  low := by linarith [h.low, below_le x]
  high := h.high
  ties hodd := ⟨by linarith [(h.ties hodd).1, below_le x], (h.ties hodd).2⟩

theorem Covers.pos {v : ℚ} (hzero : x.isZero = false) (h : x.Covers v) : 0 < v := by
  have hone : (1 : ℚ) ≤ x.significand := by exact_mod_cast one_le_significand hzero
  have hscaled : 0 < v / 2 ^ x.exponent := by linarith [h.low, below_le x]
  have hpower : (0 : ℚ) < 2 ^ x.exponent := by positivity
  exact (div_pos_iff_of_pos_right hpower).mp hscaled

/-- What lies strictly between the midpoints is covered, whether the significand is even or not. -/
theorem Covers.of_strict {v : ℚ} (hlow : x.significand - x.below / 4 < v / 2 ^ x.exponent)
    (hhigh : v / 2 ^ x.exponent < x.significand + 1 / 2) : x.Covers v :=
  ⟨hlow.le, hhigh.le, fun _ => ⟨hlow, hhigh⟩⟩

/-- The magnitude of a finite number. -/
def size (x : Binary64) : ℚ :=
  x.significand * 2 ^ x.exponent

/-- A number covers its own magnitude. -/
theorem covers_size (x : Binary64) : x.Covers x.size := by
  have hunit : x.size / 2 ^ x.exponent = x.significand := mul_div_cancel_right₀ _ (by positivity)
  have hquarter : (0 : ℚ) < x.below / 4 := by
    rcases below_cases x with h | h <;> norm_num [h]
  refine .of_strict ?_ ?_ <;> linarith

/-- What lies between two magnitudes that a number covers is covered. -/
theorem Covers.of_between {u v w : ℚ} (hu : x.Covers u) (hw : x.Covers w) (huv : u ≤ v)
    (hvw : v ≤ w) : x.Covers v := by
  have hunit : (0 : ℚ) < 2 ^ x.exponent := by positivity
  have huv := (div_le_div_iff_of_pos_right hunit).mpr huv
  have hvw := (div_le_div_iff_of_pos_right hunit).mpr hvw
  exact ⟨hu.low.trans huv, hvw.trans hw.high,
    fun hodd => ⟨(hu.ties hodd).1.trans_le huv, hvw.trans_lt (hw.ties hodd).2⟩⟩

/-- Rounding chooses the exponent and rounds to a significand; it gives a number when both make up
the fields of its word. -/
theorem round?_eq (hfinite : x.isFinite = true) {num den : Nat} (hnum : 0 < num) (hden : 0 < den)
    {power : Int} (hpower : max (floorLog2 num den - 52) (-1074) = power) {m : Nat}
    (hnearest : IsNearest m (num / den / 2 ^ power))
    (hfield : (power + 1074).toNat * leadingBit + m = x.field) :
    round? x.negative num den = some x := by
  obtain ⟨hpos, hscaled⟩ := cast_scaleByTwo num hden (-power)
  rw [zpow_neg, ← div_eq_mul_inv] at hscaled
  have hround := roundHalfEven_eq hpos (hscaled ▸ hnearest)
  have hlt : x.field < exponentMax * leadingBit := field_lt hfinite
  simp only [round?, if_neg hnum.ne', hpower, hround, hfield, if_pos hlt, ofNat_word_eq]

/-- A magnitude that a number covers is below the binade of the number only where that begins with
the number. -/
theorem Covers.of_lt_binade {v : ℚ} (h : x.Covers v) (hexponent : -1074 < x.exponent)
    (hbinade : v / 2 ^ x.exponent < 2 ^ 52) : x.significand = leadingBit ∧ x.below = 1 := by
  have hleading : leadingBit ≤ x.significand := leadingBit_le_significand hexponent
  have hlt : x.significand < 2 ^ 52 + 1 := by
    have hlt : (x.significand : ℚ) < 2 ^ 52 + 1 := by linarith [h.low, below_le x]
    exact_mod_cast hlt
  have heq : x.significand = leadingBit := by
    simp only [leadingBit] at *
    omega
  refine ⟨heq, if_pos ?_⟩
  unfold exponent at hexponent
  unfold significand at heq
  split at hexponent
  · omega
  · rename_i hfield
    rw [if_neg hfield] at heq
    omega

/-- There the next significand of twice as many units is the nearest. -/
theorem Covers.isNearest_of_lt_binade {v : ℚ} (h : x.Covers v) (hexponent : -1074 < x.exponent)
    (hbinade : v / 2 ^ x.exponent < 2 ^ 52) :
    2 ^ 51 ≤ v / 2 ^ x.exponent ∧ IsNearest (2 ^ 53) (v / 2 ^ (x.exponent - 1)) := by
  obtain ⟨hsignificand, hquarter⟩ := h.of_lt_binade hexponent hbinade
  have hlow : ((leadingBit : ℚ) - 1 / 4) ≤ v / 2 ^ x.exponent := by
    simpa [hsignificand, hquarter] using h.low
  have htwice : v / 2 ^ (x.exponent - 1) = 2 * (v / 2 ^ x.exponent) := by
    rw [zpow_sub_one₀ two_ne_zero]
    field_simp
  rw [htwice]
  norm_num [leadingBit] at hlow hbinade ⊢
  refine ⟨by linarith, ?_, ?_, fun hodd => absurd hodd (by decide)⟩
  · push_cast
    linarith
  · push_cast
    linarith

/-- **What a number covers is rounded to it.** -/
theorem round?_of_covers (hfinite : x.isFinite = true) (hzero : x.isZero = false) {num den : Nat}
    (hden : 0 < den) (h : x.Covers (num / den)) : round? x.negative num den = some x := by
  have hnum : 0 < num := by
    have hpos : (0 : ℚ) < num / den := h.pos hzero
    rcases Nat.eq_zero_or_pos num with rfl | hnum
    · simp at hpos
    · exact hnum
  have hlog := floorLog2_lt_add_iff hnum hden x.exponent
  have hhigh : floorLog2 num den < x.exponent + 53 := by
    have hsignificand : (x.significand : ℚ) + 1 ≤ 2 ^ 53 := by exact_mod_cast significand_lt x
    exact (hlog 53).mpr (by linarith [h.high])
  have hleast := exponent_ge x
  by_cases hbelow : floorLog2 num den < x.exponent + 52 ∧ -1074 < x.exponent
  · -- Just below a power of two the significand is one bit longer, and is rounded up.
    obtain ⟨hlt, hexponent⟩ := hbelow
    obtain ⟨hge, hnearest⟩ := h.isNearest_of_lt_binade hexponent ((hlog 52).mp hlt)
    have hge := mt (hlog 51).mp (not_lt.mpr hge)
    refine round?_eq hfinite hnum hden (by omega) hnearest ?_
    rw [field, (h.of_lt_binade hexponent ((hlog 52).mp hlt)).1]
    simp only [leadingBit]
    omega
  · exact round?_eq hfinite hnum hden (by omega) h.isNearest rfl

/-! ### Decimals -/

/-- A number covers no magnitude beyond the range of finite numbers. -/
theorem Covers.bounds {v : ℚ} (hfinite : x.isFinite = true) (hzero : x.isZero = false)
    (h : x.Covers v) : (2 : ℚ) ^ (-1075 : Int) ≤ v ∧ v < 2 ^ (1024 : Int) := by
  have hpower : (0 : ℚ) < 2 ^ x.exponent := by positivity
  have hone : (1 : ℚ) ≤ x.significand := by exact_mod_cast one_le_significand hzero
  have hsignificand : (x.significand : ℚ) + 1 ≤ 2 ^ 53 := by exact_mod_cast significand_lt x
  have hgreatest := exponent_le hfinite
  constructor
  · have hlow : 1 / 2 ≤ v / 2 ^ x.exponent := by linarith [h.low, below_le x]
    calc (2 : ℚ) ^ (-1075 : Int) = 1 / 2 * 2 ^ (-1074 : Int) := by
          rw [show (-1075 : Int) = -1 + -1074 from rfl, zpow_add₀ two_ne_zero, zpow_neg_one,
            one_div]
      _ ≤ 1 / 2 * 2 ^ x.exponent := by
        gcongr
        · exact one_le_two
        · exact exponent_ge x
      _ ≤ v := (le_div_iff₀ hpower).mp hlow
  · have hhigh : v / 2 ^ x.exponent < 2 ^ 53 := by linarith [h.high]
    calc v < 2 ^ 53 * 2 ^ x.exponent := (div_lt_iff₀ hpower).mp hhigh
      _ ≤ 2 ^ 53 * 2 ^ (971 : Int) := by
        gcongr
        exact one_le_two
      _ = 2 ^ (1024 : Int) := by
        rw [← zpow_natCast, ← zpow_add₀ two_ne_zero]
        rfl

/-- No digits make a zero of the sign. -/
theorem ofScientific?_zero (hzero : x.isZero = true) (power : Int) :
    ofScientific? x.negative 0 power = some x := by
  have hfield : x.field = 0 := by
    simp only [isZero, Bool.and_eq_true, decide_eq_true_eq] at hzero
    rw [field_eq, hzero.1, hzero.2, Nat.zero_mul]
  have hword := ofNat_word_eq x
  rw [hfield, Nat.add_zero] at hword
  simp only [ofScientific?, round?, if_true, hword]

theorem pow_length_toDigits {n : Nat} (h : 0 < n) :
    10 ^ ((Nat.toDigits 10 n).length - 1) ≤ n ∧ n < 10 ^ (Nat.toDigits 10 n).length := by
  have hlength : 0 < (Nat.toDigits 10 n).length := Nat.length_toDigits_pos
  refine ⟨?_, (Nat.length_toDigits_le_iff (by decide) hlength).mp (Nat.le_refl _)⟩
  rcases Nat.eq_zero_or_pos ((Nat.toDigits 10 n).length - 1) with hzero | hpos
  · rw [hzero]
    exact h
  · exact not_lt.mp (mt (Nat.length_toDigits_le_iff (by decide) hpos).mpr (by omega))

theorem two_pow_le_ten_pow : (2 : ℚ) ^ (1200 : Int) ≤ 10 ^ (400 : Int) := by
  calc (2 : ℚ) ^ (1200 : Int) = (2 ^ (3 : Int)) ^ (400 : Int) := by
        rw [← zpow_mul]
        rfl
    _ ≤ 10 ^ (400 : Int) := zpow_le_zpow_left₀ (by decide) (by norm_num) (by norm_num)

/-- The digits of a decimal that a number covers do not begin far from its point. -/
theorem Covers.length_toDigits (hfinite : x.isFinite = true) (hzero : x.isZero = false)
    {digits : Nat} (hdigits : 0 < digits) {power : Int} (h : x.Covers (digits * 10 ^ power)) :
    -400 ≤ (Nat.toDigits 10 digits).length + power ∧
      (Nat.toDigits 10 digits).length + power ≤ 400 := by
  obtain ⟨hlow, hhigh⟩ := h.bounds hfinite hzero
  obtain ⟨hleast, hgreatest⟩ := pow_length_toDigits hdigits
  have hlength : 0 < (Nat.toDigits 10 digits).length := Nat.length_toDigits_pos
  generalize (Nat.toDigits 10 digits).length = length at *
  constructor
  · by_contra hsize
    have hten : digits * 10 ^ power < (10 : ℚ) ^ (-400 : Int) := by
      calc digits * 10 ^ power < (10 ^ length : Nat) * (10 : ℚ) ^ power := by gcongr
        _ = 10 ^ ((length : Int) + power) := by
            rw [zpow_add₀ (by norm_num), zpow_natCast]
            push_cast
            rfl
        _ ≤ 10 ^ (-400 : Int) := zpow_le_zpow_right₀ (by norm_num) (by omega)
    have hinv : (10 : ℚ) ^ (-400 : Int) ≤ 2 ^ (-1200 : Int) := by
      rw [zpow_neg, zpow_neg]
      exact inv_anti₀ (by positivity) two_pow_le_ten_pow
    have htwo : (2 : ℚ) ^ (-1200 : Int) ≤ 2 ^ (-1075 : Int) :=
      zpow_le_zpow_right₀ one_le_two (by decide)
    exact absurd (hlow.trans_lt hten) (not_lt.mpr (hinv.trans htwo))
  · by_contra hsize
    have hten : (10 : ℚ) ^ (400 : Int) ≤ digits * 10 ^ power := by
      calc (10 : ℚ) ^ (400 : Int) ≤ 10 ^ (((length - 1 : Nat) : Int) + power) :=
            zpow_le_zpow_right₀ (by norm_num) (by omega)
        _ = (10 ^ (length - 1) : Nat) * 10 ^ power := by
            rw [zpow_add₀ (by norm_num), zpow_natCast]
            push_cast
            rfl
        _ ≤ digits * 10 ^ power := by gcongr
    have htwo : (2 : ℚ) ^ (1024 : Int) ≤ 2 ^ (1200 : Int) :=
      zpow_le_zpow_right₀ one_le_two (by decide)
    exact absurd (hten.trans_lt hhigh) (not_lt.mpr (htwo.trans two_pow_le_ten_pow))

/-- **A decimal that a number covers is rounded to it**, however it is written. -/
theorem ofScientific?_of_covers (hfinite : x.isFinite = true) (hzero : x.isZero = false)
    {digits : Nat} {power : Int} (h : x.Covers (digits * 10 ^ power)) :
    ofScientific? x.negative digits power = some x := by
  have hdigits : 0 < digits := by
    rcases Nat.eq_zero_or_pos digits with rfl | hpos
    · have hpos := h.pos hzero
      simp at hpos
    · exact hpos
  obtain ⟨hleast, hgreatest⟩ := h.length_toDigits hfinite hzero hdigits
  simp only [ofScientific?, if_neg hdigits.ne', if_neg (not_lt.mpr hgreatest),
    if_neg (not_lt.mpr hleast)]
  split
  · rename_i hpower
    refine round?_of_covers hfinite hzero Nat.one_pos ?_
    push_cast
    rwa [cast_tenTo, zpow_toNat hpower, div_one]
  · rename_i hpower
    refine round?_of_covers hfinite hzero (Nat.pow_pos (by decide)) ?_
    rwa [cast_tenTo, zpow_toNat (by omega), zpow_neg, div_inv_eq_mul]

end Covers

end GraphQuery.Binary64
