import GraphQuery.Proofs.Json.Reading
import GraphQuery.Proofs.Number.Shortest

/-!
# Doubles read back

The text of a finite double is read as that double. `Layout.place` writes the digits in one of four
forms: with zeros behind them, with the point among them, with zeros in front of them, or with an
exponent. Each is read as a decimal of the same magnitude, and of a decimal only its magnitude
decides which double it is rounded to.

* `Json.ShowsDecimal` is what the forms have in common, and `Json.showsDecimal_parts` how they come
  by it.
* `Layout.showsDecimal_place`: every form shows the decimal that was placed.
* `Json.readNumber_place`: so any decimal that rounds to a double is read as the double.
* `Json.readFrom_write`, `Value.ofText?_literal_double`: texts and literals of doubles read back.
-/

namespace GraphQuery

/-! ### Digits -/

theorem ofDecimal_append (s t : Text) :
    ofDecimal (s ++ t) = ofDecimal s * 10 ^ t.length + ofDecimal t := by
  have hfold : ∀ (t : Text) (n : Nat), t.foldl (fun n b => 10 * n + digitValue b) n =
      n * 10 ^ t.length + ofDecimal t := by
    intro t
    induction t with
    | nil => exact fun n => (Nat.mul_one n).symm
    | cons b t ih =>
      intro n
      rw [ofDecimal, List.foldl_cons, List.foldl_cons, ih, ih (10 * 0 + digitValue b),
        List.length_cons, Nat.pow_succ]
      ring
  rw [ofDecimal, List.foldl_append, hfold]
  rfl

theorem ofDecimal_zeros (n : Nat) : ofDecimal (List.replicate n 0x30) = 0 := by
  induction n with
  | zero => rfl
  | succ n ih =>
    have hzero : ofDecimal [0x30] = 0 := rfl
    rw [List.replicate_succ, ← List.singleton_append, ofDecimal_append, hzero, ih, Nat.zero_mul]

theorem isDigit_of_mem_zeros {n : Nat} {b : UInt8} (h : b ∈ List.replicate n 0x30) :
    isDigit b = true := by
  rw [List.eq_of_mem_replicate h]
  decide

namespace Json

theorem isDigits_zero : IsDigits [0x30] :=
  ⟨List.cons_ne_nil _ _, List.forall_mem_singleton.mpr rfl⟩

theorem isInteger_zero : IsInteger [0x30] :=
  ⟨isDigits_zero, fun _ => rfl⟩

/-! ### Texts that are read as a decimal -/

/-- A text, with or without a minus in front, is read as the double nearest to some decimal with the
magnitude that it shows. -/
def ShowsDecimal (text : Text) (value : ℚ) : Prop :=
  ∃ (digits : Nat) (power : Int), digits * (10 : ℚ) ^ power = value ∧
    ∀ {minus : Bool} {x : Binary64} {rest : Text},
      Binary64.ofScientific? minus digits power = some x → Ends rest →
        readNumber ((if minus then utf8 "-" else []) ++ (text ++ rest)) = .ok (.double x, rest)

/-- The point and the digits behind it, where there are any. -/
def pointed (digits : Text) : Text :=
  if digits = [] then [] else utf8 "." ++ digits

theorem pointed_of_ne_nil {digits : Text} (h : digits ≠ []) :
    pointed digits = utf8 "." ++ digits :=
  if_neg h

theorem readFraction?_pointed {digits rest : Text} (h : ∀ b ∈ digits, isDigit b = true)
    (hstops : Stops rest) (hpoint : point ∉ rest.head?) :
    readFraction? (pointed digits ++ rest) = some (digits, rest) := by
  by_cases hdigits : digits = []
  · subst hdigits
    cases rest with
    | nil => rfl
    | cons b rest =>
      have hb : b ≠ 0x2e := fun hb => hpoint (hb ▸ rfl)
      rw [pointed, if_pos rfl, List.nil_append, readFraction?, if_neg hb]
  · have hcons : pointed digits ++ rest = point :: (digits ++ rest) := by
      rw [pointed_of_ne_nil hdigits, List.append_assoc]
      rfl
    rw [hcons, readFraction?, if_pos rfl, readDigits_append h hstops]
    simp [hdigits]

theorem stops_pointed {digits rest : Text} (hstops : Stops rest) :
    Stops (pointed digits ++ rest) := by
  unfold pointed
  split
  · exact hstops
  · intro b hb
    obtain rfl : point = b := Option.some.inj hb
    decide

/-- What stands behind the digits of a number and is read as its exponent. -/
def ShowsExponent (tail : Text) (exponent : Option Int) : Prop :=
  ∀ {rest : Text}, Ends rest → Stops (tail ++ rest) ∧ point ∉ (tail ++ rest).head? ∧
    readExponent? (tail ++ rest) = some (exponent, rest)

theorem showsExponent_nil : ShowsExponent [] none := by
  intro rest hrest
  refine ⟨stops_of_ends hrest, fun hpoint => ?_, readExponent?_of_ends hrest⟩
  rcases hrest point hpoint with h | h | h <;> exact absurd h (by decide)

/-- The letter of an exponent, its sign and its digits. -/
theorem readExponent?_sign {digits rest : Text} (hdigits : IsDigits digits) (hrest : Stops rest) :
    readExponent? (utf8 "e-" ++ digits ++ rest) = some (some (-(ofDecimal digits : Int)), rest) ∧
      readExponent? (utf8 "e+" ++ digits ++ rest) = some (some (ofDecimal digits : Int), rest) := by
  have hread := readDigits_append hdigits.2 hrest
  have hempty : digits.isEmpty = false := List.isEmpty_eq_false_iff.mpr hdigits.1
  constructor
  · change readExponent? (0x65 :: 0x2d :: (digits ++ rest)) = _
    simp [readExponent?, readSign, hread, hempty]
  · change readExponent? (0x65 :: 0x2b :: (digits ++ rest)) = _
    simp [readExponent?, readSign, hread, hempty]

theorem showsExponent_exponentText (layout : Layout) (power : Int) :
    ShowsExponent (layout.exponentText power) (some power) := by
  intro rest hrest
  have hvalue : ofDecimal (Layout.padded layout.exponentDigits (decimal power.natAbs)) =
      power.natAbs := by
    rw [Layout.padded, ofDecimal_append, ofDecimal_zeros, Nat.zero_mul, Nat.zero_add,
      ofDecimal_decimal]
  have hdigits : IsDigits (Layout.padded layout.exponentDigits (decimal power.natAbs)) := by
    refine ⟨by simp [Layout.padded, decimal_ne_nil], fun b hb => ?_⟩
    exact (List.mem_append.mp hb).elim isDigit_of_mem_zeros isDigit_of_mem_decimal
  have hletter : ∀ s : Text, Stops (0x65 :: s) ∧ point ∉ (0x65 :: s : Text).head? := fun s =>
    ⟨fun b hb => Option.some.inj hb ▸ by decide, fun hb => absurd (Option.some.inj hb) (by decide)⟩
  obtain ⟨hminus, hplus⟩ := readExponent?_sign hdigits (stops_of_ends hrest)
  rw [hvalue] at hminus hplus
  unfold Layout.exponentText
  by_cases hsign : power < 0
  · have hpower : -(power.natAbs : Int) = power := by omega
    rw [if_pos hsign, hminus, hpower]
    exact ⟨(hletter _).1, (hletter _).2, rfl⟩
  · have hpower : (power.natAbs : Int) = power := by omega
    rw [if_neg hsign, hplus, hpower]
    exact ⟨(hletter _).1, (hletter _).2, rfl⟩

/-- A text of digits, a point, digits and an exponent, of which either the digits behind the point
or the exponent may be missing. -/
theorem showsDecimal_parts {whole fraction tail : Text} {exponent : Option Int} {value : ℚ}
    (hwhole : IsInteger whole) (hfraction : ∀ b ∈ fraction, isDigit b = true)
    (htail : ShowsExponent tail exponent) (hparts : fraction ≠ [] ∨ exponent.isSome = true)
    (hvalue : ofDecimal (whole ++ fraction) * 10 ^ (exponent.getD 0 - fraction.length) = value) :
    ShowsDecimal (whole ++ pointed fraction ++ tail) value := by
  refine ⟨_, _, hvalue, fun {minus x rest} hx hrest => ?_⟩
  obtain ⟨hstops, hpoint, hexponent⟩ := htail hrest
  have hnumber : numberOf? minus whole fraction exponent = some (.double x) := by
    have hmissing : ¬(fraction.isEmpty = true ∧ exponent.isNone = true) := by
      rintro ⟨hempty, hnone⟩
      rcases hparts with hne | hsome
      · exact hne (List.isEmpty_iff.mp hempty)
      · rw [Option.isNone_iff_eq_none.mp hnone] at hsome
        cases hsome
    rw [numberOf?, if_neg hmissing]
    simp only [hx, Option.map_some]
  rw [List.append_assoc, List.append_assoc]
  exact readNumber_append hwhole (stops_pointed hstops)
    (readFraction?_pointed hfraction hstops hpoint) hexponent hnumber

end Json

namespace Layout

open Json

/-- The leading digits of a number are a whole number of their own. -/
theorem isInteger_take {n : Nat} (hn : 0 < n) {k : Nat} (hk : 0 < k) (tail : Text)
    (htail : ∀ b ∈ tail, isDigit b = true) : IsInteger ((decimal n).take k ++ tail) := by
  obtain ⟨b, digits, hdecimal, hb, hzero⟩ := decimal_eq_cons hn
  obtain ⟨k, rfl⟩ := Nat.exists_eq_add_one_of_ne_zero hk.ne'
  refine ⟨⟨?_, fun c hc => ?_⟩, fun hhead => ?_⟩
  · simp [hdecimal]
  · rcases List.mem_append.mp hc with hc | hc
    · exact isDigit_of_mem_decimal (List.mem_of_mem_take hc)
    · exact htail c hc
  · have hb : b = 0x30 := by simpa [hdecimal] using hhead
    exact absurd hb hzero

/-- Zeros behind the digits, and one more behind the point. -/
theorem showsDecimal_zeros {n : Nat} (hn : 0 < n) (k : Nat) :
    ShowsDecimal (decimal n ++ List.replicate k 0x30 ++ utf8 ".0") (n * 10 ^ (k : Int)) := by
  have hwhole := isInteger_take hn (List.length_pos_iff.mpr (decimal_ne_nil n))
    (List.replicate k 0x30) fun _ => isDigit_of_mem_zeros
  rw [List.take_length] at hwhole
  have hvalue : (ofDecimal (decimal n ++ List.replicate k 0x30 ++ [0x30]) : ℚ) *
      10 ^ ((none : Option Int).getD 0 - ([0x30] : Text).length) = n * 10 ^ (k : Int) := by
    have hzero : ofDecimal [0x30] = 0 := rfl
    rw [ofDecimal_append, ofDecimal_append, ofDecimal_decimal, ofDecimal_zeros, hzero,
      List.length_replicate, Option.getD_none, List.length_singleton]
    push_cast
    norm_num
    ring
  have hshows := showsDecimal_parts hwhole isDigits_zero.2 showsExponent_nil
    (Or.inl isDigits_zero.1) hvalue
  rw [List.append_nil] at hshows
  exact hshows

/-- The point among the digits. -/
theorem showsDecimal_split {n k : Nat} (hn : 0 < n) (hk : 0 < k) (hlt : k < (decimal n).length) :
    ShowsDecimal ((decimal n).take k ++ utf8 "." ++ (decimal n).drop k)
      (n * 10 ^ ((k : Int) - (decimal n).length)) := by
  have hwhole := isInteger_take hn hk [] (List.forall_mem_nil _)
  rw [List.append_nil] at hwhole
  have hfraction : (decimal n).drop k ≠ [] := by
    rw [ne_eq, List.drop_eq_nil_iff]
    omega
  have hshows := showsDecimal_parts hwhole
    (fun b hb => isDigit_of_mem_decimal (List.mem_of_mem_drop hb)) showsExponent_nil
    (Or.inl hfraction) rfl
  rw [List.append_nil, pointed_of_ne_nil hfraction, ← List.append_assoc, List.take_append_drop,
    ofDecimal_decimal, List.length_drop, Option.getD_none, zero_sub, Nat.cast_sub hlt.le,
    neg_sub] at hshows
  exact hshows

/-- Zeros in front of the digits, behind the point. -/
theorem showsDecimal_leading (n k : Nat) :
    ShowsDecimal (utf8 "0." ++ List.replicate k 0x30 ++ decimal n)
      (n * 10 ^ (-(k : Int) - (decimal n).length)) := by
  have hfraction : List.replicate k 0x30 ++ decimal n ≠ [] := by simp [decimal_ne_nil]
  have hvalue : (ofDecimal ([0x30] ++ (List.replicate k 0x30 ++ decimal n)) : ℚ) *
      10 ^ ((none : Option Int).getD 0 - (List.replicate k 0x30 ++ decimal n).length) =
        n * 10 ^ (-(k : Int) - (decimal n).length) := by
    have hzero : ofDecimal [0x30] = 0 := rfl
    rw [ofDecimal_append, ofDecimal_append, ofDecimal_decimal, ofDecimal_zeros, hzero,
      List.length_append, List.length_replicate, Option.getD_none, Nat.zero_mul, Nat.zero_mul,
      Nat.zero_add, Nat.zero_add, Nat.cast_add, zero_sub, neg_add, sub_eq_add_neg]
  have hshows := showsDecimal_parts isInteger_zero
    (fun b hb => (List.mem_append.mp hb).elim isDigit_of_mem_zeros isDigit_of_mem_decimal)
    showsExponent_nil (Or.inl hfraction) hvalue
  have htext : utf8 "0." = [0x30] ++ utf8 "." := rfl
  rw [List.append_nil, pointed_of_ne_nil hfraction] at hshows
  rwa [htext, List.append_assoc, List.append_assoc]

/-- One digit in front of the point, and an exponent. -/
theorem showsDecimal_exponentText (layout : Layout) {n : Nat} (hn : 0 < n) (power : Int) :
    ShowsDecimal ((decimal n).take 1 ++ (if (decimal n).length = 1 then []
        else utf8 "." ++ (decimal n).drop 1) ++ layout.exponentText power)
      (n * 10 ^ (power + 1 - (decimal n).length)) := by
  have hlength : 0 < (decimal n).length := List.length_pos_iff.mpr (decimal_ne_nil n)
  have hwhole := isInteger_take hn Nat.one_pos [] (List.forall_mem_nil _)
  rw [List.append_nil] at hwhole
  have hpointed : (if (decimal n).length = 1 then [] else utf8 "." ++ (decimal n).drop 1) =
      pointed ((decimal n).drop 1) := by
    refine if_congr ?_ rfl rfl
    rw [List.drop_eq_nil_iff]
    omega
  rw [hpointed]
  refine showsDecimal_parts hwhole (fun b hb => isDigit_of_mem_decimal (List.mem_of_mem_drop hb))
    (showsExponent_exponentText layout power) (Or.inr rfl) ?_
  rw [List.take_append_drop, ofDecimal_decimal, List.length_drop, Option.getD_some,
    Nat.cast_sub hlength, Nat.cast_one]
  congr 2
  omega

/-- **Every form shows the decimal that was placed.** -/
theorem showsDecimal_place (layout : Layout) {n : Nat} (hn : 0 < n) (position : Int) :
    ShowsDecimal (layout.place (decimal n) position)
      (n * 10 ^ (position - (decimal n).length)) := by
  rw [place]
  split
  · rename_i h
    have hzeros := showsDecimal_zeros hn (position - (decimal n).length).toNat
    rwa [Int.toNat_of_nonneg (by omega)] at hzeros
  split
  · rename_i hcount hposition
    have hsplit := showsDecimal_split hn (show 0 < position.toNat by omega) (by omega)
    rwa [Int.toNat_of_nonneg (by omega)] at hsplit
  split
  · rename_i hposition
    have hleading := showsDecimal_leading n (-position).toNat
    rwa [Int.toNat_of_nonneg (by omega), neg_neg] at hleading
  · have hexponent := showsDecimal_exponentText layout hn (position - 1)
    rwa [sub_add_cancel] at hexponent

theorem showsDecimal_zero : ShowsDecimal (utf8 "0.0") 0 := by
  have htext : utf8 "0.0" = [0x30] ++ pointed [0x30] ++ [] := by decide
  have hzero : ofDecimal ([0x30] ++ [0x30]) = 0 := rfl
  have hvalue : (ofDecimal ([0x30] ++ [0x30]) : ℚ) *
      10 ^ ((none : Option Int).getD 0 - ([0x30] : Text).length) = 0 := by
    rw [hzero, Nat.cast_zero, zero_mul]
  rw [htext]
  exact showsDecimal_parts isInteger_zero isDigits_zero.2 showsExponent_nil
    (Or.inl isDigits_zero.1) hvalue

end Layout

/-! ### Reading back -/

section Write

variable {x : Binary64}

namespace Json

/-- Any decimal that a double covers is read as the double, whether it is the shortest or not. -/
theorem readNumber_place (layout : Layout) (hfinite : x.isFinite = true) (hzero : x.isZero = false)
    {d : Shortest.Decimal} (h : x.Covers d.value) {rest : Text} (hrest : Ends rest) :
    readNumber ((if x.negative then utf8 "-" else []) ++
      (layout.place (decimal d.digits) ((decimal d.digits).length + d.power) ++ rest)) =
        .ok (.double x, rest) := by
  obtain ⟨digits, power, hvalue, hread⟩ :=
    layout.showsDecimal_place (Shortest.digits_pos_of_covers hzero h)
      ((decimal d.digits).length + d.power)
  rw [add_sub_cancel_left] at hvalue
  rw [Shortest.Decimal.value, ← hvalue] at h
  exact hread (Binary64.ofScientific?_of_covers hfinite hzero h) hrest

theorem readNumber_write (layout : Layout) (hfinite : x.isFinite = true) {rest : Text}
    (hrest : Ends rest) : readNumber (layout.write x ++ rest) = .ok (.double x, rest) := by
  unfold Layout.write
  dsimp only
  cases hzero : x.isZero with
  | true =>
    obtain ⟨digits, power, hvalue, hread⟩ := Layout.showsDecimal_zero
    have hpower : (10 : ℚ) ^ power ≠ 0 := by positivity
    have hdigits : digits = 0 := by simpa [hpower] using hvalue
    rw [if_pos rfl, List.append_assoc]
    exact hread (hdigits ▸ Binary64.ofScientific?_zero hzero power) hrest
  | false =>
    rw [if_neg Bool.false_ne_true, List.append_assoc]
    exact readNumber_place layout hfinite hzero (Shortest.covers_ofBinary64 hzero) hrest

/-- **A finite double is read from its text.** -/
theorem readFrom_write (layout : Layout) (hfinite : x.isFinite = true) :
    ReadFrom (.double x) (layout.write x) := by
  obtain ⟨b, tail, htext⟩ := List.exists_cons_of_ne_nil (layout.write_ne_nil x)
  have hb : isNumeralByte b = true :=
    Layout.isNumeralByte_of_mem_write (htext ▸ List.mem_cons_self)
  rw [htext]
  refine readFrom_cons (opens_of_isNumeralByte hb) fun {fuel rest} _ hrest => ?_
  have hread := readNumber_write layout hfinite hrest
  rw [htext, List.cons_append] at hread
  rw [readValue_of_isNumeralByte hb, hread]

end Json

namespace Value

/-- **The literal of a double reads back**, so it shows the double. -/
theorem ofText?_literal_double {t : Text} (h : (double x).literal = .ok t) :
    ofText? t = some (.double x) := by
  change doubleLiteral x = .ok t at h
  unfold doubleLiteral at h
  split at h
  · rename_i hfinite
    cases h
    exact (Json.readFrom_write jsonLayout hfinite).ofText?_eq
  · cases h

end Value

end Write

end GraphQuery
