import GraphQuery.Proofs.Canonical
import GraphQuery.Proofs.Json.Grammar
import GraphQuery.Proofs.Json.Order

/-!
# Literals read back

The literal of a value without doubles is a JSON text, and reading it gives the value back. Only how
whole numbers were held is lost: one that is not negative comes back unsigned. What stands behind a
literal does not matter, as long as it can follow a value.

* `Json.ReadFrom` relates a value to a text that is read as it in front of whatever may follow.
* `Json.readFrom_of_hasWord`, `Json.readFrom_encode`, `Json.readFrom_array` and
  `Json.readFrom_object`: words and strings are read so, and arrays and objects are where their
  parts are.
* `Value.literal_readable`: a literal is a JSON text that reads back, so it shows its value.
-/

namespace GraphQuery

namespace Json

/-! ### Between the parts -/

theorem skipBlanks_cons {b : UInt8} (h : isBlank b = false) (s : Text) :
    skipBlanks (b :: s) = b :: s :=
  List.dropWhile_cons_of_neg (by simp [h])

/-- A separator or a closing byte is found where it comes next. -/
theorem afterByte?_cons {b c : UInt8} (h : isBlank c = false) (s : Text) :
    afterByte? b (c :: s) = if c = b then some s else none := by
  rw [afterByte?, skipBlanks_cons h]

theorem readValue_blank (fuel : Nat) (s : Text) :
    readValue fuel (0x20 :: s) = readValue fuel s := by
  cases fuel <;> rfl

theorem readItems_blank (fuel : Nat) (s : Text) :
    readItems fuel (0x20 :: s) = readItems fuel s := by
  cases fuel with
  | zero => rfl
  | succ fuel => rw [readItems, readItems, readValue_blank]

theorem readMembers_blank (fuel : Nat) (s : Text) :
    readMembers fuel (0x20 :: s) = readMembers fuel s := by
  cases fuel <;> rfl

/-! ### Texts that are read as a value -/

/-- A comma or a closing byte comes next, or nothing does. -/
def Ends (rest : Text) : Prop :=
  ∀ b ∈ rest.head?, b = 0x2c ∨ b = 0x5d ∨ b = 0x7d

/-- The first byte of a value is no blank, closes nothing, and begins no byte order mark. -/
def Opens (b : UInt8) : Prop :=
  isBlank b = false ∧ b ≠ 0x5d ∧ b ≠ 0xef

instance (b : UInt8) : Decidable (Opens b) :=
  inferInstanceAs (Decidable (_ ∧ _ ∧ _))

/-- A value is read from a text, and nothing behind the text is touched that may follow a value. -/
structure ReadFrom (v : Value) (text : Text) : Prop where
  opens : ∃ b tail, text = b :: tail ∧ Opens b
  reads : ∀ {fuel : Nat} {rest : Text}, 2 * text.length ≤ fuel → Ends rest →
    readValue fuel (text ++ rest) = .ok (v, rest)

theorem ends_nil : Ends [] := by
  intro b hb
  cases hb

theorem ends_cons {b : UInt8} (h : b = 0x2c ∨ b = 0x5d ∨ b = 0x7d) (rest : Text) :
    Ends (b :: rest) := by
  intro c hc
  obtain rfl := Option.some.inj hc
  exact h

/-- What is not empty leaves fuel for a first step. -/
theorem readFrom_cons {b : UInt8} {tail : Text} {v : Value} (hopens : Opens b)
    (hreads : ∀ {fuel : Nat} {rest : Text}, 2 * tail.length < fuel → Ends rest →
      readValue (fuel + 1) (b :: (tail ++ rest)) = .ok (v, rest)) : ReadFrom v (b :: tail) where
  opens := ⟨b, tail, rfl, hopens⟩
  reads := by
    intro fuel rest hfuel hrest
    rw [List.length_cons] at hfuel
    obtain _ | fuel := fuel
    · omega
    · exact hreads (by omega) hrest

/-! ### Numbers -/

/-- No digit comes next, so digits end there. -/
def Stops (rest : Text) : Prop :=
  ∀ b ∈ rest.head?, isDigit b = false

theorem stops_of_ends {rest : Text} (h : Ends rest) : Stops rest := by
  intro b hb
  rcases h b hb with rfl | rfl | rfl <;> decide

theorem readDigits_append {digits rest : Text} (h : ∀ b ∈ digits, isDigit b = true)
    (hrest : Stops rest) : readDigits (digits ++ rest) = (digits, rest) := by
  have hstop : rest.takeWhile isDigit = [] ∧ rest.dropWhile isDigit = rest := by
    cases rest with
    | nil => exact ⟨rfl, rfl⟩
    | cons b rest =>
      have hb : isDigit b = false := hrest b rfl
      simp [hb]
  rw [readDigits, List.takeWhile_append_of_pos h, List.dropWhile_append_of_pos h, hstop.1, hstop.2,
    List.append_nil]

theorem readWhole?_append {whole rest : Text} (h : IsInteger whole) (hrest : Stops rest) :
    readWhole? (whole ++ rest) = some (whole, rest) := by
  obtain ⟨⟨hne, hdigits⟩, hzero⟩ := h
  have hread := readDigits_append hdigits hrest
  cases whole with
  | nil => exact absurd rfl hne
  | cons b tail =>
    rw [List.cons_append] at hread ⊢
    rw [readWhole?]
    by_cases hb : b = 0x30
    · obtain ⟨-, rfl⟩ := List.cons.inj (hzero (hb ▸ rfl))
      rw [if_pos hb]
      rfl
    · rw [if_neg hb, if_pos (hdigits b List.mem_cons_self), hread]

theorem readFraction?_of_ends {rest : Text} (h : Ends rest) :
    readFraction? rest = some ([], rest) := by
  cases rest with
  | nil => rfl
  | cons b rest => rcases h b rfl with rfl | rfl | rfl <;> rfl

theorem readExponent?_of_ends {rest : Text} (h : Ends rest) :
    readExponent? rest = some (none, rest) := by
  cases rest with
  | nil => rfl
  | cons b rest => rcases h b rfl with rfl | rfl | rfl <;> rfl

/-- A number is read part by part: a sign, digits, and what may stand behind them. -/
theorem readNumber_append {minus : Bool} {whole fraction s s' rest : Text} {exponent : Option Int}
    {v : Value} (hwhole : IsInteger whole) (hstops : Stops s)
    (hfraction : readFraction? s = some (fraction, s'))
    (hexponent : readExponent? s' = some (exponent, rest))
    (hv : numberOf? minus whole fraction exponent = some v) :
    readNumber ((if minus then utf8 "-" else []) ++ (whole ++ s)) = .ok (v, rest) := by
  have hread := readWhole?_append hwhole hstops
  cases minus with
  | true =>
    change readNumber (0x2d :: (whole ++ s)) = _
    simp only [readNumber, if_true, hread, hfraction, hexponent, orFault_some, ok_bind, hv]
    rfl
  | false =>
    obtain ⟨⟨hne, hdigits⟩, -⟩ := hwhole
    obtain ⟨b, tail, rfl⟩ := List.exists_cons_of_ne_nil hne
    have hb : b ≠ 0x2d := by
      rintro rfl
      exact absurd (hdigits 0x2d List.mem_cons_self) (by decide)
    rw [List.cons_append] at hread
    simp only [Bool.false_eq_true, if_false, List.nil_append, List.cons_append, readNumber,
      if_neg hb, hread, hfraction, hexponent, orFault_some, ok_bind, hv]
    rfl

theorem signedDecimal_eq (n : Int) :
    signedDecimal n = (if decide (n < 0) then utf8 "-" else []) ++ decimal n.natAbs := by
  cases n with
  | ofNat n =>
    have hsign : decide (Int.ofNat n < 0) = false :=
      decide_eq_false (Int.not_lt.mpr (Int.natCast_nonneg n))
    rw [hsign]
    rfl
  | negSucc n =>
    rw [decide_eq_true (Int.negSucc_lt_zero n)]
    rfl

/-- A numeral is read as the number that it denotes, in the form that its sign asks for. -/
theorem readNumber_signedDecimal {n : Int} {v : Value} {rest : Text}
    (hv : wholeNumber? (decide (n < 0)) n.natAbs = some v) (h : Ends rest) :
    readNumber (signedDecimal n ++ rest) = .ok (v, rest) := by
  -- Digits with nothing behind them are whole, and looked at in the form that is asked for.
  have hnumber : numberOf? (decide (n < 0)) (decimal n.natAbs) [] none = some v := by
    rw [numberOf?, if_pos ⟨rfl, rfl⟩, ofDecimal_decimal, hv]
  rw [signedDecimal_eq, List.append_assoc]
  exact readNumber_append (isInteger_decimal _) (stops_of_ends h) (readFraction?_of_ends h)
    (readExponent?_of_ends h) hnumber

/-! ### Whole numbers -/

/-- Values hold whole numbers of 64 bits only. -/
theorem bounds_of_isWhole {v : Value} {n : Int} (h : v.IsWhole n) :
    -0x8000000000000000 ≤ n ∧ n < 0x10000000000000000 := by
  cases v with
  | signed m =>
    obtain rfl : m.toInt = n := h
    have hle : -2 ^ 63 ≤ m.toInt := m.le_toInt
    have hlt : m.toInt < 2 ^ 63 := m.toInt_lt
    omega
  | unsigned m =>
    obtain rfl : (m.toNat : Int) = n := h
    have hlt : m.toNat < 2 ^ 64 := m.toNat_lt
    omega
  | _ => exact h.elim

/-- No whole number of a value is too large to be read as one. -/
theorem wholeNumber?_of_isWhole {v : Value} {n : Int} (h : v.IsWhole n) :
    wholeNumber? (decide (n < 0)) n.natAbs = some v.canonical := by
  obtain ⟨hle, hlt⟩ := bounds_of_isWhole h
  have hsize : UInt64.size = 0x10000000000000000 := rfl
  rw [Value.canonical_of_isWhole h]
  by_cases hn : n < 0
  · have hbound : n.natAbs ≤ 0x8000000000000000 := by omega
    have habs : -(n.natAbs : Int) = n := by omega
    rw [decide_eq_true hn, wholeNumber?, if_pos rfl, if_pos hbound, habs, if_neg (by omega)]
  · have hbound : n.natAbs < UInt64.size := by omega
    have habs : n.natAbs = n.toNat := by omega
    rw [decide_eq_false hn, wholeNumber?, if_neg Bool.false_ne_true, if_pos hbound, habs,
      if_pos (by omega)]

/-! ### Words and strings -/

theorem ne_of_isNumeralByte {b c : UInt8} (hb : isNumeralByte b = true)
    (hc : isNumeralByte c = false) : b ≠ c := by
  rintro rfl
  rw [hb] at hc
  cases hc

theorem opens_of_isNumeralByte {b : UInt8} (h : isNumeralByte b = true) : Opens b := by
  have hblank : isBlank b = false := by
    have hne : ∀ {c : UInt8}, isNumeralByte c = false → (b == c) = false := fun hc =>
      beq_eq_false_iff_ne.mpr (ne_of_isNumeralByte h hc)
    rw [isBlank, hne (by decide), hne (by decide), hne (by decide), hne (by decide)]
    rfl
  exact ⟨hblank, ne_of_isNumeralByte h (by decide), ne_of_isNumeralByte h (by decide)⟩

/-- What begins as a number is no word. -/
theorem afterWord?_of_isNumeralByte {b c : UInt8} (hb : isNumeralByte b = true)
    (hc : isNumeralByte c = false) (word s : Text) : afterWord? (c :: word) (b :: s) = none := by
  simp [afterWord?, List.isPrefixOf?, (ne_of_isNumeralByte hb hc).symm]

/-- What begins as a number is read as a number. -/
theorem readValue_of_isNumeralByte {b : UInt8} (h : isNumeralByte b = true) (fuel : Nat)
    (s : Text) : readValue (fuel + 1) (b :: s) = readNumber (b :: s) := by
  have hnull : utf8 "null" = [0x6e, 0x75, 0x6c, 0x6c] := by decide
  have htrue : utf8 "true" = [0x74, 0x72, 0x75, 0x65] := by decide
  have hfalse : utf8 "false" = [0x66, 0x61, 0x6c, 0x73, 0x65] := by decide
  rw [readValue, skipBlanks_cons (opens_of_isNumeralByte h).1]
  simp only [if_neg (ne_of_isNumeralByte h (show isNumeralByte 0x22 = false by decide)),
    if_neg (ne_of_isNumeralByte h (show isNumeralByte 0x5b = false by decide)),
    if_neg (ne_of_isNumeralByte h (show isNumeralByte 0x7b = false by decide))]
  rw [readScalar, hnull, htrue, hfalse, afterWord?_of_isNumeralByte h (by decide),
    afterWord?_of_isNumeralByte h (by decide), afterWord?_of_isNumeralByte h (by decide)]

theorem readFrom_of_hasWord {v : Value} {w : Text} (h : v.HasWord w) :
    ReadFrom v.canonical w := by
  cases h with
  | null => exact readFrom_cons (by decide) fun _ _ => rfl
  | bool b =>
    cases b
    · exact readFrom_cons (by decide) fun _ _ => rfl
    · exact readFrom_cons (by decide) fun _ _ => rfl
  | @whole _ n hn =>
    obtain ⟨b, digits, hnumeral⟩ := List.exists_cons_of_ne_nil (signedDecimal_ne_nil n)
    have hb : isNumeralByte b = true :=
      isNumeralByte_of_mem_signedDecimal (hnumeral ▸ List.mem_cons_self)
    rw [hnumeral]
    refine readFrom_cons (opens_of_isNumeralByte hb) fun {fuel rest} _ hrest => ?_
    have hread := readNumber_signedDecimal (wholeNumber?_of_isWhole hn) hrest
    rw [hnumeral, List.cons_append] at hread
    rw [readValue_of_isNumeralByte hb, hread]

theorem readString?_encode {s : Text} (h : Utf8.valid s = true) (rest : Text) :
    readString? (Quoted.encode s ++ rest) = some (s, rest) := by
  simp [readString?, h]

theorem readFrom_encode {s : Text} (h : Utf8.valid s = true) :
    ReadFrom (.string s) (Quoted.encode s) := by
  change ReadFrom _ (Quoted.mark :: (s.flatMap Quoted.encodeByte ++ [Quoted.mark]))
  refine readFrom_cons (by decide) fun {fuel rest} _ _ => ?_
  have hread := readString?_encode h rest
  rw [Quoted.encode, List.cons_append, List.cons_append] at hread
  rw [readValue, skipBlanks_cons (by decide)]
  simp only [if_true, hread, orFault_some, ok_map]

/-! ### Lists -/

section Lists

variable {α : Type} {Reads : α → Text → Prop} {close : UInt8}
  {read : Nat → Text → Except ReadFault (List α × Text)}

/-- A reader that reads a part in front of the closing byte as the last one, and a part in front of
a comma as one of several, reads a list. -/
theorem read_joinWith
    (hlast : ∀ {a part fuel rest}, Reads a part → 2 * part.length ≤ fuel →
      read (fuel + 1) (part ++ close :: rest) = .ok ([a], rest))
    (hmore : ∀ {a part fuel rest}, Reads a part → 2 * part.length ≤ fuel →
      read (fuel + 1) (part ++ 0x2c :: 0x20 :: rest) =
        (read fuel rest).map fun (more, rest) => (a :: more, rest))
    {a : α} {as : List α} {part : Text} {parts : List Text} (ha : Reads a part)
    (h : List.Forall₂ Reads as parts) {fuel : Nat} {rest : Text}
    (hfuel : 2 * (Text.joinWith (utf8 ", ") (part :: parts)).length < fuel) :
    read fuel (Text.joinWith (utf8 ", ") (part :: parts) ++ close :: rest) =
      .ok (a :: as, rest) := by
  induction h generalizing a part fuel with
  | nil =>
    obtain ⟨fuel, rfl⟩ := Nat.exists_eq_succ_of_ne_zero (Nat.ne_zero_of_lt hfuel)
    exact hlast ha (Nat.lt_succ_iff.mp hfuel)
  | @cons b next as parts hb _ ih =>
    obtain ⟨fuel, rfl⟩ := Nat.exists_eq_succ_of_ne_zero (Nat.ne_zero_of_lt hfuel)
    have hjoin : Text.joinWith (utf8 ", ") (part :: next :: parts) =
        part ++ 0x2c :: 0x20 :: Text.joinWith (utf8 ", ") (next :: parts) :=
      List.append_assoc _ _ _
    rw [hjoin, List.length_append, List.length_cons, List.length_cons] at hfuel
    rw [hjoin, List.append_assoc, List.cons_append, List.cons_append, hmore ha (by omega),
      ih hb (by omega), ok_map]

end Lists

/-! ### Arrays -/

theorem readItems_last {v : Value} {part rest : Text} {fuel : Nat} (h : ReadFrom v part)
    (hfuel : 2 * part.length ≤ fuel) :
    readItems (fuel + 1) (part ++ 0x5d :: rest) = .ok ([v], rest) := by
  rw [readItems, h.reads hfuel (ends_cons (by decide) rest)]
  rfl

theorem readItems_more {v : Value} {part rest : Text} {fuel : Nat} (h : ReadFrom v part)
    (hfuel : 2 * part.length ≤ fuel) :
    readItems (fuel + 1) (part ++ 0x2c :: 0x20 :: rest) =
      (readItems fuel rest).map fun (items, rest) => (v :: items, rest) := by
  rw [readItems, h.reads hfuel (ends_cons (by decide) _), ← readItems_blank]
  rfl

/-- Behind a bracket that is not closed at once there are items. -/
theorem readValue_bracket {b : UInt8} (h : Opens b) (fuel : Nat) (s : Text) :
    readValue (fuel + 1) (0x5b :: b :: s) =
      (readItems fuel (b :: s)).map fun (items, rest) => (.array items, rest) := by
  obtain ⟨hblank, hbracket, -⟩ := h
  rw [readValue, skipBlanks_cons (by decide)]
  simp only [show (0x5b : UInt8) ≠ 0x22 by decide, if_false, if_true, afterByte?_cons hblank,
    if_neg hbracket]

theorem readFrom_array {items : List Value} {parts : List Text}
    (h : List.Forall₂ ReadFrom items parts) :
    ReadFrom (.array items) (utf8 "[" ++ Text.joinWith (utf8 ", ") parts ++ utf8 "]") := by
  change ReadFrom _ (0x5b :: (Text.joinWith (utf8 ", ") parts ++ [0x5d]))
  refine readFrom_cons (by decide) fun {fuel rest} hfuel _ => ?_
  cases h with
  | nil => rfl
  | @cons v part items parts hpart hparts =>
    have hitems : readItems fuel (Text.joinWith (utf8 ", ") (part :: parts) ++ 0x5d :: rest) =
        .ok (v :: items, rest) := by
      refine read_joinWith readItems_last readItems_more hpart hparts ?_
      rw [List.length_append] at hfuel
      omega
    obtain ⟨b, tail, rfl, hb⟩ := hpart.opens
    simp only [Text.joinWith_cons_eq_flatMap, List.cons_append, List.append_assoc,
      List.nil_append] at hitems ⊢
    rw [readValue_bracket hb, hitems, ok_map]

/-! ### Objects -/

/-- A member of an object that is read from a text. -/
abbrev MemberReadFrom : Text × Value → Text → Prop :=
  Value.MemberText ReadFrom

/-- A member is read up to what tells whether another one follows. -/
theorem readMembers_append {m : Text × Value} {part : Text} (h : MemberReadFrom m part)
    {fuel : Nat} (hfuel : 2 * part.length ≤ fuel) {b : UInt8} {rest : Text}
    (hb : Ends (b :: rest)) :
    readMembers (fuel + 1) (part ++ b :: rest) =
      match afterByte? 0x2c (b :: rest) with
      | some s => (readMembers fuel s).map fun (members, rest) => (m :: members, rest)
      | none =>
        (orFault (afterByte? 0x7d (b :: rest)) .malformed).map fun rest => ([m], rest) := by
  obtain @⟨key, text, v, hkey, htext⟩ := h
  have hmember : Quoted.encode key ++ utf8 ": " ++ text ++ b :: rest =
      Quoted.encode key ++ 0x3a :: 0x20 :: (text ++ b :: rest) := by
    rw [List.append_assoc, List.append_assoc]
    rfl
  have hread : readValue fuel (text ++ b :: rest) = .ok (v, b :: rest) := by
    refine htext.reads ?_ hb
    rw [List.length_append] at hfuel
    omega
  have hquote : ∀ s : Text, skipBlanks (Quoted.encode key ++ s) = Quoted.encode key ++ s :=
    fun _ => skipBlanks_cons (by decide) _
  have hcolon : isBlank 0x3a = false := by decide
  rw [hmember, readMembers, hquote, readString?_encode hkey]
  simp only [orFault_some, ok_bind, if_true, afterByte?_cons hcolon, readValue_blank, hread]
  rfl

theorem readMembers_last {m : Text × Value} {part rest : Text} {fuel : Nat}
    (h : MemberReadFrom m part) (hfuel : 2 * part.length ≤ fuel) :
    readMembers (fuel + 1) (part ++ 0x7d :: rest) = .ok ([m], rest) := by
  rw [readMembers_append h hfuel (ends_cons (by decide) rest)]
  rfl

theorem readMembers_more {m : Text × Value} {part rest : Text} {fuel : Nat}
    (h : MemberReadFrom m part) (hfuel : 2 * part.length ≤ fuel) :
    readMembers (fuel + 1) (part ++ 0x2c :: 0x20 :: rest) =
      (readMembers fuel rest).map fun (members, rest) => (m :: members, rest) := by
  rw [readMembers_append h hfuel (ends_cons (by decide) _), ← readMembers_blank]
  rfl

theorem readValue_brace (fuel : Nat) (s : Text) :
    readValue (fuel + 1) (0x7b :: Quoted.mark :: s) =
      (readMembers fuel (Quoted.mark :: s)).map fun (members, rest) =>
        (.ofMembers members, rest) := rfl

theorem readFrom_object {members : List (Text × Value)} {parts : List Text}
    (h : List.Forall₂ MemberReadFrom members parts) :
    ReadFrom (.ofMembers members)
      (utf8 "\x7b" ++ Text.joinWith (utf8 ", ") parts ++ utf8 "\x7d") := by
  change ReadFrom _ (0x7b :: (Text.joinWith (utf8 ", ") parts ++ [0x7d]))
  refine readFrom_cons (by decide) fun {fuel rest} hfuel _ => ?_
  cases h with
  | nil => rfl
  | @cons m part members parts hpart hparts =>
    have hmembers : readMembers fuel (Text.joinWith (utf8 ", ") (part :: parts) ++ 0x7d :: rest) =
        .ok (m :: members, rest) := by
      refine read_joinWith readMembers_last readMembers_more hpart hparts ?_
      rw [List.length_append] at hfuel
      omega
    obtain ⟨tail, rfl⟩ : ∃ tail, part = Quoted.mark :: tail := by
      cases hpart
      exact ⟨_, rfl⟩
    simp only [Text.joinWith_cons_eq_flatMap, List.cons_append, List.append_assoc,
      List.nil_append] at hmembers ⊢
    rw [readValue_brace, hmembers, ok_map]

/-! ### Literals -/

/-- The reader follows the literals of ordered values. -/
theorem followsLiterals_readFrom :
    Value.FollowsLiterals fun v t => v.Ordered → ReadFrom v.canonical t where
  word h _ := readFrom_of_hasWord h
  string h _ := readFrom_encode h
  array h hordered := by
    rw [Value.canonical_array]
    refine readFrom_array (List.forall₂_map_left_iff.mpr ?_)
    exact ((List.forall₂_and_left _ _).mpr ⟨Value.ordered_array_iff.mp hordered, h⟩).imp
      fun v t hv => hv.2 hv.1
  object {members parts} h hordered := by
    obtain ⟨horder, hvalues⟩ := Value.ordered_object_iff.mp hordered
    have hkeys : Value.InOrder (members.map fun m => (m.1, m.2.canonical)) :=
      List.pairwise_map.mpr horder
    rw [Value.canonical_object, ← Value.ofMembers_eq_self hkeys]
    refine readFrom_object (List.forall₂_map_left_iff.mpr ?_)
    refine ((List.forall₂_and_left _ _).mpr ⟨hvalues, h⟩).imp ?_
    rintro _ part ⟨hv, hkey, htext⟩
    exact .intro hkey (htext hv)

/-- The text alone is read as the value. -/
theorem ReadFrom.ofText?_eq {v : Value} {t : Text} (h : ReadFrom v t) :
    Value.ofText? t = some v := by
  have hmark : skipMark t = t := by
    obtain ⟨b, tail, rfl, -, -, hmark⟩ := h.opens
    simp [skipMark, afterWord?, byteOrderMark, List.isPrefixOf?, hmark.symm]
  have hread : readValue (2 * t.length + 2) (t ++ []) = .ok (v, []) :=
    h.reads (by omega) ends_nil
  rw [List.append_nil] at hread
  have htext : readText t = .ok (v, []) := by rw [readText, hmark, hread]
  exact Value.ofText?_eq_some_iff.mpr (Value.ofText_eq_ok_iff.mpr ⟨[], htext, rfl⟩)

end Json

namespace Value

/-- The literal of an ordered value without doubles is read as the value in its canonical form. -/
theorem Ordered.ofText?_literal {v : Value} {t : Text} (hordered : v.Ordered) (hv : v.DoubleFree)
    (h : v.literal = .ok t) : ofText? t = some v.canonical :=
  (Json.followsLiterals_readFrom.of_literalWithin hv h hordered).ofText?_eq

/-- **Literals read back.** The literal of a value without doubles is a JSON text, and what is read
from it is the value, with the whole numbers that are not negative held unsigned. Values with the
same literal are therefore equal but for how their whole numbers are held. Objects are taken as they
are built and read (`ordered_ofMembers`, `ordered_of_ofText?`), with their members in key order. -/
theorem literal_readable {v : Value} {t : Text} (hordered : v.Ordered) (hv : v.DoubleFree)
    (h : v.literal = .ok t) :
    Json.IsText t ∧ ofText? t = some v.canonical ∧
      ∀ w : Value, w.Ordered → w.DoubleFree → w.literal = .ok t → w.canonical = v.canonical := by
  have hread := hordered.ofText?_literal hv h
  refine ⟨hv.isText_literal h, hread, fun w hordered' hw h' => ?_⟩
  exact Option.some.inj ((hordered'.ofText?_literal hw h').symm.trans hread)

/-- Both ends of the 64-bit ranges, empty parts, and strings and keys full of what separates and
closes. -/
theorem literal_readable_nested :
    let inner : Value := .object [(utf8 "\x7b,\x7d", .string (utf8 "]: ,\\"))]
    let values (seven : Value) : Value := .array [seven, .signed Int64.minValue,
      .unsigned 0xffffffffffffffff, .array [], .object [], .null, .bool true]
    let v : Value := .object [(utf8 "a\"\n", values (.signed 7)), (utf8 "é", inner)]
    let t : Text := utf8 "\x7b\"a\\\"\\n\": [7, -9223372036854775808, 18446744073709551615, [], "
      ++ utf8 "\x7b\x7d, null, true], \"é\": \x7b\"\x7b,\x7d\": \"]: ,\\\\\"\x7d\x7d"
    v.Ordered ∧ v.DoubleFree ∧ v.literal = .ok t ∧ Json.IsText t ∧
      ofText? t = some (.object [(utf8 "a\"\n", values (.unsigned 7)), (utf8 "é", inner)]) ∧
      ∀ w : Value, w.Ordered → w.DoubleFree → w.literal = .ok t → w.canonical = v.canonical := by
  intro inner values v t
  have hordered : v.Ordered := by
    have hkeys : InOrder [(utf8 "a\"\n", values (.signed 7)), (utf8 "é", inner)] :=
      List.pairwise_pair.mpr (by decide +kernel)
    have hvalues : (values (.signed 7)).Ordered := by
      refine .array ?_
      simp only [List.forall_mem_cons]
      exact ⟨.leaf rfl, .leaf rfl, .leaf rfl, .array (List.forall_mem_nil _),
        .object .nil (List.forall_mem_nil _), .leaf rfl, .leaf rfl, List.forall_mem_nil _⟩
    have hinner : inner.Ordered :=
      .object (List.pairwise_singleton _ _) (List.forall_mem_singleton.mpr (.leaf rfl))
    exact .object hkeys (List.forall_mem_cons.mpr ⟨hvalues, List.forall_mem_singleton.mpr hinner⟩)
  have hv : v.DoubleFree := by
    have hvalues : (values (.signed 7)).DoubleFree := by
      refine .array ?_
      simp only [List.forall_mem_cons]
      exact ⟨.signed _, .signed _, .unsigned _, .array (List.forall_mem_nil _),
        .object (List.forall_mem_nil _), .null, .bool _, List.forall_mem_nil _⟩
    have hinner : inner.DoubleFree := .object (List.forall_mem_singleton.mpr (.string _))
    exact .object (List.forall_mem_cons.mpr ⟨hvalues, List.forall_mem_singleton.mpr hinner⟩)
  have hliteral : v.literal = .ok t := by
    decide +kernel
  obtain ⟨htext, hread, hsame⟩ := literal_readable hordered hv hliteral
  exact ⟨hordered, hv, hliteral, htext, hread, hsame⟩

end Value

end GraphQuery
