import GraphQuery.Text.Utf8

/-!
# What UTF-8 is

`Utf8.valid` walks a text byte by byte with the ranges that are still owed. The meaning of UTF-8 is
simpler: a text is UTF-8 when it is the encoding of some string, that is, of a sequence of Unicode
scalar values. This module says that the walk accepts exactly those texts.

* `valid_encodeChar_append`: the encoding of a scalar value is walked over as a whole.
* `exists_scalar_of_valid_cons`: what the walk accepts begins with the encoding of a scalar value.
* `valid_iff_exists_utf8`: a text is accepted exactly when it is `utf8 t` for a string `t`.
* `valid_append` and `valid_joinWith`: texts that are accepted can be put together.
-/

namespace GraphQuery.Utf8

/-! ### The walk, byte by byte -/

theorem ByteRange.contains_iff {r : ByteRange} {b : UInt8} :
    r.contains b = true ↔ r.first.toNat ≤ b.toNat ∧ b.toNat ≤ r.last.toNat := by
  simp [ByteRange.contains, UInt8.le_iff_toNat_le]

theorem validFrom_cons_iff {r : ByteRange} {owed : List ByteRange} {s : Text} :
    validFrom (r :: owed) s = true ↔
      ∃ b rest, s = b :: rest ∧ r.contains b = true ∧ validFrom owed rest = true := by
  cases s with
  | nil => simp [validFrom]
  | cons b rest => simp [validFrom, and_assoc]

theorem valid_cons_iff {b : UInt8} {rest : Text} :
    valid (b :: rest) = true ↔ ∃ owed, owed? b = some owed ∧ validFrom owed rest = true := by
  cases h : owed? b <;> simp [valid, validFrom, h]

/-! ### What a lead byte owes -/

theorem owed?_one {lead : UInt8} (h : lead.toNat ≤ 0x7f) : owed? lead = some [] := by
  unfold owed?
  rw [if_pos (UInt8.le_iff_toNat_le.mpr h)]

theorem owed?_two {lead : UInt8} (h : 0xc2 ≤ lead.toNat ∧ lead.toNat ≤ 0xdf) :
    owed? lead = some [tail] := by
  simp only [owed?, UInt8.le_iff_toNat_le, UInt8.lt_iff_toNat_lt, UInt8.toNat_ofNat]
  rw [if_neg (by omega), if_neg (by omega), if_pos (by omega)]

/-- Two bytes are owed; the first is bounded from below after 0xe0 and from above after 0xed. -/
theorem owed?_three {lead : UInt8} (h : 0xe0 ≤ lead.toNat ∧ lead.toNat ≤ 0xef) :
    ∃ r, owed? lead = some [r, tail] ∧ ∀ b : UInt8, r.contains b = true ↔
      tail.contains b = true ∧ (lead.toNat = 0xe0 → 0xa0 ≤ b.toNat) ∧
        (lead.toNat = 0xed → b.toNat ≤ 0x9f) := by
  simp only [owed?, UInt8.le_iff_toNat_le, UInt8.lt_iff_toNat_lt, ← UInt8.toNat_inj,
    UInt8.toNat_ofNat, ByteRange.contains_iff, tail]
  rw [if_neg (by omega), if_neg (by omega), if_neg (by omega)]
  split
  · exact ⟨_, rfl, fun b => by simp only [UInt8.toNat_ofNat]; omega⟩
  split
  · exact ⟨_, rfl, fun b => by simp only [UInt8.toNat_ofNat]; omega⟩
  rw [if_pos (by omega)]
  exact ⟨_, rfl, fun b => by simp only [UInt8.toNat_ofNat]; omega⟩

/-- Three bytes are owed; the first is bounded from below after 0xf0 and from above after 0xf4. -/
theorem owed?_four {lead : UInt8} (h : 0xf0 ≤ lead.toNat ∧ lead.toNat ≤ 0xf4) :
    ∃ r, owed? lead = some [r, tail, tail] ∧ ∀ b : UInt8, r.contains b = true ↔
      tail.contains b = true ∧ (lead.toNat = 0xf0 → 0x90 ≤ b.toNat) ∧
        (lead.toNat = 0xf4 → b.toNat ≤ 0x8f) := by
  simp only [owed?, UInt8.le_iff_toNat_le, UInt8.lt_iff_toNat_lt, ← UInt8.toNat_inj,
    UInt8.toNat_ofNat, ByteRange.contains_iff, tail]
  rw [if_neg (by omega), if_neg (by omega), if_neg (by omega), if_neg (by omega),
    if_neg (by omega), if_neg (by omega)]
  split
  · exact ⟨_, rfl, fun b => by simp only [UInt8.toNat_ofNat]; omega⟩
  split
  · exact ⟨_, rfl, fun b => by simp only [UInt8.toNat_ofNat]; omega⟩
  rw [if_pos (by omega)]
  exact ⟨_, rfl, fun b => by simp only [UInt8.toNat_ofNat]; omega⟩

theorem owed?_none {lead : UInt8}
    (h : 0x7f < lead.toNat ∧ lead.toNat < 0xc2 ∨ 0xf4 < lead.toNat) : owed? lead = none := by
  simp only [owed?, UInt8.le_iff_toNat_le, UInt8.lt_iff_toNat_lt, ← UInt8.toNat_inj,
    UInt8.toNat_ofNat]
  rw [if_neg (by omega)]
  split
  · rfl
  rw [if_neg (by omega), if_neg (by omega), if_neg (by omega), if_neg (by omega),
    if_neg (by omega), if_neg (by omega), if_neg (by omega)]

/-! ### Scalar values by their bytes -/

theorem toNat_ofNat_of_isValidChar {n : Nat} (h : n.isValidChar) :
    (Char.ofNat n).val.toNat = n := by
  rw [Char.ofNat, dif_pos h]
  rfl

theorem ofScalar_one {a : UInt8} (ha : a.toNat ≤ 0x7f) : ofScalar a.toNat = [a] := by
  have hvalid : a.toNat.isValidChar := by left; omega
  simp only [ofScalar, String.utf8EncodeChar, toNat_ofNat_of_isValidChar hvalid]
  rw [if_pos ha, UInt8.ofNat_toNat]

theorem ofScalar_two {a b : UInt8} (ha : 0xc2 ≤ a.toNat ∧ a.toNat ≤ 0xdf)
    (hb : tail.contains b = true) :
    ofScalar ((a.toNat - 0xc0) * 64 + (b.toNat - 0x80)) = [a, b] := by
  have hb : 0x80 ≤ b.toNat ∧ b.toNat ≤ 0xbf := ByteRange.contains_iff.mp hb
  have hvalid : ((a.toNat - 0xc0) * 64 + (b.toNat - 0x80)).isValidChar := by left; omega
  simp only [ofScalar, String.utf8EncodeChar, toNat_ofNat_of_isValidChar hvalid]
  rw [if_neg (by omega), if_pos (by omega)]
  simp only [List.cons.injEq, ← UInt8.toNat_inj, UInt8.toNat_ofNat', and_true]
  omega

/-- Three bytes encode a scalar value unless two would do or the value is half of a surrogate
pair. -/
theorem ofScalar_three {a b c : UInt8} (ha : 0xe0 ≤ a.toNat ∧ a.toNat ≤ 0xef)
    (hb : tail.contains b = true) (hc : tail.contains c = true)
    (hlong : a.toNat = 0xe0 → 0xa0 ≤ b.toNat) (hpair : a.toNat = 0xed → b.toNat ≤ 0x9f) :
    ofScalar ((a.toNat - 0xe0) * 4096 + (b.toNat - 0x80) * 64 + (c.toNat - 0x80)) =
      [a, b, c] := by
  have hb : 0x80 ≤ b.toNat ∧ b.toNat ≤ 0xbf := ByteRange.contains_iff.mp hb
  have hc : 0x80 ≤ c.toNat ∧ c.toNat ≤ 0xbf := ByteRange.contains_iff.mp hc
  have hvalid : ((a.toNat - 0xe0) * 4096 + (b.toNat - 0x80) * 64 + (c.toNat - 0x80)).isValidChar := by
    unfold Nat.isValidChar
    omega
  simp only [ofScalar, String.utf8EncodeChar, toNat_ofNat_of_isValidChar hvalid]
  rw [if_neg (by omega), if_neg (by omega), if_pos (by omega)]
  simp only [List.cons.injEq, ← UInt8.toNat_inj, UInt8.toNat_ofNat', and_true]
  omega

/-- Four bytes encode a scalar value unless three would do or the value is above U+10FFFF. -/
theorem ofScalar_four {a b c d : UInt8} (ha : 0xf0 ≤ a.toNat ∧ a.toNat ≤ 0xf4)
    (hb : tail.contains b = true) (hc : tail.contains c = true) (hd : tail.contains d = true)
    (hlong : a.toNat = 0xf0 → 0x90 ≤ b.toNat) (hlast : a.toNat = 0xf4 → b.toNat ≤ 0x8f) :
    ofScalar ((a.toNat - 0xf0) * 262144 + (b.toNat - 0x80) * 4096 + (c.toNat - 0x80) * 64
      + (d.toNat - 0x80)) = [a, b, c, d] := by
  have hb : 0x80 ≤ b.toNat ∧ b.toNat ≤ 0xbf := ByteRange.contains_iff.mp hb
  have hc : 0x80 ≤ c.toNat ∧ c.toNat ≤ 0xbf := ByteRange.contains_iff.mp hc
  have hd : 0x80 ≤ d.toNat ∧ d.toNat ≤ 0xbf := ByteRange.contains_iff.mp hd
  have hvalid : ((a.toNat - 0xf0) * 262144 + (b.toNat - 0x80) * 4096 + (c.toNat - 0x80) * 64
      + (d.toNat - 0x80)).isValidChar := by
    unfold Nat.isValidChar
    omega
  simp only [ofScalar, String.utf8EncodeChar, toNat_ofNat_of_isValidChar hvalid]
  rw [if_neg (by omega), if_neg (by omega), if_neg (by omega)]
  simp only [List.cons.injEq, ← UInt8.toNat_inj, UInt8.toNat_ofNat', and_true]
  omega

/-! ### The walk, scalar value by scalar value -/

theorem contains_tail (n : Nat) : tail.contains (UInt8.ofNat (n % 64 + 128)) = true := by
  rw [ByteRange.contains_iff, UInt8.toNat_ofNat']
  simp only [tail, UInt8.toNat_ofNat]
  omega

/-- The encoding of a scalar value pays for itself and owes nothing. -/
theorem valid_encodeChar_append (c : Char) (rest : Text) :
    valid (String.utf8EncodeChar c ++ rest) = valid rest := by
  have hvalid : c.val.toNat.isValidChar := c.valid
  unfold Nat.isValidChar at hvalid
  simp only [String.utf8EncodeChar]
  generalize c.val.toNat = n at hvalid
  -- The four lengths of an encoding: the lead byte decides which ranges are owed.
  split
  · have hlead : (UInt8.ofNat n).toNat ≤ 0x7f := by rw [UInt8.toNat_ofNat']; omega
    simp only [List.cons_append, List.nil_append, valid, validFrom, owed?_one hlead]
  split
  · have hlead : 0xc2 ≤ (UInt8.ofNat (n / 64 % 32 + 192)).toNat ∧
        (UInt8.ofNat (n / 64 % 32 + 192)).toNat ≤ 0xdf := by
      rw [UInt8.toNat_ofNat']; omega
    simp only [List.cons_append, List.nil_append, valid, validFrom, owed?_two hlead,
      contains_tail, if_true]
  split
  · have hlead : 0xe0 ≤ (UInt8.ofNat (n / 4096 % 16 + 224)).toNat ∧
        (UInt8.ofNat (n / 4096 % 16 + 224)).toNat ≤ 0xef := by
      rw [UInt8.toNat_ofNat']; omega
    obtain ⟨r, hr, hcontains⟩ := owed?_three hlead
    have hfirst : r.contains (UInt8.ofNat (n / 64 % 64 + 128)) = true := by
      refine (hcontains _).mpr ⟨contains_tail _, ?_⟩
      simp only [UInt8.toNat_ofNat']
      omega
    simp only [List.cons_append, List.nil_append, valid, validFrom, hr, hfirst, contains_tail,
      if_true]
  · have hlead : 0xf0 ≤ (UInt8.ofNat (n / 262144 % 8 + 240)).toNat ∧
        (UInt8.ofNat (n / 262144 % 8 + 240)).toNat ≤ 0xf4 := by
      rw [UInt8.toNat_ofNat']; omega
    obtain ⟨r, hr, hcontains⟩ := owed?_four hlead
    have hfirst : r.contains (UInt8.ofNat (n / 4096 % 64 + 128)) = true := by
      refine (hcontains _).mpr ⟨contains_tail _, ?_⟩
      simp only [UInt8.toNat_ofNat']
      omega
    simp only [List.cons_append, List.nil_append, valid, validFrom, hr, hfirst, contains_tail,
      if_true]

/-- What the walk accepts begins with the encoding of a scalar value. -/
theorem exists_scalar_of_valid_cons {b : UInt8} {rest : Text} (h : valid (b :: rest) = true) :
    ∃ n rest', b :: rest = ofScalar n ++ rest' ∧ valid rest' = true := by
  obtain ⟨owed, howed, hrest⟩ := valid_cons_iff.mp h
  have hb : b.toNat ≤ 0x7f ∨ 0xc2 ≤ b.toNat ∧ b.toNat ≤ 0xdf ∨ 0xe0 ≤ b.toNat ∧ b.toNat ≤ 0xef ∨
      0xf0 ≤ b.toNat ∧ b.toNat ≤ 0xf4 ∨
      (0x7f < b.toNat ∧ b.toNat < 0xc2 ∨ 0xf4 < b.toNat) := by omega
  rcases hb with hb | hb | hb | hb | hb
  · rw [owed?_one hb] at howed
    cases howed
    exact ⟨_, rest, by rw [ofScalar_one hb]; rfl, hrest⟩
  · rw [owed?_two hb] at howed
    cases howed
    obtain ⟨b₁, rest, rfl, hb₁, hrest⟩ := validFrom_cons_iff.mp hrest
    exact ⟨_, rest, by rw [ofScalar_two hb hb₁]; rfl, hrest⟩
  · obtain ⟨r, hr, hcontains⟩ := owed?_three hb
    rw [hr] at howed
    cases howed
    obtain ⟨b₁, rest, rfl, hb₁, hrest⟩ := validFrom_cons_iff.mp hrest
    obtain ⟨b₂, rest, rfl, hb₂, hrest⟩ := validFrom_cons_iff.mp hrest
    obtain ⟨htail, hlong, hpair⟩ := (hcontains b₁).mp hb₁
    exact ⟨_, rest, by rw [ofScalar_three hb htail hb₂ hlong hpair]; rfl, hrest⟩
  · obtain ⟨r, hr, hcontains⟩ := owed?_four hb
    rw [hr] at howed
    cases howed
    obtain ⟨b₁, rest, rfl, hb₁, hrest⟩ := validFrom_cons_iff.mp hrest
    obtain ⟨b₂, rest, rfl, hb₂, hrest⟩ := validFrom_cons_iff.mp hrest
    obtain ⟨b₃, rest, rfl, hb₃, hrest⟩ := validFrom_cons_iff.mp hrest
    obtain ⟨htail, hlong, hlast⟩ := (hcontains b₁).mp hb₁
    exact ⟨_, rest, by rw [ofScalar_four hb htail hb₂ hb₃ hlong hlast]; rfl, hrest⟩
  · rw [owed?_none hb] at howed
    cases howed

/-- **A text is accepted exactly when it is the encoding of a string.** -/
theorem valid_iff_exists_utf8 (s : Text) : valid s = true ↔ ∃ t : String, utf8 t = s := by
  constructor
  · intro h
    suffices hchars : ∃ cs : List Char, s = cs.flatMap String.utf8EncodeChar by
      obtain ⟨cs, rfl⟩ := hchars
      exact ⟨String.ofList cs, by rw [utf8, String.toList_ofList]⟩
    -- Each scalar value takes a byte at least off the text.
    induction hn : s.length using Nat.strongRecOn generalizing s with
    | ind n ih =>
      cases s with
      | nil => exact ⟨[], rfl⟩
      | cons b rest =>
        obtain ⟨v, rest', heq, hrest⟩ := exists_scalar_of_valid_cons h
        have hlen : rest'.length < n := by
          have hpos : 0 < (ofScalar v).length := by
            simp [ofScalar, Char.utf8Size_pos]
          have := congrArg List.length heq
          rw [List.length_append] at this
          omega
        obtain ⟨cs, hcs⟩ := ih _ hlen rest' hrest rfl
        exact ⟨Char.ofNat v :: cs, by rw [heq, List.flatMap_cons, ← hcs, ofScalar]⟩
  · rintro ⟨t, rfl⟩
    rw [utf8]
    induction t.toList with
    | nil => rfl
    | cons c cs ih => rw [List.flatMap_cons, valid_encodeChar_append, ih]

/-- Neither half of a surrogate pair is encoded, nor a character in more bytes than it needs. -/
example : valid [0xed, 0xa0, 0x80] = false ∧ valid [0xe0, 0x9f, 0xbf] = false := by decide

/-! ### Putting texts together -/

/-- A text that is UTF-8 owes nothing to what follows it. -/
theorem valid_append {s : Text} (h : valid s = true) (rest : Text) :
    valid (s ++ rest) = valid rest := by
  obtain ⟨t, rfl⟩ := (valid_iff_exists_utf8 s).mp h
  rw [utf8]
  induction t.toList with
  | nil => rfl
  | cons c cs ih =>
    rw [List.flatMap_cons, List.append_assoc, valid_encodeChar_append, ih]

/-- An ASCII text is UTF-8. -/
theorem valid_of_forall_le {s : Text} (h : ∀ b ∈ s, b ≤ 0x7f) : valid s = true := by
  induction s with
  | nil => rfl
  | cons b s ih =>
    rw [valid_cons_ascii (h b List.mem_cons_self)]
    exact ih fun c hc => h c (List.mem_cons_of_mem _ hc)

theorem valid_joinWith {separator : Text} {parts : List Text} (hseparator : valid separator = true)
    (h : ∀ part ∈ parts, valid part = true) : valid (Text.joinWith separator parts) = true := by
  induction parts with
  | nil => rfl
  | cons part parts ih =>
    obtain ⟨hpart, hparts⟩ := List.forall_mem_cons.mp h
    cases parts with
    | nil => exact hpart
    | cons next parts =>
      rw [Text.joinWith_cons (List.cons_ne_nil _ _), List.append_assoc, valid_append hpart,
        valid_append hseparator, ih hparts]

/-- What a lead byte owes is no ASCII. -/
theorem le_first_of_owed? {b : UInt8} {owed : List ByteRange} (h : owed? b = some owed) :
    ∀ r ∈ owed, 0x80 ≤ r.first := by
  unfold owed? at h
  repeat' split at h
  all_goals simp only [Option.some.injEq, reduceCtorEq] at h
  all_goals subst h; decide

/-- An ASCII byte pays nothing. -/
theorem validFrom_cons_of_le {r : ByteRange} {b : UInt8} (hr : 0x80 ≤ r.first) (hb : b ≤ 0x7f)
    (owed : List ByteRange) (s : Text) : validFrom (r :: owed) (b :: s) = false := by
  have hcontains : r.contains b = false := by
    have hlow : b.toNat ≤ 127 := UInt8.le_iff_toNat_le.mp hb
    have hhigh : 128 ≤ r.first.toNat := UInt8.le_iff_toNat_le.mp hr
    rw [← Bool.not_eq_true, ByteRange.contains_iff]
    omega
  rw [validFrom, hcontains]
  rfl

end GraphQuery.Utf8
