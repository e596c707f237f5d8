import GraphQuery.Error
import GraphQuery.Number.Layout

/-!
# The bytes of numerals

Numbers of every kind are written with digits, signs, points and the letter that announces an
exponent, and with nothing else. A whole number has neither point nor exponent, so a depth range can
be taken apart at its first point.

* `isDigit_of_mem_decimal`, `isNumeralByte_of_mem_signedDecimal`, `isNumeralByte_of_mem_write`: what
  bytes a numeral has.
* `signedDecimal_injective`, `DepthRange.text_injective`: what is written determines the number and
  the range.
-/

namespace GraphQuery

theorem isDigit_digitChar {n : Nat} (h : n < 10) :
    isDigit (asciiByte (Nat.digitChar n)) = true := by
  have all : ∀ k : Fin 10, isDigit (asciiByte (Nat.digitChar k)) = true := by decide
  exact all ⟨n, h⟩

theorem isDigit_of_mem_decimal {n : Nat} {b : UInt8} (h : b ∈ decimal n) : isDigit b = true := by
  induction n using Nat.strongRecOn with
  | ind n ih =>
    by_cases hn : n < 10
    · rw [decimal_of_lt hn] at h
      rw [List.mem_singleton.mp h]
      exact isDigit_digitChar hn
    · rw [decimal_of_le (by omega)] at h
      rcases List.mem_append.mp h with h | h
      · exact ih (n / 10) (by omega) h
      · rw [List.mem_singleton.mp h]
        exact isDigit_digitChar (by omega)

/-- The numeral of a number above zero does not begin with a zero. -/
theorem decimal_eq_cons {n : Nat} (h : 0 < n) :
    ∃ b digits, decimal n = b :: digits ∧ isDigit b = true ∧ b ≠ 0x30 := by
  induction n using Nat.strongRecOn with
  | ind n ih =>
    by_cases hn : n < 10
    · have hlead : ∀ k : Fin 10, 0 < k.val → asciiByte (Nat.digitChar k) ≠ 0x30 := by decide
      exact ⟨_, [], decimal_of_lt hn, isDigit_digitChar hn, hlead ⟨n, hn⟩ h⟩
    · obtain ⟨b, digits, hdecimal, hdigit, hb⟩ := ih (n / 10) (by omega) (by omega)
      rw [decimal_of_le (by omega), hdecimal]
      exact ⟨b, _, List.cons_append, hdigit, hb⟩

/-- The bytes of numbers: digits, signs, the point and the letter before an exponent. -/
def isNumeralByte (b : UInt8) : Bool :=
  isDigit b || [0x2d, 0x2b, 0x2e, 0x65].contains b

theorem isNumeralByte_of_isDigit {b : UInt8} (h : isDigit b = true) : isNumeralByte b = true := by
  simp [isNumeralByte, h]

theorem isNumeralByte_of_mem_decimal {n : Nat} {b : UInt8} (h : b ∈ decimal n) :
    isNumeralByte b = true :=
  isNumeralByte_of_isDigit (isDigit_of_mem_decimal h)

/-! ### Whole numbers -/

theorem mem_signedDecimal {n : Int} {b : UInt8} (h : b ∈ signedDecimal n) :
    b = 0x2d ∨ isDigit b = true := by
  cases n with
  | ofNat n => exact Or.inr (isDigit_of_mem_decimal h)
  | negSucc n =>
    rcases List.mem_cons.mp h with rfl | h
    · exact Or.inl rfl
    · exact Or.inr (isDigit_of_mem_decimal h)

theorem isNumeralByte_of_mem_signedDecimal {n : Int} {b : UInt8} (h : b ∈ signedDecimal n) :
    isNumeralByte b = true := by
  rcases mem_signedDecimal h with rfl | h
  · decide
  · exact isNumeralByte_of_isDigit h

theorem signedDecimal_ne_nil (n : Int) : signedDecimal n ≠ [] := by
  cases n with
  | ofNat n => exact decimal_ne_nil n
  | negSucc n => exact List.cons_ne_nil _ _

/-- A minus is no digit, so the sign is seen. -/
theorem minus_notMem_decimal (n : Nat) : 0x2d ∉ decimal n := by
  intro h
  exact absurd (isDigit_of_mem_decimal h) (by decide)

theorem signedDecimal_injective {m n : Int} (h : signedDecimal m = signedDecimal n) : m = n := by
  cases m with
  | ofNat m =>
    cases n with
    | ofNat n => rw [decimal_injective h]
    | negSucc n =>
      refine absurd ?_ (minus_notMem_decimal m)
      rw [show decimal m = 0x2d :: decimal (n + 1) from h]
      exact List.mem_cons_self
  | negSucc m =>
    cases n with
    | ofNat n =>
      refine absurd ?_ (minus_notMem_decimal n)
      rw [← show 0x2d :: decimal (m + 1) = decimal n from h]
      exact List.mem_cons_self
    | negSucc n =>
      have hsucc : m + 1 = n + 1 := decimal_injective (List.cons.inj h).2
      rw [Nat.succ.inj hsucc]

/-! ### Depth ranges -/

/-- A text can be cut at the first of a byte in one way only. -/
theorem Text.eq_of_cut {b : UInt8} {s s' t t' : Text} (hs : b ∉ s) (hs' : b ∉ s')
    (h : s ++ b :: t = s' ++ b :: t') : s = s' ∧ t = t' := by
  induction s generalizing s' with
  | nil =>
    cases s' with
    | nil => exact ⟨rfl, (List.cons.inj h).2⟩
    | cons c s' => exact absurd ((List.cons.inj h).1 ▸ List.mem_cons_self) hs'
  | cons c s ih =>
    cases s' with
    | nil => exact absurd ((List.cons.inj h).1 ▸ List.mem_cons_self) hs
    | cons c' s' =>
      obtain ⟨rfl, htail⟩ := List.cons.inj h
      obtain ⟨rfl, ht⟩ := ih (fun hb => hs (List.mem_cons_of_mem _ hb))
        (fun hb => hs' (List.mem_cons_of_mem _ hb)) htail
      exact ⟨rfl, ht⟩

/-- The byte of a point. -/
abbrev point : UInt8 := 0x2e

theorem point_notMem_signedDecimal (n : Int) : point ∉ signedDecimal n := by
  intro h
  rcases mem_signedDecimal h with h | h
  · exact absurd h (by decide)
  · exact absurd h (by decide)

theorem DepthRange.isNumeralByte_of_mem_text {r : DepthRange} {b : UInt8} (h : b ∈ r.text) :
    isNumeralByte b = true := by
  rw [DepthRange.text] at h
  rcases List.mem_append.mp h with h | h
  · rcases List.mem_append.mp h with h | h
    · exact isNumeralByte_of_mem_signedDecimal h
    · have all : ∀ b ∈ utf8 "..", isNumeralByte b = true := by decide +kernel
      exact all b h
  · exact isNumeralByte_of_mem_signedDecimal h

theorem DepthRange.text_ne_nil (r : DepthRange) : r.text ≠ [] := by
  simp [DepthRange.text, signedDecimal_ne_nil]

/-- The first point of a range stands behind its least depth. -/
theorem DepthRange.text_injective {r r' : DepthRange} (h : r.text = r'.text) : r = r' := by
  have htext : ∀ r : DepthRange, r.text =
      signedDecimal r.least.toInt ++ point :: point :: signedDecimal r.greatest.toInt := fun r =>
    List.append_assoc _ _ _
  rw [htext, htext] at h
  obtain ⟨hleast, hrest⟩ := Text.eq_of_cut (point_notMem_signedDecimal _)
    (point_notMem_signedDecimal _) h
  obtain ⟨least, greatest⟩ := r
  obtain ⟨least', greatest'⟩ := r'
  rw [DepthRange.mk.injEq]
  exact ⟨Int32.toInt_inj.mp (signedDecimal_injective hleast),
    Int32.toInt_inj.mp (signedDecimal_injective (List.cons.inj hrest).2)⟩

/-! ### Floating-point numbers -/

namespace Layout

theorem isNumeralByte_of_mem_padded {width : Nat} {digits : Text} {b : UInt8}
    (hdigits : ∀ b ∈ digits, isNumeralByte b = true) (h : b ∈ padded width digits) :
    isNumeralByte b = true := by
  rcases List.mem_append.mp h with h | h
  · rw [(List.mem_replicate.mp h).2]
    decide
  · exact hdigits b h

theorem isNumeralByte_of_mem_exponentText {layout : Layout} {power : Int} {b : UInt8}
    (h : b ∈ layout.exponentText power) : isNumeralByte b = true := by
  rcases List.mem_append.mp h with h | h
  · have all : (∀ b ∈ utf8 "e-", isNumeralByte b = true) ∧
        ∀ b ∈ utf8 "e+", isNumeralByte b = true := by decide +kernel
    split at h
    · exact all.1 b h
    · exact all.2 b h
  · exact isNumeralByte_of_mem_padded (fun _ => isNumeralByte_of_mem_decimal) h

theorem isNumeralByte_of_mem_place {layout : Layout} {digits : Text} {position : Int} {b : UInt8}
    (hdigits : ∀ b ∈ digits, isNumeralByte b = true) (h : b ∈ layout.place digits position) :
    isNumeralByte b = true := by
  have hzeros : ∀ n, ∀ b ∈ List.replicate n 0x30, isNumeralByte b = true := by
    intro n b hb
    rw [(List.mem_replicate.mp hb).2]
    decide
  have hwords : (∀ b ∈ utf8 ".0", isNumeralByte b = true) ∧
      (∀ b ∈ utf8 ".", isNumeralByte b = true) ∧ ∀ b ∈ utf8 "0.", isNumeralByte b = true := by
    decide +kernel
  have htake : ∀ n, ∀ b ∈ digits.take n, isNumeralByte b = true := fun n b hb =>
    hdigits b (List.mem_of_mem_take hb)
  have hdrop : ∀ n, ∀ b ∈ digits.drop n, isNumeralByte b = true := fun n b hb =>
    hdigits b (List.mem_of_mem_drop hb)
  rw [place] at h
  split at h
  · rcases List.mem_append.mp h with h | h
    · exact (List.mem_append.mp h).elim (hdigits b) (hzeros _ b)
    · exact hwords.1 b h
  split at h
  · rcases List.mem_append.mp h with h | h
    · exact (List.mem_append.mp h).elim (htake _ b) (hwords.2.1 b)
    · exact hdrop _ b h
  split at h
  · rcases List.mem_append.mp h with h | h
    · exact (List.mem_append.mp h).elim (hwords.2.2 b) (hzeros _ b)
    · exact hdigits b h
  rcases List.mem_append.mp h with h | h
  · rcases List.mem_append.mp h with h | h
    · exact htake _ b h
    · split at h
      · cases h
      · exact (List.mem_append.mp h).elim (hwords.2.1 b) (hdrop _ b)
  · exact isNumeralByte_of_mem_exponentText h

theorem isNumeralByte_of_mem_write {layout : Layout} {x : Binary64} {b : UInt8}
    (h : b ∈ layout.write x) : isNumeralByte b = true := by
  have hsign : ∀ b ∈ (if x.negative then utf8 "-" else []), isNumeralByte b = true := by
    split
    · decide +kernel
    · exact fun _ hb => nomatch hb
  rw [write] at h
  simp only at h
  split at h
  · have hzero : ∀ b ∈ utf8 "0.0", isNumeralByte b = true := by decide +kernel
    exact (List.mem_append.mp h).elim (hsign b) (hzero b)
  · rcases List.mem_append.mp h with h | h
    · exact hsign b h
    · exact isNumeralByte_of_mem_place (fun _ => isNumeralByte_of_mem_decimal) h

theorem place_ne_nil (layout : Layout) (digits : Text) (position : Int) :
    layout.place digits position ≠ [] := by
  have hwords : utf8 ".0" ≠ [] ∧ utf8 "." ≠ [] ∧ utf8 "0." ≠ [] ∧ utf8 "e-" ≠ [] ∧
      utf8 "e+" ≠ [] := by decide
  obtain ⟨hzero, hpoint, hlead, hminus, hplus⟩ := hwords
  rw [place]
  split
  · simp [hzero]
  split
  · simp [hpoint]
  split
  · simp [hlead]
  · rw [exponentText]
    split
    · split <;> simp [hminus, hplus]
    · split <;> simp [hminus, hplus]

theorem write_ne_nil (layout : Layout) (x : Binary64) : layout.write x ≠ [] := by
  have hzero : utf8 "0.0" ≠ [] := by decide
  rw [write]
  simp only
  split
  · simp [hzero]
  · simp [place_ne_nil]

end Layout

end GraphQuery
