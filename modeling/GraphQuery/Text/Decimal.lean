import GraphQuery.Text.Basic

/-!
# Decimal numerals

Whole numbers are written in base ten without leading zeros, negative ones with a minus in front.
`decimal_injective` says that the numeral determines the number.
-/

namespace GraphQuery

/-- The byte of a character, which for ASCII is its code. -/
def asciiByte (c : Char) : UInt8 :=
  c.toUInt8

/-- The decimal numeral of a natural number. -/
def decimal (n : Nat) : Text :=
  (Nat.toDigits 10 n).map asciiByte

/-- The decimal numeral of an integer. -/
def signedDecimal : Int → Text
  | .ofNat n => decimal n
  | .negSucc n => 0x2d :: decimal (n + 1)

/-- Whether a byte is a decimal digit. -/
def isDigit (b : UInt8) : Bool :=
  decide (0x30 ≤ b) && decide (b ≤ 0x39)

/-- The value of a decimal digit. -/
def digitValue (b : UInt8) : Nat :=
  b.toNat - 0x30

/-- The number that a string of decimal digits denotes, most significant digit first. -/
def ofDecimal (digits : Text) : Nat :=
  digits.foldl (fun n b => 10 * n + digitValue b) 0

theorem decimal_ne_nil (n : Nat) : decimal n ≠ [] := by
  simp [decimal, Nat.toDigits_ne_nil]

theorem decimal_of_lt {n : Nat} (h : n < 10) : decimal n = [asciiByte (Nat.digitChar n)] := by
  simp [decimal, Nat.toDigits_of_lt_base h]

theorem decimal_of_le {n : Nat} (h : 10 ≤ n) :
    decimal n = decimal (n / 10) ++ [asciiByte (Nat.digitChar (n % 10))] := by
  simp [decimal, Nat.toDigits_of_base_le (by decide) h]

/-- The byte that writes a digit denotes the digit. -/
theorem digitValue_digitChar {n : Nat} (h : n < 10) :
    digitValue (asciiByte (Nat.digitChar n)) = n := by
  have : ∀ k : Fin 10, digitValue (asciiByte (Nat.digitChar k)) = k := by decide
  exact this ⟨n, h⟩

/-- Reading the numeral of a number gives the number. -/
@[simp] theorem ofDecimal_decimal (n : Nat) : ofDecimal (decimal n) = n := by
  induction n using Nat.strongRecOn with
  | ind n ih =>
    by_cases h : n < 10
    · simp [decimal_of_lt h, ofDecimal, digitValue_digitChar h]
    · have h : 10 ≤ n := by omega
      have hq := ih (n / 10) (by omega)
      simp only [ofDecimal] at hq ⊢
      rw [decimal_of_le h, List.foldl_append, hq]
      simp only [List.foldl_cons, List.foldl_nil]
      rw [digitValue_digitChar (by omega)]
      omega

theorem decimal_injective {m n : Nat} (h : decimal m = decimal n) : m = n := by
  rw [← ofDecimal_decimal m, h, ofDecimal_decimal]

end GraphQuery
