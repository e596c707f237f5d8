import GraphQuery.Text.Basic

/-!
# Names of scopes

The loops of a statement are named by words over the letters `a` to `k`, shortest first and in
alphabetical order among words of one length: `a`, ..., `k`, `aa`, `ab`, .... A word is the numeral
of its position in bijective base eleven, with `a` for one and `k` for eleven, counted from one.

* `ScopeName.ofDepth` is the name of the scope at a depth, the outermost being at depth zero.
* `ScopeName.position` is the value of a word as a numeral.
-/

namespace GraphQuery.ScopeName

/-- The count of letters. -/
def base : Nat := 11

/-- The letter of a digit counted from zero. -/
def letter (digit : Nat) : UInt8 :=
  UInt8.ofNat (0x61 + digit)

/-- The digit counted from one that a letter stands for. -/
def digit (letter : UInt8) : Nat :=
  letter.toNat - 0x60

/-- The name of the scope at a depth. The last letter is the digit of the remainder; the letters
before it name the quotient less one, as there is no digit zero. -/
def ofDepth (depth : Nat) : Text :=
  if depth < base then [letter depth]
  else ofDepth (depth / base - 1) ++ [letter (depth % base)]
termination_by depth
decreasing_by
  simp only [base] at *
  omega

/-- The value of a word in bijective base eleven, most significant letter first. -/
def position (word : Text) : Nat :=
  word.foldl (fun n b => base * n + digit b) 0

/-- Whether a word is a name: not empty, and over the letters `a` to `k`. -/
def isName (word : Text) : Bool :=
  !word.isEmpty && word.all fun b => decide (0x61 ≤ b) && decide (b ≤ 0x6b)

theorem isName_iff {word : Text} :
    isName word = true ↔ word ≠ [] ∧ ∀ b ∈ word, 0x61 ≤ b ∧ b ≤ 0x6b := by
  simp [isName]

theorem ofDepth_of_lt {depth : Nat} (h : depth < base) : ofDepth depth = [letter depth] := by
  rw [ofDepth]
  simp [h]

theorem ofDepth_of_le {depth : Nat} (h : base ≤ depth) :
    ofDepth depth = ofDepth (depth / base - 1) ++ [letter (depth % base)] := by
  rw [ofDepth]
  simp [Nat.not_lt.2 h]

theorem digit_letter {d : Nat} (h : d < base) : digit (letter d) = d + 1 := by
  have all : ∀ k : Fin 11, digit (letter k) = k + 1 := by decide
  exact all ⟨d, h⟩

/-- The name of a scope is the numeral of its depth plus one. -/
theorem position_ofDepth (depth : Nat) : position (ofDepth depth) = depth + 1 := by
  induction depth using Nat.strongRecOn with
  | ind n ih =>
    by_cases h : n < base
    · rw [ofDepth_of_lt h]
      simp [position, digit_letter h]
    · have hle : base ≤ n := Nat.not_lt.1 h
      have hq := ih (n / base - 1) (by simp only [base] at *; omega)
      rw [ofDepth_of_le hle]
      simp only [position, List.foldl_append, List.foldl_cons, List.foldl_nil] at hq ⊢
      rw [hq, digit_letter (Nat.mod_lt _ (by decide))]
      simp only [base] at *
      omega

theorem ofDepth_injective {m n : Nat} (h : ofDepth m = ofDepth n) : m = n := by
  have := congrArg position h
  simpa [position_ofDepth] using this

theorem letter_le {d : Nat} (h : d < base) : 0x61 ≤ letter d ∧ letter d ≤ 0x6b := by
  have all : ∀ k : Fin 11, 0x61 ≤ letter k ∧ letter k ≤ 0x6b := by decide
  exact all ⟨d, h⟩

theorem all_ofDepth (depth : Nat) : ∀ b ∈ ofDepth depth, 0x61 ≤ b ∧ b ≤ 0x6b := by
  induction depth using Nat.strongRecOn with
  | ind n ih =>
    intro b hb
    by_cases h : n < base
    · rw [ofDepth_of_lt h] at hb
      rw [List.mem_singleton.1 hb]
      exact letter_le h
    · have hle : base ≤ n := Nat.not_lt.1 h
      rw [ofDepth_of_le hle] at hb
      rcases List.mem_append.1 hb with hb | hb
      · exact ih (n / base - 1) (by simp only [base] at *; omega) b hb
      · rw [List.mem_singleton.1 hb]
        exact letter_le (Nat.mod_lt _ (by decide))

theorem ofDepth_ne_nil (depth : Nat) : ofDepth depth ≠ [] := by
  by_cases h : depth < base
  · simp [ofDepth_of_lt h]
  · simp [ofDepth_of_le (Nat.not_lt.1 h)]

/-- The name of every scope is a name. -/
@[simp] theorem isName_ofDepth (depth : Nat) : isName (ofDepth depth) = true := by
  simpa [isName, ofDepth_ne_nil] using all_ofDepth depth

example : ofDepth 10 = utf8 "k" := by decide +kernel
example : ofDepth 132 = utf8 "aaa" := by decide +kernel

end GraphQuery.ScopeName
