import GraphQuery.ScopeName
import Mathlib.Data.List.Induction
import Mathlib.Data.List.Shortlex

/-!
# Names of scopes as numerals

Bijective base eleven has exactly one numeral for each number from one on, as no digit is zero. The
name of a scope is the numeral of its depth plus one, so that every word over the letters is the
name of one depth, and names are in the order of their depths: shorter ones first, and in
alphabetical order among those of one length.

* `ScopeName.Spells` is the loop that writes a name from its last letter on, in words of 64 bits.
* `ScopeName.ofDepth_position`: every word over the letters is the name of a depth.
* `ScopeName.position_lt_of_shortlex`: a name that comes later denotes a greater number.
* `ScopeName.ofDepth_bijective`: all of this about the names of scopes.
-/

namespace GraphQuery.ScopeName

/-! ### The loop in words of 64 bits -/

/-- What is written for a number, the last letter of its name first. Where a letter is left, it goes
on with the quotient less one; the quotient is not zero then, and no word wraps around. -/
inductive Spells : UInt64 → Text → Prop where
  | last {n : UInt64} : n < 11 → Spells n [letter n.toNat]
  | next {n : UInt64} {letters : Text} : 11 ≤ n → 1 ≤ n / 11 → Spells (n / 11 - 1) letters →
      Spells n (letter (n % 11).toNat :: letters)

/-- The quotient of what is not below the base is not zero, and less one it is what the name goes on
with. -/
theorem next_of_le {n : UInt64} (h : 11 ≤ n) :
    1 ≤ n / 11 ∧ (n / 11 - 1).toNat = n.toNat / base - 1 := by
  have hle : 11 ≤ n.toNat := UInt64.le_iff_toNat_le.mp h
  have hquotient : (n / 11).toNat = n.toNat / 11 := UInt64.toNat_div n 11
  have hpos : 1 ≤ n / 11 := by
    rw [UInt64.le_iff_toNat_le, hquotient]
    exact Nat.div_pos hle (by decide)
  refine ⟨hpos, ?_⟩
  rw [UInt64.toNat_sub_of_le _ _ hpos, hquotient]
  rfl

theorem eq_reverse_ofDepth_of_spells {n : UInt64} {letters : Text} (h : Spells n letters) :
    letters = (ofDepth n.toNat).reverse := by
  induction h with
  | last hlt =>
    rw [ofDepth_of_lt (UInt64.lt_iff_toNat_lt.mp hlt)]
    rfl
  | @next n letters hle _ _ ih =>
    rw [ofDepth_of_le (UInt64.le_iff_toNat_le.mp hle), List.reverse_append, ih,
      (next_of_le hle).2]
    rfl

theorem exists_spells (n : UInt64) : ∃ letters, Spells n letters := by
  induction h : n.toNat using Nat.strongRecOn generalizing n with
  | ind k ih =>
    subst h
    by_cases hlt : n < 11
    · exact ⟨_, .last hlt⟩
    · have hle : 11 ≤ n := UInt64.not_lt.mp hlt
      obtain ⟨hpos, hnext⟩ := next_of_le hle
      have hsmaller : (n / 11 - 1).toNat < n.toNat := by
        have := UInt64.le_iff_toNat_le.mp hle
        rw [hnext, base]
        simp at this
        omega
      obtain ⟨letters, hletters⟩ := ih _ hsmaller _ rfl
      exact ⟨_, .next hle hpos hletters⟩

/-- **The loop ends with the name**, read backwards, and nothing wraps around on the way. -/
theorem spells_iff {n : UInt64} {letters : Text} :
    Spells n letters ↔ letters = (ofDepth n.toNat).reverse := by
  constructor
  · exact eq_reverse_ofDepth_of_spells
  · rintro rfl
    obtain ⟨letters, hletters⟩ := exists_spells n
    exact eq_reverse_ofDepth_of_spells hletters ▸ hletters

/-! ### Words as numerals -/

/-- What a letter of a name stands for, and that no other letter stands for it. -/
theorem digit_of_mem {word : Text} (h : isName word = true) {b : UInt8} (hb : b ∈ word) :
    1 ≤ digit b ∧ digit b ≤ base ∧ letter (digit b - 1) = b := by
  obtain ⟨hfirst, hlast⟩ := (isName_iff.mp h).2 b hb
  have hfirst : 0x61 ≤ b.toNat := UInt8.le_iff_toNat_le.mp hfirst
  have hlast : b.toNat ≤ 0x6b := UInt8.le_iff_toNat_le.mp hlast
  refine ⟨?_, ?_, ?_⟩
  · rw [digit]
    omega
  · rw [digit, base]
    omega
  · have hcode : 0x61 + (digit b - 1) = b.toNat := by
      rw [digit]
      omega
    rw [letter, hcode, UInt8.ofNat_toNat]

/-- The digits of letters are in the order of the letters. -/
theorem digit_lt_digit {b c : UInt8} (hb : 1 ≤ digit b) (h : b < c) : digit b < digit c := by
  have hlt : b.toNat < c.toNat := UInt8.lt_iff_toNat_lt.mp h
  rw [digit] at hb ⊢
  rw [digit]
  omega

theorem position_concat (word : Text) (b : UInt8) :
    position (word ++ [b]) = base * position word + digit b := by
  simp [position]

/-- **Every word over the letters is the name of a depth**: that which it denotes, less one. -/
theorem ofDepth_position {word : Text} (h : isName word = true) :
    1 ≤ position word ∧ ofDepth (position word - 1) = word := by
  induction word using List.reverseRecOn with
  | nil => simp [isName] at h
  | append_singleton before b ih =>
    obtain ⟨hleast, hgreatest, hletter⟩ := digit_of_mem h (List.mem_append_right _ List.mem_cons_self)
    rw [position_concat]
    refine ⟨by omega, ?_⟩
    by_cases hbefore : before = []
    · subst hbefore
      have hdepth : base * position [] + digit b - 1 = digit b - 1 := by
        simp [position]
      rw [hdepth, ofDepth_of_lt (by omega), hletter]
      rfl
    · have hname : isName before = true := by
        rw [isName_iff] at h ⊢
        exact ⟨hbefore, fun c hc => h.2 c (List.mem_append_left _ hc)⟩
      obtain ⟨hpos, hrest⟩ := ih hname
      -- The digit less one is the remainder, so that the quotient is what stands before it.
      have hquotient : (base * position before + digit b - 1) / base = position before := by
        rw [base] at hgreatest ⊢
        omega
      have hremainder : (base * position before + digit b - 1) % base = digit b - 1 := by
        rw [base] at hgreatest ⊢
        omega
      rw [ofDepth_of_le (by rw [base]; omega), hquotient, hremainder, hrest, hletter]

/-! ### The order of names -/

/-- The value of a number with the digits of a word behind it. -/
def continued (n : Nat) (word : Text) : Nat :=
  word.foldl (fun n b => base * n + digit b) n

theorem le_continued (n : Nat) (word : Text) : n ≤ continued n word := by
  induction word generalizing n with
  | nil => exact Nat.le_refl n
  | cons b rest ih =>
    have hstep : n ≤ base * n + digit b := by
      rw [base]
      omega
    exact Nat.le_trans hstep (ih _)

/-- A greater number stays greater with at least as many digits behind it, as no digit is zero and
none is above the base. -/
theorem continued_lt_of_lt {v w : Text} (hv : ∀ b ∈ v, digit b ≤ base) (hw : ∀ b ∈ w, 1 ≤ digit b)
    (hlength : v.length ≤ w.length) {m n : Nat} (h : m < n) : continued m v < continued n w := by
  induction v generalizing w m n with
  | nil => exact Nat.lt_of_lt_of_le h (le_continued n w)
  | cons b v ih =>
    cases w with
    | nil => simp at hlength
    | cons c w =>
      have hb := hv b List.mem_cons_self
      have hc := hw c List.mem_cons_self
      have hstep : base * m + digit b < base * n + digit c := by
        rw [base] at hb ⊢
        omega
      apply ih _ _ (Nat.le_of_succ_le_succ hlength) hstep
      · exact fun b hb => hv b (List.mem_cons_of_mem _ hb)
      · exact fun c hc => hw c (List.mem_cons_of_mem _ hc)

/-- Of two words of one length, that which comes later in the alphabet denotes more. -/
theorem continued_lt_of_lex {v w : Text} (hv : ∀ b ∈ v, 1 ≤ digit b ∧ digit b ≤ base)
    (hw : ∀ b ∈ w, 1 ≤ digit b) (hlength : v.length = w.length) (h : List.Lex (· < ·) v w)
    (n : Nat) : continued n v < continued n w := by
  induction h generalizing n with
  | nil => simp at hlength
  | @cons b v w _ ih =>
    apply ih _ _ (Nat.succ.inj hlength)
    · exact fun b hb => hv b (List.mem_cons_of_mem _ hb)
    · exact fun c hc => hw c (List.mem_cons_of_mem _ hc)
  | @rel b v c w hlt =>
    have hdigit := digit_lt_digit (hv b List.mem_cons_self).1 hlt
    apply continued_lt_of_lt _ _ (Nat.le_of_eq (Nat.succ.inj hlength)) (Nat.add_lt_add_left hdigit _)
    · exact fun b hb => (hv b (List.mem_cons_of_mem _ hb)).2
    · exact fun c hc => hw c (List.mem_cons_of_mem _ hc)

/-- **A name that comes later denotes a greater number.** -/
theorem position_lt_of_shortlex {v w : Text} (hv : isName v = true) (hw : isName w = true)
    (h : List.Shortlex (· < ·) v w) : position v < position w := by
  have hdigits : ∀ b ∈ v, 1 ≤ digit b ∧ digit b ≤ base :=
    fun b hb => ⟨(digit_of_mem hv hb).1, (digit_of_mem hv hb).2.1⟩
  have hpositive : ∀ b ∈ w, 1 ≤ digit b := fun b hb => (digit_of_mem hw hb).1
  rcases List.shortlex_def.mp h with hlength | ⟨hlength, hlex⟩
  · -- The first letter of the longer word is a number to begin with, and the other begins with none.
    cases w with
    | nil => simp at hlength
    | cons c w =>
      have hfirst : 0 < base * 0 + digit c := by
        have := hpositive c List.mem_cons_self
        omega
      apply continued_lt_of_lt _ _ (Nat.le_of_lt_succ hlength) hfirst
      · exact fun b hb => (hdigits b hb).2
      · exact fun b hb => hpositive b (List.mem_cons_of_mem _ hb)
  · exact continued_lt_of_lex hdigits hpositive hlength hlex 0

/-- Names are in the order of their depths. -/
theorem shortlex_ofDepth_iff {m n : Nat} :
    List.Shortlex (· < ·) (ofDepth m) (ofDepth n) ↔ m < n := by
  have hlt : ∀ {m n : Nat}, List.Shortlex (· < ·) (ofDepth m) (ofDepth n) → m < n := by
    intro m n h
    have hposition := position_lt_of_shortlex (isName_ofDepth m) (isName_ofDepth n) h
    rw [position_ofDepth, position_ofDepth] at hposition
    exact Nat.lt_of_succ_lt_succ hposition
  refine ⟨hlt, fun h => ?_⟩
  by_contra hnot
  have hreverse : ¬List.Shortlex (· < ·) (ofDepth n) (ofDepth m) :=
    fun hnm => absurd (hlt hnm) (Nat.lt_asymm h)
  have heq : ofDepth m = ofDepth n := Std.Trichotomous.trichotomous _ _ hnot hreverse
  exact absurd (ofDepth_injective heq) (Nat.ne_of_lt h)

/-! ### Names -/

/-- **The names of scopes are the words over the letters, each the name of one depth.** In words of
64 bits the loop ends with the name, read backwards, and nothing wraps around. A name denotes its
depth plus one, every word is the name of what it denotes less one, and names are in the order of
their depths: shorter ones first, then in alphabetical order. -/
theorem ofDepth_bijective :
    (∀ (n : UInt64) (letters : Text), Spells n letters ↔ letters = (ofDepth n.toNat).reverse) ∧
      (∀ depth, isName (ofDepth depth) = true ∧ position (ofDepth depth) = depth + 1) ∧
      (∀ word, isName word = true → 1 ≤ position word ∧ ofDepth (position word - 1) = word) ∧
      Function.Injective ofDepth ∧
      ∀ m n, List.Shortlex (· < ·) (ofDepth m) (ofDepth n) ↔ m < n := by
  refine ⟨fun _ _ => spells_iff, ?_, ?_, fun _ _ => ofDepth_injective, ?_⟩
  · intro depth
    exact ⟨isName_ofDepth depth, position_ofDepth depth⟩
  · intro word h
    exact ofDepth_position h
  · intro m n
    exact shortlex_ofDepth_iff

/-- The last name of two letters, and that the first name of three comes after it. -/
theorem ofDepth_bijective_kk :
    ofDepth 131 = utf8 "kk" ∧ Spells 131 (utf8 "kk") ∧
      List.Shortlex (· < ·) (utf8 "kk") (ofDepth 132) := by
  have hposition : position (utf8 "kk") = 132 := by decide +kernel
  have hname := (ofDepth_bijective.2.2.1 (utf8 "kk") (by decide +kernel)).2
  rw [hposition] at hname
  refine ⟨hname, (ofDepth_bijective.1 131 _).mpr ?_, ?_⟩
  · exact (congrArg List.reverse hname).symm
  · exact hname ▸ (ofDepth_bijective.2.2.2.2 131 132).mpr (by decide)

end GraphQuery.ScopeName
