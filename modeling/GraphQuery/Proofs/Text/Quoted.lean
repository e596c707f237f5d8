import GraphQuery.Operand
import GraphQuery.Proofs.Text.Utf8

/-!
# Literals inside a text

A literal ends at the first mark that is not escaped, and where that is must not depend on what
stands after it. Two readers look at a literal in front of some other text:

* `Quoted.extent?` knows nothing of escapes but that a backslash takes the byte after it along. It
  cuts the text behind the literal.
* `Quoted.decode?` replaces the escapes as it goes.

`standsAlone_textLiteral` says that both end where the literal ends and that the second gives back
the text, whatever follows. `exists_error_textLiteral_iff` says which texts have no literal.
-/

namespace GraphQuery

namespace Quoted

/-- A text cut behind its first mark that is not escaped. -/
def uptoMark? : Text → Option (Text × Text)
  | [] => none
  | b :: rest =>
    if b = mark then some ([b], rest)
    else if b = backslash then
      match rest with
      | [] => none
      | c :: rest => (uptoMark? rest).map fun (inside, after) => (b :: c :: inside, after)
    else (uptoMark? rest).map fun (inside, after) => (b :: inside, after)

/-- A text that begins with a literal, cut behind the literal. -/
def extent? : Text → Option (Text × Text)
  | [] => none
  | b :: rest =>
    if b = mark then (uptoMark? rest).map fun (inside, after) => (b :: inside, after) else none

/-- A literal for a text that is read as that text and not beyond its end, whatever follows. -/
structure StandsAlone (s literal rest : Text) : Prop where
  extent : extent? (literal ++ rest) = some (literal, rest)
  content : decode? (literal ++ rest) = some (s, rest)
  printable : ∀ b ∈ literal, 0x20 ≤ b

/-! ### Where a literal ends -/

theorem uptoMark?_plain {b : UInt8} (hmark : b ≠ mark) (hslash : b ≠ backslash) (rest : Text) :
    uptoMark? (b :: rest) = (uptoMark? rest).map fun (inside, after) => (b :: inside, after) := by
  rw [uptoMark?.eq_def]
  simp [hmark, hslash]

theorem uptoMark?_backslash (c : UInt8) (rest : Text) :
    uptoMark? (backslash :: c :: rest) =
      (uptoMark? rest).map fun (inside, after) => (backslash :: c :: inside, after) := by
  rw [uptoMark?.eq_def]
  simp [show backslash ≠ mark by decide]

/-- A hexadecimal digit needs no escape, and is no control byte. -/
theorem hexDigit_plain {n : UInt8} (h : n < 16) :
    hexDigit n ≠ mark ∧ hexDigit n ≠ backslash ∧ 0x20 ≤ hexDigit n := by
  have all : ∀ k : Fin 16, hexDigit (UInt8.ofNat k) ≠ mark ∧
      hexDigit (UInt8.ofNat k) ≠ backslash ∧ 0x20 ≤ hexDigit (UInt8.ofNat k) := by decide
  have hlt : n.toNat < 16 := by simpa [UInt8.lt_iff_toNat_lt] using h
  simpa using all ⟨n.toNat, hlt⟩

theorem div_sixteen_lt (b : UInt8) : b / 16 < 16 := by
  have hlt : b.toNat < 256 := b.toNat_lt
  rw [UInt8.lt_iff_toNat_lt, UInt8.toNat_div]
  show b.toNat / 16 < 16
  omega

theorem mod_sixteen_lt (b : UInt8) : b % 16 < 16 := by
  rw [UInt8.lt_iff_toNat_lt, UInt8.toNat_mod]
  show b.toNat % 16 < 16
  omega

/-- No byte written by `encodeByte` is taken for the closing mark. -/
theorem uptoMark?_encodeByte (b : UInt8) (rest : Text) :
    uptoMark? (encodeByte b ++ rest) =
      (uptoMark? rest).map fun (inside, after) => (encodeByte b ++ inside, after) := by
  unfold encodeByte
  split
  · exact uptoMark?_backslash _ rest
  · next h =>
    split
    · obtain ⟨hmark, hslash, _⟩ := hexDigit_plain (div_sixteen_lt b)
      obtain ⟨hmark', hslash', _⟩ := hexDigit_plain (mod_sixteen_lt b)
      simp only [List.cons_append, List.nil_append, uptoMark?_backslash,
        uptoMark?_plain hmark hslash, uptoMark?_plain hmark' hslash',
        uptoMark?_plain (b := 0x30) (by decide) (by decide), Option.map_map, Function.comp_def]
    · refine uptoMark?_plain ?_ ?_ rest
      · rintro rfl
        exact absurd h (by decide)
      · rintro rfl
        exact absurd h (by decide)

theorem uptoMark?_flatMap_encodeByte (s rest : Text) :
    uptoMark? (s.flatMap encodeByte ++ mark :: rest) =
      some (s.flatMap encodeByte ++ [mark], rest) := by
  induction s with
  | nil => rw [uptoMark?.eq_def]; simp
  | cons b s ih =>
    rw [List.flatMap_cons, List.append_assoc, uptoMark?_encodeByte, ih, Option.map_some,
      List.append_assoc]

theorem extent?_encode (s rest : Text) : extent? (encode s ++ rest) = some (encode s, rest) := by
  simp [encode, extent?, uptoMark?_flatMap_encodeByte]

/-! ### What a literal is made of -/

theorem shortEscape?_printable {b letter : UInt8} (h : shortEscape? b = some letter) :
    0x20 ≤ letter := by
  unfold shortEscape? at h
  repeat' split at h
  all_goals simp only [Option.some.injEq, reduceCtorEq] at h
  all_goals subst h; decide

theorem encodeByte_printable {b c : UInt8} (hc : c ∈ encodeByte b) : 0x20 ≤ c := by
  unfold encodeByte at hc
  split at hc
  · next letter h =>
    simp only [List.mem_cons, List.not_mem_nil, or_false] at hc
    rcases hc with rfl | rfl
    · decide
    · exact shortEscape?_printable h
  · split at hc
    · simp only [List.mem_cons, List.not_mem_nil, or_false] at hc
      rcases hc with rfl | rfl | rfl | rfl | rfl | rfl
      · decide
      · decide
      · decide
      · decide
      · exact (hexDigit_plain (div_sixteen_lt b)).2.2
      · exact (hexDigit_plain (mod_sixteen_lt b)).2.2
    · next hb =>
      rw [List.mem_singleton.mp hc]
      exact UInt8.not_lt.mp hb

theorem encode_printable {s : Text} {b : UInt8} (h : b ∈ encode s) : 0x20 ≤ b := by
  simp only [encode, List.cons_append, List.mem_cons, List.mem_append, List.mem_flatMap,
    List.not_mem_nil, or_false] at h
  rcases h with rfl | ⟨_, _, hb⟩ | rfl
  · decide
  · exact encodeByte_printable hb
  · decide

theorem standsAlone_encode (s rest : Text) : StandsAlone s (encode s) rest where
  extent := extent?_encode s rest
  content := decode?_encode s rest
  printable _ := encode_printable

end Quoted

/-! ### Texts with a literal -/

theorem textLiteral_eq_ok_iff {s literal : Text} :
    textLiteral s = .ok literal ↔ Utf8.valid s = true ∧ literal = Quoted.encode s := by
  cases h : Utf8.valid s <;> simp [textLiteral, quoted?, h, eq_comm]

theorem textLiteral_eq_error_iff {s : Text} {e : QueryError} :
    textLiteral s = .error e ↔ Utf8.valid s = false ∧ e = .unsupportedOperand .notUtf8 := by
  cases h : Utf8.valid s <;> simp [textLiteral, quoted?, h, eq_comm]

/-- The texts without a literal are those that encode no string. -/
theorem exists_error_textLiteral_iff (s : Text) :
    (∃ e, textLiteral s = .error e) ↔ ¬ ∃ t : String, utf8 t = s := by
  rw [← Utf8.valid_iff_exists_utf8, Bool.not_eq_true]
  constructor
  · rintro ⟨e, h⟩
    exact (textLiteral_eq_error_iff.mp h).1
  · intro h
    exact ⟨_, textLiteral_eq_error_iff.mpr ⟨h, rfl⟩⟩

/-- **A literal stands alone**: whatever follows it, it is read as its own text up to its own
end. -/
theorem standsAlone_textLiteral {s literal : Text} (h : textLiteral s = .ok literal)
    (rest : Text) : Quoted.StandsAlone s literal rest := by
  obtain ⟨_, rfl⟩ := textLiteral_eq_ok_iff.mp h
  exact Quoted.standsAlone_encode s rest

end GraphQuery
