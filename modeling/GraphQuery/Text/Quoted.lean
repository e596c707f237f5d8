import GraphQuery.Text.Utf8

/-!
# Quoted texts

A text is written as a literal between double quotation marks. The mark itself, the backslash and
the bytes below 0x20 are escaped; every other byte stands for itself, so a literal never contains
an unescaped mark or a control byte.

* `Quoted.encode` writes the literal.
* `Quoted.decode?` reads a literal at the front of a text and returns what follows it. It knows
  every escape of the JSON grammar, not only those that `encode` writes.
* `decode?_encode`: a literal is read back as the text it was written for, whatever follows it.
-/

namespace GraphQuery.Quoted

/-- The double quotation mark. -/
abbrev mark : UInt8 := 0x22

/-- The backslash. -/
abbrev backslash : UInt8 := 0x5c

/-- The small letter u, which announces a code in an escape. -/
abbrev letterU : UInt8 := 0x75

/-- The lower-case hexadecimal digit of a number below sixteen. -/
def hexDigit (n : UInt8) : UInt8 :=
  if n < 10 then 0x30 + n else 0x57 + n

/-- The letter that stands for a byte after a backslash, where the byte has one. -/
def shortEscape? (b : UInt8) : Option UInt8 :=
  if b = mark then some mark
  else if b = backslash then some backslash
  else if b = 0x08 then some 0x62
  else if b = 0x09 then some 0x74
  else if b = 0x0a then some 0x6e
  else if b = 0x0c then some 0x66
  else if b = 0x0d then some 0x72
  else none

/-- A byte as it stands inside a literal. -/
def encodeByte (b : UInt8) : Text :=
  match shortEscape? b with
  | some letter => [backslash, letter]
  | none =>
    if b < 0x20 then [backslash, letterU, 0x30, 0x30, hexDigit (b / 16), hexDigit (b % 16)]
    else [b]

/-- The literal of a text. -/
def encode (s : Text) : Text :=
  mark :: s.flatMap encodeByte ++ [mark]

/-! ### Reading -/

/-- The byte that a letter stands for after a backslash, where it stands for one. -/
def unescape? (letter : UInt8) : Option UInt8 :=
  if letter = mark then some mark
  else if letter = backslash then some backslash
  else if letter = 0x2f then some 0x2f
  else if letter = 0x62 then some 0x08
  else if letter = 0x66 then some 0x0c
  else if letter = 0x6e then some 0x0a
  else if letter = 0x72 then some 0x0d
  else if letter = 0x74 then some 0x09
  else none

/-- The value of a hexadecimal digit in either case. -/
def hexValue? (b : UInt8) : Option Nat :=
  if 0x30 ≤ b ∧ b ≤ 0x39 then some (b.toNat - 0x30)
  else if 0x41 ≤ b ∧ b ≤ 0x46 then some (b.toNat - 0x37)
  else if 0x61 ≤ b ∧ b ≤ 0x66 then some (b.toNat - 0x57)
  else none

/-- The value of four hexadecimal digits. -/
def hexCode? (a b c d : UInt8) : Option Nat := do
  let a ← hexValue? a
  let b ← hexValue? b
  let c ← hexValue? c
  let d ← hexValue? d
  pure (((a * 16 + b) * 16 + c) * 16 + d)

/-- Whether a code is the first half of a surrogate pair. -/
def isHighSurrogate (code : Nat) : Bool :=
  decide (0xd800 ≤ code) && decide (code < 0xdc00)

/-- Whether a code is the second half of a surrogate pair. -/
def isLowSurrogate (code : Nat) : Bool :=
  decide (0xdc00 ≤ code) && decide (code < 0xe000)

/-- The scalar value that a surrogate pair stands for. -/
def pairValue (high low : Nat) : Nat :=
  0x10000 + (high - 0xd800) * 0x400 + (low - 0xdc00)

/-- The bytes of a text up to the first unescaped mark, with the escapes replaced, and what follows
the mark. The bytes read so far are kept in reverse. -/
def scan (seen : Text) : Text → Option (Text × Text)
  | [] => none
  | b :: rest =>
    if b = mark then some (seen.reverse, rest)
    else if b = backslash then
      match rest with
      | [] => none
      | letter :: rest =>
        if letter = letterU then
          match rest with
          | a :: b :: c :: d :: rest =>
            match hexCode? a b c d with
            | none => none
            | some code =>
              if isHighSurrogate code then
                match rest with
                | slash :: u :: a :: b :: c :: d :: rest =>
                  match hexCode? a b c d with
                  | none => none
                  | some low =>
                    if slash = backslash ∧ u = letterU ∧ isLowSurrogate low then
                      scan ((Utf8.ofScalar (pairValue code low)).reverse ++ seen) rest
                    else none
                | _ => none
              else if isLowSurrogate code then none
              else scan ((Utf8.ofScalar code).reverse ++ seen) rest
          | _ => none
        else
          match unescape? letter with
          | none => none
          | some byte => scan (byte :: seen) rest
    else if b < 0x20 then none
    else scan (b :: seen) rest

/-- Reads a literal at the front of a text: what it stands for, and what follows it. -/
def decode? : Text → Option (Text × Text)
  | [] => none
  | b :: rest => if b = mark then scan [] rest else none

/-! ### What is written is read back -/

/-- Every escape that `shortEscape?` writes is one that `unescape?` reads. -/
theorem unescape?_of_shortEscape? {b letter : UInt8} (h : shortEscape? b = some letter) :
    letter ≠ letterU ∧ unescape? letter = some b := by
  unfold shortEscape? at h
  repeat' split at h
  all_goals simp only [Option.some.injEq, reduceCtorEq] at h
  all_goals subst_vars; decide

theorem scan_mark (seen rest : Text) : scan seen (mark :: rest) = some (seen.reverse, rest) := by
  rw [scan.eq_def]; simp

theorem scan_plain {b : UInt8} (hmark : b ≠ mark) (hslash : b ≠ backslash) (hlow : ¬ b < 0x20)
    (seen rest : Text) : scan seen (b :: rest) = scan (b :: seen) rest := by
  rw [scan.eq_def]; simp [hmark, hslash, hlow]

theorem scan_shortEscape {b letter : UInt8} (hu : letter ≠ letterU)
    (h : unescape? letter = some b) (seen rest : Text) :
    scan seen (backslash :: letter :: rest) = scan (b :: seen) rest := by
  rw [scan.eq_def]; simp [hu, h, show backslash ≠ mark by decide]

theorem scan_code {a b c d : UInt8} {code : Nat} (h : hexCode? a b c d = some code)
    (hhigh : isHighSurrogate code = false) (hlow : isLowSurrogate code = false)
    (seen rest : Text) :
    scan seen (backslash :: letterU :: a :: b :: c :: d :: rest) =
      scan ((Utf8.ofScalar code).reverse ++ seen) rest := by
  rw [scan.eq_def]; simp [h, hhigh, hlow, show backslash ≠ mark by decide]

/-- The code written for a byte below 0x20 is read back as that byte. -/
theorem hexCode?_hexDigit {b : UInt8} (h : b < 0x20) :
    hexCode? 0x30 0x30 (hexDigit (b / 16)) (hexDigit (b % 16)) = some b.toNat ∧
      Utf8.ofScalar b.toNat = [b] ∧
      isHighSurrogate b.toNat = false ∧ isLowSurrogate b.toNat = false := by
  have all : ∀ k : Fin 32,
      hexCode? 0x30 0x30 (hexDigit (UInt8.ofNat k / 16)) (hexDigit (UInt8.ofNat k % 16)) =
        some k.val ∧ Utf8.ofScalar k.val = [UInt8.ofNat k] ∧
        isHighSurrogate k.val = false ∧ isLowSurrogate k.val = false := by decide
  have hlt : b.toNat < 32 := by simpa [UInt8.lt_iff_toNat_lt] using h
  simpa using all ⟨b.toNat, hlt⟩

/-- A byte written by `encodeByte` is read back as itself. -/
theorem scan_encodeByte (seen : Text) (b : UInt8) (rest : Text) :
    scan seen (encodeByte b ++ rest) = scan (b :: seen) rest := by
  unfold encodeByte
  split
  · next letter h =>
    obtain ⟨hu, hread⟩ := unescape?_of_shortEscape? h
    exact scan_shortEscape hu hread seen rest
  · next h =>
    split
    · next hb =>
      obtain ⟨hcode, hbyte, hhigh, hlow⟩ := hexCode?_hexDigit hb
      rw [show b :: seen = (Utf8.ofScalar b.toNat).reverse ++ seen by simp [hbyte]]
      exact scan_code hcode hhigh hlow seen rest
    · next hb =>
      refine scan_plain ?_ ?_ hb seen rest
      · rintro rfl
        exact absurd h (by decide)
      · rintro rfl
        exact absurd h (by decide)

theorem scan_flatMap_encodeByte (s seen rest : Text) :
    scan seen (s.flatMap encodeByte ++ mark :: rest) = some (seen.reverse ++ s, rest) := by
  induction s generalizing seen with
  | nil => simp [scan_mark]
  | cons b s ih =>
    rw [List.flatMap_cons, List.append_assoc, scan_encodeByte, ih]
    simp

/-- A literal is read back as the text it was written for, and nothing after it is read. -/
@[simp] theorem decode?_encode (s rest : Text) : decode? (encode s ++ rest) = some (s, rest) := by
  simp [encode, decode?, scan_flatMap_encodeByte]

end GraphQuery.Quoted
