/-!
# Texts

Names, literals and whole statements are byte strings. Most of them are UTF-8, but nothing here
relies on it: a text that is not UTF-8 is carried as it is until a rule asks (`Utf8.valid`).

* `utf8` writes a Lean string as a text.
* `Text.joinWith` puts a separator between the parts of a list.
-/

namespace GraphQuery

/-- A text is a byte string, not necessarily UTF-8. -/
abbrev Text := List UInt8

/-- The UTF-8 bytes of a string. -/
def utf8 (s : String) : Text :=
  s.toList.flatMap String.utf8EncodeChar

theorem toByteArray_utf8 (s : String) : (utf8 s).toByteArray = s.toByteArray := by
  have h : s.toList.utf8Encode = s.toByteArray := by simp
  rw [← h]
  rfl

/-- Strings are told apart by their bytes. -/
@[simp] theorem utf8_inj {s t : String} : utf8 s = utf8 t ↔ s = t := by
  constructor
  · intro h
    apply String.toByteArray_inj.mp
    rw [← toByteArray_utf8 s, ← toByteArray_utf8 t, h]
  · rintro rfl
    rfl

namespace Text

/-- Compares two texts byte by byte, as the order of object members does. -/
def precedes (a b : Text) : Bool :=
  decide (a < b)

/-- The parts in order, with the separator between each two neighbours. -/
def joinWith (separator : Text) : List Text → Text
  | [] => []
  | [part] => part
  | part :: next :: rest => part ++ separator ++ joinWith separator (next :: rest)

@[simp] theorem joinWith_nil (separator : Text) : joinWith separator [] = [] := rfl

@[simp] theorem joinWith_singleton (separator part : Text) :
    joinWith separator [part] = part := rfl

theorem joinWith_cons {separator part : Text} {rest : List Text} (h : rest ≠ []) :
    joinWith separator (part :: rest) = part ++ separator ++ joinWith separator rest := by
  cases rest with
  | nil => exact absurd rfl h
  | cons next rest => rfl

/-- Every part but the first stands behind a separator. -/
theorem joinWith_cons_eq_flatMap (separator part : Text) (rest : List Text) :
    joinWith separator (part :: rest) = part ++ rest.flatMap (separator ++ ·) := by
  induction rest generalizing part with
  | nil => simp
  | cons next rest ih =>
    rw [joinWith_cons (by simp), ih, List.flatMap_cons]
    simp only [List.append_assoc]

/-- Surrounds a text by single quotation marks, as messages show names. -/
def inMarks (s : Text) : Text :=
  utf8 "'" ++ s ++ utf8 "'"

/-- The part of a text before its first zero byte. -/
def beforeZero (s : Text) : Text :=
  s.takeWhile (· != 0)

/-- Whether a text ends in another. -/
def endsIn (s ending : Text) : Bool :=
  ending.isSuffixOf s

/-- Whether a text begins with another. -/
def beginsWith (s beginning : Text) : Bool :=
  beginning.isPrefixOf s

/-- An ASCII capital as its small letter; every other byte as it is. -/
def lowerByte (b : UInt8) : UInt8 :=
  if 0x41 ≤ b ∧ b ≤ 0x5a then b + 0x20 else b

/-- A text with its ASCII capitals made small. -/
def lower (s : Text) : Text :=
  s.map lowerByte

end Text

end GraphQuery
