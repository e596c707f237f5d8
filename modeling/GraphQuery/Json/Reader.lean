import GraphQuery.Checked
import GraphQuery.Json.Value
import GraphQuery.Text.Decimal
import GraphQuery.Text.Quoted

/-!
# Values of JSON texts

`Value.ofText` reads a text that is one JSON value between blanks, and `Value.ofPrefix` one that
begins with a value, whatever follows it. A byte order mark may stand in front of everything else,
and a text that is read as a whole may as well end with a zero byte.

A whole number without a sign that fits 64 bits is held unsigned, one with a minus that fits is held
signed, and every other number is the nearest double. Strings have to be UTF-8 once their escapes
are replaced. The later of two members of one key stays.

A text has no value where it is not JSON, or where a number in it is too large for a double
(`Json.ReadFault`). The two are different faults, and the first that the reader meets counts.

Every reader takes what it needs off the front of the text and returns the rest. Each step down and
each further item uses up at least one byte for every two units of fuel, so twice the length of the
text is always enough.
-/

namespace GraphQuery

namespace Json

/-- Why a text has no value. -/
inductive ReadFault where
  /-- The text is not JSON. -/
  | malformed
  /-- A number is too large for a double. -/
  | outOfRange
  deriving DecidableEq, Repr

/-- Blank, tab, line feed and carriage return may stand between the parts of a text. -/
def isBlank (b : UInt8) : Bool :=
  b == 0x20 || b == 0x09 || b == 0x0a || b == 0x0d

/-- The text after its leading blanks. -/
def skipBlanks (s : Text) : Text :=
  s.dropWhile isBlank

/-- The text after a word that it begins with. -/
def afterWord? (word : Text) (s : Text) : Option Text :=
  List.isPrefixOf? word s

/-- The UTF-8 bytes of the byte order mark. -/
def byteOrderMark : Text :=
  [0xef, 0xbb, 0xbf]

/-- The text after the byte order mark that it may begin with. -/
def skipMark (s : Text) : Text :=
  (afterWord? byteOrderMark s).getD s

/-- The text after a byte that it begins with, blanks aside. -/
def afterByte? (b : UInt8) (s : Text) : Option Text :=
  match skipBlanks s with
  | [] => none
  | c :: rest => if c = b then some rest else none

/-- A quoted UTF-8 string at the front of a text. -/
def readString? (s : Text) : Option (Text × Text) :=
  match Quoted.decode? s with
  | some (content, rest) => if Utf8.valid content then some (content, rest) else none
  | none => none

/-! ### Numbers -/

/-- The leading decimal digits of a text and what follows them. -/
def readDigits (s : Text) : Text × Text :=
  (s.takeWhile isDigit, s.dropWhile isDigit)

/-- The digits of a whole number: a single zero, or digits that do not begin with a zero. -/
def readWhole? (s : Text) : Option (Text × Text) :=
  match s with
  | [] => none
  | b :: rest =>
    if b = 0x30 then some ([b], rest)
    else if isDigit b then some (readDigits s)
    else none

/-- The digits after a point; no digits where there is no point. -/
def readFraction? (s : Text) : Option (Text × Text) :=
  match s with
  | [] => some ([], s)
  | b :: rest =>
    if b = 0x2e then
      let (digits, rest) := readDigits rest
      if digits.isEmpty then none else some (digits, rest)
    else some ([], s)

/-- A minus or plus sign, whether it is a minus, and what follows it. -/
def readSign (s : Text) : Bool × Text :=
  match s with
  | [] => (false, s)
  | b :: rest => if b = 0x2d then (true, rest) else if b = 0x2b then (false, rest) else (false, s)

/-- The exponent after its letter, where there is one. -/
def readExponent? (s : Text) : Option (Option Int × Text) :=
  match s with
  | [] => some (none, s)
  | b :: rest =>
    if b = 0x65 ∨ b = 0x45 then
      let (minus, rest) := readSign rest
      let (digits, rest) := readDigits rest
      if digits.isEmpty then none
      else
        let power : Int := ofDecimal digits
        some (some (if minus then -power else power), rest)
    else some (none, s)

/-- A whole number in the form that its sign and size ask for. -/
def wholeNumber? (minus : Bool) (n : Nat) : Option Value :=
  if minus then
    if n ≤ 0x8000000000000000 then some (.signed (Int64.ofInt (-(n : Int))))
    else (Binary64.ofScientific? true n 0).map .double
  else
    if n < UInt64.size then some (.unsigned (UInt64.ofNat n))
    else (Binary64.ofScientific? false n 0).map .double

/-- A number with an exponent or digits after its point is a double; any other is whole. -/
def numberOf? (minus : Bool) (whole fraction : Text) (exponent : Option Int) : Option Value :=
  if fraction.isEmpty ∧ exponent.isNone then wholeNumber? minus (ofDecimal whole)
  else
    let power : Int := exponent.getD 0 - fraction.length
    (Binary64.ofScientific? minus (ofDecimal (whole ++ fraction)) power).map .double

/-- A number at the front of a text. Its size is looked at after its last digit. -/
def readNumber (s : Text) : Except ReadFault (Value × Text) := do
  let (minus, s) := match s with
    | [] => (false, s)
    | b :: rest => if b = 0x2d then (true, rest) else (false, s)
  let (whole, s) ← orFault (readWhole? s) .malformed
  let (fraction, s) ← orFault (readFraction? s) .malformed
  let (exponent, s) ← orFault (readExponent? s) .malformed
  let v ← orFault (numberOf? minus whole fraction exponent) .outOfRange
  pure (v, s)

/-- A number or one of the three words at the front of a text. -/
def readScalar (s : Text) : Except ReadFault (Value × Text) :=
  match afterWord? (utf8 "null") s with
  | some rest => .ok (.null, rest)
  | none =>
    match afterWord? (utf8 "true") s with
    | some rest => .ok (.bool true, rest)
    | none =>
      match afterWord? (utf8 "false") s with
      | some rest => .ok (.bool false, rest)
      | none => readNumber s

/-! ### Values -/

mutual

/-- A value at the front of a text, blanks aside. -/
def readValue : Nat → Text → Except ReadFault (Value × Text)
  | 0, _ => .error .malformed
  | fuel + 1, s =>
    match skipBlanks s with
    | [] => .error .malformed
    | b :: rest =>
      if b = 0x22 then
        (orFault (readString? (b :: rest)) .malformed).map fun (content, rest) =>
          (.string content, rest)
      else if b = 0x5b then
        match afterByte? 0x5d rest with
        | some rest => .ok (.array [], rest)
        | none => (readItems fuel rest).map fun (items, rest) => (.array items, rest)
      else if b = 0x7b then
        match afterByte? 0x7d rest with
        | some rest => .ok (.object [], rest)
        | none =>
          (readMembers fuel rest).map fun (members, rest) => (Value.ofMembers members, rest)
      else readScalar (b :: rest)

/-- The items of an array up to its closing bracket, at least one. -/
def readItems : Nat → Text → Except ReadFault (List Value × Text)
  | 0, _ => .error .malformed
  | fuel + 1, s => do
    let (v, s) ← readValue fuel s
    match afterByte? 0x2c s with
    | some s =>
      let (items, s) ← readItems fuel s
      pure (v :: items, s)
    | none =>
      let s ← orFault (afterByte? 0x5d s) .malformed
      pure ([v], s)

/-- The members of an object up to its closing brace, at least one, in the order of the text. -/
def readMembers : Nat → Text → Except ReadFault (List (Text × Value) × Text)
  | 0, _ => .error .malformed
  | fuel + 1, s => do
    let (key, s) ← orFault (readString? (skipBlanks s)) .malformed
    let s ← orFault (afterByte? 0x3a s) .malformed
    let (v, s) ← readValue fuel s
    match afterByte? 0x2c s with
    | some s =>
      let (members, s) ← readMembers fuel s
      pure ((key, v) :: members, s)
    | none =>
      let s ← orFault (afterByte? 0x7d s) .malformed
      pure ([(key, v)], s)

end

/-- Whether a text ends, blanks aside. A zero byte ends it as well. -/
def isAtEnd (s : Text) : Bool :=
  match skipBlanks s with
  | [] => true
  | b :: _ => b == 0

/-- The value at the beginning of a text, behind the mark that it may begin with. -/
def readText (s : Text) : Except ReadFault (Value × Text) :=
  readValue (2 * s.length + 2) (skipMark s)

end Json

namespace Value

/-- The value of a text that is one JSON value between blanks. -/
def ofText (s : Text) : Except Json.ReadFault Value := do
  let (v, rest) ← Json.readText s
  require (Json.isAtEnd rest) .malformed
  pure v

/-- The value that a text begins with. -/
def ofPrefix (s : Text) : Except Json.ReadFault Value := do
  let (v, _) ← Json.readText s
  pure v

/-- The value of a JSON text, where it has one. -/
def ofText? (s : Text) : Option Value :=
  (ofText s).toOption

end Value

end GraphQuery
