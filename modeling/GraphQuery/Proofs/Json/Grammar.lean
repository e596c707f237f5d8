import GraphQuery.Json.Reader
import GraphQuery.Proofs.Filter.LiteralRecovery
import GraphQuery.Proofs.Text.Quoted
import Mathlib.Data.List.Forall2

/-!
# The grammar of JSON texts

Which texts are JSON can be said without reading them. The rules here are those of the format, about
a text and the parts that it is put together from; blanks may stand around every part.

* `Json.IsText` is the rule of whole texts: UTF-8, and one value between blanks.
* `Json.IsValue`, `Json.IsElement` and `Json.IsMember` are the rules of values, of values between
  blanks and of the members of objects. `Json.IsNumber` and `Json.IsString` are those of what has no
  parts.
* `Value.FollowsLiterals` is what a relation between values and texts has to keep along one value,
  and `Value.FollowsLiterals.of_literalWithin` is the induction that it carries.
* `Value.DoubleFree.isText_literal`: the literal of a value without doubles is JSON.
-/

namespace GraphQuery

namespace Json

/-! ### Rules -/

def IsBlanks (s : Text) : Prop :=
  ∀ b ∈ s, isBlank b = true

def isHexDigit (b : UInt8) : Bool :=
  isDigit b || (decide (0x41 ≤ b) && decide (b ≤ 0x46)) || (decide (0x61 ≤ b) && decide (b ≤ 0x66))

/-- A letter that stands for a character, or four digits of its code. -/
inductive IsEscape : Text → Prop where
  | short {letter : UInt8} : letter ∈ utf8 "\"\\/bfnrt" → IsEscape [Quoted.backslash, letter]
  | code {digits : Text} : digits.length = 4 → (∀ b ∈ digits, isHexDigit b = true) →
      IsEscape (Quoted.backslash :: Quoted.letterU :: digits)

/-- What stands inside a string: an escape, or any byte but marks, backslashes and controls. -/
inductive IsCharacter : Text → Prop where
  | plain {b : UInt8} : 0x20 ≤ b → b ≠ Quoted.mark → b ≠ Quoted.backslash → IsCharacter [b]
  | escape {s : Text} : IsEscape s → IsCharacter s

/-- Characters between marks. -/
inductive IsString : Text → Prop where
  | intro {characters : List Text} : (∀ s ∈ characters, IsCharacter s) →
      IsString (Quoted.mark :: characters.flatten ++ [Quoted.mark])

/-- Digits, at least one. -/
def IsDigits (s : Text) : Prop :=
  s ≠ [] ∧ ∀ b ∈ s, isDigit b = true

/-- Digits that begin with a zero only where there is no other. -/
def IsInteger (s : Text) : Prop :=
  IsDigits s ∧ (s.head? = some 0x30 → s = [0x30])

/-- A point and digits, or nothing. -/
def IsFraction (s : Text) : Prop :=
  s = [] ∨ ∃ digits, IsDigits digits ∧ s = utf8 "." ++ digits

/-- A letter, a sign that may be left out, and digits, or nothing. -/
def IsExponent (s : Text) : Prop :=
  s = [] ∨ ∃ letter ∈ [utf8 "e", utf8 "E"], ∃ sign ∈ [[], utf8 "+", utf8 "-"], ∃ digits,
    IsDigits digits ∧ s = letter ++ sign ++ digits

inductive IsNumber : Text → Prop where
  | intro {sign whole fraction exponent : Text} : sign ∈ [[], utf8 "-"] → IsInteger whole →
      IsFraction fraction → IsExponent exponent →
      IsNumber (sign ++ whole ++ fraction ++ exponent)

mutual

/-- The texts of values. Commas stand between the parts of arrays and objects. -/
inductive IsValue : Text → Prop where
  | word {w : Text} : w ∈ [utf8 "null", utf8 "true", utf8 "false"] → IsValue w
  | number {s : Text} : IsNumber s → IsValue s
  | string {s : Text} : IsString s → IsValue s
  | emptyArray {blanks : Text} : IsBlanks blanks → IsValue (utf8 "[" ++ blanks ++ utf8 "]")
  | array {parts : List Text} : parts ≠ [] → (∀ part ∈ parts, IsElement part) →
      IsValue (utf8 "[" ++ Text.joinWith (utf8 ",") parts ++ utf8 "]")
  | emptyObject {blanks : Text} : IsBlanks blanks →
      IsValue (utf8 "\x7b" ++ blanks ++ utf8 "\x7d")
  | object {parts : List Text} : parts ≠ [] → (∀ part ∈ parts, IsMember part) →
      IsValue (utf8 "\x7b" ++ Text.joinWith (utf8 ",") parts ++ utf8 "\x7d")

/-- A value between blanks. -/
inductive IsElement : Text → Prop where
  | intro {before s after : Text} : IsBlanks before → IsValue s → IsBlanks after →
      IsElement (before ++ s ++ after)

/-- A key, a colon and a value, with blanks around them. -/
inductive IsMember : Text → Prop where
  | intro {before key after s : Text} : IsBlanks before → IsString key → IsBlanks after →
      IsElement s → IsMember (before ++ key ++ after ++ utf8 ":" ++ s)

end

/-- JSON is UTF-8. -/
structure IsText (s : Text) : Prop where
  valid : Utf8.valid s = true
  isElement : IsElement s

/-! ### Strings -/

theorem isHexDigit_hexDigit {n : UInt8} (h : n < 16) : isHexDigit (Quoted.hexDigit n) = true := by
  have all : ∀ k : Fin 16, isHexDigit (Quoted.hexDigit (UInt8.ofNat k)) = true := by decide
  have hlt : n.toNat < 16 := by simpa [UInt8.lt_iff_toNat_lt] using h
  simpa using all ⟨n.toNat, hlt⟩

theorem isEscape_of_shortEscape? {b letter : UInt8} (h : Quoted.shortEscape? b = some letter) :
    b ≤ 0x7f ∧ IsEscape [Quoted.backslash, letter] := by
  unfold Quoted.shortEscape? at h
  repeat' split at h
  all_goals simp only [Option.some.injEq, reduceCtorEq] at h
  all_goals subst_vars; exact ⟨by decide, .short (by decide)⟩

/-- A byte stands for itself, or it is an ASCII byte that is escaped. -/
theorem encodeByte_cases (b : UInt8) :
    (Quoted.encodeByte b = [b] ∧ IsCharacter [b]) ∨
      (b ≤ 0x7f ∧ IsEscape (Quoted.encodeByte b)) := by
  unfold Quoted.encodeByte
  split
  · next letter h => exact Or.inr (isEscape_of_shortEscape? h)
  · next h =>
    split
    · next hb =>
      refine Or.inr ⟨?_, .code rfl ?_⟩
      · exact UInt8.le_trans (UInt8.le_of_lt hb) (by decide)
      · simp only [List.forall_mem_cons]
        exact ⟨by decide, by decide, isHexDigit_hexDigit (Quoted.div_sixteen_lt b),
          isHexDigit_hexDigit (Quoted.mod_sixteen_lt b), List.forall_mem_nil _⟩
    · next hb =>
      refine Or.inl ⟨rfl, .plain (UInt8.not_lt.mp hb) ?_ ?_⟩
      · rintro rfl
        exact absurd h (by decide)
      · rintro rfl
        exact absurd h (by decide)

theorem isString_encode (s : Text) : IsString (Quoted.encode s) := by
  rw [Quoted.encode, List.flatMap]
  refine .intro fun c hc => ?_
  obtain ⟨b, -, rfl⟩ := List.mem_map.mp hc
  rcases encodeByte_cases b with ⟨heq, hb⟩ | ⟨-, hb⟩
  · exact heq ▸ hb
  · exact .escape hb

theorem le_of_isHexDigit {b : UInt8} (h : isHexDigit b = true) : b ≤ 0x7f := by
  simp only [isHexDigit, isDigit, Bool.or_eq_true, Bool.and_eq_true, decide_eq_true_eq,
    UInt8.le_iff_toNat_le, UInt8.toNat_ofNat] at h ⊢
  omega

theorem IsEscape.le_of_mem {s : Text} (h : IsEscape s) {b : UInt8} (hb : b ∈ s) : b ≤ 0x7f := by
  cases h with
  | short hletter =>
    have hletters : ∀ b ∈ utf8 "\"\\/bfnrt", b ≤ 0x7f := by decide +kernel
    simp only [List.mem_cons, List.not_mem_nil, or_false] at hb
    rcases hb with rfl | rfl
    · decide
    · exact hletters b hletter
  | code _ hdigits =>
    rcases List.mem_cons.mp hb with rfl | hb
    · decide
    rcases List.mem_cons.mp hb with rfl | hb
    · decide
    · exact le_of_isHexDigit (hdigits b hb)

theorem IsEscape.eq_cons {s : Text} (h : IsEscape s) : ∃ rest, s = Quoted.backslash :: rest := by
  cases h with
  | short _ => exact ⟨_, rfl⟩
  | code _ _ => exact ⟨_, rfl⟩

/-- Escaping does not change whether a text is UTF-8. -/
theorem validFrom_flatMap_encodeByte {owed : List Utf8.ByteRange}
    (howed : ∀ r ∈ owed, 0x80 ≤ r.first) (s : Text) :
    Utf8.validFrom owed (s.flatMap Quoted.encodeByte) = Utf8.validFrom owed s := by
  induction s generalizing owed with
  | nil => rfl
  | cons b s ih =>
    rw [List.flatMap_cons]
    rcases encodeByte_cases b with ⟨heq, -⟩ | ⟨hb, hescape⟩
    · rw [heq, List.singleton_append]
      cases owed with
      | nil =>
        simp only [Utf8.validFrom]
        cases hlead : Utf8.owed? b with
        | none => rfl
        | some owed => exact ih (Utf8.le_first_of_owed? hlead)
      | cons r owed =>
        rw [Utf8.validFrom, Utf8.validFrom, ih fun r hr => howed r (List.mem_cons_of_mem _ hr)]
    · cases owed with
      | nil =>
        have hvalid := Utf8.valid_append (Utf8.valid_of_forall_le fun _ => hescape.le_of_mem)
          (s.flatMap Quoted.encodeByte)
        exact (hvalid.trans (ih (List.forall_mem_nil _))).trans (Utf8.valid_cons_ascii hb).symm
      | cons r owed =>
        obtain ⟨rest, hrest⟩ := hescape.eq_cons
        have hr := howed r List.mem_cons_self
        rw [hrest, List.cons_append, Utf8.validFrom_cons_of_le hr (by decide),
          Utf8.validFrom_cons_of_le hr hb]

theorem valid_encode {s : Text} (h : Utf8.valid s = true) :
    Utf8.valid (Quoted.encode s) = true := by
  have hinside : Utf8.valid (s.flatMap Quoted.encodeByte) = true :=
    (validFrom_flatMap_encodeByte (List.forall_mem_nil _) s).trans h
  rw [Quoted.encode, List.cons_append, Utf8.valid_cons_ascii (by decide), Utf8.valid_append hinside]
  rfl

/-! ### Numbers -/

theorem isInteger_decimal (n : Nat) : IsInteger (decimal n) := by
  refine ⟨⟨decimal_ne_nil n, fun _ => isDigit_of_mem_decimal⟩, fun hhead => ?_⟩
  rcases Nat.eq_zero_or_pos n with rfl | hn
  · rfl
  · obtain ⟨b, digits, hdecimal, -, hb⟩ := decimal_eq_cons hn
    rw [hdecimal] at hhead
    exact absurd (Option.some.inj hhead) hb

/-- A whole number needs neither fraction nor exponent. -/
theorem isNumber_of_isInteger {sign whole : Text} (hsign : sign ∈ [[], utf8 "-"])
    (h : IsInteger whole) : IsNumber (sign ++ whole) := by
  have hnumber := IsNumber.intro hsign h (Or.inl rfl) (Or.inl rfl)
  rwa [List.append_nil, List.append_nil] at hnumber

theorem isNumber_signedDecimal (n : Int) : IsNumber (signedDecimal n) := by
  cases n with
  | ofNat n => exact isNumber_of_isInteger List.mem_cons_self (isInteger_decimal n)
  | negSucc n =>
    have hsign : utf8 "-" ∈ [[], utf8 "-"] := by decide
    exact isNumber_of_isInteger hsign (isInteger_decimal (n + 1))

theorem valid_signedDecimal (n : Int) : Utf8.valid (signedDecimal n) = true := by
  refine Utf8.valid_of_forall_le fun b hb => ?_
  rcases mem_signedDecimal hb with rfl | hdigit
  · decide
  · exact le_of_isHexDigit (by rw [isHexDigit, hdigit]; rfl)

/-! ### Arrays and objects -/

theorem IsValue.isElement {s : Text} (h : IsValue s) : IsElement s := by
  have helement := IsElement.intro (List.forall_mem_nil _) h (List.forall_mem_nil _)
  rwa [List.nil_append, List.append_nil] at helement

theorem isBlanks_cons {s : Text} (h : IsBlanks s) : IsBlanks (0x20 :: s) :=
  List.forall_mem_cons.mpr ⟨by decide, h⟩

theorem IsElement.blank {s : Text} (h : IsElement s) : IsElement (0x20 :: s) := by
  obtain ⟨hbefore, hs, hafter⟩ := h
  exact .intro (isBlanks_cons hbefore) hs hafter

theorem IsMember.blank {s : Text} (h : IsMember s) : IsMember (0x20 :: s) := by
  obtain ⟨hbefore, hkey, hafter, hs⟩ := h
  exact .intro (isBlanks_cons hbefore) hkey hafter hs

/-- A blank behind a comma belongs to the part behind it. -/
theorem joinWith_comma_blank (part : Text) (parts : List Text) :
    Text.joinWith (utf8 ", ") (part :: parts) =
      Text.joinWith (utf8 ",") (part :: parts.map (0x20 :: ·)) := by
  rw [Text.joinWith_cons_eq_flatMap, Text.joinWith_cons_eq_flatMap, List.flatMap_map]
  rfl

theorem forall_mem_blank (Rule : Text → Prop) (hblank : ∀ s, Rule s → Rule (0x20 :: s))
    {part : Text} {parts : List Text} (h : ∀ s ∈ part :: parts, Rule s) :
    ∀ s ∈ part :: parts.map (0x20 :: ·), Rule s := by
  obtain ⟨hpart, hparts⟩ := List.forall_mem_cons.mp h
  exact List.forall_mem_cons.mpr ⟨hpart, List.forall_mem_map.mpr fun s hs => hblank s (hparts s hs)⟩

theorem isValue_array {parts : List Text} (h : ∀ part ∈ parts, IsElement part) :
    IsValue (utf8 "[" ++ Text.joinWith (utf8 ", ") parts ++ utf8 "]") := by
  cases parts with
  | nil => exact .emptyArray (List.forall_mem_nil _)
  | cons part parts =>
    rw [joinWith_comma_blank]
    exact .array (List.cons_ne_nil _ _) (forall_mem_blank IsElement (fun _ => .blank) h)

theorem isValue_object {parts : List Text} (h : ∀ part ∈ parts, IsMember part) :
    IsValue (utf8 "\x7b" ++ Text.joinWith (utf8 ", ") parts ++ utf8 "\x7d") := by
  cases parts with
  | nil => exact .emptyObject (List.forall_mem_nil _)
  | cons part parts =>
    rw [joinWith_comma_blank]
    exact .object (List.cons_ne_nil _ _) (forall_mem_blank IsMember (fun _ => .blank) h)

end Json

/-! ### Literals -/

namespace Value

/-- A member stands as its key, a colon and a text of its value. -/
inductive MemberText (R : Value → Text → Prop) : Text × Value → Text → Prop where
  | intro {key text : Text} {v : Value} : Utf8.valid key = true → R v text →
      MemberText R (key, v) (Quoted.encode key ++ utf8 ": " ++ text)

/-- A relation between values and texts that holds of words and strings, and of arrays and objects
where it holds of their parts. -/
structure FollowsLiterals (R : Value → Text → Prop) : Prop where
  word {v : Value} {w : Text} : v.HasWord w → R v w
  string {s : Text} : Utf8.valid s = true → R (.string s) (Quoted.encode s)
  array {items : List Value} {parts : List Text} : List.Forall₂ R items parts →
    R (.array items) (utf8 "[" ++ Text.joinWith (utf8 ", ") parts ++ utf8 "]")
  object {members : List (Text × Value)} {parts : List Text} :
    List.Forall₂ (MemberText R) members parts →
    R (.object members) (utf8 "\x7b" ++ Text.joinWith (utf8 ", ") parts ++ utf8 "\x7d")

theorem forall₂_of_itemLiterals {R : Value → Text → Prop} {levels : Nat} {items : List Value}
    {parts : List Text} (hR : ∀ v ∈ items, ∀ {t}, v.literalWithin levels = .ok t → R v t)
    (h : itemLiterals levels items = .ok parts) : List.Forall₂ R items parts := by
  induction items generalizing parts with
  | nil =>
    cases h
    exact .nil
  | cons v rest ih =>
    obtain ⟨part, hpart, hrest⟩ := bind_eq_ok_iff.mp h
    obtain ⟨more, hmore, heq⟩ := bind_eq_ok_iff.mp hrest
    cases heq
    exact .cons (hR v List.mem_cons_self hpart)
      (ih (fun w hw => hR w (List.mem_cons_of_mem _ hw)) hmore)

theorem forall₂_of_memberLiterals {R : Value → Text → Prop} {levels : Nat}
    {members : List (Text × Value)} {parts : List Text}
    (hR : ∀ m ∈ members, ∀ {t}, m.2.literalWithin levels = .ok t → R m.2 t)
    (h : memberLiterals levels members = .ok parts) :
    List.Forall₂ (MemberText R) members parts := by
  induction members generalizing parts with
  | nil =>
    cases h
    exact .nil
  | cons m rest ih =>
    obtain ⟨name, hname, hm⟩ := bind_eq_ok_iff.mp h
    obtain ⟨text, htext, hrest⟩ := bind_eq_ok_iff.mp hm
    obtain ⟨more, hmore, heq⟩ := bind_eq_ok_iff.mp hrest
    cases heq
    obtain ⟨hkey, rfl⟩ := textLiteral_eq_ok_iff.mp hname
    exact .cons (.intro hkey (hR m List.mem_cons_self htext))
      (ih (fun n hn => hR n (List.mem_cons_of_mem _ hn)) hmore)

/-- **Such a relation holds of every value without doubles and its literal.** -/
theorem FollowsLiterals.of_literalWithin {R : Value → Text → Prop} (hR : FollowsLiterals R)
    {v : Value} {levels : Nat} {t : Text} (hv : v.DoubleFree)
    (h : v.literalWithin levels = .ok t) : R v t := by
  induction hv generalizing levels t with
  | null =>
    cases h
    exact hR.word .null
  | bool b =>
    cases h
    exact hR.word (.bool b)
  | signed n =>
    cases h
    exact hR.word (.whole rfl)
  | unsigned n =>
    cases h
    exact hR.word (.whole (n := n.toNat) rfl)
  | string s =>
    obtain ⟨hvalid, rfl⟩ := textLiteral_eq_ok_iff.mp h
    exact hR.string hvalid
  | array _ ih =>
    rw [literalWithin] at h
    split at h
    · cases h
    obtain ⟨parts, hparts, heq⟩ := bind_eq_ok_iff.mp h
    cases heq
    exact hR.array (forall₂_of_itemLiterals (fun v hv => ih v hv) hparts)
  | object _ ih =>
    rw [literalWithin] at h
    split at h
    · cases h
    obtain ⟨parts, hparts, heq⟩ := bind_eq_ok_iff.mp h
    cases heq
    exact hR.object (forall₂_of_memberLiterals (fun m hm => ih m hm) hparts)
  | binary data => cases h
  | discarded => cases h

end Value

namespace Json

theorem isValue_of_hasWord {v : Value} {w : Text} (h : v.HasWord w) : IsValue w := by
  cases h with
  | null => exact .word (by decide)
  | bool b => cases b <;> exact .word (by decide)
  | @whole _ n _ => exact .number (isNumber_signedDecimal n)

theorem valid_of_hasWord {v : Value} {w : Text} (h : v.HasWord w) : Utf8.valid w = true := by
  cases h with
  | null => decide
  | bool b => cases b <;> decide
  | @whole _ n _ => exact valid_signedDecimal n

theorem valid_of_memberText {m : Text × Value} {part : Text}
    (h : Value.MemberText (fun _ t => Utf8.valid t = true ∧ IsValue t) m part) :
    Utf8.valid part = true := by
  obtain ⟨hkey, hvalid, -⟩ := h
  rw [List.append_assoc, Utf8.valid_append (valid_encode hkey), Utf8.valid_append (by decide),
    hvalid]

theorem isMember_of_memberText {m : Text × Value} {part : Text}
    (h : Value.MemberText (fun _ t => Utf8.valid t = true ∧ IsValue t) m part) :
    IsMember part := by
  obtain @⟨key, text, v, -, -, htext⟩ := h
  have hmember := IsMember.intro (List.forall_mem_nil _) (isString_encode key)
    (List.forall_mem_nil _) htext.isElement.blank
  have hcolon : utf8 ": " = utf8 ":" ++ [0x20] := by decide
  simpa [hcolon] using hmember

theorem forall_mem_of_forall₂ {α : Type} {R : α → Text → Prop} {Rule : Text → Prop}
    {as : List α} {ts : List Text} (h : List.Forall₂ R as ts) (hR : ∀ a t, R a t → Rule t) :
    ∀ t ∈ ts, Rule t := by
  induction h with
  | nil => exact List.forall_mem_nil _
  | cons ha _ ih => exact List.forall_mem_cons.mpr ⟨hR _ _ ha, ih⟩

/-- Brackets and braces around parts keep a text UTF-8. -/
theorem valid_enclosed {first last : Text} (hfirst : Utf8.valid first = true)
    (hlast : Utf8.valid last = true) {parts : List Text}
    (h : ∀ part ∈ parts, Utf8.valid part = true) :
    Utf8.valid (first ++ Text.joinWith (utf8 ", ") parts ++ last) = true := by
  rw [List.append_assoc, Utf8.valid_append hfirst,
    Utf8.valid_append (Utf8.valid_joinWith (by decide) h), hlast]

/-- The grammar follows the literals. -/
theorem followsLiterals_isValue :
    Value.FollowsLiterals fun _ t => Utf8.valid t = true ∧ IsValue t where
  word h := ⟨valid_of_hasWord h, isValue_of_hasWord h⟩
  string h := ⟨valid_encode h, .string (isString_encode _)⟩
  array h := by
    have hvalid := forall_mem_of_forall₂ h fun _ _ ht => ht.1
    have hvalue := forall_mem_of_forall₂ h fun _ _ ht => ht.2.isElement
    exact ⟨valid_enclosed (by decide) (by decide) hvalid, isValue_array hvalue⟩
  object h := by
    have hvalid := forall_mem_of_forall₂ h fun _ _ => valid_of_memberText
    have hmember := forall_mem_of_forall₂ h fun _ _ => isMember_of_memberText
    exact ⟨valid_enclosed (by decide) (by decide) hvalid, isValue_object hmember⟩

end Json

/-- **The literal of a value without doubles is JSON.** -/
theorem Value.DoubleFree.isText_literal {v : Value} {t : Text} (hv : v.DoubleFree)
    (h : v.literal = .ok t) : Json.IsText t := by
  obtain ⟨hvalid, hvalue⟩ := Json.followsLiterals_isValue.of_literalWithin hv h
  exact ⟨hvalid, hvalue.isElement⟩

end GraphQuery
