import GraphQuery.Proofs.Text.Numerals
import GraphQuery.Proofs.Text.Quoted
import GraphQuery.Vocabulary
import Mathlib.Data.List.Chain

/-!
# Tokens

The compiler joins texts. What it means by them is a sequence of tokens: words, the literals of
texts, and the bytes that divide them. This module is about such sequences and the texts that they
spell; which tokens a query has is said elsewhere.

* `Token` and `spell`: tokens and the text that they spell.
* `Token.isProper`: words that are no two words, and separators that are no part of a word.
* `Token.isPlain`: proper tokens that no clause begins with.
* `Token.isLiteral`: tokens that can stand in a literal, all of which are plain.
* `Token.read?` takes a token off the front of a text. Where a word ends is seen from the byte that
  follows it, so no two words may stand side by side (`Separated`).
* `spell_injective`: tokens that are proper and separated are told apart by what they spell.
-/

namespace GraphQuery

/-- A piece of a statement. -/
inductive Token where
  /-- A keyword, a name, a number or an expression, as it stands. -/
  | word (w : Text)
  /-- The literal of a text. -/
  | quoted (s : Text)
  /-- A byte that divides words. -/
  | separator (b : UInt8)
  deriving DecidableEq, Repr

namespace Token

/-- The text of a token. -/
def text : Token → Text
  | .word w => w
  | .quoted s => Quoted.encode s
  | .separator b => [b]

/-- A word that the compiler knows. -/
def keyword (w : String) : Token :=
  .word (utf8 w)

/-- The blank between two words. -/
abbrev blank : Token :=
  .separator 0x20

/-- The comma between two parts of a list. -/
abbrev comma : Token :=
  .separator 0x2c

/-- The text that a literal stands for. -/
def quoted? : Token → Option Text
  | .quoted s => some s
  | _ => none

end Token

/-! ### Spelling -/

/-- The text that some tokens spell. -/
def spell (tokens : List Token) : Text :=
  tokens.flatMap Token.text

/-- The texts of the literals among some tokens, in order. -/
def quotedTexts (tokens : List Token) : List Text :=
  tokens.filterMap Token.quoted?

@[simp] theorem spell_nil : spell [] = [] := rfl

@[simp] theorem spell_cons (t : Token) (rest : List Token) :
    spell (t :: rest) = t.text ++ spell rest := rfl

@[simp] theorem spell_append (xs ys : List Token) : spell (xs ++ ys) = spell xs ++ spell ys :=
  List.flatMap_append

@[simp] theorem quotedTexts_nil : quotedTexts [] = [] := rfl

@[simp] theorem quotedTexts_word_cons (w : Text) (rest : List Token) :
    quotedTexts (.word w :: rest) = quotedTexts rest := rfl

@[simp] theorem quotedTexts_quoted_cons (s : Text) (rest : List Token) :
    quotedTexts (.quoted s :: rest) = s :: quotedTexts rest := rfl

@[simp] theorem quotedTexts_separator_cons (b : UInt8) (rest : List Token) :
    quotedTexts (.separator b :: rest) = quotedTexts rest := rfl

@[simp] theorem quotedTexts_append (xs ys : List Token) :
    quotedTexts (xs ++ ys) = quotedTexts xs ++ quotedTexts ys :=
  List.filterMap_append

/-- Parts in order, with the same tokens between each two neighbours. -/
def joinTokens (between : List Token) : List (List Token) → List Token
  | [] => []
  | part :: rest => part ++ rest.flatMap (between ++ ·)

/-- Parts in order, with commas between them. -/
def listTokens (parts : List (List Token)) : List Token :=
  joinTokens [.comma, .blank] parts

theorem spell_joinTokens (between : List Token) (parts : List (List Token)) :
    spell (joinTokens between parts) = Text.joinWith (spell between) (parts.map spell) := by
  cases parts with
  | nil => rfl
  | cons part rest =>
    rw [joinTokens, spell_append, List.map_cons, Text.joinWith_cons_eq_flatMap, List.flatMap_map]
    congr 1
    induction rest with
    | nil => rfl
    | cons next rest ih => simp only [List.flatMap_cons, spell_append, ih]

theorem spell_listTokens (parts : List (List Token)) :
    spell (listTokens parts) = Text.joinWith (utf8 ", ") (parts.map spell) :=
  spell_joinTokens _ parts

theorem quotedTexts_joinTokens {between : List Token} (h : quotedTexts between = [])
    (parts : List (List Token)) :
    quotedTexts (joinTokens between parts) = parts.flatMap quotedTexts := by
  cases parts with
  | nil => rfl
  | cons part rest =>
    rw [joinTokens, quotedTexts_append, List.flatMap_cons]
    congr 1
    induction rest with
    | nil => rfl
    | cons next rest ih =>
      simp only [List.flatMap_cons, quotedTexts_append, h, List.nil_append, ih]

theorem quotedTexts_listTokens (parts : List (List Token)) :
    quotedTexts (listTokens parts) = parts.flatMap quotedTexts :=
  quotedTexts_joinTokens rfl parts

theorem mem_joinTokens {between : List Token} {parts : List (List Token)} {t : Token}
    (h : t ∈ joinTokens between parts) : t ∈ between ∨ ∃ part ∈ parts, t ∈ part := by
  cases parts with
  | nil => cases h
  | cons part rest =>
    rcases List.mem_append.mp h with h | h
    · exact Or.inr ⟨part, List.mem_cons_self, h⟩
    · obtain ⟨next, hnext, h⟩ := List.mem_flatMap.mp h
      rcases List.mem_append.mp h with h | h
      · exact Or.inl h
      · exact Or.inr ⟨next, List.mem_cons_of_mem _ hnext, h⟩

/-- With the tokens between neighbours behind the last part too, every part is treated alike. -/
theorem joinTokens_append_between {between : List Token} {parts : List (List Token)}
    (h : parts ≠ []) : joinTokens between parts ++ between = parts.flatMap (· ++ between) := by
  cases parts with
  | nil => exact absurd rfl h
  | cons part rest =>
    rw [joinTokens, List.flatMap_cons, List.append_assoc, List.append_assoc]
    congr 1
    induction rest with
    | nil => simp
    | cons next rest ih => simp [ih]

/-! ### Words and what divides them -/

/-- The bytes that divide words: the blank, the comma, the colon, parentheses, brackets and
braces. -/
def isSeparator (b : UInt8) : Bool :=
  [0x20, 0x2c, 0x3a, 0x28, 0x29, 0x5b, 0x5d, 0x7b, 0x7d].contains b

/-- The bytes that words are made of. Control bytes divide nothing, but are not part of a word
either. -/
def isWordByte (b : UInt8) : Bool :=
  decide (0x20 < b) && b != Quoted.mark && !isSeparator b

/-- Whether a text is one word. -/
def isWord (w : Text) : Bool :=
  !w.isEmpty && w.all isWordByte

/-- Whether a token is read as what it is: its word is one word, its separator divides words. -/
def Token.isProper : Token → Bool
  | .word w => isWord w
  | .quoted _ => true
  | .separator b => isSeparator b

theorem isWord_iff {w : Text} : isWord w = true ↔ w ≠ [] ∧ ∀ b ∈ w, isWordByte b = true := by
  simp [isWord]

/-- The bytes of words are those that neither open a literal, nor divide words, nor control the
layout. -/
theorem isWordByte_iff {b : UInt8} :
    isWordByte b = true ↔ 0x20 < b ∧ b ≠ Quoted.mark ∧ isSeparator b = false := by
  simp [isWordByte, and_assoc]

/-- Bytes that are neither part of a word nor divide words: marks, and all that controls the layout
but the blank. -/
def isForeign (b : UInt8) : Bool :=
  !isWordByte b && !isSeparator b

/-- A proper token with a foreign byte is the literal of a text. -/
theorem Token.eq_quoted_of_isForeign {t : Token} (ht : t.isProper = true) {b : UInt8}
    (hb : isForeign b = true) (h : b ∈ t.text) : ∃ s, t = .quoted s := by
  simp only [isForeign, Bool.and_eq_true, Bool.not_eq_true'] at hb
  cases t with
  | word w =>
    have hword : isWordByte b = true := (isWord_iff.mp ht).2 b h
    rw [hb.1] at hword
    cases hword
  | quoted s => exact ⟨s, rfl⟩
  | separator c =>
    cases List.mem_singleton.mp h
    have hseparator : isSeparator b = true := ht
    rw [hb.2] at hseparator
    cases hseparator

/-! ### Words that begin clauses -/

/-- The kinds of clauses. -/
inductive ClauseKind where
  | loop
  | prune
  | filter
  | sort
  | limit
  | result
  deriving DecidableEq, Repr

namespace ClauseKind

/-- The word that a clause begins with. -/
def keyword : ClauseKind → Text
  | .loop => utf8 "FOR"
  | .prune => utf8 "PRUNE"
  | .filter => utf8 "FILTER"
  | .sort => utf8 "SORT"
  | .limit => utf8 "LIMIT"
  | .result => utf8 "RETURN"

/-- The kinds of clauses by their words. -/
def vocabulary : Vocabulary ClauseKind where
  name := keyword
  all := [.loop, .prune, .filter, .sort, .limit, .result]
  mem_all := by intro k; cases k <;> decide
  name_inj := by intro k k'; cases k <;> cases k' <;> simp [keyword]

end ClauseKind

/-- Whether a token is the word that a clause begins with. -/
def Token.opensClause : Token → Bool
  | .word w => (ClauseKind.vocabulary.ofName? w).isSome
  | _ => false

/-- Whether a token is read as what it is, and not as the beginning of a clause. -/
def Token.isPlain (t : Token) : Bool :=
  t.isProper && !t.opensClause

theorem Token.opensClause_word_iff {w : Text} :
    (Token.word w).opensClause = true ↔ ∃ k : ClauseKind, w = k.keyword := by
  rw [Token.opensClause, Option.isSome_iff_exists]
  exact exists_congr fun k => ClauseKind.vocabulary.ofName?_eq_some_iff

theorem Token.isPlain_iff {t : Token} :
    t.isPlain = true ↔ t.isProper = true ∧ t.opensClause = false := by
  simp [Token.isPlain]

/-- Whether a byte is a capital letter. -/
def isCapital (b : UInt8) : Bool :=
  decide (0x41 ≤ b) && decide (b ≤ 0x5a)

theorem ClauseKind.isCapital_of_mem_keyword {k : ClauseKind} {b : UInt8} (h : b ∈ k.keyword) :
    isCapital b = true := by
  revert b
  cases k <;> decide +kernel

theorem ClauseKind.isProper_keyword (k : ClauseKind) : (Token.word k.keyword).isProper = true := by
  cases k <;> decide +kernel

/-- A word with a byte that is no capital letter begins no clause. -/
theorem Token.isPlain_word {w : Text} {b : UInt8} (hbytes : ∀ c ∈ w, isWordByte c = true)
    (hb : b ∈ w) (hcapital : isCapital b = false) : (Token.word w).isPlain = true := by
  refine Token.isPlain_iff.mpr ⟨isWord_iff.mpr ⟨List.ne_nil_of_mem hb, hbytes⟩, ?_⟩
  rw [Bool.eq_false_iff, Ne, Token.opensClause_word_iff]
  rintro ⟨k, rfl⟩
  rw [k.isCapital_of_mem_keyword hb] at hcapital
  cases hcapital

/-! ### Tokens of literals -/

/-- The bytes of the words of literals: those of numbers, and small letters. -/
def isLiteralByte (b : UInt8) : Bool :=
  isNumeralByte b || (decide (0x61 ≤ b) && decide (b ≤ 0x7a))

/-- Whether a token can stand in a literal: parentheses cannot, nor can words of other bytes. -/
def Token.isLiteral : Token → Bool
  | .word w => !w.isEmpty && w.all isLiteralByte
  | .quoted _ => true
  | .separator b => isSeparator b && b != 0x28 && b != 0x29

theorem isLiteralByte_plain {b : UInt8} (h : isLiteralByte b = true) :
    isWordByte b = true ∧ isCapital b = false := by
  have all : ∀ k : Fin 256, isLiteralByte (UInt8.ofNat k) = true →
      isWordByte (UInt8.ofNat k) = true ∧ isCapital (UInt8.ofNat k) = false := by decide +kernel
  simpa using all ⟨b.toNat, b.toNat_lt⟩ (by simpa using h)

theorem Token.isPlain_of_isLiteral {t : Token} (h : t.isLiteral = true) : t.isPlain = true := by
  cases t with
  | word w =>
    simp only [isLiteral, Bool.and_eq_true, Bool.not_eq_true', List.isEmpty_eq_false_iff,
      List.all_eq_true] at h
    obtain ⟨hne, hbytes⟩ := h
    obtain ⟨b, hb⟩ := List.exists_mem_of_ne_nil w hne
    exact isPlain_word (fun c hc => (isLiteralByte_plain (hbytes c hc)).1) hb
      (isLiteralByte_plain (hbytes b hb)).2
  | quoted s => rfl
  | separator b =>
    simp only [isLiteral, Bool.and_eq_true] at h
    exact isPlain_iff.mpr ⟨h.1.1, rfl⟩

theorem Token.isLiteral_numeral {w : Text} (hne : w ≠ [])
    (h : ∀ b ∈ w, isNumeralByte b = true) : (Token.word w).isLiteral = true := by
  simp only [isLiteral, Bool.and_eq_true, Bool.not_eq_true', List.isEmpty_eq_false_iff,
    List.all_eq_true]
  exact ⟨hne, fun b hb => by simp [isLiteralByte, h b hb]⟩

theorem Token.isPlain_numeral {w : Text} (hne : w ≠ [])
    (h : ∀ b ∈ w, isNumeralByte b = true) : (Token.word w).isPlain = true :=
  isPlain_of_isLiteral (isLiteral_numeral hne h)

/-! ### Words apart from each other -/

/-- Two tokens that can stand side by side. -/
def Token.Apart : Token → Token → Prop
  | .word _, .word _ => False
  | _, _ => True

/-- No two words stand side by side. -/
def Separated (tokens : List Token) : Prop :=
  tokens.IsChain Token.Apart

@[simp] theorem separated_nil : Separated [] :=
  List.isChain_nil

@[simp] theorem separated_singleton (t : Token) : Separated [t] :=
  List.isChain_singleton t

theorem Token.apart_separator_right (t : Token) (b : UInt8) : t.Apart (.separator b) := by
  cases t <;> trivial

theorem Token.apart_separator_left (b : UInt8) (t : Token) : Token.Apart (.separator b) t := by
  cases t <;> trivial

@[simp] theorem separated_separator_cons {b : UInt8} {rest : List Token} :
    Separated (.separator b :: rest) ↔ Separated rest := by
  rw [Separated, List.isChain_cons]
  exact and_iff_right fun t _ => Token.apart_separator_left b t

/-- Around a separator the two sides do not see each other. -/
@[simp] theorem separated_append_separator {xs ys : List Token} {b : UInt8} :
    Separated (xs ++ .separator b :: ys) ↔ Separated xs ∧ Separated ys := by
  rw [Separated, List.isChain_append]
  change _ ∧ Separated (.separator b :: ys) ∧ _ ↔ _
  rw [separated_separator_cons]
  refine and_congr_right fun _ => and_iff_left fun t _ u hu => ?_
  cases hu
  exact t.apart_separator_right b

@[simp] theorem separated_cons_separator {t : Token} {ys : List Token} {b : UInt8} :
    Separated (t :: .separator b :: ys) ↔ Separated ys := by
  have h : Separated ([t] ++ .separator b :: ys) ↔ Separated [t] ∧ Separated ys :=
    separated_append_separator
  simpa using h

/-- Parts with separators between them do not see each other. -/
theorem separated_joinTokens {b : UInt8} {more : List Token}
    (hmore : ∀ ys, Separated (more ++ ys) ↔ Separated ys) {parts : List (List Token)}
    (h : ∀ part ∈ parts, Separated part) : Separated (joinTokens (.separator b :: more) parts) := by
  cases parts with
  | nil => exact separated_nil
  | cons part rest =>
    rw [joinTokens]
    induction rest generalizing part with
    | nil => simpa using h
    | cons next rest ih =>
      obtain ⟨hpart, hrest⟩ := List.forall_mem_cons.mp h
      rw [List.flatMap_cons, List.append_assoc, List.cons_append, separated_append_separator, hmore]
      exact ⟨hpart, ih next hrest⟩

theorem separated_listTokens {parts : List (List Token)} (h : ∀ part ∈ parts, Separated part) :
    Separated (listTokens parts) :=
  separated_joinTokens (fun _ => separated_separator_cons) h

/-! ### Reading -/

/-- The token at the front of a text and what follows it. A word goes on as long as it can. -/
def Token.read? : Text → Option (Token × Text)
  | [] => none
  | b :: rest =>
    if b = Quoted.mark then
      (Quoted.decode? (b :: rest)).map fun (s, rest) => (.quoted s, rest)
    else if isSeparator b then some (.separator b, rest)
    else some (.word ((b :: rest).takeWhile isWordByte), (b :: rest).dropWhile isWordByte)

/-- What follows a word does not begin with a byte of a word. -/
theorem takeWhile_spell {w : Text} {rest : List Token} (hproper : ∀ t ∈ rest, t.isProper = true)
    (h : Separated (.word w :: rest)) : (spell rest).takeWhile isWordByte = [] := by
  cases rest with
  | nil => rfl
  | cons t rest =>
    cases t with
    | word w' => exact absurd (List.isChain_cons_cons.mp h).1 id
    | quoted s =>
      have hmark : isWordByte Quoted.mark = false := by decide
      simp [Token.text, Quoted.encode, hmark]
    | separator b =>
      have hb : isSeparator b = true := hproper _ List.mem_cons_self
      simp [Token.text, isWordByte, hb]

/-- A proper token is read off the front of what it spells with others. -/
theorem Token.read?_spell_cons {t : Token} {rest : List Token} (ht : t.isProper = true)
    (hrest : ∀ t ∈ rest, t.isProper = true) (h : Separated (t :: rest)) :
    Token.read? (spell (t :: rest)) = some (t, spell rest) := by
  cases t with
  | word w =>
    obtain ⟨hne, hbytes⟩ := isWord_iff.mp ht
    have htake : (w ++ spell rest).takeWhile isWordByte = w := by
      rw [List.takeWhile_append_of_pos hbytes, takeWhile_spell hrest h, List.append_nil]
    have hdrop : (w ++ spell rest).dropWhile isWordByte = spell rest := by
      have := List.takeWhile_append_dropWhile (p := isWordByte) (l := w ++ spell rest)
      rw [htake] at this
      exact List.append_cancel_left this
    obtain ⟨b, w, rfl⟩ := List.exists_cons_of_ne_nil hne
    obtain ⟨_, hmark, hseparator⟩ := isWordByte_iff.mp (hbytes b List.mem_cons_self)
    rw [spell_cons, Token.text, List.cons_append, Token.read?, if_neg hmark,
      if_neg (by simp [hseparator]), ← List.cons_append, htake, hdrop]
  | quoted s =>
    have hencode : ∃ inside, Quoted.encode s ++ spell rest = Quoted.mark :: inside := ⟨_, rfl⟩
    obtain ⟨inside, hinside⟩ := hencode
    have hread := Quoted.decode?_encode s (spell rest)
    rw [spell_cons, Token.text]
    rw [hinside] at hread ⊢
    rw [Token.read?, if_pos rfl, hread]
    rfl
  | separator b =>
    have hmark : b ≠ Quoted.mark := by
      rintro rfl
      exact absurd ht (by decide)
    have hseparator : isSeparator b = true := ht
    rw [spell_cons, Token.text, List.singleton_append, Token.read?, if_neg hmark,
      if_pos hseparator]

/-- **Tokens are told apart by what they spell**, where words are words and stand apart. -/
theorem spell_injective {xs ys : List Token} (hxs : ∀ t ∈ xs, t.isProper = true)
    (hys : ∀ t ∈ ys, t.isProper = true) (hx : Separated xs) (hy : Separated ys)
    (h : spell xs = spell ys) : xs = ys := by
  -- Both sides are read one token at a time. What is read depends on the text alone.
  induction xs generalizing ys with
  | nil =>
    cases ys with
    | nil => rfl
    | cons y ys =>
      obtain ⟨hproper, hproper'⟩ := List.forall_mem_cons.mp hys
      have hread := Token.read?_spell_cons hproper hproper' hy
      rw [← h] at hread
      cases hread
  | cons x xs ih =>
    obtain ⟨hproper, hproper'⟩ := List.forall_mem_cons.mp hxs
    have hread := Token.read?_spell_cons hproper hproper' hx
    rw [h] at hread
    cases ys with
    | nil => cases hread
    | cons y ys =>
      obtain ⟨hproperY, hproperY'⟩ := List.forall_mem_cons.mp hys
      rw [Token.read?_spell_cons hproperY hproperY' hy, Option.some.injEq, Prod.mk.injEq] at hread
      obtain ⟨rfl, hspell⟩ := hread
      rw [ih hproper' hproperY' hx.tail hy.tail hspell.symm]

end GraphQuery
