import GraphQuery.Proofs.Filter.Shape
import GraphQuery.Proofs.Statement.Tokens

/-!
# Tokens of literals and filters

Beside the text of a literal and of a filter stand the tokens that it is made of. They are made
without any check; where a text passes the checks, it is the one that the tokens spell.

* `Value.tokens`, `Filter.tokens`: the tokens of a literal, and of a filter in a scope.
* `Value.eq_spell_of_literalWithin`, `Filter.eq_spell_of_render`: the text is what they spell.
* `Filter.isPlain_or_mem_nameTokens`: apart from the words that copy a name, every token is plain.
* `Filter.separated_tokens`: in a well-formed filter no two words stand side by side.
* `Filter.quotedTexts_tokens`: the literals of texts among the tokens are the strings and the keys
  of the filter, in order.
-/

namespace GraphQuery

/-! ### Literals -/

namespace Value

mutual

/-- The tokens of a literal. -/
def tokens : Value → List Token
  | .null => [.keyword "null"]
  | .bool b => [.keyword (if b then "true" else "false")]
  | .signed n => [.word (signedDecimal n.toInt)]
  | .unsigned n => [.word (decimal n.toNat)]
  | .double x => [.word (jsonLayout.write x)]
  | .string s => [.quoted s]
  | .array items => .separator 0x5b :: (listTokens (itemTokens items) ++ [.separator 0x5d])
  | .object members => .separator 0x7b :: (listTokens (memberTokens members) ++ [.separator 0x7d])
  | .binary _ => []
  | .discarded => []

/-- The tokens of the items of an array. -/
def itemTokens : List Value → List (List Token)
  | [] => []
  | v :: rest => v.tokens :: itemTokens rest

/-- The tokens of the members of an object. -/
def memberTokens : List (Text × Value) → List (List Token)
  | [] => []
  | (key, v) :: rest => (.quoted key :: .separator 0x3a :: .blank :: v.tokens) :: memberTokens rest

end

mutual

/-- A literal is what its tokens spell. -/
theorem eq_spell_of_literalWithin : ∀ (v : Value) {levels : Nat} {t : Text},
    v.literalWithin levels = .ok t → t = spell v.tokens
  | .null, _, _, h => by
    cases h
    simp [tokens, Token.keyword, Token.text]
  | .bool b, _, _, h => by
    cases h
    simp [tokens, Token.keyword, Token.text]
  | .signed n, _, _, h => by
    cases h
    simp [tokens, Token.text]
  | .unsigned n, _, _, h => by
    cases h
    simp [tokens, Token.text]
  | .double x, _, _, h => by
    rw [literalWithin, doubleLiteral] at h
    split at h
    · cases h
      simp [tokens, Token.text]
    · cases h
  | .string s, _, _, h => by
    rw [literalWithin] at h
    obtain ⟨_, rfl⟩ := textLiteral_eq_ok_iff.mp h
    simp [tokens, Token.text]
  | .array items, levels, t, h => by
    rw [literalWithin] at h
    split at h
    · cases h
    obtain ⟨parts, hparts, h⟩ := bind_eq_ok_iff.mp h
    cases h
    rw [tokens, spell_cons, spell_append, spell_listTokens,
      ← eq_spell_of_itemLiterals items hparts]
    rfl
  | .object members, levels, t, h => by
    rw [literalWithin] at h
    split at h
    · cases h
    obtain ⟨parts, hparts, h⟩ := bind_eq_ok_iff.mp h
    cases h
    rw [tokens, spell_cons, spell_append, spell_listTokens,
      ← eq_spell_of_memberLiterals members hparts]
    rfl
  | .binary _, _, _, h => by cases h
  | .discarded, _, _, h => by cases h

theorem eq_spell_of_itemLiterals : ∀ (items : List Value) {levels : Nat} {ts : List Text},
    itemLiterals levels items = .ok ts → ts = (itemTokens items).map spell
  | [], _, _, h => by
    cases h
    rfl
  | v :: rest, _, _, h => by
    obtain ⟨part, hpart, h⟩ := bind_eq_ok_iff.mp h
    obtain ⟨parts, hparts, h⟩ := bind_eq_ok_iff.mp h
    cases h
    rw [itemTokens, List.map_cons, ← eq_spell_of_literalWithin v hpart,
      ← eq_spell_of_itemLiterals rest hparts]

theorem eq_spell_of_memberLiterals : ∀ (members : List (Text × Value)) {levels : Nat}
    {ts : List Text}, memberLiterals levels members = .ok ts →
      ts = (memberTokens members).map spell
  | [], _, _, h => by
    cases h
    rfl
  | (key, v) :: rest, _, _, h => by
    obtain ⟨name, hname, h⟩ := bind_eq_ok_iff.mp h
    obtain ⟨part, hpart, h⟩ := bind_eq_ok_iff.mp h
    obtain ⟨parts, hparts, h⟩ := bind_eq_ok_iff.mp h
    cases h
    obtain ⟨_, rfl⟩ := textLiteral_eq_ok_iff.mp hname
    rw [memberTokens, List.map_cons, ← eq_spell_of_memberLiterals rest hparts,
      eq_spell_of_literalWithin v hpart]
    simp [Token.text, Token.blank]
    rfl

end

end Value

/-! ### Filters -/

/-- The tokens of an operand. -/
def Operand.tokens (scope : Text) : Operand → List Token
  | .field path => [.word (qualified scope path)]
  | .literal v => v.tokens

/-- The tokens of an operator: two words where it is a negation by a word. -/
def Operator.tokens : Operator → List Token
  | .notLike => [.keyword "NOT", .blank, .keyword "LIKE"]
  | .notIn => [.keyword "NOT", .blank, .keyword "IN"]
  | op => [.word op.name]

/-- The tokens of a subject. -/
def Subject.tokens (scope : Text) : Subject → List Token
  | .field name none => [.word (Operand.qualified scope name)]
  | .field name (some q) => [.word (Operand.qualified scope name), .blank, .word q.name]
  | .statement expression => [.word expression]

/-- The tokens of a comparison. -/
def Comparison.tokens (scope : Text) (c : Comparison) : List Token :=
  c.subject.tokens scope ++ .blank :: (c.operator.tokens ++ .blank :: c.operand.tokens scope)

/-- The tokens between an entry of a filter and what stands before it. -/
def Filter.separatorTokens : Option Connective → List Token
  | none => []
  | some op => [.blank, .word op.symbol, .blank]

/-- The tokens of a filter. -/
def Filter.tokens (scope : Text) : Filter → List Token
  | .empty => []
  | .comparison before op c =>
    before.tokens scope ++ (separatorTokens op ++ c.tokens scope)
  | .group before op inner =>
    before.tokens scope
      ++ (separatorTokens op ++ .separator 0x28 :: (inner.tokens scope ++ [.separator 0x29]))

theorem Operand.eq_spell_of_render {scope t : Text} {o : Operand} (h : o.render scope = .ok t) :
    t = spell (o.tokens scope) := by
  cases o with
  | field path =>
    cases h
    simp [Operand.tokens, Token.text]
  | literal v => exact v.eq_spell_of_literalWithin h

theorem Operator.spell_tokens (op : Operator) : spell op.tokens = op.name := by
  cases op <;> decide +kernel

theorem Subject.spell_tokens (scope : Text) (s : Subject) :
    spell (s.tokens scope) = s.render scope := by
  rcases s with ⟨name, _ | q⟩ | e
  · simp [Subject.tokens, Subject.render, Token.text]
  · simp [Subject.tokens, Subject.render, Token.text, Token.blank]
    rfl
  · simp [Subject.tokens, Subject.render, Token.text]

theorem Comparison.eq_spell_of_render {scope t : Text} {c : Comparison}
    (h : c.render scope = .ok t) : t = spell (c.tokens scope) := by
  obtain ⟨operand, hoperand, h⟩ := bind_eq_ok_iff.mp h
  cases h
  rw [Operand.eq_spell_of_render hoperand]
  simp only [Comparison.tokens, spell_append, spell_cons, Subject.spell_tokens,
    Operator.spell_tokens, List.append_assoc]
  rfl

namespace Filter

theorem spell_separatorTokens (op : Option Connective) :
    spell (separatorTokens op) = separator op := by
  rcases op with _ | _ | _ <;> decide +kernel

/-- The text of the entries is what their tokens spell, however many levels were allowed. -/
theorem eq_spell_of_renderEntries {scope : Text} (f : Filter) :
    ∀ {levels : Nat} {t : Text}, f.renderEntries scope levels = .ok t →
      t = spell (f.tokens scope) := by
  induction f with
  | empty =>
    intro levels t h
    cases h
    rfl
  | comparison before op c ih =>
    intro levels t h
    obtain ⟨left, hleft, h⟩ := bind_eq_ok_iff.mp h
    obtain ⟨right, hright, h⟩ := bind_eq_ok_iff.mp h
    cases h
    rw [ih hleft, Comparison.eq_spell_of_render hright]
    simp only [tokens, spell_append, spell_separatorTokens, List.append_assoc]
  | group before op inner ihBefore ihInner =>
    intro levels t h
    obtain ⟨left, hleft, h⟩ := bind_eq_ok_iff.mp h
    obtain ⟨_, _, h⟩ := bind_eq_ok_iff.mp h
    obtain ⟨right, hright, h⟩ := bind_eq_ok_iff.mp h
    cases h
    rw [ihBefore hleft, ihInner hright]
    simp only [tokens, spell_append, spell_cons, spell_nil, spell_separatorTokens,
      List.append_assoc]
    rfl

theorem eq_spell_of_render {scope t : Text} {f : Filter} (h : f.render scope = .ok t) :
    t = spell (f.tokens scope) := by
  obtain ⟨_, _, h⟩ := bind_eq_ok_iff.mp h
  exact f.eq_spell_of_renderEntries h

end Filter

/-! ### Properties of literals -/

namespace Value

mutual

/-- The strings of a value and the keys of its objects, in the order in which they are written. -/
def quotedTexts : Value → List Text
  | .string s => [s]
  | .array items => itemTexts items
  | .object members => memberTexts members
  | _ => []

/-- The strings and keys of the items of an array. -/
def itemTexts : List Value → List Text
  | [] => []
  | v :: rest => v.quotedTexts ++ itemTexts rest

/-- The strings and keys of the members of an object. -/
def memberTexts : List (Text × Value) → List Text
  | [] => []
  | (key, v) :: rest => key :: (v.quotedTexts ++ memberTexts rest)

end

mutual

theorem quotedTexts_tokens : ∀ v : Value, GraphQuery.quotedTexts v.tokens = v.quotedTexts
  | .null => rfl
  | .bool _ => rfl
  | .signed _ => rfl
  | .unsigned _ => rfl
  | .double _ => rfl
  | .string _ => rfl
  | .array items => by
    simp [tokens, quotedTexts, quotedTexts_listTokens, flatMap_itemTokens items]
  | .object members => by
    simp [tokens, quotedTexts, quotedTexts_listTokens, flatMap_memberTokens members]
  | .binary _ => rfl
  | .discarded => rfl

theorem flatMap_itemTokens : ∀ items : List Value,
    (itemTokens items).flatMap GraphQuery.quotedTexts = itemTexts items
  | [] => rfl
  | v :: rest => by
    rw [itemTokens, List.flatMap_cons, quotedTexts_tokens v, flatMap_itemTokens rest, itemTexts]

theorem flatMap_memberTokens : ∀ members : List (Text × Value),
    (memberTokens members).flatMap GraphQuery.quotedTexts = memberTexts members
  | [] => rfl
  | (key, v) :: rest => by
    rw [memberTokens, List.flatMap_cons, quotedTexts_quoted_cons, quotedTexts_separator_cons,
      quotedTexts_separator_cons, quotedTexts_tokens v, flatMap_memberTokens rest, memberTexts,
      List.cons_append]

end

theorem isLiteral_listTokens {parts : List (List Token)}
    (h : ∀ part ∈ parts, ∀ t ∈ part, t.isLiteral = true) :
    ∀ t ∈ listTokens parts, t.isLiteral = true := by
  have hbetween : ∀ t ∈ [Token.comma, .blank], t.isLiteral = true := by decide
  intro t ht
  rcases mem_joinTokens ht with ht | ⟨part, hpart, ht⟩
  · exact hbetween t ht
  · exact h part hpart t ht

mutual

theorem isLiteral_tokens : ∀ v : Value, ∀ t ∈ v.tokens, t.isLiteral = true
  | .null => by decide
  | .bool b => by cases b <;> decide
  | .signed n => by
    simpa [tokens] using Token.isLiteral_numeral (signedDecimal_ne_nil _)
      fun _ => isNumeralByte_of_mem_signedDecimal
  | .unsigned n => by
    simpa [tokens] using Token.isLiteral_numeral (decimal_ne_nil _)
      fun _ => isNumeralByte_of_mem_decimal
  | .double x => by
    simpa [tokens] using Token.isLiteral_numeral (jsonLayout.write_ne_nil x)
      fun _ => Layout.isNumeralByte_of_mem_write
  | .string _ => by simp [tokens, Token.isLiteral]
  | .array items => by
    have hitems := isLiteral_listTokens (isLiteral_itemTokens items)
    rw [tokens, List.forall_mem_cons, List.forall_mem_append]
    exact ⟨by decide, hitems, by decide⟩
  | .object members => by
    have hmembers := isLiteral_listTokens (isLiteral_memberTokens members)
    rw [tokens, List.forall_mem_cons, List.forall_mem_append]
    exact ⟨by decide, hmembers, by decide⟩
  | .binary _ => fun _ ht => nomatch ht
  | .discarded => fun _ ht => nomatch ht

theorem isLiteral_itemTokens : ∀ items : List Value,
    ∀ part ∈ itemTokens items, ∀ t ∈ part, t.isLiteral = true
  | [] => fun _ hpart => nomatch hpart
  | v :: rest => List.forall_mem_cons.mpr ⟨isLiteral_tokens v, isLiteral_itemTokens rest⟩

theorem isLiteral_memberTokens : ∀ members : List (Text × Value),
    ∀ part ∈ memberTokens members, ∀ t ∈ part, t.isLiteral = true
  | [] => fun _ hpart => nomatch hpart
  | (key, v) :: rest => by
    have hpart : ∀ t ∈ Token.quoted key :: .separator 0x3a :: .blank :: v.tokens,
        t.isLiteral = true := by
      simp only [List.forall_mem_cons]
      exact ⟨rfl, by decide, by decide, isLiteral_tokens v⟩
    exact List.forall_mem_cons.mpr ⟨hpart, isLiteral_memberTokens rest⟩

end

/-- Every token of a literal is plain: the compiler writes all its words itself. -/
theorem isPlain_tokens (v : Value) : ∀ t ∈ v.tokens, t.isPlain = true :=
  fun t ht => Token.isPlain_of_isLiteral (v.isLiteral_tokens t ht)

mutual

theorem separated_tokens : ∀ v : Value, Separated v.tokens
  | .null => separated_singleton _
  | .bool _ => separated_singleton _
  | .signed _ => separated_singleton _
  | .unsigned _ => separated_singleton _
  | .double _ => separated_singleton _
  | .string _ => separated_singleton _
  | .array items => by
    simpa [tokens] using separated_listTokens (separated_itemTokens items)
  | .object members => by
    simpa [tokens] using separated_listTokens (separated_memberTokens members)
  | .binary _ => separated_nil
  | .discarded => separated_nil

theorem separated_itemTokens : ∀ items : List Value, ∀ part ∈ itemTokens items, Separated part
  | [] => fun _ hpart => nomatch hpart
  | v :: rest => List.forall_mem_cons.mpr ⟨separated_tokens v, separated_itemTokens rest⟩

theorem separated_memberTokens : ∀ members : List (Text × Value),
    ∀ part ∈ memberTokens members, Separated part
  | [] => fun _ hpart => nomatch hpart
  | (key, v) :: rest => by
    have hpart : Separated (.quoted key :: .separator 0x3a :: .blank :: v.tokens) := by
      simpa using separated_tokens v
    exact List.forall_mem_cons.mpr ⟨hpart, separated_memberTokens rest⟩

end

end Value

/-! ### Properties of filters -/

/-- The words that copy a name or an expression of a subject. -/
def Subject.nameTokens (scope : Text) : Subject → List Token
  | .field name _ => [.word (Operand.qualified scope name)]
  | .statement expression => [.word expression]

/-- The words that copy a name of an operand. -/
def Operand.nameTokens (scope : Text) : Operand → List Token
  | .field path => [.word (qualified scope path)]
  | .literal _ => []

/-- The words that copy a name or an expression of a comparison. -/
def Comparison.nameTokens (scope : Text) (c : Comparison) : List Token :=
  c.subject.nameTokens scope ++ c.operand.nameTokens scope

theorem Comparison.mem_nameTokens_iff {scope : Text} {c : Comparison} {t : Token} :
    t ∈ c.nameTokens scope ↔
      (∃ name quantifier, c.subject = .field name quantifier ∧
        t = .word (Operand.qualified scope name)) ∨
      (∃ expression, c.subject = .statement expression ∧ t = .word expression) ∨
      ∃ path, c.operand = .field path ∧ t = .word (Operand.qualified scope path) := by
  obtain ⟨subject, operator, operand⟩ := c
  cases subject <;> cases operand <;>
    simp [Comparison.nameTokens, Subject.nameTokens, Operand.nameTokens]

/-- The strings and keys of the literal of a comparison. -/
def Comparison.quotedTexts (c : Comparison) : List Text :=
  match c.operand with
  | .literal v => v.quotedTexts
  | .field _ => []

/-- The strings and keys of the literals of a filter, in order. -/
def Filter.quotedTexts (f : Filter) : List Text :=
  f.comparisons.flatMap Comparison.quotedTexts

theorem Operator.isPlain_tokens (op : Operator) : ∀ t ∈ op.tokens, t.isPlain = true := by
  cases op <;> decide +kernel

theorem Quantifier.isPlain_word_name (q : Quantifier) : (Token.word q.name).isPlain = true := by
  cases q <;> decide +kernel

theorem Connective.isPlain_word_symbol (op : Connective) :
    (Token.word op.symbol).isPlain = true := by
  cases op <;> decide +kernel

theorem Token.isPlain_blank : Token.blank.isPlain = true := by decide

/-- What holds of every token of a comparison is said of its parts and of the blank. -/
theorem Comparison.forall_mem_tokens_iff {scope : Text} {c : Comparison} {P : Token → Prop} :
    (∀ t ∈ c.tokens scope, P t) ↔
      (∀ t ∈ c.subject.tokens scope, P t) ∧ P .blank ∧ (∀ t ∈ c.operator.tokens, P t) ∧
        ∀ t ∈ c.operand.tokens scope, P t := by
  rw [Comparison.tokens, List.forall_mem_append, List.forall_mem_cons, List.forall_mem_append,
    List.forall_mem_cons]
  constructor
  · rintro ⟨hsubject, hblank, hoperator, _, hoperand⟩
    exact ⟨hsubject, hblank, hoperator, hoperand⟩
  · rintro ⟨hsubject, hblank, hoperator, hoperand⟩
    exact ⟨hsubject, hblank, hoperator, hblank, hoperand⟩

/-- The tokens of a comparison but for its names are plain. -/
theorem Comparison.isPlain_or_mem_nameTokens {scope : Text} {c : Comparison} {t : Token}
    (h : t ∈ c.tokens scope) : t.isPlain = true ∨ t ∈ c.nameTokens scope := by
  have hsubject : ∀ t ∈ c.subject.tokens scope,
      t.isPlain = true ∨ t ∈ c.subject.nameTokens scope := by
    rcases c.subject with ⟨name, _ | q⟩ | e
    · simp [Subject.tokens, Subject.nameTokens]
    · simp [Subject.tokens, Subject.nameTokens, Token.isPlain_blank, q.isPlain_word_name]
    · simp [Subject.tokens, Subject.nameTokens]
  have hoperand : ∀ t ∈ c.operand.tokens scope,
      t.isPlain = true ∨ t ∈ c.operand.nameTokens scope := by
    rcases c.operand with v | path
    · exact fun t ht => Or.inl (v.isPlain_tokens t ht)
    · simp [Operand.tokens, Operand.nameTokens]
  have hall : ∀ t ∈ c.tokens scope, t.isPlain = true ∨ t ∈ c.nameTokens scope := by
    simp only [Comparison.nameTokens, List.mem_append]
    exact forall_mem_tokens_iff.mpr ⟨fun t ht => (hsubject t ht).imp_right Or.inl,
      Or.inl Token.isPlain_blank, fun t ht => Or.inl (c.operator.isPlain_tokens t ht),
      fun t ht => (hoperand t ht).imp_right Or.inr⟩
  exact hall t h

theorem Comparison.separated_tokens (scope : Text) (c : Comparison) :
    Separated (c.tokens scope) := by
  have hsubject : Separated (c.subject.tokens scope) := by
    rcases c.subject with ⟨name, _ | q⟩ | e <;> simp [Subject.tokens]
  have hoperator : Separated c.operator.tokens := by
    cases c.operator <;> simp [Operator.tokens]
  have hoperand : Separated (c.operand.tokens scope) := by
    rcases c.operand with v | path
    · exact v.separated_tokens
    · simp [Operand.tokens]
  rw [Comparison.tokens, separated_append_separator, separated_append_separator]
  exact ⟨hsubject, hoperator, hoperand⟩

theorem Comparison.quotedTexts_tokens (scope : Text) (c : Comparison) :
    GraphQuery.quotedTexts (c.tokens scope) = c.quotedTexts := by
  have hsubject : GraphQuery.quotedTexts (c.subject.tokens scope) = [] := by
    rcases c.subject with ⟨name, _ | q⟩ | e <;> simp [Subject.tokens]
  have hoperator : GraphQuery.quotedTexts c.operator.tokens = [] := by
    cases c.operator <;> rfl
  have hoperand : GraphQuery.quotedTexts (c.operand.tokens scope) = c.quotedTexts := by
    rw [Comparison.quotedTexts]
    rcases c.operand with v | path
    · exact v.quotedTexts_tokens
    · rfl
  simp [Comparison.tokens, hsubject, hoperator, hoperand]

namespace Filter

theorem isPlain_separatorTokens (op : Option Connective) :
    ∀ t ∈ separatorTokens op, t.isPlain = true := by
  cases op with
  | none => exact fun _ ht => nomatch ht
  | some op => simp [separatorTokens, Token.isPlain_blank, op.isPlain_word_symbol]

/-- Apart from the words that copy a name of one of its comparisons, a filter has plain tokens. -/
theorem isPlain_or_mem_nameTokens {scope : Text} {f : Filter} {t : Token}
    (h : t ∈ f.tokens scope) :
    t.isPlain = true ∨ ∃ c ∈ f.comparisons, t ∈ c.nameTokens scope := by
  induction f with
  | empty => cases h
  | comparison before op c ih =>
    simp only [tokens, List.mem_append] at h
    simp only [comparisons, List.mem_append, List.mem_singleton]
    rcases h with h | h | h
    · rcases ih h with h | ⟨d, hd, h⟩
      · exact Or.inl h
      · exact Or.inr ⟨d, Or.inl hd, h⟩
    · exact Or.inl (isPlain_separatorTokens op t h)
    · exact (Comparison.isPlain_or_mem_nameTokens h).imp_right fun h => ⟨c, Or.inr rfl, h⟩
  | group before op inner ihBefore ihInner =>
    simp only [tokens, List.mem_append, List.mem_cons, List.not_mem_nil, or_false] at h
    simp only [comparisons, List.mem_append]
    rcases h with h | h | rfl | h | rfl
    · rcases ihBefore h with h | ⟨d, hd, h⟩
      · exact Or.inl h
      · exact Or.inr ⟨d, Or.inl hd, h⟩
    · exact Or.inl (isPlain_separatorTokens op t h)
    · exact Or.inl (by decide)
    · rcases ihInner h with h | ⟨d, hd, h⟩
      · exact Or.inl h
      · exact Or.inr ⟨d, Or.inr hd, h⟩
    · exact Or.inl (by decide)

/-- What comes before an entry is apart from it: either there is a connective between them, or
there is nothing before. -/
theorem separated_append_entry {scope : Text} {before : Filter} {op : Option Connective}
    {entry : List Token} (hop : op.isNone = before.isEmpty) (hbefore : Separated (before.tokens scope))
    (hentry : Separated entry) :
    Separated (before.tokens scope ++ (separatorTokens op ++ entry)) := by
  cases op with
  | some op =>
    simpa [separatorTokens] using ⟨hbefore, hentry⟩
  | none =>
    cases before with
    | empty => simpa [tokens, separatorTokens] using hentry
    | comparison _ _ _ => cases hop
    | group _ _ _ => cases hop

/-- In a well-formed filter no two words stand side by side. -/
theorem separated_tokens {scope : Text} {f : Filter} (h : f.WellFormed) :
    Separated (f.tokens scope) := by
  induction f with
  | empty => exact separated_nil
  | comparison before op c ih =>
    obtain ⟨hbefore, hop⟩ := h
    exact separated_append_entry hop (ih hbefore) (c.separated_tokens scope)
  | group before op inner ihBefore ihInner =>
    obtain ⟨hbefore, hop, hinner⟩ := h
    refine separated_append_entry hop (ihBefore hbefore) ?_
    simpa using ihInner hinner

theorem quotedTexts_tokens (scope : Text) (f : Filter) :
    GraphQuery.quotedTexts (f.tokens scope) = f.quotedTexts := by
  have hseparator : ∀ op, GraphQuery.quotedTexts (separatorTokens op) = [] := by
    rintro (_ | op) <;> rfl
  rw [quotedTexts]
  induction f with
  | empty => rfl
  | comparison before op c ih =>
    simp [tokens, comparisons, ih, hseparator, Comparison.quotedTexts_tokens]
  | group before op inner ihBefore ihInner =>
    simp [tokens, comparisons, ihBefore, ihInner, hseparator]

end Filter

end GraphQuery
