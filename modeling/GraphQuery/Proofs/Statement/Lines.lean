import GraphQuery.Proofs.Descriptor.Limits
import GraphQuery.Proofs.Filter.Tokens
import GraphQuery.Statement.Compile

/-!
# The lines of a statement

A statement is a list of clauses. Here each clause is a `Line`: how many loops it stands in, its
kind, and the tokens behind the word of its kind. The lines of a query are made without any check,
in the order of its statement: the loops on the way down with their prunes and filters, then sort
keys and limits on the way back up, then the result.

* `Query.lines` and `clauses_eq_map_lines`: where a query has clauses, its lines spell them.
* `Scope.HasLine` and `Query.mem_lines_iff`: the lines are those of the scopes and the result.
* `isPlain_or_mem_nameTokens_of_mem_lines`: apart from the words that copy a name, all tokens behind
  the first are plain.
* `Query.NamesAvoid.eq_quoted_of_mem_lines`: a byte like the quotation mark or the newline stands in
  literals only, where no name has it.
* `separated_of_mem_lines`: in a line of a well-formed query no two words stand side by side.
* `Query.tokens` and `text_eq_spell_of_compile`: the lines laid out as one sequence of tokens, which
  spells the statement.
-/

namespace GraphQuery

/-- One clause of a statement as tokens, and how many loops it stands in. -/
structure Line where
  depth : Nat
  kind : ClauseKind
  /-- The tokens behind the word of the kind and a blank. -/
  body : List Token
  deriving DecidableEq, Repr

namespace Line

/-- The tokens of a clause. -/
def tokens (l : Line) : List Token :=
  .word l.kind.keyword :: .blank :: l.body

/-- The clause that is spelled. -/
def clause (l : Line) : Clause :=
  ⟨l.depth, spell l.tokens⟩

end Line

/-- The tokens of what a loop over a hop runs through, given the token of its start. -/
def Hop.tokens (hop : Hop) (start : Token) (target : Text) : List Token :=
  .word hop.depths.text :: .blank :: .word hop.direction.name :: .blank :: start :: .blank ::
    ((if hop.namedGraph then [.keyword "GRAPH", .blank] else []) ++ [.word target])

/-- The tokens of what the loop of the scope at an index runs through. -/
def domainTokens (index : Nat) : Option Hop → Source → List Token
  | none, .collection name => [.word name]
  | none, .traversal hop target start => hop.tokens (.quoted start) target
  | some hop, source => hop.tokens (.word (ScopeName.ofDepth (index - 1))) source.name

/-- The loop of a scope. -/
def loopLine (index : Nat) (hop : Option Hop) (s : Scope) : Line :=
  ⟨index, .loop, .word (ScopeName.ofDepth index) :: .blank :: .keyword "IN" :: .blank ::
    domainTokens index hop s.source⟩

/-- The prune or the filter of a scope, where it has one. -/
def filterLines (kind : ClauseKind) (index : Nat) (f : Option Filter) : List Line :=
  f.toList.map fun f => ⟨index + 1, kind, f.tokens (ScopeName.ofDepth index)⟩

/-- The tokens of a sort key. -/
def SortKey.tokens (variableName : Text) (key : SortKey) : List Token :=
  [.word (Operand.qualified variableName key.field), .blank, .word key.direction.name]

/-- The sort keys of a scope, where it has any. -/
def sortLines (index : Nat) (sorts : List SortKey) : List Line :=
  if sorts.isEmpty then []
  else [⟨index + 1, .sort, listTokens (sorts.map (SortKey.tokens (ScopeName.ofDepth index)))⟩]

/-- The tokens of a limit. -/
def Limit.tokens (l : Limit) : List Token :=
  match l.skip with
  | none => [.word (decimal l.count.toNat)]
  | some skip => [.word (decimal skip.toNat), .comma, .blank, .word (decimal l.count.toNat)]

/-- The limit of a scope, where it has one. -/
def limitLines (index : Nat) (limit : Option Limit) : List Line :=
  limit.toList.map fun l => ⟨index + 1, .limit, l.tokens⟩

/-- The clauses of a scope before the loops inside it. -/
def Scope.headLines (index : Nat) (hop : Option Hop) (s : Scope) : List Line :=
  loopLine index hop s
    :: (filterLines .prune index s.prune ++ filterLines .filter index s.filter)

/-- The clauses of a scope after the loops inside it. -/
def Scope.tailLines (index : Nat) (s : Scope) : List Line :=
  sortLines index s.sorts ++ limitLines index s.limit

/-- The clauses on the way down a chain whose first scope has an index. -/
def headLines : Nat → List (Option Hop × Scope) → List Line
  | _, [] => []
  | index, (hop, s) :: rest => s.headLines index hop ++ headLines (index + 1) rest

/-- The clauses on the way back up a chain whose first scope has an index. -/
def tailLines : Nat → List (Option Hop × Scope) → List Line
  | _, [] => []
  | index, (_, s) :: rest => tailLines (index + 1) rest ++ s.tailLines index

/-- The clause that returns the variable of the innermost of some scopes. -/
def resultLine (scopes : List (Option Hop × Scope)) : Line :=
  ⟨scopes.length, .result,
    (if scopes.any fun (_, s) => s.distinct then [.keyword "DISTINCT", .blank] else [])
      ++ [.word (ScopeName.ofDepth (scopes.length - 1))]⟩

/-- The clauses of a query in the order of its statement. -/
def Query.lines (q : Query) : List Line :=
  headLines 0 q.scopes ++ (tailLines 0 q.scopes ++ [resultLine q.scopes])

theorem Query.lines_ne_nil (q : Query) : q.lines ≠ [] := by
  simp [Query.lines]

theorem Hop.spell_tokens (hop : Hop) (start : Token) (target : Text) :
    spell (hop.tokens start target) = hop.text start.text target := by
  cases h : hop.namedGraph <;>
    simp [Hop.tokens, Hop.text, targetText, h, Token.text, Token.blank, Token.keyword] <;> rfl

theorem eq_spell_of_domain {limit : Int32} {index : Nat} {hop : Option Hop} {s : Scope} {t : Text}
    (h : domain limit index hop s = .ok t) : t = spell (domainTokens index hop s.source) := by
  cases hop with
  | none =>
    rw [domain, rootDomain] at h
    split at h
    · rename_i hop target start hsource
      obtain ⟨_, _, h⟩ := bind_eq_ok_iff.mp h
      obtain ⟨literal, hliteral, h⟩ := bind_eq_ok_iff.mp h
      cases h
      obtain ⟨_, rfl⟩ := textLiteral_eq_ok_iff.mp hliteral
      rw [hsource, domainTokens, Hop.spell_tokens]
      rfl
    · rename_i name hsource
      obtain ⟨_, _, h⟩ := bind_eq_ok_iff.mp h
      cases h
      simp [hsource, domainTokens, Token.text]
  | some hop =>
    obtain ⟨_, _, h⟩ := bind_eq_ok_iff.mp h
    split at h
    · cases h
    · rename_i name hsource
      cases h
      rw [hsource, domainTokens, Hop.spell_tokens]
      rfl

theorem filterClause_eq_map {word : String} {kind : ClauseKind} {index : Nat} {f : Option Filter}
    {clauses : List Clause} (hword : utf8 word = kind.keyword ++ [0x20])
    (h : filterClause word index f = .ok clauses) :
    clauses = (filterLines kind index f).map Line.clause := by
  cases f with
  | none =>
    cases h
    rfl
  | some f =>
    obtain ⟨text, htext, h⟩ := bind_eq_ok_iff.mp h
    cases h
    rw [Filter.eq_spell_of_render htext, hword, List.append_assoc]
    rfl

theorem headOf_eq_map {limit : Int32} {index : Nat} {hop : Option Hop} {s : Scope}
    {clauses : List Clause} (h : headOf limit index hop s = .ok clauses) :
    clauses = (s.headLines index hop).map Line.clause := by
  obtain ⟨walked, prune, filter, hwalked, hprune, hfilter, rfl⟩ := headOf_eq_ok_iff.mp h
  rw [Scope.headLines, List.map_cons, List.map_append, ← filterClause_eq_map (by decide +kernel) hprune,
    ← filterClause_eq_map (by decide +kernel) hfilter, eq_spell_of_domain hwalked]
  have hfor : utf8 "FOR " = ClauseKind.loop.keyword ++ [0x20] := by decide +kernel
  rw [hfor]
  simp only [loopLine, Line.clause, Line.tokens, spell_cons, List.append_assoc]
  rfl

theorem SortKey.spell_tokens (variableName : Text) (key : SortKey) :
    spell (key.tokens variableName) = key.text variableName := by
  simp [SortKey.tokens, SortKey.text, Token.text, Token.blank]
  rfl

theorem sortClause_eq_map (index : Nat) (sorts : List SortKey) :
    sortClause index sorts = (sortLines index sorts).map Line.clause := by
  unfold sortClause sortLines
  split
  · rfl
  · have hsort : utf8 "SORT " = ClauseKind.sort.keyword ++ [0x20] := by decide +kernel
    simp only [List.map_cons, List.map_nil, Line.clause, Line.tokens, spell_cons,
      spell_listTokens, List.map_map, Function.comp_def, SortKey.spell_tokens, hsort,
      List.append_assoc]
    rfl

theorem Limit.spell_tokens (l : Limit) : spell l.tokens = l.text := by
  rcases l with ⟨count, _ | skip⟩
  · simp [Limit.tokens, Limit.text, Token.text]
  · simp [Limit.tokens, Limit.text, Token.text, Token.comma, Token.blank]
    rfl

theorem limitClause_eq_map (index : Nat) (limit : Option Limit) :
    limitClause index limit = (limitLines index limit).map Line.clause := by
  cases limit with
  | none => rfl
  | some l =>
    have hlimit : utf8 "LIMIT " = ClauseKind.limit.keyword ++ [0x20] := by decide +kernel
    simp only [limitClause, limitLines, Option.toList_some, List.map_cons, List.map_nil,
      Line.clause, Line.tokens, spell_cons, Limit.spell_tokens, hlimit, List.append_assoc]
    rfl

theorem headClauses_eq_map {limit : Int32} (scopes : List (Option Hop × Scope)) :
    ∀ {index : Nat} {clauses : List Clause}, headClauses limit index scopes = .ok clauses →
      clauses = (headLines index scopes).map Line.clause := by
  induction scopes with
  | nil =>
    intro index clauses h
    cases h
    rfl
  | cons p rest ih =>
    obtain ⟨hop, s⟩ := p
    intro index clauses h
    obtain ⟨here, hhere, h⟩ := bind_eq_ok_iff.mp h
    obtain ⟨inner, hinner, h⟩ := bind_eq_ok_iff.mp h
    cases h
    rw [headOf_eq_map hhere, ih hinner, headLines, List.map_append]

theorem tailClauses_eq_map (scopes : List (Option Hop × Scope)) :
    ∀ index, tailClauses index scopes = (tailLines index scopes).map Line.clause := by
  induction scopes with
  | nil => exact fun _ => rfl
  | cons p rest ih =>
    intro index
    simp only [tailClauses, tailLines, tailOf, Scope.tailLines, ih, sortClause_eq_map,
      limitClause_eq_map, List.map_append]

theorem returnClause_eq_clause (scopes : List (Option Hop × Scope)) :
    returnClause scopes = (resultLine scopes).clause := by
  have hreturn : utf8 "RETURN " = ClauseKind.result.keyword ++ [0x20] := by decide +kernel
  have hdistinct : utf8 "DISTINCT " = utf8 "DISTINCT" ++ [0x20] := by decide +kernel
  simp only [returnClause, resultLine, Line.clause, Line.tokens, hreturn, hdistinct]
  cases scopes.any fun (_, s) => s.distinct <;>
    simp [Token.text, Token.blank, Token.keyword]

/-- **The clauses of a query are the ones that its lines spell**, where it has any. -/
theorem clauses_eq_map_lines {limit : Int32} {q : Query} {clauses : List Clause}
    (h : q.clauses limit = .ok clauses) : clauses = q.lines.map Line.clause := by
  obtain ⟨heads, hheads, h⟩ := bind_eq_ok_iff.mp h
  cases h
  rw [headClauses_eq_map q.scopes hheads, tailClauses_eq_map, returnClause_eq_clause]
  simp only [Query.lines, List.map_append, List.map_cons, List.map_nil, List.append_assoc]

/-! ### Which lines there are -/

/-- A line of the scope at an index, to which a hop leads where it is not the root. -/
inductive Scope.HasLine (index : Nat) (hop : Option Hop) (s : Scope) : Line → Prop where
  | loop : HasLine index hop s (loopLine index hop s)
  | prune {f : Filter} : s.prune = some f →
      HasLine index hop s ⟨index + 1, .prune, f.tokens (ScopeName.ofDepth index)⟩
  | filter {f : Filter} : s.filter = some f →
      HasLine index hop s ⟨index + 1, .filter, f.tokens (ScopeName.ofDepth index)⟩
  | sort : s.sorts ≠ [] →
      HasLine index hop s
        ⟨index + 1, .sort, listTokens (s.sorts.map (SortKey.tokens (ScopeName.ofDepth index)))⟩
  | limit {l : Limit} : s.limit = some l → HasLine index hop s ⟨index + 1, .limit, l.tokens⟩

theorem Scope.hasLine_iff {index : Nat} {hop : Option Hop} {s : Scope} {l : Line} :
    s.HasLine index hop l ↔ l ∈ s.headLines index hop ∨ l ∈ s.tailLines index := by
  simp only [Scope.headLines, Scope.tailLines, filterLines, sortLines, limitLines, List.mem_cons,
    List.mem_append, List.mem_map, Option.mem_toList]
  constructor
  · intro h
    cases h with
    | loop => exact Or.inl (Or.inl rfl)
    | prune hf => exact Or.inl (Or.inr (Or.inl ⟨_, hf, rfl⟩))
    | filter hf => exact Or.inl (Or.inr (Or.inr ⟨_, hf, rfl⟩))
    | sort hne => exact Or.inr (Or.inl (by simp [hne]))
    | limit hl => exact Or.inr (Or.inr ⟨_, hl, rfl⟩)
  · rintro ((rfl | ⟨f, hf, rfl⟩ | ⟨f, hf, rfl⟩) | h | ⟨l, hl, rfl⟩)
    · exact .loop
    · exact .prune hf
    · exact .filter hf
    · split at h
      · cases h
      · rename_i hne
        cases List.mem_singleton.mp h
        exact .sort (by simpa using hne)
    · exact .limit hl

/-- What a chain writes on the way down and on the way back up are the lines of its scopes, each
at the index where the scope stands. -/
theorem mem_headLines_or_tailLines_iff {l : Line} (scopes : List (Option Hop × Scope)) :
    ∀ index, l ∈ headLines index scopes ∨ l ∈ tailLines index scopes ↔
      ∃ (i : Nat) (hop : Option Hop) (s : Scope), scopes[i]? = some (hop, s) ∧
        s.HasLine (index + i) hop l := by
  induction scopes with
  | nil => simp [headLines, tailLines]
  | cons p rest ih =>
    obtain ⟨hop, s⟩ := p
    intro index
    have hsplit : l ∈ headLines index ((hop, s) :: rest) ∨ l ∈ tailLines index ((hop, s) :: rest) ↔
        s.HasLine index hop l ∨ l ∈ headLines (index + 1) rest ∨ l ∈ tailLines (index + 1) rest := by
      rw [headLines, tailLines, List.mem_append, List.mem_append, Scope.hasLine_iff]
      tauto
    rw [hsplit, ih]
    constructor
    · rintro (h | ⟨i, hop', s', hs', h⟩)
      · exact ⟨0, hop, s, rfl, h⟩
      · exact ⟨i + 1, hop', s', hs', by rwa [Nat.add_right_comm] at h⟩
    · rintro ⟨_ | i, hop', s', hs', h⟩
      · cases hs'
        exact Or.inl h
      · exact Or.inr ⟨i, hop', s', hs', by rwa [Nat.add_right_comm]⟩

/-- **A line of a query is one of a scope**, made at the index of the scope, or the last one. -/
theorem Query.mem_lines_iff {q : Query} {l : Line} :
    l ∈ q.lines ↔ (∃ (i : Nat) (hop : Option Hop) (s : Scope), q.scopes[i]? = some (hop, s) ∧
      s.HasLine i hop l) ∨
      l = resultLine q.scopes := by
  have h := mem_headLines_or_tailLines_iff (l := l) q.scopes 0
  simp only [Nat.zero_add] at h
  rw [← h, Query.lines, List.mem_append, List.mem_append, List.mem_singleton, or_assoc]

/-! ### Where the words come from -/

/-- The filters of a scope. -/
def Scope.filters (s : Scope) : List Filter :=
  s.prune.toList ++ s.filter.toList

/-- The comparisons in the filters of a scope, at any depth. -/
def Scope.comparisons (s : Scope) : List Comparison :=
  s.filters.flatMap Filter.comparisons

/-- The words of a scope that copy a name or an expression. -/
def Scope.nameTokens (variableName : Text) (s : Scope) : List Token :=
  .word s.source.name ::
    (s.sorts.map (fun key => .word (Operand.qualified variableName key.field))
      ++ s.comparisons.flatMap (Comparison.nameTokens variableName))

theorem Scope.mem_nameTokens_iff {v : Text} {s : Scope} {t : Token} :
    t ∈ s.nameTokens v ↔ t = .word s.source.name ∨
      (∃ key ∈ s.sorts, t = .word (Operand.qualified v key.field)) ∨
      ∃ c ∈ s.comparisons, t ∈ c.nameTokens v := by
  simp only [Scope.nameTokens, List.mem_cons, List.mem_append, List.mem_map, List.mem_flatMap,
    eq_comm (b := t)]

theorem Scope.mem_filters_iff {s : Scope} {f : Filter} :
    f ∈ s.filters ↔ s.prune = some f ∨ s.filter = some f := by
  simp [Scope.filters]

theorem ScopeName.isWordByte_of_mem {scope : Text} (hscope : ScopeName.isName scope = true)
    {b : UInt8} (h : b ∈ scope) : isWordByte b = true ∧ isCapital b = false := by
  have all : ∀ k : Fin 256, 0x61 ≤ UInt8.ofNat k → UInt8.ofNat k ≤ 0x6b →
      isWordByte (UInt8.ofNat k) = true ∧ isCapital (UInt8.ofNat k) = false := by decide +kernel
  obtain ⟨hfirst, hlast⟩ := (ScopeName.isName_iff.mp hscope).2 b h
  simpa using all ⟨b.toNat, b.toNat_lt⟩ (by simpa using hfirst) (by simpa using hlast)

theorem ScopeName.isPlain_ofDepth (index : Nat) :
    (Token.word (ScopeName.ofDepth index)).isPlain = true := by
  obtain ⟨b, hb⟩ := List.exists_mem_of_ne_nil _ (ScopeName.ofDepth_ne_nil index)
  have hname : ScopeName.isName (ScopeName.ofDepth index) = true := ScopeName.isName_ofDepth index
  exact Token.isPlain_word (fun c hc => (ScopeName.isWordByte_of_mem hname hc).1) hb
    (ScopeName.isWordByte_of_mem hname hb).2

theorem Hop.isPlain_or_eq_of_mem_tokens {hop : Hop} {start : Token} {target : Text} {t : Token}
    (h : t ∈ hop.tokens start target) : t.isPlain = true ∨ t = start ∨ t = .word target := by
  have hrange : (Token.word hop.depths.text).isPlain = true :=
    Token.isPlain_numeral hop.depths.text_ne_nil fun _ => DepthRange.isNumeralByte_of_mem_text
  have hdirection : (Token.word hop.direction.name).isPlain = true := by
    cases hop.direction <;> decide +kernel
  have hgraph : ∀ t ∈ (if hop.namedGraph then [Token.keyword "GRAPH", .blank] else []),
      t.isPlain = true := by
    split <;> decide +kernel
  simp only [Hop.tokens, List.mem_cons, List.mem_append, List.not_mem_nil, or_false] at h
  rcases h with rfl | rfl | rfl | rfl | rfl | rfl | h | rfl
  · exact Or.inl hrange
  · exact Or.inl Token.isPlain_blank
  · exact Or.inl hdirection
  · exact Or.inl Token.isPlain_blank
  · exact Or.inr (Or.inl rfl)
  · exact Or.inl Token.isPlain_blank
  · exact Or.inl (hgraph t h)
  · exact Or.inr (Or.inr rfl)

theorem isPlain_or_eq_of_mem_domainTokens {index : Nat} {hop : Option Hop} {source : Source}
    {t : Token} (h : t ∈ domainTokens index hop source) :
    t.isPlain = true ∨ t = .word source.name := by
  rcases hop with _ | hop
  · rcases source with name | ⟨hop, target, start⟩
    · exact Or.inr (List.mem_singleton.mp h)
    · rcases Hop.isPlain_or_eq_of_mem_tokens h with h | rfl | h
      · exact Or.inl h
      · exact Or.inl rfl
      · exact Or.inr h
  · rcases Hop.isPlain_or_eq_of_mem_tokens h with h | rfl | h
    · exact Or.inl h
    · exact Or.inl (ScopeName.isPlain_ofDepth _)
    · exact Or.inr h

theorem isPlain_of_mem_limitTokens {l : Limit} {t : Token} (h : t ∈ l.tokens) :
    t.isPlain = true := by
  have hnumeral : ∀ n, (Token.word (decimal n)).isPlain = true := fun n =>
    Token.isPlain_numeral (decimal_ne_nil n) fun _ => isNumeralByte_of_mem_decimal
  have hcomma : Token.comma.isPlain = true := by decide
  revert t
  rcases l with ⟨count, _ | skip⟩
  · simp [Limit.tokens, hnumeral]
  · simp [Limit.tokens, hnumeral, hcomma, Token.isPlain_blank]

theorem isPlain_of_resultLine {scopes : List (Option Hop × Scope)} {t : Token}
    (h : t ∈ (resultLine scopes).body) : t.isPlain = true := by
  have hdistinct : ∀ b : Bool, ∀ t ∈ (if b then [Token.keyword "DISTINCT", .blank] else []),
      t.isPlain = true := by decide +kernel
  rcases List.mem_append.mp h with h | h
  · exact hdistinct _ t h
  · rw [List.mem_singleton.mp h]
    exact ScopeName.isPlain_ofDepth _

section Scopes

variable {index : Nat} {hop : Option Hop} {s : Scope} {l : Line} {t : Token}

theorem Filter.isPlain_or_mem_scopeNameTokens {f : Filter} (hf : f ∈ s.filters) {v : Text}
    (h : t ∈ f.tokens v) : t.isPlain = true ∨ t ∈ s.nameTokens v := by
  refine (Filter.isPlain_or_mem_nameTokens h).imp_right ?_
  rintro ⟨c, hc, h⟩
  exact Scope.mem_nameTokens_iff.mpr (Or.inr (Or.inr ⟨c, List.mem_flatMap.mpr ⟨f, hf, hc⟩, h⟩))

theorem SortKey.isPlain_or_eq_of_mem_tokens {key : SortKey} {v : Text} (h : t ∈ key.tokens v) :
    t.isPlain = true ∨ t = .word (Operand.qualified v key.field) := by
  have hdirection : (Token.word key.direction.name).isPlain = true := by
    cases key.direction <;> decide +kernel
  simp only [SortKey.tokens, List.mem_cons, List.not_mem_nil, or_false] at h
  rcases h with rfl | rfl | rfl
  · exact Or.inr rfl
  · exact Or.inl Token.isPlain_blank
  · exact Or.inl hdirection

/-- The tokens of a line of a scope are plain behind the first, but for the scope's names. -/
theorem Scope.HasLine.isPlain_or_mem_nameTokens (hl : s.HasLine index hop l) (h : t ∈ l.body) :
    t.isPlain = true ∨ t ∈ s.nameTokens (ScopeName.ofDepth index) := by
  cases hl with
  | loop =>
    simp only [loopLine, List.mem_cons] at h
    rcases h with rfl | rfl | rfl | rfl | h
    · exact Or.inl (ScopeName.isPlain_ofDepth index)
    · exact Or.inl Token.isPlain_blank
    · exact Or.inl (by decide +kernel)
    · exact Or.inl Token.isPlain_blank
    · exact (isPlain_or_eq_of_mem_domainTokens h).imp_right fun h =>
        Scope.mem_nameTokens_iff.mpr (Or.inl h)
  | prune hf =>
    exact Filter.isPlain_or_mem_scopeNameTokens (Scope.mem_filters_iff.mpr (Or.inl hf)) h
  | filter hf =>
    exact Filter.isPlain_or_mem_scopeNameTokens (Scope.mem_filters_iff.mpr (Or.inr hf)) h
  | sort _ =>
    have hbetween : ∀ t ∈ [Token.comma, .blank], t.isPlain = true := by decide
    rcases mem_joinTokens h with h | ⟨part, hpart, h⟩
    · exact Or.inl (hbetween t h)
    · obtain ⟨key, hkey, rfl⟩ := List.mem_map.mp hpart
      refine (SortKey.isPlain_or_eq_of_mem_tokens h).imp_right ?_
      rintro rfl
      exact Scope.mem_nameTokens_iff.mpr (Or.inr (Or.inl ⟨key, hkey, rfl⟩))
  | limit _ => exact Or.inl (isPlain_of_mem_limitTokens h)

end Scopes

/-- **The tokens behind the first word of a line are plain**, but for the words that copy a name of
one of the scopes. -/
theorem isPlain_or_mem_nameTokens_of_mem_lines {q : Query} {l : Line} {t : Token}
    (hl : l ∈ q.lines) (h : t ∈ l.body) :
    t.isPlain = true ∨ ∃ p ∈ q.scopes, ∃ i, t ∈ p.2.nameTokens (ScopeName.ofDepth i) := by
  rcases Query.mem_lines_iff.mp hl with ⟨i, hop, s, hs, hl⟩ | rfl
  · refine (hl.isPlain_or_mem_nameTokens h).imp_right fun h => ?_
    exact ⟨(hop, s), List.mem_of_getElem? hs, i, h⟩
  · exact Or.inl (isPlain_of_resultLine h)

/-! ### Bytes that names avoid -/

/-- A byte does not occur in what a scope copies: the name of its source, fields and expressions. -/
structure Scope.NamesAvoid (b : UInt8) (s : Scope) : Prop where
  source : b ∉ s.source.name
  sorts : ∀ key ∈ s.sorts, b ∉ key.field
  comparisons : ∀ c ∈ s.comparisons,
    b ∉ c.subject.text ∧ ∀ path, c.operand = .field path → b ∉ path

/-- A byte does not occur in what a query copies. -/
def Query.NamesAvoid (b : UInt8) (q : Query) : Prop :=
  ∀ p ∈ q.scopes, p.2.NamesAvoid b

theorem notMem_qualified {b : UInt8} (hb : isForeign b = true) {index : Nat} {path : Text}
    (h : b ∉ path) : b ∉ Operand.qualified (ScopeName.ofDepth index) path := by
  have hword : isWordByte b = false := by
    simp only [isForeign, Bool.and_eq_true, Bool.not_eq_true'] at hb
    exact hb.1
  have hpoint : ∀ c ∈ utf8 ".", isWordByte c = true := by decide +kernel
  rw [Operand.qualified, List.mem_append, List.mem_append]
  rintro ((hmem | hmem) | hmem)
  · rw [(ScopeName.isWordByte_of_mem (ScopeName.isName_ofDepth index) hmem).1] at hword
    cases hword
  · rw [hpoint b hmem] at hword
    cases hword
  · exact h hmem

theorem Scope.NamesAvoid.notMem_of_mem_nameTokens {b : UInt8} (hb : isForeign b = true) {s : Scope}
    (hs : s.NamesAvoid b) {index : Nat} {t : Token}
    (h : t ∈ s.nameTokens (ScopeName.ofDepth index)) : b ∉ t.text := by
  rcases Scope.mem_nameTokens_iff.mp h with rfl | ⟨key, hkey, rfl⟩ | ⟨c, hc, h⟩
  · exact hs.source
  · exact notMem_qualified hb (hs.sorts key hkey)
  · obtain ⟨hsubject, hoperand⟩ := hs.comparisons c hc
    rcases Comparison.mem_nameTokens_iff.mp h with ⟨name, _, hfield, rfl⟩ |
      ⟨expression, hstatement, rfl⟩ | ⟨path, ho, rfl⟩
    · rw [hfield] at hsubject
      exact notMem_qualified hb hsubject
    · rw [hstatement] at hsubject
      exact hsubject
    · exact notMem_qualified hb (hoperand path ho)

/-- **A foreign byte that names avoid stands in literals only.** -/
theorem Query.NamesAvoid.eq_quoted_of_mem_lines {b : UInt8} (hb : isForeign b = true) {q : Query}
    (hq : q.NamesAvoid b) {l : Line} (hl : l ∈ q.lines) {t : Token} (ht : t ∈ l.tokens)
    (h : b ∈ t.text) : ∃ s, t = .quoted s := by
  rcases List.mem_cons.mp ht with rfl | ht
  · exact Token.eq_quoted_of_isForeign l.kind.isProper_keyword hb h
  rcases List.mem_cons.mp ht with rfl | ht
  · exact Token.eq_quoted_of_isForeign (by decide) hb h
  rcases isPlain_or_mem_nameTokens_of_mem_lines hl ht with hplain | ⟨p, hp, i, hname⟩
  · exact Token.eq_quoted_of_isForeign (Token.isPlain_iff.mp hplain).1 hb h
  · exact absurd h ((hq p hp).notMem_of_mem_nameTokens hb hname)

/-! ### Words apart from each other -/

theorem Query.WellFormed.of_mem_scopes {q : Query} (hq : q.WellFormed) {p : Option Hop × Scope}
    (hp : p ∈ q.scopes) : p.2.WellFormed := by
  rcases List.mem_cons.mp hp with rfl | hp
  · exact hq.root
  · obtain ⟨j, hj, rfl⟩ := List.mem_map.mp hp
    exact hq.joins j hj

theorem Hop.separated_tokens (hop : Hop) (start : Token) (target : Text) :
    Separated (hop.tokens start target) := by
  cases h : hop.namedGraph <;> simp [Hop.tokens, h]

theorem separated_domainTokens (index : Nat) (hop : Option Hop) (source : Source) :
    Separated (domainTokens index hop source) := by
  rcases hop with _ | hop
  · rcases source with name | ⟨hop, target, start⟩
    · exact separated_singleton _
    · exact hop.separated_tokens _ _
  · exact hop.separated_tokens _ _

theorem Limit.separated_tokens (l : Limit) : Separated l.tokens := by
  rcases l with ⟨count, _ | skip⟩ <;> simp [Limit.tokens]

theorem Scope.HasLine.separated_body {index : Nat} {hop : Option Hop} {s : Scope} {l : Line}
    (hs : s.WellFormed) (hl : s.HasLine index hop l) : Separated l.body := by
  cases hl with
  | loop => simpa [loopLine] using separated_domainTokens index hop s.source
  | prune hf => exact Filter.separated_tokens (hs.prune _ hf)
  | filter hf => exact Filter.separated_tokens (hs.filter _ hf)
  | sort _ =>
    refine separated_listTokens fun part hpart => ?_
    obtain ⟨key, _, rfl⟩ := List.mem_map.mp hpart
    simp [SortKey.tokens]
  | limit _ => exact Limit.separated_tokens _

theorem separated_resultLine (scopes : List (Option Hop × Scope)) :
    Separated (resultLine scopes).body := by
  rw [resultLine]
  split <;> simp

/-- **In a line of a well-formed query no two words stand side by side.** -/
theorem separated_of_mem_lines {q : Query} (hq : q.WellFormed) {l : Line} (hl : l ∈ q.lines) :
    Separated l.tokens := by
  rw [Line.tokens, separated_cons_separator]
  rcases Query.mem_lines_iff.mp hl with ⟨i, hop, s, hs, hl⟩ | rfl
  · exact hl.separated_body (hq.of_mem_scopes (List.mem_of_getElem? hs))
  · exact separated_resultLine _

/-! ### Layout -/

/-- The tokens of a line behind its indentation. -/
def Line.indented (width : Nat) (l : Line) : List Token :=
  List.replicate (l.depth * width) .blank ++ l.tokens

/-- The tokens of the statement of a query. -/
def Query.tokens (o : Options) (q : Query) : List Token :=
  if o.pretty then
    joinTokens [.separator 0x0a] (q.lines.map (Line.indented o.indentWidth.toInt.toNat))
  else joinTokens [.blank] (q.lines.map Line.tokens)

theorem spell_replicate_blank (n : Nat) :
    spell (List.replicate n .blank) = List.replicate n 0x20 := by
  induction n with
  | zero => rfl
  | succ n ih => rw [List.replicate_succ, spell_cons, ih, List.replicate_succ]; rfl

theorem Line.spell_indented (width : Nat) (l : Line) :
    spell (l.indented width) = l.clause.line width := by
  rw [Line.indented, spell_append, spell_replicate_blank]
  rfl

/-- **The statement of a query is what its tokens spell.** -/
theorem text_eq_spell_of_compile {o : Options} {q : Query} {st : Statement}
    (h : q.compile o = .ok st) : st.text = spell (q.tokens o) := by
  obtain ⟨clauses, hclauses, h⟩ := bind_eq_ok_iff.mp h
  cases h
  rw [clauses_eq_map_lines hclauses, layOut, Query.tokens]
  split
  · simp only [spell_joinTokens, List.map_map, Function.comp_def, Line.spell_indented]
    rfl
  · rw [spell_joinTokens, List.map_map, List.map_map]
    rfl

end GraphQuery
