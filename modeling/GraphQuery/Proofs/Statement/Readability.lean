import GraphQuery.Proofs.Statement.Lines
import GraphQuery.Proofs.Statement.Validity
import Mathlib.Data.List.SplitBy

/-!
# Reading a statement back

A compact statement is one line of words divided by blanks, and its strings may hold anything. Still
it can be read back where names are plain names: its tokens are determined by its text, and the
tokens show where clauses begin.

* `Query.Readable`: queries whose names, fields and paths are made of letters, digits, underscores
  and points, and that copy no expression.
* `contents_eq_of_text_eq`: readable queries of one text have the same lines, but for the depths.
-/

namespace GraphQuery

/-! ### Names -/

/-- The bytes of names: letters, digits and the underscore. -/
def isNameByte (b : UInt8) : Bool :=
  isDigit b || isCapital b || (decide (0x61 ≤ b) && decide (b ≤ 0x7a)) || b == 0x5f

/-- The bytes of field paths: those of names, and the point. -/
def isPathByte (b : UInt8) : Bool :=
  isNameByte b || b == point

/-- The words in capitals that stand in statements. -/
def reservedWords : List Text :=
  ["FOR", "IN", "PRUNE", "FILTER", "SORT", "LIMIT", "RETURN", "DISTINCT", "ASC", "DESC", "GRAPH",
    "OUTBOUND", "INBOUND", "ANY", "ALL", "NONE", "LIKE", "NOT"].map utf8

/-- A name that can be told from every other word of a statement. -/
def IsName (w : Text) : Prop :=
  w ≠ [] ∧ (∀ b ∈ w, isNameByte b = true) ∧ w ∉ reservedWords

/-- A path of fields. -/
def IsPath (w : Text) : Prop :=
  w ≠ [] ∧ ∀ b ∈ w, isPathByte b = true

instance (w : Text) : Decidable (IsName w) :=
  inferInstanceAs (Decidable (_ ∧ _ ∧ _))

instance (w : Text) : Decidable (IsPath w) :=
  inferInstanceAs (Decidable (_ ∧ _))

/-- The subject is a field and no expression, and all fields are paths. Literals may hold
anything. -/
def Comparison.Readable (c : Comparison) : Prop :=
  (∃ name quantifier, c.subject = .field name quantifier ∧ IsPath name) ∧
    ∀ path, c.operand = .field path → IsPath path

structure Scope.Readable (s : Scope) : Prop where
  source : IsName s.source.name
  sorts : ∀ key ∈ s.sorts, IsPath key.field
  comparisons : ∀ c ∈ s.comparisons, c.Readable

/-- Queries whose statements can be read back. -/
structure Query.Readable (q : Query) : Prop where
  /-- The filters are as the builders and the decoder make them. -/
  wellFormed : q.WellFormed
  scopes : ∀ s ∈ q.scopeList, s.Readable

theorem isWordByte_of_isPathByte {b : UInt8} (h : isPathByte b = true) : isWordByte b = true := by
  have all : ∀ k : Fin 256, isPathByte (UInt8.ofNat k) = true →
      isWordByte (UInt8.ofNat k) = true := by decide +kernel
  simpa using all ⟨b.toNat, b.toNat_lt⟩ (by simpa using h)

theorem isPathByte_of_isNameByte {b : UInt8} (h : isNameByte b = true) : isPathByte b = true := by
  simp [isPathByte, h]

theorem IsName.isPlain {w : Text} (h : IsName w) : (Token.word w).isPlain = true := by
  obtain ⟨hne, hbytes, hreserved⟩ := h
  refine Token.isPlain_iff.mpr ⟨isWord_iff.mpr ⟨hne, fun b hb => ?_⟩, ?_⟩
  · exact isWordByte_of_isPathByte (isPathByte_of_isNameByte (hbytes b hb))
  · rw [Bool.eq_false_iff, Ne, Token.opensClause_word_iff]
    rintro ⟨k, rfl⟩
    have all : ∀ k : ClauseKind, k.keyword ∈ reservedWords := by
      intro k
      cases k <;> decide +kernel
    exact hreserved (all k)

/-- A path under a variable begins with a small letter, so that it begins no clause. -/
theorem IsPath.isPlain_qualified {w scope : Text} (h : IsPath w)
    (hscope : ScopeName.isName scope = true) :
    (Token.word (Operand.qualified scope w)).isPlain = true := by
  obtain ⟨b, hb⟩ := List.exists_mem_of_ne_nil _ (ScopeName.isName_iff.mp hscope).1
  obtain ⟨hwords, hcapital⟩ := ScopeName.isWordByte_of_mem hscope hb
  refine Token.isPlain_word (b := b) (fun c hc => ?_) ?_ hcapital
  · have hpoint : ∀ c ∈ utf8 ".", isWordByte c = true := by decide +kernel
    rcases List.mem_append.mp hc with hc | hc
    · rcases List.mem_append.mp hc with hc | hc
      · exact (ScopeName.isWordByte_of_mem hscope hc).1
      · exact hpoint c hc
    · exact isWordByte_of_isPathByte (h.2 c hc)
  · exact List.mem_append_left _ (List.mem_append_left _ hb)

theorem Comparison.Readable.isPlain_of_mem_nameTokens {c : Comparison} (hc : c.Readable)
    {scope : Text} (hscope : ScopeName.isName scope = true) {t : Token}
    (h : t ∈ c.nameTokens scope) : t.isPlain = true := by
  obtain ⟨⟨name, quantifier, hsubject, hname⟩, hoperand⟩ := hc
  rcases Comparison.mem_nameTokens_iff.mp h with ⟨_, _, hfield, rfl⟩ | ⟨_, hstatement, _⟩ |
    ⟨path, ho, rfl⟩
  · cases hsubject.symm.trans hfield
    exact hname.isPlain_qualified hscope
  · cases hsubject.symm.trans hstatement
  · exact (hoperand path ho).isPlain_qualified hscope

theorem Scope.Readable.isPlain_of_mem_nameTokens {s : Scope} (hs : s.Readable) {index : Nat}
    {t : Token} (h : t ∈ s.nameTokens (ScopeName.ofDepth index)) : t.isPlain = true := by
  have hscope : ScopeName.isName (ScopeName.ofDepth index) = true := ScopeName.isName_ofDepth index
  rcases Scope.mem_nameTokens_iff.mp h with rfl | ⟨key, hkey, rfl⟩ | ⟨c, hc, h⟩
  · exact hs.source.isPlain
  · exact (hs.sorts key hkey).isPlain_qualified hscope
  · exact (hs.comparisons c hc).isPlain_of_mem_nameTokens hscope h

/-! ### Builders of readable queries -/

namespace Query.Readable

theorem collection {name : Text} (h : IsName name) : (Query.collection name).Readable where
  wellFormed := (Query.Built.collection name).wellFormed
  scopes := List.forall_mem_singleton.mpr
    { source := h
      sorts := fun _ hkey => nomatch hkey
      comparisons := fun _ hc => nomatch hc }

variable {q nested : Query}

theorem limit (h : q.Readable) (l : Limit) : (q.limit l).Readable := by
  obtain ⟨hroot, hjoins⟩ := List.forall_mem_cons.mp h.scopes
  exact ⟨⟨⟨h.wellFormed.root.prune, h.wellFormed.root.filter⟩, h.wellFormed.joins⟩,
    List.forall_mem_cons.mpr ⟨⟨hroot.source, hroot.sorts, hroot.comparisons⟩, hjoins⟩⟩

theorem distinct (h : q.Readable) : q.distinct.Readable := by
  obtain ⟨hroot, hjoins⟩ := List.forall_mem_cons.mp h.scopes
  exact ⟨⟨⟨h.wellFormed.root.prune, h.wellFormed.root.filter⟩, h.wellFormed.joins⟩,
    List.forall_mem_cons.mpr ⟨⟨hroot.source, hroot.sorts, hroot.comparisons⟩, hjoins⟩⟩

theorem filter (h : q.Readable) {f : Filter} (hf : f.WellFormed)
    (hcomparisons : ∀ c ∈ f.comparisons, c.Readable) : (q.filter f).Readable := by
  obtain ⟨hroot, hjoins⟩ := List.forall_mem_cons.mp h.scopes
  refine ⟨⟨⟨h.wellFormed.root.prune, fun g hg => Option.some.inj hg ▸ hf⟩, h.wellFormed.joins⟩,
    List.forall_mem_cons.mpr ⟨⟨hroot.source, hroot.sorts, fun c hc => ?_⟩, hjoins⟩⟩
  obtain ⟨g, hg, hc⟩ := List.mem_flatMap.mp hc
  rcases Scope.mem_filters_iff.mp hg with hg | hg
  · have hprune : g ∈ q.root.filters := Scope.mem_filters_iff.mpr (Or.inl hg)
    exact hroot.comparisons c (List.mem_flatMap.mpr ⟨g, hprune, hc⟩)
  · exact hcomparisons c (Option.some.inj hg ▸ hc)

theorem join (h : q.Readable) (hop : Hop) (hnested : nested.Readable) :
    (q.join hop nested).Readable := by
  obtain ⟨hroot, _⟩ := List.forall_mem_cons.mp h.scopes
  exact ⟨Query.wellFormed_join_iff.mpr ⟨h.wellFormed.root, hnested.wellFormed⟩,
    List.forall_mem_cons.mpr ⟨hroot, hnested.scopes⟩⟩

end Query.Readable

/-! ### From a text to lines -/

/-- A line but for its depth, which a compact statement does not show. -/
def Line.content (l : Line) : ClauseKind × List Token :=
  (l.kind, l.body)

/-- The tokens of a line are made from its content alone. -/
def contentTokens (c : ClauseKind × List Token) : List Token :=
  .word c.1.keyword :: .blank :: c.2

theorem contentTokens_injective : Function.Injective contentTokens := by
  rintro ⟨kind, body⟩ ⟨kind', body'⟩ h
  simp only [contentTokens, List.cons.injEq, Token.word.injEq, true_and] at h
  rw [ClauseKind.vocabulary.name_inj kind kind' h.1, h.2]

/-- The contents of the lines of a query. -/
def Query.contents (q : Query) : List (ClauseKind × List Token) :=
  q.lines.map Line.content

section Readable

variable {q : Query} (hq : q.Readable)

include hq

theorem Query.Readable.isPlain_of_mem_lines {l : Line} (hl : l ∈ q.lines) {t : Token}
    (ht : t ∈ l.body) : t.isPlain = true := by
  rcases isPlain_or_mem_nameTokens_of_mem_lines hl ht with h | ⟨p, hp, i, h⟩
  · exact h
  · exact (hq.scopes p.2 (Query.snd_mem_scopeList hp)).isPlain_of_mem_nameTokens h

theorem Query.Readable.isProper_of_mem_lines {l : Line} (hl : l ∈ q.lines) :
    ∀ t ∈ l.tokens, t.isProper = true := by
  rw [Line.tokens, List.forall_mem_cons, List.forall_mem_cons]
  refine ⟨l.kind.isProper_keyword, by decide, fun t ht => ?_⟩
  exact (Token.isPlain_iff.mp (hq.isPlain_of_mem_lines hl ht)).1

/-- The tokens of a readable statement can be told from its text. -/
theorem Query.Readable.isProper_of_mem_joinTokens {t : Token}
    (h : t ∈ joinTokens [.blank] (q.lines.map Line.tokens)) : t.isProper = true := by
  rcases mem_joinTokens h with h | ⟨part, hpart, h⟩
  · rw [List.mem_singleton.mp h]
    decide
  · obtain ⟨l, hl, rfl⟩ := List.mem_map.mp hpart
    exact hq.isProper_of_mem_lines hl t h

theorem Query.Readable.separated_joinTokens :
    Separated (joinTokens [.blank] (q.lines.map Line.tokens)) := by
  refine GraphQuery.separated_joinTokens (fun _ => Iff.rfl) fun part hpart => ?_
  obtain ⟨l, hl, rfl⟩ := List.mem_map.mp hpart
  exact separated_of_mem_lines hq.wellFormed hl

/-- In a readable statement only the first word of a clause begins one, so that its tokens can be cut
into clauses. -/
theorem Query.Readable.splitBy_joinTokens :
    (joinTokens [.blank] (q.lines.map Line.tokens) ++ [Token.blank]).splitBy
        (fun _ t => !t.opensClause) = q.lines.map fun l => l.tokens ++ [.blank] := by
  have hopens : ∀ k : ClauseKind, (Token.word k.keyword).opensClause = true := fun k =>
    Token.opensClause_word_iff.mpr ⟨k, rfl⟩
  have hflatten : joinTokens [.blank] (q.lines.map Line.tokens) ++ [.blank] =
      (q.lines.map fun l => l.tokens ++ [.blank]).flatten := by
    rw [joinTokens_append_between (by simpa using q.lines_ne_nil), List.flatMap_map,
      List.flatMap_def]
  rw [hflatten]
  refine List.splitBy_flatten ?_ ?_ ?_
  · simp
  · -- Inside a clause nothing is cut: only its first token begins one.
    intro part hpart
    obtain ⟨l, hl, rfl⟩ := List.mem_map.mp hpart
    have hbody : ∀ t ∈ Token.blank :: (l.body ++ [.blank]), t.opensClause = false := by
      rw [List.forall_mem_cons, List.forall_mem_append, List.forall_mem_singleton]
      refine ⟨rfl, fun t ht => ?_, rfl⟩
      exact (Token.isPlain_iff.mp (hq.isPlain_of_mem_lines hl ht)).2
    refine (List.pairwise_cons.mpr ⟨fun t ht => ?_, ?_⟩).isChain
    · rw [hbody t ht]
      rfl
    · refine List.pairwise_of_forall_mem_list fun _ _ t ht => ?_
      rw [hbody t ht]
      rfl
  · -- Between two clauses there is a cut: the second begins with the word of its kind.
    refine (List.pairwise_of_forall_mem_list ?_).isChain
    intro part hpart next hnext
    obtain ⟨l, _, rfl⟩ := List.mem_map.mp hpart
    obtain ⟨l', _, rfl⟩ := List.mem_map.mp hnext
    refine ⟨by simp, by simp, ?_⟩
    simp [Line.tokens, hopens]

end Readable

/-- **Readable queries whose compact statements have one text have the same lines**, but for the
depths. -/
theorem contents_eq_of_text_eq {o o' : Options} (compact : o.pretty = false)
    (compact' : o'.pretty = false) {q q' : Query} (hq : q.Readable) (hq' : q'.Readable)
    {st st' : Statement} (h : q.compile o = .ok st) (h' : q'.compile o' = .ok st')
    (htext : st.text = st'.text) : q.contents = q'.contents := by
  rw [text_eq_spell_of_compile h, text_eq_spell_of_compile h', Query.tokens, Query.tokens, compact,
    compact'] at htext
  have htokens := spell_injective (fun _ => hq.isProper_of_mem_joinTokens)
    (fun _ => hq'.isProper_of_mem_joinTokens) hq.separated_joinTokens hq'.separated_joinTokens htext
  have hlines : q.lines.map (fun l => l.tokens ++ [.blank]) =
      q'.lines.map fun l => l.tokens ++ [.blank] := by
    rw [← hq.splitBy_joinTokens, htokens, hq'.splitBy_joinTokens]
  have hinjective : Function.Injective fun c => contentTokens c ++ [.blank] := fun _ _ h =>
    contentTokens_injective (List.append_cancel_right h)
  refine List.map_injective_iff.mpr hinjective ?_
  rw [Query.contents, Query.contents, List.map_map, List.map_map]
  exact hlines

end GraphQuery
