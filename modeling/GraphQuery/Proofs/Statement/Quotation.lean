import GraphQuery.Proofs.Statement.Lines
import GraphQuery.Proofs.Statement.Validity

/-!
# Quotation in statements

Strings, keys of objects and start vertices come from outside and are written as literals. However
they look, they must not leave their literal: neither may a text end its own literal early, nor may
what follows be read as part of it.

* `Query.quotedTexts` are these texts of a query, and `Query.quotedTexts_tokens` finds them in its
  statement, in order.
* `Query.valid_of_mem_quotedTexts`: in a query that compiles all of them are UTF-8.
* `Quoted.Shows` reads through a whole text, and `Query.shows_of_compile` says that in a statement it
  meets the texts of the query and no others, where no name has a mark.
* `quoted_standsAlone`: which texts have a literal, and that a literal is read as its text up to its
  end, by itself and at every place of a statement.
-/

namespace GraphQuery

/-! ### The literals of a statement -/

/-- The start vertex that is written where a scope begins: only a root has one. -/
def startTexts : Option Hop → Source → List Text
  | none, .traversal _ _ start => [start]
  | _, _ => []

/-- The texts that a scope shows as literals: its start vertex, then the strings and keys of its
prune and of its filter. -/
def Scope.quotedTexts (hop : Option Hop) (s : Scope) : List Text :=
  startTexts hop s.source ++ s.filters.flatMap Filter.quotedTexts

/-- The texts that a query shows as literals, from the root on. -/
def Query.quotedTexts (q : Query) : List Text :=
  q.scopes.flatMap fun (hop, s) => s.quotedTexts hop

/-- The literals of texts in a line. -/
def Line.quotedTexts (l : Line) : List Text :=
  GraphQuery.quotedTexts l.tokens

theorem Line.quotedTexts_mk (depth : Nat) (kind : ClauseKind) (body : List Token) :
    Line.quotedTexts ⟨depth, kind, body⟩ = GraphQuery.quotedTexts body := rfl

theorem Hop.quotedTexts_tokens (hop : Hop) (start : Token) (target : Text) :
    quotedTexts (hop.tokens start target) = start.quoted?.toList := by
  cases h : hop.namedGraph <;> cases start <;>
    simp [Hop.tokens, h, Token.keyword, Token.quoted?]

theorem quotedTexts_domainTokens (index : Nat) (hop : Option Hop) (source : Source) :
    quotedTexts (domainTokens index hop source) = startTexts hop source := by
  rcases hop with _ | hop
  · rcases source with name | ⟨hop, target, start⟩
    · rfl
    · exact hop.quotedTexts_tokens _ _
  · rw [domainTokens, Hop.quotedTexts_tokens]
    rfl

theorem quotedTexts_filterLines (kind : ClauseKind) (index : Nat) (f : Option Filter) :
    (filterLines kind index f).flatMap Line.quotedTexts = f.toList.flatMap Filter.quotedTexts := by
  simp only [filterLines, List.flatMap_map, Line.quotedTexts_mk, Filter.quotedTexts_tokens]

theorem Scope.quotedTexts_headLines (index : Nat) (hop : Option Hop) (s : Scope) :
    (s.headLines index hop).flatMap Line.quotedTexts = s.quotedTexts hop := by
  have hloop : (loopLine index hop s).quotedTexts = startTexts hop s.source :=
    quotedTexts_domainTokens index hop s.source
  rw [Scope.headLines, List.flatMap_cons, List.flatMap_append, hloop, quotedTexts_filterLines,
    quotedTexts_filterLines, Scope.quotedTexts, Scope.filters, List.flatMap_append]

theorem Scope.quotedTexts_of_mem_tailLines {index : Nat} {s : Scope} {l : Line}
    (h : l ∈ s.tailLines index) : l.quotedTexts = [] := by
  rcases List.mem_append.mp h with h | h
  · unfold sortLines at h
    split at h
    · cases h
    cases List.mem_singleton.mp h
    rw [Line.quotedTexts_mk, quotedTexts_listTokens, List.flatMap_map]
    exact List.flatMap_eq_nil_iff.mpr fun key _ => rfl
  · obtain ⟨⟨count, skip⟩, _, rfl⟩ := List.mem_map.mp h
    cases skip <;> rfl

theorem quotedTexts_headLines (scopes : List (Option Hop × Scope)) :
    ∀ index, (headLines index scopes).flatMap Line.quotedTexts =
      scopes.flatMap fun (hop, s) => s.quotedTexts hop := by
  induction scopes with
  | nil => exact fun _ => rfl
  | cons p rest ih =>
    obtain ⟨hop, s⟩ := p
    intro index
    rw [headLines, List.flatMap_append, Scope.quotedTexts_headLines, ih, List.flatMap_cons]

theorem quotedTexts_tailLines (scopes : List (Option Hop × Scope)) :
    ∀ index, (tailLines index scopes).flatMap Line.quotedTexts = [] := by
  induction scopes with
  | nil => exact fun _ => rfl
  | cons p rest ih =>
    obtain ⟨hop, s⟩ := p
    intro index
    rw [tailLines, List.flatMap_append, ih, List.nil_append]
    exact List.flatMap_eq_nil_iff.mpr fun l => Scope.quotedTexts_of_mem_tailLines

theorem quotedTexts_resultLine (scopes : List (Option Hop × Scope)) :
    (resultLine scopes).quotedTexts = [] := by
  rw [resultLine, Line.quotedTexts_mk]
  split <;> rfl

/-- **The literals of texts in the lines of a query** are its start vertex and the strings and keys
of its filters, in order. -/
theorem Query.quotedTexts_lines (q : Query) :
    q.lines.flatMap Line.quotedTexts = q.quotedTexts := by
  simp [Query.lines, quotedTexts_headLines, quotedTexts_tailLines, quotedTexts_resultLine,
    Query.quotedTexts]

theorem Line.quotedTexts_indented (width : Nat) (l : Line) :
    GraphQuery.quotedTexts (l.indented width) = l.quotedTexts := by
  rw [Line.indented, quotedTexts_append, Line.quotedTexts]
  induction l.depth * width with
  | zero => rfl
  | succ n ih => rw [List.replicate_succ, quotedTexts_separator_cons, ih]

theorem Query.quotedTexts_tokens (o : Options) (q : Query) :
    GraphQuery.quotedTexts (q.tokens o) = q.quotedTexts := by
  rw [Query.tokens, ← Query.quotedTexts_lines]
  split
  · rw [quotedTexts_joinTokens rfl, List.flatMap_map]
    simp only [Line.quotedTexts_indented]
  · rw [quotedTexts_joinTokens rfl, List.flatMap_map]
    rfl

/-! ### Reading through a statement -/

/-- Who reads a text from its beginning, passes over all that is not in a literal, and goes on behind
each literal, meets literals of these texts. -/
inductive Quoted.Shows : Text → List Text → Prop where
  | nil : Shows [] []
  | pass {b : UInt8} {rest : Text} {texts : List Text} : b ≠ Quoted.mark → Shows rest texts →
      Shows (b :: rest) texts
  | literal {t s rest : Text} {texts : List Text} : Quoted.decode? t = some (s, rest) →
      Shows rest texts → Shows t (s :: texts)

namespace Quoted

theorem decode?_eq_none_of_ne {b : UInt8} {rest : Text} (h : b ≠ mark) :
    decode? (b :: rest) = none := by
  rw [decode?, if_neg h]

/-- There is one way only to read through a text. -/
theorem Shows.unique {t : Text} {texts texts' : List Text} (h : Shows t texts)
    (h' : Shows t texts') : texts = texts' := by
  induction h generalizing texts' with
  | nil =>
    cases h' with
    | nil => rfl
    | literal hread _ => cases hread
  | pass hb _ ih =>
    cases h' with
    | pass _ hrest => exact ih hrest
    | literal hread _ =>
      rw [decode?_eq_none_of_ne hb] at hread
      cases hread
  | literal hread _ ih =>
    cases h' with
    | nil => cases hread
    | pass hb _ =>
      rw [decode?_eq_none_of_ne hb] at hread
      cases hread
    | literal hread' hrest =>
      obtain ⟨rfl, rfl⟩ := Prod.mk.inj (Option.some.inj (hread.symm.trans hread'))
      rw [ih hrest]

theorem Shows.pass_append {w rest : Text} {texts : List Text} (hw : mark ∉ w)
    (h : Shows rest texts) : Shows (w ++ rest) texts := by
  induction w with
  | nil => exact h
  | cons b w ih =>
    rw [List.mem_cons, not_or] at hw
    exact .pass (Ne.symm hw.1) (ih hw.2)

end Quoted

/-- Where marks stand in literals only, tokens show the texts of their literals. -/
theorem shows_spell {tokens : List Token}
    (h : ∀ t ∈ tokens, Quoted.mark ∈ t.text → ∃ s, t = .quoted s) :
    Quoted.Shows (spell tokens) (quotedTexts tokens) := by
  induction tokens with
  | nil => exact .nil
  | cons t rest ih =>
    obtain ⟨ht, hrest⟩ := List.forall_mem_cons.mp h
    have hshows := ih hrest
    cases t with
    | quoted s => exact .literal (Quoted.decode?_encode s _) hshows
    | word w =>
      refine hshows.pass_append (w := w) fun hmark => ?_
      obtain ⟨s, hs⟩ := ht hmark
      cases hs
    | separator b =>
      refine hshows.pass_append (w := [b]) fun hmark => ?_
      obtain ⟨s, hs⟩ := ht hmark
      cases hs

theorem Query.eq_quoted_of_mark_mem {q : Query} (hq : q.NamesAvoid Quoted.mark) {o : Options}
    {t : Token} (ht : t ∈ q.tokens o) (h : Quoted.mark ∈ t.text) : ∃ s, t = .quoted s := by
  have hline : ∀ l ∈ q.lines, t ∈ l.tokens → ∃ s, t = .quoted s := fun l hl ht =>
    hq.eq_quoted_of_mem_lines (by decide) hl ht h
  have hseparator : ∀ b : UInt8, b ≠ Quoted.mark → t ≠ .separator b := by
    rintro b hb rfl
    exact hb (List.mem_singleton.mp h).symm
  rw [Query.tokens] at ht
  split at ht
  · rcases mem_joinTokens ht with ht | ⟨part, hpart, ht⟩
    · exact absurd (List.mem_singleton.mp ht) (hseparator _ (by decide))
    · obtain ⟨l, hl, rfl⟩ := List.mem_map.mp hpart
      rcases List.mem_append.mp ht with ht | ht
      · exact absurd (List.mem_replicate.mp ht).2 (hseparator _ (by decide))
      · exact hline l hl ht
  · rcases mem_joinTokens ht with ht | ⟨part, hpart, ht⟩
    · exact absurd (List.mem_singleton.mp ht) (hseparator _ (by decide))
    · obtain ⟨l, hl, rfl⟩ := List.mem_map.mp hpart
      exact hline l hl ht

/-- **A statement shows the texts of its query and no others**, where no name has a mark. -/
theorem Query.shows_of_compile {o : Options} {q : Query} {st : Statement}
    (h : q.compile o = .ok st) (hq : q.NamesAvoid Quoted.mark) :
    Quoted.Shows st.text q.quotedTexts := by
  rw [text_eq_spell_of_compile h, ← q.quotedTexts_tokens o]
  exact shows_spell fun t => Query.eq_quoted_of_mark_mem hq

/-! ### Texts of queries that compile -/

namespace Value

mutual

/-- What a literal can show has UTF-8 in its strings and keys. -/
theorem valid_of_mem_quotedTexts : ∀ v : Value, v.Plain → ∀ s ∈ v.quotedTexts, Utf8.valid s = true
  | .null, _ => fun _ hs => nomatch hs
  | .bool _, _ => fun _ hs => nomatch hs
  | .signed _, _ => fun _ hs => nomatch hs
  | .unsigned _, _ => fun _ hs => nomatch hs
  | .double _, _ => fun _ hs => nomatch hs
  | .string s, h => by
    rw [quotedTexts, List.forall_mem_singleton]
    exact plain_string_iff.mp h
  | .array items, h => by
    rw [quotedTexts]
    exact valid_of_mem_itemTexts items (plain_array_iff.mp h)
  | .object members, h => by
    rw [quotedTexts]
    exact valid_of_mem_memberTexts members (plain_object_iff.mp h)
  | .binary _, _ => fun _ hs => nomatch hs
  | .discarded, _ => fun _ hs => nomatch hs

theorem valid_of_mem_itemTexts : ∀ items : List Value, (∀ v ∈ items, v.Plain) →
    ∀ s ∈ itemTexts items, Utf8.valid s = true
  | [], _ => fun _ hs => nomatch hs
  | v :: rest, h => by
    obtain ⟨hv, hrest⟩ := List.forall_mem_cons.mp h
    rw [itemTexts, List.forall_mem_append]
    exact ⟨valid_of_mem_quotedTexts v hv, valid_of_mem_itemTexts rest hrest⟩

theorem valid_of_mem_memberTexts : ∀ members : List (Text × Value),
    (∀ m ∈ members, Utf8.valid m.1 = true ∧ m.2.Plain) →
      ∀ s ∈ memberTexts members, Utf8.valid s = true
  | [], _ => fun _ hs => nomatch hs
  | (key, v) :: rest, h => by
    obtain ⟨⟨hkey, hv⟩, hrest⟩ := List.forall_mem_cons.mp h
    rw [memberTexts, List.forall_mem_cons, List.forall_mem_append]
    exact ⟨hkey, valid_of_mem_quotedTexts v hv, valid_of_mem_memberTexts rest hrest⟩

end

end Value

theorem Filter.Writable.valid_of_mem_quotedTexts {f : Filter} (h : f.Writable) {s : Text}
    (hs : s ∈ f.quotedTexts) : Utf8.valid s = true := by
  obtain ⟨c, hc, hs⟩ := List.mem_flatMap.mp hs
  have hoperand := h.operands c hc
  rw [Comparison.quotedTexts] at hs
  split at hs
  · rename_i v hv
    rw [hv] at hoperand
    exact v.valid_of_mem_quotedTexts hoperand.2 s hs
  · cases hs

/-- A start vertex is written at the root alone. -/
theorem Query.traversal_of_mem_startTexts {q : Query} {p : Option Hop × Scope} (hp : p ∈ q.scopes)
    {s : Text} (hs : s ∈ startTexts p.1 p.2.source) :
    ∃ hop target, q.root.source = .traversal hop target s := by
  rcases List.mem_cons.mp hp with rfl | hp
  · cases hsource : q.root.source with
    | collection name =>
      simp only [hsource] at hs
      cases hs
    | traversal hop target start =>
      simp only [hsource] at hs
      exact ⟨hop, target, by rw [List.mem_singleton.mp hs]⟩
  · obtain ⟨j, _, rfl⟩ := List.mem_map.mp hp
    cases hs

/-- **The texts that a compiled query shows as literals are UTF-8.** -/
theorem Query.valid_of_mem_quotedTexts {o : Options} {q : Query} {st : Statement}
    (h : q.compile o = .ok st) {s : Text} (hs : s ∈ q.quotedTexts) : Utf8.valid s = true := by
  have hq : q.Compilable o.depthLimit := exists_compile_iff.mp ⟨st, h⟩
  obtain ⟨p, hp, hs⟩ := List.mem_flatMap.mp hs
  rcases List.mem_append.mp hs with hs | hs
  · obtain ⟨hop, target, hsource⟩ := Query.traversal_of_mem_startTexts hp hs
    exact (hq.traversal hop target s hsource).2
  · obtain ⟨f, hf, hs⟩ := List.mem_flatMap.mp hs
    have hwritable : f.Writable :=
      hq.filters p.2 (Query.snd_mem_scopeList hp) f (Scope.mem_filters_iff.mp hf)
    exact hwritable.valid_of_mem_quotedTexts hs

theorem mem_quotedTexts_iff {tokens : List Token} {s : Text} :
    s ∈ quotedTexts tokens ↔ Token.quoted s ∈ tokens := by
  rw [quotedTexts, List.mem_filterMap]
  constructor
  · rintro ⟨t, ht, hs⟩
    cases t with
    | quoted s' =>
      cases hs
      exact ht
    | word w => cases hs
    | separator b => cases hs
  · intro h
    exact ⟨_, h, rfl⟩

/-- At every place of a statement where a text is shown, the text's literal stands alone. -/
theorem Query.standsAlone_of_tokens_eq {o : Options} {q : Query} {st : Statement}
    (h : q.compile o = .ok st) {before after : List Token} {s : Text}
    (hplace : q.tokens o = before ++ .quoted s :: after) :
    ∃ literal, textLiteral s = .ok literal ∧
      st.text = spell before ++ (literal ++ spell after) ∧
      Quoted.StandsAlone s literal (spell after) := by
  have hmem : s ∈ q.quotedTexts := by
    rw [← q.quotedTexts_tokens o, mem_quotedTexts_iff, hplace]
    exact List.mem_append_right _ List.mem_cons_self
  have hvalid : Utf8.valid s = true := Query.valid_of_mem_quotedTexts h hmem
  refine ⟨Quoted.encode s, textLiteral_eq_ok_iff.mpr ⟨hvalid, rfl⟩, ?_,
    Quoted.standsAlone_encode s _⟩
  rw [text_eq_spell_of_compile h, hplace, spell_append, spell_cons]
  rfl

/-! ### Literals -/

/-- **Texts do not leave their literals.** A text has no literal exactly where it is not UTF-8, and
its operand is then not supported. A literal is read as its text up to its own end, whatever
follows, and has no control bytes. A statement shows the start vertex, the strings and the keys of
its query in order, and each of them stands alone in front of the rest of the statement. Where no
name has a mark, who reads a statement from its beginning meets these texts and no others. -/
theorem quoted_standsAlone :
    (∀ s : Text, ((∃ e, textLiteral s = .error e) ↔ ¬∃ t : String, utf8 t = s) ∧
      ∀ e, textLiteral s = .error e → e.code = utf8 "UnsupportedOperand") ∧
      (∀ s literal, textLiteral s = .ok literal →
        ∀ rest, Quoted.StandsAlone s literal rest) ∧
      ∀ (o : Options) (q : Query) (st : Statement), q.compile o = .ok st →
        (∀ s ∈ q.quotedTexts, ∃ t : String, utf8 t = s) ∧
          st.text = spell (q.tokens o) ∧ quotedTexts (q.tokens o) = q.quotedTexts ∧
          (∀ before s after, q.tokens o = before ++ .quoted s :: after →
            ∃ literal, textLiteral s = .ok literal ∧
              st.text = spell before ++ (literal ++ spell after) ∧
              Quoted.StandsAlone s literal (spell after)) ∧
          (q.NamesAvoid Quoted.mark →
            ∀ texts, Quoted.Shows st.text texts ↔ texts = q.quotedTexts) := by
  refine ⟨fun s => ⟨exists_error_textLiteral_iff s, ?_⟩, ?_, ?_⟩
  · intro e h
    obtain ⟨_, rfl⟩ := textLiteral_eq_error_iff.mp h
    rfl
  · intro s literal h rest
    exact standsAlone_textLiteral h rest
  · intro o q st h
    refine ⟨?_, text_eq_spell_of_compile h, q.quotedTexts_tokens o, ?_, ?_⟩
    · intro s hs
      exact (Utf8.valid_iff_exists_utf8 s).mp (Query.valid_of_mem_quotedTexts h hs)
    · intro before s after hplace
      exact Query.standsAlone_of_tokens_eq h hplace
    · intro hq texts
      have hshows := Query.shows_of_compile h hq
      exact ⟨fun h' => h'.unique hshows, fun h' => h' ▸ hshows⟩

/-- A name that tries to end its literal, to go on with a condition and to start a comment. -/
def escapingName : Text :=
  utf8 "x\" || true // \\"

/-- Users whose name is one that tries to leave its literal. -/
def escapingQuery : Query :=
  (Query.collection (utf8 "User")).filter
    (.ofComparison ((Subject.field (utf8 "name") none).equals (.literal (.string escapingName))))

theorem quoted_standsAlone_escapingName :
    textLiteral [0xff] = .error (.unsupportedOperand .notUtf8) ∧
      (QueryError.unsupportedOperand .notUtf8).code = utf8 "UnsupportedOperand" ∧
      Quoted.StandsAlone escapingName (utf8 "\"x\\\" || true // \\\\\"") (utf8 "\" tail") ∧
      (∃ literal, textLiteral escapingName = .ok literal ∧
        Quoted.StandsAlone escapingName literal (utf8 " RETURN a")) ∧
      Quoted.Shows (utf8 "FOR a IN User FILTER a.name == \"x\\\" || true // \\\\\" RETURN a")
        [escapingName] := by
  have hliteral : textLiteral escapingName = .ok (utf8 "\"x\\\" || true // \\\\\"") := by
    decide +kernel
  have hcompile : escapingQuery.compile Options.standard = .ok
      ⟨utf8 "FOR a IN User FILTER a.name == \"x\\\" || true // \\\\\" RETURN a", 1⟩ := by
    decide +kernel
  have hplace : escapingQuery.tokens Options.standard =
      [.keyword "FOR", .blank, .keyword "a", .blank, .keyword "IN", .blank, .keyword "User", .blank,
        .keyword "FILTER", .blank, .keyword "a.name", .blank, .keyword "==", .blank]
        ++ .quoted escapingName :: [.blank, .keyword "RETURN", .blank, .keyword "a"] := by
    decide +kernel
  have herror : textLiteral [0xff] = .error (.unsupportedOperand .notUtf8) := rfl
  have hnames : Quoted.mark ∉ utf8 "name" ∧ Quoted.mark ∉ utf8 "User" := by decide +kernel
  have havoid : escapingQuery.NamesAvoid Quoted.mark := by
    refine List.forall_mem_singleton.mpr ⟨hnames.2, (fun _ hkey => nomatch hkey), ?_⟩
    refine List.forall_mem_singleton.mpr ⟨hnames.1, ?_⟩
    exact fun path hpath => nomatch hpath
  refine ⟨herror, (quoted_standsAlone.1 _).2 _ herror,
    quoted_standsAlone.2.1 _ _ hliteral _, ?_⟩
  obtain ⟨_, _, _, hstands, hshows⟩ := quoted_standsAlone.2.2 _ _ _ hcompile
  obtain ⟨literal, hok, _, h⟩ := hstands _ _ _ hplace
  exact ⟨⟨literal, hok, h⟩, (hshows havoid _).mpr rfl⟩

end GraphQuery
