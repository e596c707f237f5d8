import GraphQuery.Proofs.Statement.Lines

/-!
# Layout

Options choose how a statement looks and how deep a traversal may go. Only the second decides
whether there is a statement, and what is wrong where there is none. The first decides where lines
end and how far they are indented.

* `report_eq_of_limit_eq`: what does not depend on the looks.
* `newline_notMem_of_mem_lines`: a clause has no newline where the names, fields and expressions of
  the query have none. Strings and start vertices may have one.
* `layout_only`: a statement on several lines is the statement on one line, broken before each
  clause.
-/

namespace GraphQuery

/-- The byte that ends a line. -/
abbrev newline : UInt8 := 0x0a

/-- How many blanks a line begins with. -/
def Text.indentation (line : Text) : Nat :=
  (line.takeWhile (· == 0x20)).length

/-- A line without the blanks that it begins with. -/
def Text.unindented (line : Text) : Text :=
  line.dropWhile (· == 0x20)

/-! ### What does not depend on the looks -/

theorem report_of_ok {o : Options} {q : Query} {clauses : List Clause}
    (h : q.clauses o.depthLimit = .ok clauses) :
    q.report o = ⟨true, layOut o clauses, q.scopes.length, utf8 "None", []⟩ := by
  rw [Query.report, Query.compile, h]
  rfl

theorem report_of_error {o : Options} {q : Query} {e : QueryError}
    (h : q.clauses o.depthLimit = .error e) :
    q.report o = ⟨false, [], 0, e.code, e.message⟩ := by
  rw [Query.report, Query.compile, h]
  rfl

/-- Under one depth limit there is a statement in every layout or in none. -/
theorem report_eq_of_limit_eq {o o' : Options} (q : Query) (h : o.depthLimit = o'.depthLimit) :
    (q.report o).success = (q.report o').success ∧ (q.report o).scopes = (q.report o').scopes ∧
      (q.report o).code = (q.report o').code ∧ (q.report o).message = (q.report o').message := by
  cases hclauses : q.clauses o.depthLimit with
  | ok clauses =>
    rw [report_of_ok hclauses, report_of_ok (h ▸ hclauses)]
    exact ⟨rfl, rfl, rfl, rfl⟩
  | error e =>
    rw [report_of_error hclauses, report_of_error (h ▸ hclauses)]
    exact ⟨rfl, rfl, rfl, rfl⟩

/-- Where a query is reported as a success, its statement is what its lines spell. -/
theorem statement_eq_of_success {o : Options} {q : Query} (h : (q.report o).success = true) :
    (q.report o).statement = layOut o (q.lines.map Line.clause) := by
  cases hclauses : q.clauses o.depthLimit with
  | ok clauses => rw [report_of_ok hclauses, ← clauses_eq_map_lines hclauses]
  | error e =>
    rw [report_of_error hclauses] at h
    cases h

/-! ### Lines without newlines -/

/-- **A clause has no newline** where the query has none in what it copies: a literal shows it
escaped. -/
theorem newline_notMem_of_mem_lines {q : Query} (hq : q.NamesAvoid newline) {l : Line}
    (hl : l ∈ q.lines) : newline ∉ spell l.tokens := by
  intro hmem
  obtain ⟨t, ht, hmem⟩ := List.mem_flatMap.mp hmem
  obtain ⟨s, rfl⟩ := hq.eq_quoted_of_mem_lines (by decide) hl ht hmem
  exact absurd (Quoted.encode_printable hmem) (by decide)

/-! ### Lines and their indentation -/

/-- A clause begins with the first letter of a word, so that all blanks before it are
indentation. -/
theorem Line.cut_line (width : Nat) (l : Line) :
    (l.clause.line width).indentation = l.depth * width ∧
      (l.clause.line width).unindented = spell l.tokens := by
  have hkeyword : ∃ b rest, spell l.tokens = b :: rest ∧ (b == 0x20) = false := by
    obtain ⟨hne, hbytes⟩ := isWord_iff.mp l.kind.isProper_keyword
    obtain ⟨b, rest, hb⟩ := List.exists_cons_of_ne_nil hne
    refine ⟨b, rest ++ spell (.blank :: l.body), ?_, ?_⟩
    · rw [Line.tokens, spell_cons, Token.text, hb, List.cons_append]
    · have hfirst : isWordByte b = true := hbytes b (hb ▸ List.mem_cons_self)
      rw [beq_eq_false_iff_ne]
      rintro rfl
      exact absurd hfirst (by decide)
  have hblanks : ∀ b ∈ List.replicate (l.depth * width) (0x20 : UInt8), (b == 0x20) = true := by
    intro b hb
    rw [(List.mem_replicate.mp hb).2]
    rfl
  obtain ⟨b, rest, hspell, hb⟩ := hkeyword
  constructor
  · rw [Text.indentation, Clause.line, Line.clause, List.takeWhile_append_of_pos hblanks]
    simp [hspell, hb]
  · rw [Text.unindented, Clause.line, Line.clause, List.dropWhile_append_of_pos hblanks]
    simp [hspell, hb]

theorem Text.joinWith_eq_intercalate (between : Text) (parts : List Text) :
    Text.joinWith between parts = between.intercalate parts := by
  induction parts with
  | nil => rfl
  | cons part rest ih =>
    cases rest with
    | nil => simp
    | cons next rest => rw [Text.joinWith_cons (by simp), ih, List.intercalate_cons_cons]

/-- The lines of a statement on several lines are found at its newlines. -/
theorem splitOn_statement {o : Options} {q : Query} (pretty : o.pretty = true)
    (h : (q.report o).success = true) (hq : q.NamesAvoid newline) :
    (q.report o).statement.splitOn newline =
      q.lines.map fun l => l.clause.line o.indentWidth.toInt.toNat := by
  rw [statement_eq_of_success h, layOut, if_pos pretty, Text.joinWith_eq_intercalate, List.map_map]
  refine List.splitOn_intercalate newline ?_ (by simpa using q.lines_ne_nil)
  intro line hline
  obtain ⟨l, hl, rfl⟩ := List.mem_map.mp hline
  rw [Function.comp_apply, Clause.line, List.mem_append, List.mem_replicate]
  rintro (⟨_, hmem⟩ | hmem)
  · cases hmem
  · exact newline_notMem_of_mem_lines hq hl hmem

/-- A loop stands as deep as its scope, the other clauses of the scope one deeper, and the result
inside all loops. -/
theorem depth_of_mem_lines {q : Query} {l : Line} (hl : l ∈ q.lines) :
    (∃ (i : Nat) (hop : Option Hop) (s : Scope), q.scopes[i]? = some (hop, s) ∧
      s.HasLine i hop l ∧ l.depth = if l.kind = .loop then i else i + 1) ∨
      l = resultLine q.scopes ∧ l.depth = q.scopes.length := by
  refine (Query.mem_lines_iff.mp hl).imp ?_ fun h => ⟨h, h ▸ rfl⟩
  rintro ⟨i, hop, s, hs, hl⟩
  refine ⟨i, hop, s, hs, hl, ?_⟩
  cases hl with
  | loop => rfl
  | prune _ => rfl
  | filter _ => rfl
  | sort _ => rfl
  | limit _ => rfl

/-- **The looks change nothing else.** Under one depth limit a compilation has the same outcome in
every layout: success or failure, count of scopes, code and message. Where nothing that is copied has
a newline, the lines of a statement on several lines, without the blanks before them and with one
blank between them, are the statement on one line; and each is indented by the width for each loop
that it stands in, where a negative width counts as none. -/
theorem layout_only :
    (∀ (o o' : Options) (q : Query), o.depthLimit = o'.depthLimit →
      (q.report o).success = (q.report o').success ∧ (q.report o).scopes = (q.report o').scopes ∧
        (q.report o).code = (q.report o').code ∧ (q.report o).message = (q.report o').message) ∧
      ∀ (o o' : Options) (q : Query), o.depthLimit = o'.depthLimit → o.pretty = true →
        o'.pretty = false → (q.report o).success = true → q.NamesAvoid newline →
        Text.joinWith (utf8 " ")
            (((q.report o).statement.splitOn newline).map Text.unindented) =
          (q.report o').statement ∧
        ((q.report o).statement.splitOn newline).map Text.unindented =
          q.lines.map (fun l => spell l.tokens) ∧
        ((q.report o).statement.splitOn newline).map Text.indentation =
          q.lines.map (fun l => l.depth * (max o.indentWidth.toInt 0).toNat) ∧
        ∀ l ∈ q.lines,
          (∃ (i : Nat) (hop : Option Hop) (s : Scope), q.scopes[i]? = some (hop, s) ∧
            s.HasLine i hop l ∧ l.depth = if l.kind = .loop then i else i + 1) ∨
          l = resultLine q.scopes ∧ l.depth = q.scopes.length := by
  refine ⟨fun o o' q => report_eq_of_limit_eq q, ?_⟩
  intro o o' q hlimit pretty compact h hq
  have hwidth : (max o.indentWidth.toInt 0).toNat = o.indentWidth.toInt.toNat := by omega
  have hsplit := splitOn_statement pretty h hq
  have hunindented : ((q.report o).statement.splitOn newline).map Text.unindented =
      q.lines.map fun l => spell l.tokens := by
    rw [hsplit, List.map_map]
    exact List.map_congr_left fun l _ => (l.cut_line _).2
  have hindentation : ((q.report o).statement.splitOn newline).map Text.indentation =
      q.lines.map fun l => l.depth * o.indentWidth.toInt.toNat := by
    rw [hsplit, List.map_map]
    exact List.map_congr_left fun l _ => (l.cut_line _).1
  refine ⟨?_, hunindented, by rw [hwidth, hindentation], fun l => depth_of_mem_lines⟩
  have h' : (q.report o').success = true := (report_eq_of_limit_eq q hlimit).1 ▸ h
  rw [hunindented, statement_eq_of_success h', layOut, compact, if_neg Bool.false_ne_true,
    List.map_map]
  rfl

/-- Users whose name has a newline and what looks like the next clause. -/
def brokenName : Query :=
  (Query.collection (utf8 "User")).filter (.ofComparison
    ((Subject.field (utf8 "name") none).equals (.literal (.string (utf8 "x\n  RETURN y")))))

theorem layout_only_brokenName :
    ((brokenName.report ⟨true, 2, false, 0⟩).statement.splitOn newline).map Text.indentation =
        [0, 2, 2] ∧
      Text.joinWith (utf8 " ") (((brokenName.report ⟨true, 2, false, 0⟩).statement.splitOn
        newline).map Text.unindented) = (brokenName.report Options.standard).statement ∧
      (brokenName.report ⟨true, -3, true, 0⟩).code = (brokenName.report Options.standard).code := by
  have hnames : newline ∉ utf8 "name" ∧ newline ∉ utf8 "User" := by decide +kernel
  have havoid : brokenName.NamesAvoid newline := by
    refine List.forall_mem_singleton.mpr ⟨hnames.2, (fun _ hkey => nomatch hkey), ?_⟩
    refine List.forall_mem_singleton.mpr ⟨hnames.1, ?_⟩
    exact fun path hpath => nomatch hpath
  obtain ⟨hjoined, _, hindentation, _⟩ := layout_only.2 ⟨true, 2, false, 0⟩ Options.standard
    brokenName rfl rfl rfl (by decide +kernel) havoid
  have hdepths : brokenName.lines.map (fun l => l.depth * (max (2 : Int32).toInt 0).toNat) =
      [0, 2, 2] := by decide +kernel
  exact ⟨hindentation.trans hdepths, hjoined,
    (layout_only.1 ⟨true, -3, true, 0⟩ Options.standard brokenName rfl).2.2.1⟩

end GraphQuery
