import GraphQuery.Proofs.Descriptor.Limits
import GraphQuery.Proofs.Filter.LiteralRecovery
import GraphQuery.Proofs.Filter.Rendering
import GraphQuery.Proofs.Statement.Readability

/-!
# Reading a filter back

Entries, groups, quantifiers, operators and operands are all divided by blanks and parentheses, and
strings may hold both. Still a filter can be read back from its text, as its tokens can.

A filter grows at its right end, and so it is read from there: the last entry is a group where the
last token is a parenthesis, and else a comparison, which goes back to the last mark before it. What
stands before the entries of a group ends in the parenthesis that opens it.

* `Filter.Same` are filters of one tree, with the same comparisons in it.
* `Filter.Readable` are the filters that can be read back.
* `Comparison.same_of_tokens_eq`: the tokens of a comparison determine it.
* `Filter.same_of_append_tokens_eq`: so do those of a filter, with what stands before it.
* `Filter.same_of_render_eq`: and so does the text of a filter.
-/

namespace GraphQuery

/-! ### Filters of one tree -/

/-- Operands that are the same but for how the whole numbers of a literal are held. -/
def Operand.Same : Operand → Operand → Prop
  | .field path, .field path' => path = path'
  | .literal v, .literal w => v.canonical = w.canonical
  | _, _ => False

/-- Comparisons that are the same but for how the whole numbers of a literal are held. -/
structure Comparison.Same (c d : Comparison) : Prop where
  subject : c.subject = d.subject
  operator : c.operator = d.operator
  operand : c.operand.Same d.operand

/-- Filters of the same tree, with the same comparisons in it. -/
inductive Filter.Same : Filter → Filter → Prop where
  | empty : Filter.Same .empty .empty
  | comparison {f g : Filter} {op : Option Connective} {c d : Comparison} :
      Filter.Same f g → c.Same d → Filter.Same (.comparison f op c) (.comparison g op d)
  | group {f g inner inner' : Filter} {op : Option Connective} :
      Filter.Same f g → Filter.Same inner inner' →
        Filter.Same (.group f op inner) (.group g op inner')

/-! ### Comparisons -/

/-- No operator begins with the name of a quantifier. -/
theorem Operator.tokens_append_ne (op : Operator) (q : Quantifier) (xs ys : List Token) :
    op.tokens ++ xs ≠ .word q.name :: ys := by
  cases op <;> cases q <;> simp [Operator.tokens, Operator.name, Quantifier.name, Token.keyword]

/-- An operator can be told from the others where a blank follows it. -/
theorem Operator.tokens_append_inj {op op' : Operator} {xs ys : List Token}
    (h : op.tokens ++ .blank :: xs = op'.tokens ++ .blank :: ys) : op = op' ∧ xs = ys := by
  cases op <;> cases op' <;> simp_all [Operator.tokens, Operator.name, Token.keyword]

theorem Operand.qualified_inj {scope path path' : Text} :
    qualified scope path = qualified scope path' ↔ path = path' := by
  simp [qualified]

theorem Operand.point_mem_qualified (scope path : Text) : point ∈ qualified scope path := by
  have hpoint : point ∈ utf8 "." := by decide
  exact List.mem_append_left _ (List.mem_append_right _ hpoint)

/-- The literal of an operand is legible, where it is one. -/
def Operand.Legible (o : Operand) : Prop :=
  ∀ v, o = .literal v → v.Legible

theorem Operand.same_of_tokens_eq {scope : Text} {o o' : Operand} (ho : o.Legible)
    (ho' : o'.Legible) (h : o.tokens scope = o'.tokens scope) : o.Same o' := by
  -- A field has a point, and a literal of one word has none.
  have hfield : ∀ {v : Value} {path : Text}, v.Legible →
      v.tokens ≠ [.word (qualified scope path)] := by
    intro v path hv htokens
    cases hv with
    | word hw =>
      rw [hw.tokens_eq] at htokens
      cases htokens
      exact hw.point_notMem (point_mem_qualified scope path)
    | _ => simp [Value.tokens] at htokens
  cases o with
  | field path =>
    cases o' with
    | field path' =>
      simp only [tokens, List.cons.injEq, Token.word.injEq, and_true] at h
      exact qualified_inj.mp h
    | literal w => exact absurd h.symm (hfield (ho' w rfl))
  | literal v =>
    cases o' with
    | field path' => exact absurd h (hfield (ho v rfl))
    | literal w =>
      have htokens : v.tokens = w.tokens := h
      have happend : v.tokens ++ [] = w.tokens ++ [] := by rw [htokens]
      exact ((ho v rfl).tokens_append_inj (ho' w rfl) happend).1

/-- A field and its quantifier can be told where an operator follows them. -/
theorem Subject.tokens_append_inj {scope name name' : Text} {q q' : Option Quantifier}
    {op op' : Operator} {xs ys : List Token}
    (h : (Subject.field name q).tokens scope ++ .blank :: (op.tokens ++ xs) =
      (Subject.field name' q').tokens scope ++ .blank :: (op'.tokens ++ ys)) :
    name = name' ∧ q = q' ∧ op.tokens ++ xs = op'.tokens ++ ys := by
  cases q with
  | none =>
    cases q' with
    | none => simpa [tokens, Operand.qualified_inj] using h
    | some q' =>
      simp only [tokens, List.cons_append, List.nil_append, List.cons.injEq, true_and] at h
      exact absurd h.2 (op.tokens_append_ne q' _ _)
  | some q =>
    cases q' with
    | none =>
      simp only [tokens, List.cons_append, List.nil_append, List.cons.injEq, true_and] at h
      exact absurd h.2.symm (op'.tokens_append_ne q _ _)
    | some q' =>
      simp only [tokens, List.cons_append, List.nil_append, List.cons.injEq, Token.word.injEq,
        true_and, Operand.qualified_inj] at h
      obtain ⟨hname, hq, hrest⟩ := h
      have hsome : some q = some q' := Quantifier.nameOrEmpty_inj.mp hq
      exact ⟨hname, hsome, hrest⟩

/-- **The tokens of a comparison determine it**, where its subject is no expression. -/
theorem Comparison.same_of_tokens_eq {scope : Text} {c d : Comparison} (hc : c.Readable)
    (hd : d.Readable) (hc' : c.operand.Legible) (hd' : d.operand.Legible)
    (h : c.tokens scope = d.tokens scope) : c.Same d := by
  obtain ⟨⟨name, q, hsubject, _⟩, _⟩ := hc
  obtain ⟨⟨name', q', hsubject', _⟩, _⟩ := hd
  simp only [tokens, hsubject, hsubject'] at h
  obtain ⟨rfl, rfl, hrest⟩ := Subject.tokens_append_inj h
  obtain ⟨hoperator, hoperand⟩ := Operator.tokens_append_inj hrest
  exact ⟨hsubject.trans hsubject'.symm, hoperator, Operand.same_of_tokens_eq hc' hd' hoperand⟩

/-! ### Marks -/

/-- The tokens around entries: parentheses and connectives. -/
def Token.isMark (t : Token) : Bool :=
  [.separator 0x28, .separator 0x29, .word Connective.and.symbol,
    .word Connective.or.symbol].contains t

theorem Token.isMark_symbol (op : Connective) : (Token.word op.symbol).isMark = true := by
  cases op <;> decide +kernel

theorem Token.isMark_of_isLiteral {t : Token} (h : t.isLiteral = true) : t.isMark = false := by
  have all : ∀ t ∈ [Token.separator 0x28, .separator 0x29, .word Connective.and.symbol,
      .word Connective.or.symbol], t.isLiteral = false := by decide +kernel
  rw [Bool.eq_false_iff]
  intro hmark
  rw [all t (List.contains_iff_mem.mp hmark)] at h
  cases h

/-- A field is no connective, as it has a point. -/
theorem Token.isMark_qualified (scope path : Text) :
    (Token.word (Operand.qualified scope path)).isMark = false := by
  have hpoint : point ∉ Connective.and.symbol ∧ point ∉ Connective.or.symbol := by decide +kernel
  have hne : ∀ {w : Text}, point ∉ w → Operand.qualified scope path ≠ w := fun hw heq =>
    hw (heq ▸ Operand.point_mem_qualified scope path)
  simp [isMark, hne hpoint.1, hne hpoint.2]

/-- No mark stands inside a comparison. -/
theorem Comparison.Readable.isMark_of_mem_tokens {c : Comparison} (hc : c.Readable)
    (scope : Text) : ∀ t ∈ c.tokens scope, t.isMark = false := by
  obtain ⟨⟨name, q, hsubject, _⟩, _⟩ := hc
  have hblank : Token.blank.isMark = false := by decide +kernel
  refine Comparison.forall_mem_tokens_iff.mpr ⟨?subject, hblank, ?operator, ?operand⟩
  case subject =>
    rw [hsubject]
    cases q with
    | none => simp [Subject.tokens, Token.isMark_qualified]
    | some q =>
      have hq : (Token.word q.name).isMark = false := by cases q <;> decide +kernel
      simp [Subject.tokens, Token.isMark_qualified, hblank, hq]
  case operator => cases c.operator <;> decide +kernel
  case operand =>
    rcases c.operand with v | path
    · exact fun t ht => Token.isMark_of_isLiteral (v.isLiteral_tokens t ht)
    · simp [Operand.tokens, Token.isMark_qualified]

/-- A comparison begins with a word. -/
theorem Comparison.exists_tokens_eq_cons (scope : Text) (c : Comparison) :
    ∃ w ts, c.tokens scope = .word w :: ts := by
  rcases hsubject : c.subject with ⟨name, _ | q⟩ | e <;>
    exact ⟨_, _, by rw [tokens, hsubject]; rfl⟩

/-! ### Entries from the right -/

/-- The last of some tokens is that of those at their end. -/
theorem exists_concat_of_append_eq {xs ys zs : List Token} {t : Token} (hys : ys ≠ [])
    (h : xs ++ ys = zs ++ [t]) : ∃ ys', ys = ys' ++ [t] ∧ xs ++ ys' = zs := by
  rcases List.eq_nil_or_concat' ys with rfl | ⟨ys', u, rfl⟩
  · exact absurd rfl hys
  · rw [← List.append_assoc, List.append_singleton_inj] at h
    obtain ⟨hbefore, rfl⟩ := h
    exact ⟨ys', rfl, hbefore⟩

/-- What stands before a filter: nothing, or all up to the parenthesis that opens it. -/
def Opens (ts : List Token) : Prop :=
  ts = [] ∨ ∃ before, ts = before ++ [.separator 0x28]

/-- What stands before an entry: what stands before the filter, or all up to a connective and the
blank behind it. -/
def Leads (ts : List Token) : Prop :=
  Opens ts ∨ ∃ before, ∃ op : Connective, ts = before ++ [.word op.symbol, .blank]

/-- Tokens without a mark that begin with a word: those of a comparison. -/
structure Unmarked (ts : List Token) : Prop where
  begins : ∃ w rest, ts = .word w :: rest
  marks : ∀ t ∈ ts, t.isMark = false

/-- What stands before an entry does not go on into a comparison. -/
theorem Leads.eq_nil {xs ys zs : List Token} (h : Leads (xs ++ ys))
    (hunmarked : Unmarked (ys ++ zs)) : ys = [] := by
  by_contra hys
  have hmark : ∀ t, t.isMark = true → t ∉ ys := by
    intro t ht hmem
    rw [hunmarked.marks t (List.mem_append_left _ hmem)] at ht
    cases ht
  rcases h with (h | ⟨before, h⟩) | ⟨before, op, h⟩
  · exact hys (List.append_eq_nil_iff.mp h).2
  · obtain ⟨ys', rfl, _⟩ := exists_concat_of_append_eq hys h
    exact hmark (.separator 0x28) (by decide +kernel) List.mem_concat_self
  · have hblank : xs ++ ys = (before ++ [.word op.symbol]) ++ [.blank] := by simpa using h
    obtain ⟨ys', rfl, hsymbol⟩ := exists_concat_of_append_eq hys hblank
    by_cases hys' : ys' = []
    · -- Only the blank is left, and no comparison begins with it.
      obtain ⟨w, rest, hbegins⟩ := hunmarked.begins
      subst hys'
      cases hbegins
    · obtain ⟨ys'', rfl, _⟩ := exists_concat_of_append_eq hys' hsymbol
      exact hmark (.word op.symbol) (Token.isMark_symbol op) (by simp)

/-- A comparison goes back to the end of what leads to it. -/
theorem Leads.append_inj {xs ys cs ds : List Token} (hx : Leads xs) (hy : Leads ys)
    (hc : Unmarked cs) (hd : Unmarked ds) (h : xs ++ cs = ys ++ ds) : xs = ys ∧ cs = ds := by
  rcases List.append_eq_append_iff.mp h with ⟨more, rfl, rfl⟩ | ⟨more, rfl, rfl⟩
  · obtain rfl := hy.eq_nil hc
    simp
  · obtain rfl := hx.eq_nil hd
    simp

theorem Comparison.Readable.unmarked_tokens {c : Comparison} (hc : c.Readable) (scope : Text) :
    Unmarked (c.tokens scope) where
  begins := c.exists_tokens_eq_cons scope
  marks := hc.isMark_of_mem_tokens scope

/-- A comparison does not end in a mark, as nothing of it is one. -/
theorem Unmarked.append_ne_concat {xs cs ys : List Token} (hc : Unmarked cs) {t : Token}
    (ht : t.isMark = true) : xs ++ cs ≠ ys ++ [t] := by
  intro h
  obtain ⟨w, rest, hcs⟩ := hc.begins
  obtain ⟨cs', rfl, _⟩ := exists_concat_of_append_eq (by simp [hcs]) h
  rw [hc.marks t List.mem_concat_self] at ht
  cases ht

/-- What opens a filter does not end in a comparison. -/
theorem Opens.ne_append {ts xs cs : List Token} (h : Opens ts) (hc : Unmarked cs) :
    ts ≠ xs ++ cs := by
  rcases h with rfl | ⟨before, rfl⟩
  · obtain ⟨w, rest, rfl⟩ := hc.begins
    simp
  · exact (hc.append_ne_concat (by decide +kernel)).symm

/-- What opens a filter ends in nothing but a parenthesis that opens. -/
theorem Opens.ne_concat {ts xs : List Token} (h : Opens ts) {t : Token}
    (ht : t ≠ .separator 0x28) : ts ≠ xs ++ [t] := by
  rcases h with rfl | ⟨before, rfl⟩
  · simp
  · rw [Ne, List.append_singleton_inj]
    exact fun heq => ht heq.2.symm

namespace Filter

variable {scope : Text}

theorem tokens_of_isEmpty {f : Filter} (h : f.isEmpty = true) : f.tokens scope = [] := by
  cases f with
  | empty => rfl
  | comparison _ _ _ => cases h
  | group _ _ _ => cases h

/-- What stands before a filter, with the entries before one of its entries and what joins it to
them, leads to that entry. -/
theorem leads_append {before : Filter} {op : Option Connective} (hop : op.isNone = before.isEmpty)
    {pre : List Token} (hpre : Opens pre) :
    Leads (pre ++ (before.tokens scope ++ separatorTokens op)) := by
  cases op with
  | none =>
    rw [tokens_of_isEmpty hop.symm, separatorTokens, List.append_nil, List.append_nil]
    exact Or.inl hpre
  | some op => exact Or.inr ⟨pre ++ before.tokens scope ++ [.blank], op, by simp [separatorTokens]⟩

/-- What opens a filter does not end in a connective. -/
theorem ne_append_separatorTokens {pre : List Token} (hpre : Opens pre) (ts : List Token)
    (op : Connective) : pre ≠ ts ++ separatorTokens (some op) := by
  have hends : ts ++ separatorTokens (some op) = (ts ++ [.blank, .word op.symbol]) ++ [.blank] := by
    simp [separatorTokens]
  rw [hends]
  exact hpre.ne_concat (by decide)

/-- Whether and by which connective an entry is joined to those before it can be told, and where
they end. -/
theorem separatorTokens_inj {before before' : Filter} {op op' : Option Connective}
    (hop : op.isNone = before.isEmpty) (hop' : op'.isNone = before'.isEmpty)
    {pre pre' : List Token} (hpre : Opens pre) (hpre' : Opens pre')
    (h : pre ++ (before.tokens scope ++ separatorTokens op) =
      pre' ++ (before'.tokens scope ++ separatorTokens op')) :
    op = op' ∧ pre ++ before.tokens scope = pre' ++ before'.tokens scope := by
  rw [← List.append_assoc, ← List.append_assoc] at h
  cases op with
  | none =>
    cases op' with
    | none => simpa [separatorTokens] using h
    | some op' =>
      rw [tokens_of_isEmpty hop.symm, separatorTokens, List.append_nil, List.append_nil] at h
      exact absurd h (ne_append_separatorTokens hpre _ op')
  | some op =>
    cases op' with
    | none =>
      rw [tokens_of_isEmpty hop'.symm, separatorTokens, List.append_nil, List.append_nil] at h
      exact absurd h.symm (ne_append_separatorTokens hpre' _ op)
    | some op' =>
      obtain ⟨hbefore, hsymbol⟩ := List.append_inj' h rfl
      simp only [separatorTokens, List.cons.injEq, Token.word.injEq, true_and, and_true] at hsymbol
      exact ⟨congrArg some (Connective.symbols.name_inj op op' hsymbol), hbefore⟩

/-- Every comparison can be read back. -/
def Legible (f : Filter) : Prop :=
  ∀ c ∈ f.comparisons, c.Readable ∧ c.operand.Legible

theorem legible_comparison_iff {before : Filter} {op : Option Connective} {c : Comparison} :
    (comparison before op c).Legible ↔ before.Legible ∧ c.Readable ∧ c.operand.Legible := by
  rw [Legible, comparisons, List.forall_mem_append, List.forall_mem_singleton, Legible]

theorem legible_group_iff {before inner : Filter} {op : Option Connective} :
    (group before op inner).Legible ↔ before.Legible ∧ inner.Legible := by
  rw [Legible, comparisons, List.forall_mem_append, Legible, Legible]

theorem append_tokens_comparison (pre : List Token) (before : Filter) (op : Option Connective)
    (c : Comparison) :
    pre ++ (comparison before op c).tokens scope =
      (pre ++ (before.tokens scope ++ separatorTokens op)) ++ c.tokens scope := by
  simp only [tokens, List.append_assoc]

theorem append_tokens_group (pre : List Token) (before : Filter) (op : Option Connective)
    (inner : Filter) :
    pre ++ (group before op inner).tokens scope =
      (((pre ++ (before.tokens scope ++ separatorTokens op)) ++ [.separator 0x28]) ++
        inner.tokens scope) ++ [.separator 0x29] := by
  simp only [tokens, List.append_assoc, List.cons_append, List.nil_append]

/-- **A filter and what stands before it can be read back from their tokens**, from the right, by
induction on the filter. -/
theorem same_of_append_tokens_eq {f g : Filter} (hf : f.WellFormed) (hg : g.WellFormed)
    (hfc : f.Legible) (hgc : g.Legible) {pre pre' : List Token} (hpre : Opens pre)
    (hpre' : Opens pre') (h : pre ++ f.tokens scope = pre' ++ g.tokens scope) :
    f.Same g ∧ pre = pre' := by
  have hcloses : (Token.separator 0x29).isMark = true := by decide +kernel
  have hopens : ∀ ts, Opens (ts ++ [.separator 0x28]) := fun ts => Or.inr ⟨ts, rfl⟩
  induction f generalizing g pre pre' with
  | empty =>
    rw [tokens, List.append_nil] at h
    cases g with
    | empty =>
      rw [tokens, List.append_nil] at h
      exact ⟨.empty, h⟩
    | comparison before' op' d =>
      obtain ⟨_, hd, _⟩ := legible_comparison_iff.mp hgc
      rw [append_tokens_comparison] at h
      exact absurd h (hpre.ne_append (hd.unmarked_tokens scope))
    | group before' op' inner' =>
      rw [append_tokens_group] at h
      exact absurd h (hpre.ne_concat (by decide))
  | comparison before op c ih =>
    obtain ⟨hbefore, hop⟩ := hf
    obtain ⟨hbeforec, hc, hc'⟩ := legible_comparison_iff.mp hfc
    rw [append_tokens_comparison] at h
    cases g with
    | empty =>
      rw [tokens, List.append_nil] at h
      exact absurd h.symm (hpre'.ne_append (hc.unmarked_tokens scope))
    | comparison before' op' d =>
      obtain ⟨hbefore', hop'⟩ := hg
      obtain ⟨hbeforec', hd, hd'⟩ := legible_comparison_iff.mp hgc
      rw [append_tokens_comparison] at h
      obtain ⟨hlead, htokens⟩ := (leads_append hop hpre).append_inj (leads_append hop' hpre')
        (hc.unmarked_tokens scope) (hd.unmarked_tokens scope) h
      obtain ⟨rfl, hleft⟩ := separatorTokens_inj hop hop' hpre hpre' hlead
      obtain ⟨hsame, rfl⟩ := ih hbefore hbefore' hbeforec hbeforec' hpre hpre' hleft
      exact ⟨.comparison hsame (Comparison.same_of_tokens_eq hc hd hc' hd' htokens), rfl⟩
    | group before' op' inner' =>
      rw [append_tokens_group] at h
      exact absurd h ((hc.unmarked_tokens scope).append_ne_concat hcloses)
  | group before op inner ihBefore ihInner =>
    obtain ⟨hbefore, hop, hinner⟩ := hf
    obtain ⟨hbeforec, hinnerc⟩ := legible_group_iff.mp hfc
    rw [append_tokens_group] at h
    cases g with
    | empty =>
      rw [tokens, List.append_nil] at h
      exact absurd h.symm (hpre'.ne_concat (by decide))
    | comparison before' op' d =>
      obtain ⟨_, hd, _⟩ := legible_comparison_iff.mp hgc
      rw [append_tokens_comparison] at h
      exact absurd h.symm ((hd.unmarked_tokens scope).append_ne_concat hcloses)
    | group before' op' inner' =>
      obtain ⟨hbefore', hop', hinner'⟩ := hg
      obtain ⟨hbeforec', hinnerc'⟩ := legible_group_iff.mp hgc
      rw [append_tokens_group] at h
      -- Within the parentheses first: what stands before them is what opens the inner filters.
      obtain ⟨hsameInner, hopened⟩ := ihInner hinner hinner' hinnerc hinnerc' (hopens _) (hopens _)
        (List.append_cancel_right h)
      obtain ⟨rfl, hleft⟩ := separatorTokens_inj hop hop' hpre hpre'
        (List.append_cancel_right hopened)
      obtain ⟨hsame, rfl⟩ := ihBefore hbefore hbefore' hbeforec hbeforec' hpre hpre' hleft
      exact ⟨.group hsame hsameInner, rfl⟩

/-! ### From a text to a filter -/

/-- Filters that can be read back: as the builders or the decoder make them, without expressions and
doubles, and with paths for their fields. -/
structure Readable (f : Filter) : Prop where
  made : f.Built ∨ ∃ j, ofJson j = .ok f
  comparisons : ∀ c ∈ f.comparisons, c.Readable
  literals : ∀ c ∈ f.comparisons, ∀ v, c.operand = .literal v → v.DoubleFree

namespace Readable

variable {f : Filter} (hf : f.Readable)

include hf

theorem wellFormed : f.WellFormed := by
  rcases hf.made with h | ⟨j, h⟩
  · exact h.wellFormed
  · exact (fits_of_decodeWithin h).1

/-- What is written is plain, so that without doubles it is legible. -/
theorem legible {t : Text} (h : f.render scope = .ok t) : f.Legible := by
  have hwritable : f.Writable := (exists_render_iff scope f).mp ⟨t, h⟩
  refine fun c hc => ⟨hf.comparisons c hc, fun v hv => ?_⟩
  have hoperand : c.operand.Writable := hwritable.operands c hc
  rw [hv] at hoperand
  exact (hf.literals c hc v hv).legible hoperand.2

theorem isProper_of_mem_tokens (hscope : ScopeName.isName scope = true) :
    ∀ t ∈ f.tokens scope, t.isProper = true := by
  intro t ht
  have hplain : t.isPlain = true := by
    rcases isPlain_or_mem_nameTokens ht with hplain | ⟨c, hc, hname⟩
    · exact hplain
    · exact (hf.comparisons c hc).isPlain_of_mem_nameTokens hscope hname
  exact (Token.isPlain_iff.mp hplain).1

end Readable

/-- **The text of a filter shows its tree.** In a scope, readable filters of one text have the same
entries at every level, joined and grouped in the same way, and the same comparisons: no string or
key can look like anything else. Only how a whole number is held is not shown. -/
theorem same_of_render_eq (hscope : ScopeName.isName scope = true) {f g : Filter} (hf : f.Readable)
    (hg : g.Readable) {t : Text} (hft : f.render scope = .ok t) (hgt : g.render scope = .ok t) :
    f.Same g := by
  have hspell : spell (f.tokens scope) = spell (g.tokens scope) :=
    (eq_spell_of_render hft).symm.trans (eq_spell_of_render hgt)
  have htokens : f.tokens scope = g.tokens scope :=
    spell_injective (hf.isProper_of_mem_tokens hscope) (hg.isProper_of_mem_tokens hscope)
      (separated_tokens hf.wellFormed) (separated_tokens hg.wellFormed) hspell
  have hopens : Opens [] := Or.inl rfl
  exact (same_of_append_tokens_eq hf.wellFormed hg.wellFormed (hf.legible hft) (hg.legible hgt)
    hopens hopens htokens).1

/-- A filter with a string that looks like the end of a group, and a group after it. -/
def looksGrouped (number : Value) : Filter :=
  let oneOf : Value := .array [number, .string (utf8 "x\"]) || (a.y == 1)")]
  (ofComparison ((Subject.field (utf8 "tags") (some .any)).isIn (.literal oneOf))).or
    (.group (ofComparison ((Subject.field (utf8 "name") none).equals (.field (utf8 "owner.name")))))

theorem readable_looksGrouped {number : Value} (h : number.DoubleFree) :
    (looksGrouped number).Readable where
  made := Or.inl (.orGroup (.ofComparison _) (.ofComparison _))
  comparisons := by
    have hpaths : IsPath (utf8 "tags") ∧ IsPath (utf8 "name") ∧ IsPath (utf8 "owner.name") := by
      decide +kernel
    obtain ⟨htags, hname, howner⟩ := hpaths
    change ∀ c : Comparison, c ∈ [_, _] → c.Readable
    rw [List.forall_mem_cons, List.forall_mem_singleton]
    refine ⟨⟨⟨_, _, rfl, htags⟩, fun _ h => nomatch h⟩, ⟨_, _, rfl, hname⟩, fun path hpath => ?_⟩
    cases hpath
    exact howner
  literals := by
    change ∀ c : Comparison, c ∈ [_, _] → ∀ v, c.operand = .literal v → v.DoubleFree
    rw [List.forall_mem_cons, List.forall_mem_singleton]
    refine ⟨fun v hv => ?_, fun _ hv => nomatch hv⟩
    cases hv
    exact .array (List.forall_mem_cons.mpr ⟨h, List.forall_mem_singleton.mpr (.string _)⟩)

/-- Whether its number is held signed or unsigned does not show in the text of such a filter. -/
theorem same_looksGrouped :
    (looksGrouped (.signed 7)).Same (looksGrouped (.unsigned 7)) := by
  have hscope : ScopeName.isName (utf8 "a") = true := by decide +kernel
  have htext : ∀ number ∈ [Value.signed 7, .unsigned 7], (looksGrouped number).render (utf8 "a") =
      .ok (utf8 "a.tags ANY IN [7, \"x\\\"]) || (a.y == 1)\"] || (a.name == a.owner.name)") := by
    decide +kernel
  exact same_of_render_eq hscope (readable_looksGrouped (.signed 7))
    (readable_looksGrouped (.unsigned 7)) (htext _ (by simp)) (htext _ (by simp))

end Filter

end GraphQuery
