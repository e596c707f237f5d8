import GraphQuery.Proofs.Statement.Readability

/-!
# What a statement shows

A text that can be read back determines the lines of its query. This module reads the query off the
lines, as far as they show it.

The lines on the way down a chain stand in the order of the scopes and are read back one after the
other. Those on the way up are not: only some scopes have them. There a line of sort keys is found
by the variable in it, and limits are read as a sequence.

* `headTokens_eq_of_headLines_eq`: what the lines on the way down show of each scope.
* `exists_sorts_eq`, `limits_eq_of_contents_eq` and `isDistinct_eq_of_contents_eq`: what the other
  lines show.
* `SameClauses` is all of this together. `sameClauses_of_text_eq` says that readable queries of one
  text agree in it, and that which scope has a limit and which one asks for distinct results is not
  shown.
-/

namespace GraphQuery

/-! ### Lines on the way down and on the way up -/

namespace ClauseKind

/-- Whether clauses of a kind stand on the way down a chain. -/
def isHead : ClauseKind → Bool
  | .loop | .prune | .filter => true
  | .sort | .limit | .result => false

end ClauseKind

theorem isHead_of_mem_headLines {l : Line} (scopes : List (Option Hop × Scope)) :
    ∀ {index : Nat}, l ∈ headLines index scopes → l.kind.isHead = true := by
  induction scopes with
  | nil => exact fun h => nomatch h
  | cons p rest ih =>
    obtain ⟨hop, s⟩ := p
    intro index h
    rcases List.mem_append.mp h with h | h
    · simp only [Scope.headLines, filterLines, List.mem_cons, List.mem_append, List.mem_map] at h
      rcases h with rfl | ⟨f, _, rfl⟩ | ⟨f, _, rfl⟩
      · rfl
      · rfl
      · rfl
    · exact ih h

theorem isHead_of_mem_tailLines {l : Line} (scopes : List (Option Hop × Scope)) :
    ∀ {index : Nat}, l ∈ tailLines index scopes → l.kind.isHead = false := by
  induction scopes with
  | nil => exact fun h => nomatch h
  | cons p rest ih =>
    obtain ⟨hop, s⟩ := p
    intro index h
    rcases List.mem_append.mp h with h | h
    · exact ih h
    · rcases List.mem_append.mp h with h | h
      · unfold sortLines at h
        split at h
        · cases h
        · rw [List.mem_singleton.mp h]
          rfl
      · obtain ⟨_, _, rfl⟩ := List.mem_map.mp h
        rfl

/-- The lines on the way down are found by their kinds. -/
theorem Query.filter_isHead_contents (q : Query) :
    q.contents.filter (fun c => c.1.isHead) = (headLines 0 q.scopes).map Line.content := by
  have hkind : ((fun c => c.1.isHead) ∘ Line.content : Line → Bool) = fun l => l.kind.isHead := rfl
  have hheads : (headLines 0 q.scopes).filter (fun l => l.kind.isHead) = headLines 0 q.scopes :=
    List.filter_eq_self.mpr fun l => isHead_of_mem_headLines q.scopes
  have htails : (tailLines 0 q.scopes).filter (fun l => l.kind.isHead) = [] := by
    refine List.filter_eq_nil_iff.mpr fun l hl => ?_
    simp [isHead_of_mem_tailLines q.scopes hl]
  have hresult : [resultLine q.scopes].filter (fun l => l.kind.isHead) = [] := rfl
  rw [Query.contents, List.filter_map, hkind, Query.lines, List.filter_append, List.filter_append,
    hheads, htails, hresult]
  simp

/-! #### On the way down -/

/-- What the lines on the way down show of a scope: what its loop runs through, its prune and its
filter. -/
def headTokens (index : Nat) (p : Option Hop × Scope) :
    List Token × Option (List Token) × Option (List Token) :=
  (domainTokens index p.1 p.2.source,
    p.2.prune.map (Filter.tokens (ScopeName.ofDepth index)),
    p.2.filter.map (Filter.tokens (ScopeName.ofDepth index)))

/-- Whether a line of a kind is there is seen from the kind of what stands in its place. -/
theorem eq_of_optional_append {kind : ClauseKind} {a b : Option (List Token)}
    {xs ys : List (ClauseKind × List Token)} (hxs : ∀ c ∈ xs.head?, c.1 ≠ kind)
    (hys : ∀ c ∈ ys.head?, c.1 ≠ kind)
    (h : a.toList.map (kind, ·) ++ xs = b.toList.map (kind, ·) ++ ys) : a = b ∧ xs = ys := by
  cases a with
  | none =>
    cases b with
    | none => exact ⟨rfl, h⟩
    | some b =>
      have hcons : xs = (kind, b) :: ys := h
      exact absurd rfl (hxs (kind, b) (by simp [hcons]))
  | some a =>
    cases b with
    | none =>
      have hcons : (kind, a) :: xs = ys := h
      exact absurd rfl (hys (kind, a) (by simp [← hcons]))
    | some b =>
      obtain ⟨hab, hrest⟩ := List.cons.inj h
      exact ⟨congrArg some (Prod.mk.inj hab).2, hrest⟩

theorem map_content_filterLines (kind : ClauseKind) (index : Nat) (f : Option Filter) :
    (filterLines kind index f).map Line.content =
      (f.map (Filter.tokens (ScopeName.ofDepth index))).toList.map (kind, ·) := by
  cases f <;> rfl

theorem loop_of_mem_head?_headLines {index : Nat} {scopes : List (Option Hop × Scope)}
    {c : ClauseKind × List Token} (h : c ∈ ((headLines index scopes).map Line.content).head?) :
    c.1 = .loop := by
  cases scopes with
  | nil => cases h
  | cons p rest =>
    obtain ⟨hop, s⟩ := p
    cases h
    rfl

theorem head?_map_content_filterLines {index : Nat} {f : Option Filter}
    {scopes : List (Option Hop × Scope)} {c : ClauseKind × List Token}
    (h : c ∈ ((filterLines .filter index f).map Line.content
      ++ (headLines (index + 1) scopes).map Line.content).head?) : c.1 ≠ .prune := by
  cases f with
  | none => rw [loop_of_mem_head?_headLines h]; decide
  | some f =>
    cases h
    exact fun hkind => nomatch hkind

/-- **The lines on the way down show the scopes one after the other.** -/
theorem headTokens_eq_of_headLines_eq (xs : List (Option Hop × Scope)) :
    ∀ {ys : List (Option Hop × Scope)} {index : Nat},
      (headLines index xs).map Line.content = (headLines index ys).map Line.content →
      ∀ k, xs[k]?.map (headTokens (index + k)) = ys[k]?.map (headTokens (index + k)) := by
  induction xs with
  | nil =>
    intro ys index h k
    cases ys with
    | nil => rfl
    | cons p ys => cases h
  | cons p xs ih =>
    obtain ⟨hop, s⟩ := p
    intro ys index h
    cases ys with
    | nil => cases h
    | cons p ys =>
      obtain ⟨hop', s'⟩ := p
      simp only [headLines, Scope.headLines, List.map_append, List.map_cons, List.cons_append,
        List.append_assoc, List.cons.injEq] at h
      -- The lines of the first scope are taken off one kind after the other. That a prune or a filter
      -- is missing is seen from the kind of the line in its place.
      obtain ⟨hloop, h⟩ := h
      simp only [Line.content, loopLine, Prod.mk.injEq, List.cons.injEq, true_and] at hloop
      simp only [map_content_filterLines .prune] at h
      obtain ⟨hprune, h⟩ := eq_of_optional_append (fun _ => head?_map_content_filterLines)
        (fun _ => head?_map_content_filterLines) h
      simp only [map_content_filterLines .filter] at h
      obtain ⟨hfilter, h⟩ := eq_of_optional_append
        (fun c hc => by rw [loop_of_mem_head?_headLines hc]; decide)
        (fun c hc => by rw [loop_of_mem_head?_headLines hc]; decide) h
      rintro (_ | k)
      · simp [headTokens, hloop, hprune, hfilter]
      · simpa [Nat.add_right_comm, Nat.add_assoc] using ih h k

theorem Hop.tokens_inj {hop hop' : Hop} {start start' : Token} {target target' : Text}
    (h : hop.tokens start target = hop'.tokens start' target') :
    hop = hop' ∧ start = start' ∧ target = target' := by
  obtain ⟨direction, depths, namedGraph⟩ := hop
  obtain ⟨direction', depths', namedGraph'⟩ := hop'
  simp only [Hop.tokens, List.cons.injEq, Token.word.injEq, true_and] at h
  obtain ⟨hdepths, hdirection, hstart, htarget⟩ := h
  have hgraph : namedGraph = namedGraph' ∧ target = target' := by
    revert htarget
    cases namedGraph <;> cases namedGraph' <;> simp
  obtain ⟨rfl, rfl⟩ := hgraph
  rw [DepthRange.text_injective hdepths, Direction.name_inj.mp hdirection, hstart]
  exact ⟨rfl, rfl, rfl⟩

/-- The loop of a root shows its source. -/
theorem rootSource_eq {source source' : Source}
    (h : domainTokens 0 none source = domainTokens 0 none source') : source = source' := by
  cases source with
  | collection name =>
    cases source' with
    | collection name' => rw [Token.word.inj (List.cons.inj h).1]
    | traversal hop' target' start' => cases (List.cons.inj h).2
  | traversal hop target start =>
    cases source' with
    | collection name' => cases (List.cons.inj h).2
    | traversal hop' target' start' =>
      obtain ⟨rfl, hstart, rfl⟩ := Hop.tokens_inj h
      cases hstart
      rfl

/-- The loop of a joined scope shows the hop and the source. -/
theorem joinedSource_eq {index : Nat} {hop hop' : Hop} {source source' : Source}
    (hsource : source.isTraversal = false) (hsource' : source'.isTraversal = false)
    (h : domainTokens index (some hop) source = domainTokens index (some hop') source') :
    hop = hop' ∧ source = source' := by
  obtain ⟨rfl, _, hname⟩ := Hop.tokens_inj h
  cases source with
  | collection name =>
    cases source' with
    | collection name' => exact ⟨rfl, congrArg Source.collection hname⟩
    | traversal _ _ _ => cases hsource'
  | traversal _ _ _ => cases hsource

/-! #### On the way up -/

theorem point_notMem_ofDepth (index : Nat) : point ∉ ScopeName.ofDepth index := by
  intro h
  exact absurd (ScopeName.all_ofDepth index point h).1 (by decide)

theorem SortKey.tokens_inj {i j : Nat} {key key' : SortKey}
    (h : key.tokens (ScopeName.ofDepth i) = key'.tokens (ScopeName.ofDepth j)) :
    i = j ∧ key = key' := by
  obtain ⟨field, direction⟩ := key
  obtain ⟨field', direction'⟩ := key'
  simp only [SortKey.tokens, List.cons.injEq, Token.word.injEq, true_and, and_true] at h
  obtain ⟨hfield, hdirection⟩ := h
  have hcut : ScopeName.ofDepth i ++ point :: field = ScopeName.ofDepth j ++ point :: field' := by
    simp only [Operand.qualified, List.append_assoc] at hfield
    exact hfield
  obtain ⟨hname, rfl⟩ := Text.eq_of_cut (point_notMem_ofDepth i) (point_notMem_ofDepth j) hcut
  exact ⟨ScopeName.ofDepth_injective hname, by rw [SortDirection.name_inj.mp hdirection]⟩

/-- Parts of one length that are not empty are determined by what they make together. -/
theorem flatMap_injective {α β : Type} {g : α → List β} (hne : ∀ a, g a ≠ [])
    (hlength : ∀ a b, (g a).length = (g b).length) (hinj : Function.Injective g) :
    Function.Injective (List.flatMap g) := by
  intro xs
  induction xs with
  | nil =>
    intro ys h
    cases ys with
    | nil => rfl
    | cons y ys => exact absurd (List.append_eq_nil_iff.mp h.symm).1 (hne y)
  | cons x xs ih =>
    intro ys h
    cases ys with
    | nil => exact absurd (List.append_eq_nil_iff.mp h).1 (hne x)
    | cons y ys =>
      obtain ⟨hhead, htail⟩ := List.append_inj h (hlength x y)
      rw [hinj hhead, ih htail]

/-- A line of sort keys shows the scope that it belongs to, by the variable in front of its first
field. -/
theorem sortTokens_inj {i j : Nat} {keys keys' : List SortKey} (hne : keys ≠ []) (hne' : keys' ≠ [])
    (h : listTokens (keys.map (SortKey.tokens (ScopeName.ofDepth i))) =
      listTokens (keys'.map (SortKey.tokens (ScopeName.ofDepth j)))) : i = j ∧ keys = keys' := by
  obtain ⟨key, keys, rfl⟩ := List.exists_cons_of_ne_nil hne
  obtain ⟨key', keys', rfl⟩ := List.exists_cons_of_ne_nil hne'
  simp only [listTokens, joinTokens, List.map_cons, List.flatMap_map] at h
  obtain ⟨hkey, h⟩ := List.append_inj h rfl
  obtain ⟨rfl, rfl⟩ := SortKey.tokens_inj hkey
  have hkeys : keys = keys' := by
    refine flatMap_injective (fun _ => by simp) (fun _ _ => rfl) ?_ (List.append_cancel_left h)
    exact fun a b hab => (SortKey.tokens_inj (List.append_cancel_left hab)).2
  exact ⟨rfl, by rw [hkeys]⟩

/-- A scope with sort keys is found in every query that shows the same lines. -/
theorem exists_sorts_eq {q q' : Query} (h : q.contents = q'.contents) {i : Nat} {hop : Option Hop}
    {s : Scope} (hs : q.scopes[i]? = some (hop, s)) (hne : s.sorts ≠ []) :
    ∃ hop' s', q'.scopes[i]? = some (hop', s') ∧ s'.sorts = s.sorts := by
  have hline : _ ∈ q.lines := Query.mem_lines_iff.mpr (Or.inl ⟨i, hop, s, hs, .sort hne⟩)
  have hcontent := List.mem_map_of_mem (f := Line.content) hline
  rw [← Query.contents, h] at hcontent
  obtain ⟨l, hl, hcontent⟩ := List.mem_map.mp hcontent
  obtain ⟨hkind, hbody⟩ := Prod.mk.inj hcontent
  -- The same line stands in the other query, and only sort keys make a line of its kind. It could
  -- belong to any scope there; the variable in it says to which.
  rcases Query.mem_lines_iff.mp hl with ⟨j, hop', s', hs', hl⟩ | rfl
  · cases hl with
    | sort hne' =>
      obtain ⟨rfl, hsorts⟩ := sortTokens_inj hne' hne hbody
      exact ⟨hop', s', hs', hsorts⟩
    | loop => cases hkind
    | prune _ => cases hkind
    | filter _ => cases hkind
    | limit _ => cases hkind
  · cases hkind

/-- What a line of a kind says. -/
def bodyOf? (kind : ClauseKind) (c : ClauseKind × List Token) : Option (List Token) :=
  if c.1 = kind then some c.2 else none

theorem filterMap_bodyOf?_headLines (index : Nat) (scopes : List (Option Hop × Scope)) :
    ((headLines index scopes).map Line.content).filterMap (bodyOf? .limit) = [] := by
  rw [List.filterMap_map, List.filterMap_eq_nil_iff]
  intro l hl
  refine if_neg fun hkind => ?_
  have hhead := isHead_of_mem_headLines scopes hl
  rw [show l.kind = .limit from hkind] at hhead
  cases hhead

theorem filterMap_bodyOf?_tailLines (scopes : List (Option Hop × Scope)) :
    ∀ index, ((tailLines index scopes).map Line.content).filterMap (bodyOf? .limit) =
      (scopes.reverse.filterMap fun p => p.2.limit).map Limit.tokens := by
  induction scopes with
  | nil => exact fun _ => rfl
  | cons p rest ih =>
    obtain ⟨hop, s⟩ := p
    intro index
    have hsorts : ((sortLines index s.sorts).map Line.content).filterMap (bodyOf? .limit) = [] := by
      unfold sortLines
      split <;> rfl
    have hlimit : ((limitLines index s.limit).map Line.content).filterMap (bodyOf? .limit) =
        s.limit.toList.map Limit.tokens := by
      cases s.limit <;> rfl
    rw [tailLines, Scope.tailLines, List.map_append, List.map_append, List.filterMap_append,
      List.filterMap_append, ih, hsorts, hlimit, List.reverse_cons, List.filterMap_append,
      List.map_append]
    cases h : s.limit <;> simp [h]

theorem Limit.tokens_injective : Function.Injective Limit.tokens := by
  rintro ⟨count, skip⟩ ⟨count', skip'⟩ h
  have hcount : ∀ {m n : UInt32}, decimal m.toNat = decimal n.toNat → m = n := fun h =>
    UInt32.toNat_inj.mp (decimal_injective h)
  cases skip with
  | none =>
    cases skip' with
    | none =>
      simp only [Limit.tokens, List.cons.injEq, Token.word.injEq, and_true] at h
      rw [hcount h]
    | some skip' => simp [Limit.tokens] at h
  | some skip =>
    cases skip' with
    | none => simp [Limit.tokens] at h
    | some skip' =>
      simp only [Limit.tokens, List.cons.injEq, Token.word.injEq, true_and, and_true] at h
      rw [hcount h.1, hcount h.2]

/-- The limits of a query in the order of its statement: from the innermost scope outwards. -/
def Query.limits (q : Query) : List Limit :=
  q.scopes.reverse.filterMap fun p => p.2.limit

/-- Whether any scope asks for distinct results. -/
def Query.isDistinct (q : Query) : Bool :=
  q.scopes.any fun p => p.2.distinct

theorem limits_eq_of_contents_eq {q q' : Query} (h : q.contents = q'.contents) :
    q.limits = q'.limits := by
  have hlimits : ∀ q : Query, q.contents.filterMap (bodyOf? .limit) = q.limits.map Limit.tokens := by
    intro q
    rw [Query.contents, Query.lines, List.map_append, List.map_append, List.filterMap_append,
      List.filterMap_append, filterMap_bodyOf?_headLines, filterMap_bodyOf?_tailLines]
    exact List.append_nil _
  refine List.map_injective_iff.mpr Limit.tokens_injective ?_
  rw [← hlimits, ← hlimits, h]

theorem isDistinct_eq_of_contents_eq {q q' : Query} (h : q.contents = q'.contents) :
    q.isDistinct = q'.isDistinct := by
  have hlast : ∀ q : Query, q.contents.getLast? = some (resultLine q.scopes).content := by
    intro q
    simp [Query.contents, Query.lines]
  have hresult : (resultLine q.scopes).body = (resultLine q'.scopes).body := by
    have := hlast q
    rw [h, hlast q', Option.some.injEq] at this
    exact (Prod.mk.inj this).2.symm
  have hlength := congrArg List.length hresult
  have hlengths : ∀ q : Query, (resultLine q.scopes).body.length = if q.isDistinct then 3 else 1 := by
    intro q
    change ((if q.isDistinct then [Token.keyword "DISTINCT", .blank] else []) ++ [_]).length = _
    cases q.isDistinct <;> rfl
  rw [hlengths, hlengths] at hlength
  revert hlength
  cases q.isDistinct <;> cases q'.isDistinct <;> simp

/-! ### What a statement shows -/

/-- Two scopes at an index of which a statement shows the same: where they lead to, which rules they
have on the way down, and how they sort. -/
structure SameScope (index : Nat) (p p' : Option Hop × Scope) : Prop where
  hop : p.1 = p'.1
  source : p.2.source = p'.2.source
  prune : p.2.prune.map (Filter.render (ScopeName.ofDepth index)) =
    p'.2.prune.map (Filter.render (ScopeName.ofDepth index))
  filter : p.2.filter.map (Filter.render (ScopeName.ofDepth index)) =
    p'.2.filter.map (Filter.render (ScopeName.ofDepth index))
  sorts : p.2.sorts = p'.2.sorts

/-- Two queries of which a statement shows the same. Limits are shown as a sequence and distinct
results for the query as a whole. -/
structure SameClauses (q q' : Query) : Prop where
  count : q.scopes.length = q'.scopes.length
  scopes : ∀ i p p', q.scopes[i]? = some p → q'.scopes[i]? = some p' → SameScope i p p'
  limits : q.limits = q'.limits
  distinct : q.isDistinct = q'.isDistinct

/-- Filters that can be written and have the same tokens have the same text. -/
theorem Filter.render_eq_of_tokens_eq {v : Text} {f f' : Option Filter}
    (hf : ∀ g, f = some g → g.Writable) (hf' : ∀ g, f' = some g → g.Writable)
    (h : f.map (Filter.tokens v) = f'.map (Filter.tokens v)) :
    f.map (Filter.render v) = f'.map (Filter.render v) := by
  cases f with
  | none =>
    cases f' with
    | none => rfl
    | some g' => cases h
  | some g =>
    cases f' with
    | none => cases h
    | some g' =>
      obtain ⟨t, ht⟩ := (Filter.exists_render_iff v g).mpr (hf g rfl)
      obtain ⟨t', ht'⟩ := (Filter.exists_render_iff v g').mpr (hf' g' rfl)
      have htokens : g.tokens v = g'.tokens v := Option.some.inj h
      rw [Option.map_some, Option.map_some, ht, ht', Filter.eq_spell_of_render ht,
        Filter.eq_spell_of_render ht', htokens]

/-- Scopes at one place of two queries stand both at the root or are both joined. -/
theorem sameSource_of_domainTokens_eq {limit limit' : Int32} {q q' : Query}
    (hq : q.Compilable limit) (hq' : q'.Compilable limit') {i : Nat} {p p' : Option Hop × Scope}
    (hp : q.scopes[i]? = some p) (hp' : q'.scopes[i]? = some p')
    (h : domainTokens i p.1 p.2.source = domainTokens i p'.1 p'.2.source) :
    p.1 = p'.1 ∧ p.2.source = p'.2.source := by
  cases i with
  | zero =>
    cases hp
    cases hp'
    exact ⟨rfl, rootSource_eq h⟩
  | succ i =>
    simp only [Query.scopes, List.getElem?_cons_succ, List.getElem?_map,
      Option.map_eq_some_iff] at hp hp'
    obtain ⟨j, hj, rfl⟩ := hp
    obtain ⟨j', hj', rfl⟩ := hp'
    have hjoin := (hq.joins j (List.mem_of_getElem? hj)).2
    have hjoin' := (hq'.joins j' (List.mem_of_getElem? hj')).2
    obtain ⟨hhop, hsource⟩ := joinedSource_eq hjoin hjoin' h
    exact ⟨congrArg some hhop, hsource⟩

theorem sorts_eq_of_contents_eq {q q' : Query} (h : q.contents = q'.contents) {i : Nat}
    {p p' : Option Hop × Scope} (hp : q.scopes[i]? = some p) (hp' : q'.scopes[i]? = some p') :
    p.2.sorts = p'.2.sorts := by
  by_cases hne : p.2.sorts = []
  · by_cases hne' : p'.2.sorts = []
    · rw [hne, hne']
    · obtain ⟨hop, s, hs, hsorts⟩ := exists_sorts_eq h.symm hp' hne'
      rw [hp, Option.some.injEq] at hs
      rw [hs, hsorts]
  · obtain ⟨hop, s, hs, hsorts⟩ := exists_sorts_eq h hp hne
    rw [hp', Option.some.injEq] at hs
    rw [hs, hsorts]

/-- The lines of queries that compile show the clauses of their scopes. -/
theorem sameClauses_of_contents_eq {limit limit' : Int32} {q q' : Query}
    (hq : q.Compilable limit) (hq' : q'.Compilable limit') (h : q.contents = q'.contents) :
    SameClauses q q' := by
  have hheads : (headLines 0 q.scopes).map Line.content =
      (headLines 0 q'.scopes).map Line.content := by
    rw [← q.filter_isHead_contents, ← q'.filter_isHead_contents, h]
  have hshown : ∀ k, q.scopes[k]?.map (headTokens k) = q'.scopes[k]?.map (headTokens k) := by
    simpa using headTokens_eq_of_headLines_eq q.scopes hheads
  have hlength : ∀ k, q.scopes.length ≤ k ↔ q'.scopes.length ≤ k := by
    intro k
    rw [← List.getElem?_eq_none_iff, ← List.getElem?_eq_none_iff,
      ← Option.map_eq_none_iff (f := headTokens k), hshown, Option.map_eq_none_iff]
  refine ⟨?_, ?_, limits_eq_of_contents_eq h, isDistinct_eq_of_contents_eq h⟩
  · exact Nat.le_antisymm ((hlength _).mpr (Nat.le_refl _)) ((hlength _).mp (Nat.le_refl _))
  · intro i p p' hp hp'
    have hscope := hshown i
    rw [hp, hp', Option.map_some, Option.map_some, Option.some.injEq] at hscope
    obtain ⟨hdomain, hrules⟩ := Prod.mk.inj hscope
    obtain ⟨hprune, hfilter⟩ := Prod.mk.inj hrules
    obtain ⟨hhop, hsource⟩ := sameSource_of_domainTokens_eq hq hq' hp hp' hdomain
    have hwritable := hq.filters p.2 (Query.snd_mem_scopeList (List.mem_of_getElem? hp))
    have hwritable' := hq'.filters p'.2 (Query.snd_mem_scopeList (List.mem_of_getElem? hp'))
    exact {
      hop := hhop
      source := hsource
      prune := Filter.render_eq_of_tokens_eq (fun f hf => hwritable f (Or.inl hf))
        (fun f hf => hwritable' f (Or.inl hf)) hprune
      filter := Filter.render_eq_of_tokens_eq (fun f hf => hwritable f (Or.inr hf))
        (fun f hf => hwritable' f (Or.inr hf)) hfilter
      sorts := sorts_eq_of_contents_eq h hp hp' }

/-! ### What a statement hides -/

/-- Users whose name is a text that looks like the end of a statement. -/
def namedLikeClauses : Filter :=
  .ofComparison ((Subject.field (utf8 "name") none).equals
    (.literal (.string (utf8 "x\" LIMIT 1 RETURN DISTINCT a"))))

/-- Such users and whom they know, with a rule for the first scope and one for the second. -/
def knownTo (outer inner : Query → Query) : Query :=
  (outer ((Query.collection (utf8 "User")).filter namedLikeClauses)).join
    ⟨.outbound, ⟨1, 1⟩, false⟩ (inner (.collection (utf8 "knows")))

/-- A limit for distinct results. -/
def onlyOne (q : Query) : Query :=
  (q.limit ⟨1, none⟩).distinct

theorem readable_knownTo :
    (knownTo onlyOne id).Readable ∧ (knownTo id onlyOne).Readable := by
  have hnames : IsName (utf8 "User") ∧ IsName (utf8 "knows") ∧ IsPath (utf8 "name") := by
    decide +kernel
  obtain ⟨huser, hknows, hname⟩ := hnames
  have husers : ((Query.collection (utf8 "User")).filter namedLikeClauses).Readable := by
    refine (Query.Readable.collection huser).filter (Filter.Built.ofComparison _).wellFormed ?_
    refine List.forall_mem_singleton.mpr ⟨⟨utf8 "name", none, rfl, hname⟩, ?_⟩
    exact fun path hpath => nomatch hpath
  have hinner := Query.Readable.collection hknows
  exact ⟨((husers.limit _).distinct).join _ hinner, husers.join _ (hinner.limit _).distinct⟩

theorem compile_knownTo :
    (knownTo onlyOne id).compile Options.standard = (knownTo id onlyOne).compile Options.standard ∧
      (knownTo id onlyOne).compile Options.standard = .ok
        ⟨utf8 ("FOR a IN User FILTER a.name == \"x\\\" LIMIT 1 RETURN DISTINCT a\" "
          ++ "FOR b IN 1..1 OUTBOUND a knows LIMIT 1 RETURN DISTINCT b"), 2⟩ := by
  decide +kernel

/-- **A compact statement shows the clauses of its query.** Readable queries that compile to one text
have as many scopes as each other, agree scope by scope in where they lead to, in the texts of their
prunes and filters and in their sort keys, have the same sequence of limits, and both or neither ask
for distinct results. Which scope has a limit, and which asks for distinct results, is not shown. -/
theorem sameClauses_of_text_eq :
    (∀ (o o' : Options) (q q' : Query) (st st' : Statement), o.pretty = false → o'.pretty = false →
      q.Readable → q'.Readable → q.compile o = .ok st → q'.compile o' = .ok st' →
      st.text = st'.text → SameClauses q q') ∧
      ∃ q q' : Query, q.Readable ∧ q'.Readable ∧
        (∃ st, q.compile Options.standard = .ok st ∧ q'.compile Options.standard = .ok st) ∧
        q.scopes.map (fun p => p.2.limit) ≠ q'.scopes.map (fun p => p.2.limit) ∧
        q.scopes.map (fun p => p.2.distinct) ≠ q'.scopes.map (fun p => p.2.distinct) := by
  constructor
  · intro o o' q q' st st' compact compact' hq hq' h h' htext
    have hcontents : q.contents = q'.contents :=
      contents_eq_of_text_eq compact compact' hq hq' h h' htext
    exact sameClauses_of_contents_eq (exists_compile_iff.mp ⟨st, h⟩)
      (exists_compile_iff.mp ⟨st', h'⟩) hcontents
  · obtain ⟨hq, hq'⟩ := readable_knownTo
    obtain ⟨hsame, hok⟩ := compile_knownTo
    exact ⟨knownTo onlyOne id, knownTo id onlyOne, hq, hq', ⟨_, hsame.trans hok, hok⟩,
      by decide +kernel, by decide +kernel⟩

/-- A text that looks like the end of a statement does not end it. -/
theorem sameClauses_knownTo : SameClauses (knownTo onlyOne id) (knownTo id onlyOne) := by
  obtain ⟨hq, hq'⟩ := readable_knownTo
  obtain ⟨hsame, hok⟩ := compile_knownTo
  have hcompact : Options.standard.pretty = false := rfl
  exact sameClauses_of_text_eq.1 _ _ _ _ _ _ hcompact hcompact hq hq' (hsame.trans hok) hok rfl

end GraphQuery
