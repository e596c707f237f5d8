import GraphQuery.Proofs.Building
import GraphQuery.Proofs.Configuration
import GraphQuery.Proofs.Inputs
import Mathlib.Data.Nat.Find

/-!
# The grammar of arguments

Arguments come in groups: an option with its value, an option without one, or a positional argument,
of which there may be one. Arguments are read group by group as far as that goes; then the next
argument alone decides.

* `ArgGroup.words_append_inj`: a group can be told from what follows it.
* `Splits` and `SplitsFurthest`: groups at the beginning of the arguments, and as many as there are;
  `exists_splitsFurthest` and `SplitsFurthest.unique`: they are there, in one way only.
* `readArgs_words` reads one group, `readArgs_flatMap` any number of them.
* `readArgs_of_stuck`: what is asked for where no further group can be read.
* `run_by_groups`: what a run does, by the groups of its arguments.
-/

namespace GraphQuery

namespace Invocation

/-! ### Groups -/

/-- Arguments that belong together. -/
inductive ArgGroup where
  | config (path : Text)
  | level (name : Text)
  | pretty
  /-- A positional argument. -/
  | input (name : Text)
  deriving DecidableEq, Repr

/-- A lone minus, or what neither begins like a long option nor is the short one. -/
def IsPositional (argument : Text) : Prop :=
  argument = utf8 "-" ∨ ¬utf8 "--" <+: argument ∧ argument ≠ utf8 "-h"

instance (argument : Text) : Decidable (IsPositional argument) :=
  inferInstanceAs (Decidable (_ ∨ _))

namespace ArgGroup

/-- The arguments of a group. -/
def words : ArgGroup → List Text
  | .config path => [utf8 "--config", path]
  | .level name => [utf8 "--log-level", name]
  | .pretty => [utf8 "--pretty"]
  | .input name => [name]

/-- Not every argument can be a positional one. The value of an option can be anything. -/
def WellFormed : ArgGroup → Prop
  | .input name => IsPositional name
  | _ => True

instance : (g : ArgGroup) → Decidable g.WellFormed
  | .input name => inferInstanceAs (Decidable (IsPositional name))
  | .config _ | .level _ | .pretty => instDecidableTrue

/-- The configuration that a group names. -/
def config? : ArgGroup → Option Text
  | .config path => some path
  | _ => none

/-- The level that a group sets. -/
def level? : ArgGroup → Option Text
  | .level name => some name
  | _ => none

/-- The positional argument that a group is. -/
def input? : ArgGroup → Option Text
  | .input name => some name
  | _ => none

theorem length_words_pos (g : ArgGroup) : 0 < g.words.length := by
  cases g <;> simp [words]

/-- **A group can be told from what follows it.** -/
theorem words_append_inj {g g' : ArgGroup} (hg : g.WellFormed) (hg' : g'.WellFormed)
    {rest rest' : List Text} (h : g.words ++ rest = g'.words ++ rest') : g = g' ∧ rest = rest' := by
  -- No option is a positional argument.
  have hconfig : ¬IsPositional (utf8 "--config") := by decide
  have hlevel : ¬IsPositional (utf8 "--log-level") := by decide
  have hpretty : ¬IsPositional (utf8 "--pretty") := by decide
  cases g <;> cases g' <;> simp_all [words, WellFormed]

end ArgGroup

/-- Groups at the beginning of the arguments, with at most one positional argument, and what is
left. -/
structure Splits (args : List Text) (groups : List ArgGroup) (rest : List Text) : Prop where
  eq_append : args = groups.flatMap ArgGroup.words ++ rest
  wellFormed : ∀ g ∈ groups, g.WellFormed
  length_inputs_le : (groups.filterMap ArgGroup.input?).length ≤ 1

/-- As many groups as there can be: no others leave less behind them. -/
structure SplitsFurthest (args : List Text) (groups : List ArgGroup) (rest : List Text) : Prop
    extends Splits args groups rest where
  furthest : ∀ groups' rest', Splits args groups' rest' → rest.length ≤ rest'.length

/-- Groups that leave nothing are as many as there can be. -/
theorem Splits.furthest {args : List Text} {groups : List ArgGroup} (h : Splits args groups []) :
    SplitsFurthest args groups [] :=
  ⟨h, fun _ _ _ => Nat.zero_le _⟩

theorem prefix_or_prefix_of_flatMap_words_eq {groups groups' : List ArgGroup}
    (hgroups : ∀ g ∈ groups, g.WellFormed) (hgroups' : ∀ g ∈ groups', g.WellFormed)
    {rest rest' : List Text}
    (h : groups.flatMap ArgGroup.words ++ rest = groups'.flatMap ArgGroup.words ++ rest') :
    groups <+: groups' ∨ groups' <+: groups := by
  induction groups generalizing groups' with
  | nil => exact Or.inl List.nil_prefix
  | cons g groups ih =>
    cases groups' with
    | nil => exact Or.inr List.nil_prefix
    | cons g' groups' =>
      obtain ⟨hg, htail⟩ := List.forall_mem_cons.mp hgroups
      obtain ⟨hg', htail'⟩ := List.forall_mem_cons.mp hgroups'
      simp only [List.flatMap_cons, List.append_assoc] at h
      obtain ⟨rfl, hrest⟩ := ArgGroup.words_append_inj hg hg' h
      simpa only [List.cons_prefix_cons, true_and] using ih htail htail' hrest

namespace SplitsFurthest

variable {args rest rest' : List Text} {groups groups' : List ArgGroup}

theorem eq_of_prefix (h : SplitsFurthest args groups rest) (h' : Splits args groups' rest')
    (hbegin : groups <+: groups') : groups' = groups ∧ rest' = rest := by
  obtain ⟨more, rfl⟩ := hbegin
  have hargs := h.eq_append.symm.trans h'.eq_append
  rw [List.flatMap_append, List.append_assoc] at hargs
  have hrest := List.append_cancel_left hargs
  have hlength := h.furthest _ _ h'
  cases more with
  | nil => exact ⟨List.append_nil _, hrest.symm⟩
  | cons g more =>
    -- Another group would leave less.
    have hpos := g.length_words_pos
    rw [hrest, List.flatMap_cons] at hlength
    simp only [List.length_append] at hlength
    omega

/-- **The groups of the arguments are the only ones.** -/
theorem unique (h : SplitsFurthest args groups rest) (h' : SplitsFurthest args groups' rest') :
    groups' = groups ∧ rest' = rest := by
  have hargs := h.eq_append.symm.trans h'.eq_append
  rcases prefix_or_prefix_of_flatMap_words_eq h.wellFormed h'.wellFormed hargs with hp | hp
  · exact h.eq_of_prefix h'.toSplits hp
  · obtain ⟨rfl, rfl⟩ := h'.eq_of_prefix h.toSplits hp
    exact ⟨rfl, rfl⟩

end SplitsFurthest

/-- The arguments have groups, if only none at all before everything. -/
theorem exists_splitsFurthest (args : List Text) :
    ∃ groups rest, SplitsFurthest args groups rest := by
  classical
  have hsome : ∃ n groups rest, Splits args groups rest ∧ rest.length = n :=
    ⟨args.length, [], args, ⟨rfl, nofun, Nat.zero_le _⟩, rfl⟩
  obtain ⟨groups, rest, hsplits, hlength⟩ := Nat.find_spec hsome
  refine ⟨groups, rest, hsplits, fun groups' rest' hsplits' => ?_⟩
  rw [hlength]
  exact Nat.find_min' hsome ⟨groups', rest', hsplits', rfl⟩

/-! ### Reading groups -/

/-- What is asked for with a group on top. -/
def add (i : Invocation) : ArgGroup → Invocation
  | .config path => { i with configPath := some path }
  | .level name => { i with level := some name }
  | .pretty => { i with pretty := true }
  | .input name => { i with input := some name }

section Add

variable (i : Invocation) (g : ArgGroup)

theorem configPath_add : (i.add g).configPath = g.config?.or i.configPath := by
  cases g <;> rfl

theorem level_add : (i.add g).level = g.level?.or i.level := by
  cases g <;> rfl

theorem pretty_add_iff : (i.add g).pretty = true ↔ i.pretty = true ∨ .pretty = g := by
  cases g <;> simp [add]

theorem input_add : (i.add g).input = g.input?.or i.input := by
  cases g <;> rfl

end Add

/-- There is a place for a group: a positional argument has one if it is the first. -/
def HasPlaceFor (i : Invocation) (g : ArgGroup) : Prop :=
  g.WellFormed ∧ (g.input?.isSome = true → i.input = none)

/-- A positional argument is one that can name the input, and is not the short option. -/
theorem isPositional_iff {argument : Text} :
    IsPositional argument ↔ isInputName argument = true ∧ argument ≠ utf8 "-h" := by
  have hminus : ¬utf8 "--" <+: utf8 "-" ∧ utf8 "-" ≠ utf8 "-h" := by decide
  have hname : isInputName argument = true ↔ ¬utf8 "--" <+: argument := by
    rw [isInputName, Text.beginsWith, ← List.isPrefixOf_iff_prefix, Bool.not_eq_true',
      Bool.not_eq_true]
  rw [hname]
  constructor
  · rintro (rfl | h)
    · exact hminus
    · exact h
  · exact Or.inr

/-- One group is read. -/
theorem readArgs_words {i : Invocation} {g : ArgGroup} (h : i.HasPlaceFor g) (rest : List Text) :
    readArgs i (g.words ++ rest) = readArgs (i.add g) rest := by
  cases g with
  | config path => simp [ArgGroup.words, readArgs, add]
  | level name => simp [ArgGroup.words, readArgs, add]
  | pretty =>
    rw [ArgGroup.words, List.singleton_append, readArgs.eq_def]
    simp [add]
  | input name =>
    obtain ⟨hname, hfree⟩ := h
    have hnot : ∀ option : String, ¬IsPositional (utf8 option) → name ≠ utf8 option :=
      fun option hoption heq => hoption (heq ▸ hname)
    have hinput : isInputName name = true := (isPositional_iff.mp hname).1
    have hnone : i.input.isNone = true := by simp [hfree rfl]
    rw [ArgGroup.words, List.singleton_append, readArgs.eq_def]
    simp only [add,
      hnot "--config" (by decide), hnot "--log-level" (by decide), hnot "--pretty" (by decide),
      hnot "--help" (by decide), hnot "-h" (by decide), hinput, hnone, if_false, or_self,
      Bool.and_self, if_true]

/-- **Groups are read one after the other**, with at most one positional argument among them and
those before. -/
theorem readArgs_flatMap {groups : List ArgGroup} (hgroups : ∀ g ∈ groups, g.WellFormed)
    (rest : List Text) {i : Invocation}
    (hinputs : (i.input.toList ++ groups.filterMap ArgGroup.input?).length ≤ 1) :
    readArgs i (groups.flatMap ArgGroup.words ++ rest) = readArgs (groups.foldl add i) rest := by
  induction groups generalizing i with
  | nil => rfl
  | cons g groups ih =>
    obtain ⟨hg, htail⟩ := List.forall_mem_cons.mp hgroups
    rw [List.filterMap_cons] at hinputs
    -- A positional argument read before, and one here, would be two.
    have hplace : i.HasPlaceFor g := by
      refine ⟨hg, fun hsome => ?_⟩
      obtain ⟨name, hname⟩ := Option.isSome_iff_exists.mp hsome
      cases hinput : i.input with
      | none => rfl
      | some other => simp [hname, hinput] at hinputs
    rw [List.flatMap_cons, List.append_assoc, readArgs_words hplace, List.foldl_cons]
    refine ih htail ?_
    rw [input_add]
    cases hname : g.input? with
    | none => simpa [hname] using hinputs
    | some name =>
      have hnone : i.input = none := hplace.2 (by simp [hname])
      simpa [hname, hnone] using hinputs

/-- What is asked for where the next argument has no place. -/
def refusal (argument : Text) : Request :=
  if argument = utf8 "--help" ∨ argument = utf8 "-h" then .help else .unexpected argument

/-- An argument with which no group begins that has a place asks for help, or is without a place
itself. -/
theorem readArgs_of_stuck {i : Invocation} {next : Text} {more : List Text}
    (h : ∀ g, i.HasPlaceFor g → ∀ rest, next :: more ≠ g.words ++ rest) :
    readArgs i (next :: more) = refusal next := by
  rw [readArgs.eq_def]
  dsimp only
  -- A test that holds shows a group that has a place, except for an option without its value and
  -- for those that ask for help.
  split_ifs with hconfig hlevel hpretty hhelp hinput
  · cases more with
    | nil => simp [refusal, hconfig]
    | cons path rest =>
      have hword : next :: path :: rest = (ArgGroup.config path).words ++ rest := by
        simp [ArgGroup.words, hconfig]
      exact absurd hword (h (.config path) ⟨trivial, nofun⟩ rest)
  · cases more with
    | nil => simp [refusal, hlevel]
    | cons name rest =>
      have hword : next :: name :: rest = (ArgGroup.level name).words ++ rest := by
        simp [ArgGroup.words, hlevel]
      exact absurd hword (h (.level name) ⟨trivial, nofun⟩ rest)
  · exact absurd (by simp [ArgGroup.words, hpretty]) (h .pretty ⟨trivial, nofun⟩ more)
  · rw [refusal, if_pos hhelp]
  · obtain ⟨hname, hfree⟩ := Bool.and_eq_true_iff.mp hinput
    have hplace : i.HasPlaceFor (.input next) :=
      ⟨isPositional_iff.mpr ⟨hname, fun hshort => hhelp (.inr hshort)⟩,
        fun _ => Option.isNone_iff_eq_none.mp hfree⟩
    exact absurd rfl (h (.input next) hplace more)
  · rw [refusal, if_neg hhelp]

/-! ### What the groups ask for -/

/-- What the last of the groups that name something names. -/
def ArgGroup.latest? {α : Type} (names? : ArgGroup → Option α) (groups : List ArgGroup) :
    Option α :=
  (groups.filterMap names?).getLast?

open ArgGroup

/-- What groups ask for: the last configuration, the last level, pretty output where a group asks
for it, and the positional argument, or else the standard input. -/
structure Asks (groups : List ArgGroup) (i : Invocation) : Prop where
  configPath : i.configPath = latest? config? groups
  level : i.level = latest? level? groups
  pretty : i.pretty = true ↔ .pretty ∈ groups
  input : CommandLine.inputName i = (latest? input? groups).getD (utf8 "-")

/-- Groups that ask for the same. A lone minus is as good as no positional argument. -/
structure SameChoices (groups groups' : List ArgGroup) : Prop where
  config : latest? config? groups = latest? config? groups'
  level : latest? level? groups = latest? level? groups'
  pretty : .pretty ∈ groups ↔ .pretty ∈ groups'
  input : (latest? input? groups).getD (utf8 "-") = (latest? input? groups').getD (utf8 "-")

section Foldl

variable (groups : List ArgGroup)

theorem input_foldl_add : (groups.foldl add standard).input = latest? input? groups := by
  have h := foldl_latest? Invocation.input input_add standard groups
  rw [h, standard, Option.or_none, latest?]

theorem pretty_foldl_add_iff (i : Invocation) :
    (groups.foldl add i).pretty = true ↔ i.pretty = true ∨ .pretty ∈ groups := by
  induction groups generalizing i with
  | nil => simp
  | cons g groups ih => rw [List.foldl_cons, ih, pretty_add_iff, List.mem_cons, or_assoc]

theorem asks_foldl_add : Asks groups (groups.foldl add standard) where
  configPath := by
    rw [foldl_latest? Invocation.configPath configPath_add standard groups, standard,
      Option.or_none, latest?]
  level := by
    rw [foldl_latest? Invocation.level level_add standard groups, standard, Option.or_none,
      latest?]
  pretty := by simp [pretty_foldl_add_iff, standard]
  input := by rw [CommandLine.inputName, input_foldl_add]

end Foldl

section Splits

variable {args rest : List Text} {groups : List ArgGroup}

/-- Groups at the beginning of the arguments are read. -/
theorem Splits.ofArgs_eq (h : Splits args groups rest) :
    ofArgs args = readArgs (groups.foldl add standard) rest := by
  rw [ofArgs, h.eq_append]
  exact readArgs_flatMap h.wellFormed rest h.length_inputs_le

/-- After as many groups as there can be there is no place for another. -/
theorem SplitsFurthest.ne_words_append (h : SplitsFurthest args groups rest) {g : ArgGroup}
    (hplace : (groups.foldl add standard).HasPlaceFor g) (rest' : List Text) :
    rest ≠ g.words ++ rest' := by
  intro hrest
  have hmore : Splits args (groups ++ [g]) rest' := by
    refine ⟨?_, ?_, ?_⟩
    · rw [h.eq_append, hrest]
      simp
    · simpa [or_imp, forall_and] using ⟨h.wellFormed, hplace.1⟩
    · cases hname : g.input? with
      | none => simpa [hname] using h.length_inputs_le
      | some name =>
        have hnone := hplace.2 (by simp [hname])
        rw [input_foldl_add, latest?, List.getLast?_eq_none_iff] at hnone
        simp [hname, hnone]
  have hlength := h.furthest _ _ hmore
  have hpos := g.length_words_pos
  rw [hrest, List.length_append] at hlength
  omega

/-- The next argument decides. -/
theorem SplitsFurthest.ofArgs_eq_refusal {next : Text} {more : List Text}
    (h : SplitsFurthest args groups (next :: more)) : ofArgs args = refusal next := by
  rw [h.toSplits.ofArgs_eq]
  exact readArgs_of_stuck fun g hplace rest' => h.ne_words_append hplace rest'

end Splits

end Invocation

namespace CommandLine

open Invocation ArgGroup

/-- Of an invocation, a run sees the configuration, the level, whether the output is pretty, and the
name of the input. -/
theorem perform_compile_eq {i i' : Invocation} (hconfig : i.configPath = i'.configPath)
    (hlevel : i.level = i'.level) (hpretty : i.pretty = i'.pretty)
    (hinput : inputName i = inputName i') (inputs : Inputs) (l : Logger) :
    perform inputs l (.compile i) = perform inputs l (.compile i') := by
  have hbase : baseConfig inputs l i = baseConfig inputs l i' := by
    rw [baseConfig, baseConfig, hconfig]
  have hoverride : override i = override i' := by
    funext c
    rw [override, override, hlevel, hpretty]
  have hexecute : execute inputs i = execute inputs i' := by
    funext c
    rw [execute, execute, hinput]
  rw [perform, perform, hbase, hoverride, hexecute]

/-- Groups that ask for the same make the same run. -/
theorem perform_eq_of_sameChoices {groups groups' : List ArgGroup} {i i' : Invocation}
    (h : SameChoices groups groups') (hi : Asks groups i) (hi' : Asks groups' i')
    (inputs : Inputs) (l : Logger) :
    perform inputs l (.compile i) = perform inputs l (.compile i') := by
  apply perform_compile_eq
  · rw [hi.configPath, hi'.configPath, h.config]
  · rw [hi.level, hi'.level, h.level]
  · rw [Bool.eq_iff_iff, hi.pretty, hi'.pretty, h.pretty]
  · rw [hi.input, hi'.input, h.input]

/-- A configuration under some groups: with the level of the last group that sets one, or else its
own; pretty if it is itself or a group asks for it; and as it is otherwise. -/
structure LaidOver (groups : List ArgGroup) (base c : Config) : Prop where
  level : c.logging.level = (latest? level? groups).getD base.logging.level
  pretty : c.compiler.pretty = true ↔ base.compiler.pretty = true ∨ .pretty ∈ groups
  same : ∀ s : Setting, s ≠ .level → s ≠ .pretty → s.get c = s.get base

/-- A run with some options and an input of some name, after the start of a logger. -/
structure RunsAfter (start : Logger.Start) (inputs : Inputs) (name : Text) (o : Options) (r : Run) :
    Prop where
  unopened : NoInput inputs name → r = ⟨some 2, [], start.errors, start.log ++
    start.logger.write ⟨.error, utf8 "Cannot open query descriptor: " ++ name⟩, .silent⟩
  compiled : ∀ text, HasText inputs name text → ∀ rest, rest = compileText start.logger o text →
    r = { rest with errors := start.errors ++ rest.errors, log := start.log ++ rest.log }

/-- What a run does whose arguments are these groups and no more. The logger is started with the
file and under the threshold of the configuration, and then the input is read. -/
structure GoesOn (inputs : Inputs) (groups : List ArgGroup) (r : Run) : Prop where
  unreadable : UnreadableConfig inputs (latest? config? groups) → r = ⟨none, [], [], [], .silent⟩
  refused : ∀ errors, NoConfig inputs (latest? config? groups) errors →
    r = ⟨some 2, [], errors, [], .silent⟩
  loaded : ∀ base, LoadsConfig inputs (latest? config? groups) base → ∃ c, LaidOver groups base c ∧
    RunsAfter (Logger.start inputs.logFailure? c.logging.file (.ofName c.logging.level)) inputs
      ((latest? input? groups).getD (utf8 "-")) c.compiler r

theorem laidOver_override {groups : List ArgGroup} {i : Invocation} (h : Asks groups i)
    (base : Config) : LaidOver groups base (override i base) where
  level := by rw [override, h.level]
  pretty := by rw [override, Bool.or_eq_true, h.pretty]
  same s hlevel hpretty := by
    cases s with
    | level => exact absurd rfl hlevel
    | pretty => exact absurd rfl hpretty
    | _ => rfl

/-- An execution starts the logger and reads the input, and then does what it finds. -/
theorem runsAfter_execute (inputs : Inputs) (i : Invocation) (c : Config) :
    RunsAfter (c.startLogger inputs.logFailure?) inputs (inputName i) c.compiler
      (execute inputs i c) where
  unopened hnone := by
    have hread := readInput_eq_none_iff.mpr hnone
    simp only [execute, hread, unopened_eq, List.append_nil]
  compiled := by
    rintro text htext rest rfl
    have hread := readInput_eq_some_iff.mpr htext
    simp only [execute, hread]

/-- A run goes on with what its groups ask for. -/
theorem goesOn_perform {groups : List ArgGroup} {i : Invocation} (h : Asks groups i)
    (inputs : Inputs) : GoesOn inputs groups (perform inputs .silent (.compile i)) where
  unreadable hread := by
    rw [← h.configPath] at hread
    rw [perform_of_unreadable hread]
    rfl
  refused errors hnone := by
    rw [← h.configPath] at hnone
    rw [perform_of_noConfig hnone]
    rfl
  loaded base hbase := by
    rw [← h.configPath] at hbase
    rw [perform_of_loads hbase, ← h.input]
    exact ⟨_, laidOver_override h base, runsAfter_execute inputs i _⟩

/-- **The arguments of a run, and only their groups, say what it does.** There is one way to split
off as many groups as there can be. Where that leaves nothing, the run goes on with what the groups
ask for: it reads the last configuration, starts the log at the last level, makes the output pretty
where a group asks for it and compiles what the positional argument names; and arguments whose
groups ask for the same make the same run. Where something is left, its first argument decides
alone: it asks for help, or is named as the one without a place; no file and no input matters, and
nothing is compiled or logged. -/
theorem run_by_groups (args : List Text) :
    ∃ groups rest, SplitsFurthest args groups rest ∧
      (∀ groups' rest', SplitsFurthest args groups' rest' → groups' = groups ∧ rest' = rest) ∧
      (rest = [] → (∃ i, Asks groups i ∧ ofArgs args = .compile i) ∧
        ∀ inputs, GoesOn inputs groups (run inputs args)) ∧
      (∀ next more, rest = next :: more → next = utf8 "--help" ∨ next = utf8 "-h" →
        ∀ inputs, run inputs args = ⟨some 0, usage, [], [], .silent⟩) ∧
      (∀ next more, rest = next :: more → ¬(next = utf8 "--help" ∨ next = utf8 "-h") →
        ∀ inputs, run inputs args =
          ⟨some 2, [], utf8 "Unexpected argument: " ++ next ++ utf8 "\n" ++ usage, [], .silent⟩) ∧
      (rest = [] → ∀ args' groups', Splits args' groups' [] → SameChoices groups groups' →
        ∀ inputs, run inputs args = run inputs args') := by
  obtain ⟨groups, rest, h⟩ := exists_splitsFurthest args
  refine ⟨groups, rest, h, fun groups' rest' => h.unique, ?all, ?help, ?unexpected, ?same⟩
  case all =>
    rintro rfl
    have hasks := asks_foldl_add groups
    have hargs : ofArgs args = .compile (groups.foldl add standard) := by
      rw [h.toSplits.ofArgs_eq, readArgs]
    refine ⟨⟨_, hasks, hargs⟩, fun inputs => ?_⟩
    rw [run, hargs]
    exact goesOn_perform hasks inputs
  case help =>
    rintro next more rfl hhelp inputs
    rw [run, h.ofArgs_eq_refusal, refusal, if_pos hhelp]
    rfl
  case unexpected =>
    rintro next more rfl hhelp inputs
    rw [run, h.ofArgs_eq_refusal, refusal, if_neg hhelp]
    rfl
  case same =>
    rintro rfl args' groups' h' hsame inputs
    rw [run, run, h.toSplits.ofArgs_eq, h'.ofArgs_eq, readArgs, readArgs]
    exact perform_eq_of_sameChoices hsame (asks_foldl_add groups) (asks_foldl_add groups') inputs _

/-- An option whose value looks like a request for help keeps that value, wherever it stands; one
without its value is refused. Of two levels the last one counts. -/
theorem run_by_groups_config :
    let inputs := plainInputs (fun _ => .missing) (utf8 "\x7b\"collection\":\"User\"\x7d")
    let leveled := [utf8 "--log-level", utf8 "trace", utf8 "--pretty", utf8 "--log-level", utf8 "off"]
    run inputs [utf8 "--config", utf8 "--help", utf8 "q.json", utf8 "--pretty"] =
        run inputs [utf8 "--pretty", utf8 "--config", utf8 "c.json", utf8 "q.json",
          utf8 "--config", utf8 "--help"] ∧
      run inputs [utf8 "--config"] =
        ⟨some 2, [], utf8 "Unexpected argument: " ++ utf8 "--config" ++ utf8 "\n" ++ usage, [],
          .silent⟩ ∧
      ∃ c : Config, c.logging.level = utf8 "off" ∧ c.compiler.pretty = true ∧
        RunsAfter (Logger.start inputs.logFailure? c.logging.file (.ofName (utf8 "off"))) inputs
          (utf8 "-") c.compiler (run inputs leveled) := by
  intro inputs leveled
  refine ⟨?same, ?refused, ?leveled⟩
  case same =>
    let all : List ArgGroup := [.config (utf8 "--help"), .input (utf8 "q.json"), .pretty]
    let all' : List ArgGroup := [.pretty, .config (utf8 "c.json"), .input (utf8 "q.json"),
      .config (utf8 "--help")]
    have hall : Splits [utf8 "--config", utf8 "--help", utf8 "q.json", utf8 "--pretty"] all [] :=
      ⟨rfl, by decide, by decide⟩
    have hall' : Splits [utf8 "--pretty", utf8 "--config", utf8 "c.json", utf8 "q.json",
        utf8 "--config", utf8 "--help"] all' [] :=
      ⟨rfl, by decide, by decide⟩
    obtain ⟨groups, rest, -, hunique, -, -, -, hsame⟩ :=
      run_by_groups [utf8 "--config", utf8 "--help", utf8 "q.json", utf8 "--pretty"]
    obtain ⟨rfl, rfl⟩ := hunique _ _ hall.furthest
    have hchoices : SameChoices all all' := by
      constructor <;> decide
    exact hsame rfl _ _ hall' hchoices _
  case refused =>
    obtain ⟨groups, rest, h, -, -, -, hunexpected, -⟩ := run_by_groups [utf8 "--config"]
    have heq := h.eq_append
    cases groups with
    | nil => exact hunexpected _ _ heq.symm (by decide) _
    | cons g groups =>
      -- The only group of one argument that could begin here is a positional one.
      have hg := h.wellFormed g List.mem_cons_self
      have hnot : ¬IsPositional (utf8 "--config") := by decide
      cases g <;> simp_all [ArgGroup.words, ArgGroup.WellFormed]
  case leveled =>
    let all : List ArgGroup := [.level (utf8 "trace"), .pretty, .level (utf8 "off")]
    have hall : Splits leveled all [] := ⟨rfl, by decide, by decide⟩
    obtain ⟨groups, rest, -, hunique, hgoesOn, -⟩ := run_by_groups leveled
    obtain ⟨rfl, rfl⟩ := hunique _ _ hall.furthest
    obtain ⟨c, hlaid, hruns⟩ := ((hgoesOn rfl).2 inputs).loaded _ (.standard rfl)
    have hlevel : c.logging.level = utf8 "off" := hlaid.level
    have hpretty : c.compiler.pretty = true := hlaid.pretty.mpr (.inr (by decide))
    rw [hlevel] at hruns
    exact ⟨c, hlevel, hpretty, hruns⟩

end CommandLine

end GraphQuery
