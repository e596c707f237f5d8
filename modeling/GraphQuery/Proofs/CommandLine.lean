import GraphQuery.Proofs.Inputs

/-!
# Runs of the command line

A run reads its arguments, a configuration and a text, and then has the library compile the text.
This module says what a run leaves behind in terms of the library alone.

* `Compiles` and `Rejects` say what the library makes of a text. `OutOfRange`: it makes nothing of
  the text, as a number in it is too large.
* `EndsAs` says that a run ends with this; `endsAs_compileText` is the library's part of a run.
* `run_endsAs`: every run ends as the library has it, or at a file, with the logger stopped; where
  the library makes nothing of a text, or the configuration is what cannot be read, an exception
  ends the run.
-/

namespace GraphQuery

namespace CommandLine

/-! ### What the library makes of a text -/

/-- A text describes a query that has a statement under some options. -/
def Compiles (o : Options) (text statement : Text) : Prop :=
  ∃ j q, Value.ofText text = .ok j ∧ Query.ofJson j = .ok q ∧
    (q.report o).success = true ∧ (q.report o).statement = statement

/-- The code and the message for a text that has no statement: it is not JSON, or does not describe
a query, or the query cannot be compiled. -/
inductive Rejects (o : Options) (text : Text) : Text → Text → Prop where
  | text : Value.ofText text = .error .malformed →
      Rejects o text (utf8 "InvalidDescriptor") jsonErrorText
  | descriptor {j : Value} {e : QueryError} : Value.ofText text = .ok j →
      Query.ofJson j = .error e → Rejects o text e.code e.message
  | query {j : Value} {q : Query} : Value.ofText text = .ok j → Query.ofJson j = .ok q →
      (q.report o).success = false → Rejects o text (q.report o).code (q.report o).message

/-- Reading a text meets a number that is too large for a double, and nothing wrong before it. -/
def OutOfRange (text : Text) : Prop :=
  Value.ofText text = .error .outOfRange

/-- A run that has printed something about its log ends with the statement of a text, or else with
the one error that there is. An exception ends it where there is neither. -/
structure EndsAs (r : Run) (printed : Text) (o : Options) (text : Text) : Prop where
  exitCode_eq_zero_iff : r.exitCode? = some 0 ↔ ∃ s, Compiles o text s
  of_compiles : ∀ s, Compiles o text s →
    r.exitCode? = some 0 ∧ r.output = s ++ utf8 "\n" ∧ r.errors = printed
  of_not_compiles : (¬∃ s, Compiles o text s) → ¬OutOfRange text →
    r.exitCode? = some 1 ∧ r.output = [] ∧ ∃ code message, Rejects o text code message ∧
      r.errors = printed ++ code ++ utf8 ": " ++ message ++ utf8 "\n"
  of_outOfRange : OutOfRange text → r.exitCode? = none ∧ r.output = [] ∧ r.errors = printed

section Library

variable {o : Options} {text : Text}

theorem Compiles.unique {s s' : Text} (h : Compiles o text s) (h' : Compiles o text s') :
    s = s' := by
  obtain ⟨j, q, hj, hq, -, rfl⟩ := h
  obtain ⟨j', q', hj', hq', -, rfl⟩ := h'
  cases hj.symm.trans hj'
  cases hq.symm.trans hq'
  rfl

theorem Compiles.not_outOfRange {s : Text} (h : Compiles o text s) : ¬OutOfRange text := by
  obtain ⟨j, q, hj, -⟩ := h
  intro hout
  cases hj.symm.trans hout

theorem OutOfRange.not_compiles (h : OutOfRange text) : ¬∃ s, Compiles o text s :=
  fun ⟨_, hs⟩ => hs.not_outOfRange h

theorem Rejects.not_compiles {code message : Text} (h : Rejects o text code message) :
    ¬∃ s, Compiles o text s := by
  rintro ⟨s, j, q, hj, hq, hsuccess, -⟩
  cases h with
  | text hnone => cases hnone.symm.trans hj
  | descriptor hj' he =>
    cases hj'.symm.trans hj
    cases he.symm.trans hq
  | query hj' hq' hfailure =>
    cases hj'.symm.trans hj
    cases hq'.symm.trans hq
    rw [hfailure] at hsuccess
    cases hsuccess

theorem Rejects.not_outOfRange {code message : Text} (h : Rejects o text code message) :
    ¬OutOfRange text := by
  intro hout
  cases h with
  | text hmalformed => cases hmalformed.symm.trans hout
  | descriptor hj _ => cases hj.symm.trans hout
  | query hj _ _ => cases hj.symm.trans hout

theorem endsAs_printed {l : Logger} {s : Statement} {log : List LogLine}
    (h : Compiles o text s.text) : EndsAs (printed l s log) [] o text where
  exitCode_eq_zero_iff := iff_of_true rfl ⟨s.text, h⟩
  of_compiles s' h' := by
    cases h.unique h'
    exact ⟨rfl, rfl, rfl⟩
  of_not_compiles h' := absurd ⟨s.text, h⟩ h'
  of_outOfRange h' := absurd h' h.not_outOfRange

theorem endsAs_rejected {l : Logger} {e : QueryError} {log : List LogLine}
    (h : Rejects o text e.code e.message) : EndsAs (rejected l e log) [] o text where
  exitCode_eq_zero_iff :=
    iff_of_false (show some exitRejected ≠ some 0 by decide) h.not_compiles
  of_compiles s h' := absurd ⟨s, h'⟩ h.not_compiles
  of_not_compiles _ _ := ⟨rfl, rfl, e.code, e.message, h, by rw [rejected, QueryError.summary]; rfl⟩
  of_outOfRange h' := absurd h' h.not_outOfRange

theorem endsAs_aborted {l : Logger} (h : OutOfRange text) : EndsAs (aborted l) [] o text where
  exitCode_eq_zero_iff := iff_of_false nofun h.not_compiles
  of_compiles _ h' := absurd h h'.not_outOfRange
  of_not_compiles _ h' := absurd h h'
  of_outOfRange _ := ⟨rfl, rfl, rfl⟩

/-- **The library's part of a run ends with what the library makes of the text.** -/
theorem endsAs_compileText (l : Logger) (o : Options) (text : Text) :
    EndsAs (compileText l o text) [] o text := by
  rw [compileText]
  cases hj : Value.ofText text with
  | error fault =>
    cases fault with
    | outOfRange => exact endsAs_aborted hj
    | malformed =>
      have hcode : (QueryError.invalidDescriptor .textNotJson).code = utf8 "InvalidDescriptor" := by
        rw [QueryError.code]
      have hmessage : (QueryError.invalidDescriptor .textNotJson).message = jsonErrorText := by
        decide +kernel
      apply endsAs_rejected
      rw [hcode, hmessage]
      exact .text hj
  | ok j =>
    dsimp only
    cases hq : Query.ofJson j with
    | error e => exact endsAs_rejected (.descriptor hj hq)
    | ok q =>
      dsimp only
      cases hresult : q.compile o with
      | error e =>
        have hreport : q.report o = ⟨false, [], 0, e.code, e.message⟩ := by
          rw [Query.report, hresult, Report.ofResult]
        have hrejects : Rejects o text (q.report o).code (q.report o).message :=
          .query hj hq (by rw [hreport])
        rw [hreport] at hrejects
        exact endsAs_rejected hrejects
      | ok s =>
        have hreport : q.report o = ⟨true, s.text, s.scopes, utf8 "None", []⟩ := by
          rw [Query.report, hresult, Report.ofResult]
        exact endsAs_printed ⟨j, q, hj, hq, by rw [hreport], by rw [hreport]⟩

end Library

/-! ### Whole runs -/

/-- What is printed before does not change how a run ends, and the log does not matter. -/
theorem EndsAs.after {r : Run} {o : Options} {text : Text} (h : EndsAs r [] o text)
    (printed : Text) (log : List LogLine) :
    EndsAs { r with errors := printed ++ r.errors, log := log } printed o text where
  exitCode_eq_zero_iff := h.exitCode_eq_zero_iff
  of_compiles s hs := by
    obtain ⟨hexit, houtput, herrors⟩ := h.of_compiles s hs
    exact ⟨hexit, houtput, by rw [herrors, List.append_nil]⟩
  of_not_compiles hnot hrange := by
    obtain ⟨hexit, houtput, code, message, hrejects, herrors⟩ := h.of_not_compiles hnot hrange
    refine ⟨hexit, houtput, code, message, hrejects, ?_⟩
    rw [herrors]
    simp only [List.nil_append, List.append_assoc]
  of_outOfRange hrange := by
    obtain ⟨hexit, houtput, herrors⟩ := h.of_outOfRange hrange
    exact ⟨hexit, houtput, by rw [herrors, List.append_nil]⟩

/-- Options made pretty where the arguments ask for it. -/
def forced (i : Invocation) (o : Options) : Options :=
  if i.pretty then { o with pretty := true } else o

theorem compiler_override (i : Invocation) (c : Config) :
    (override i c).compiler = forced i c.compiler := by
  rw [forced]
  cases h : i.pretty with
  | false => simp [override, h]
  | true => simp [override, h]

/-- The logger is stopped, unless an exception has ended the run. -/
def StopsLogger (r : Run) : Prop :=
  r.exitCode? ≠ none → r.logger = .silent

theorem stopsLogger_compileText (l : Logger) (o : Options) (text : Text) :
    StopsLogger (compileText l o text) := by
  rw [compileText]
  cases Value.ofText text with
  | error fault =>
    cases fault with
    | malformed => exact fun _ => rfl
    | outOfRange => exact fun h => absurd rfl h
  | ok j =>
    dsimp only
    cases Query.ofJson j with
    | error e => exact fun _ => rfl
    | ok q =>
      dsimp only
      cases q.compile o with
      | error e => exact fun _ => rfl
      | ok s => exact fun _ => rfl

section Execute

variable {inputs : Inputs} {i : Invocation}

theorem execute_of_none (h : readInput inputs (inputName i) = none) (c : Config) :
    (execute inputs i c).logger = .silent ∧ (execute inputs i c).exitCode? = some 2 ∧
      (execute inputs i c).output = [] := by
  -- What the start tells the log stays closed: only the state it leaves matters here.
  rcases hstart : c.startLogger inputs.logFailure? with ⟨l, lines, errors⟩
  simp only [execute, hstart, h, unopened, Logger.stop, exitUsage, and_self]

theorem execute_of_some {text : Text} (h : readInput inputs (inputName i) = some text)
    (c : Config) :
    StopsLogger (execute inputs i c) ∧ ∃ printed, StartPrints inputs c.logging.file printed ∧
      EndsAs (execute inputs i c) printed c.compiler text := by
  have hprints := startPrints_errors_start inputs c.logging.file (.ofName c.logging.level)
  rw [← Config.startLogger] at hprints
  rcases hstart : c.startLogger inputs.logFailure? with ⟨l, lines, errors⟩
  have hlogger := stopsLogger_compileText l c.compiler text
  have hends := endsAs_compileText l c.compiler text
  simp only [hstart] at hprints
  simp only [execute, hstart, h]
  exact ⟨hlogger, errors, hprints, hends.after errors _⟩

/-- A run stops its logger, if it has started one, or an exception ends it. -/
theorem stopsLogger_run (inputs : Inputs) (args : List Text) : StopsLogger (run inputs args) := by
  rw [run]
  cases Invocation.ofArgs args with
  | help => exact fun _ => rfl
  | unexpected argument => exact fun _ => rfl
  | compile i =>
    rcases unreadable_or_noConfig_or_loads inputs i.configPath with h | ⟨errors, h⟩ | ⟨c, h⟩
    · rw [perform_of_unreadable h]
      exact fun _ => rfl
    · rw [perform_of_noConfig h]
      exact fun _ => rfl
    · rw [perform_of_loads h]
      cases htext : readInput inputs (inputName i) with
      | none => exact fun _ => (execute_of_none htext _).1
      | some text => exact (execute_of_some htext _).1

end Execute

/-- A file that the run needs cannot be used: there is no configuration, or no input. -/
def Unusable (inputs : Inputs) (i : Invocation) : Prop :=
  (∃ errors, NoConfig inputs i.configPath errors) ∨ NoInput inputs (inputName i)

section Perform

variable {inputs : Inputs} {i : Invocation}

/-- Without a file that it needs, a run prints nothing. -/
theorem perform_of_unusable (hread : ¬UnreadableConfig inputs i.configPath)
    (h : Unusable inputs i) :
    (perform inputs .silent (.compile i)).exitCode? = some 2 ∧
      (perform inputs .silent (.compile i)).output = [] := by
  rcases unreadable_or_noConfig_or_loads inputs i.configPath with hc | ⟨errors, hc⟩ | ⟨c, hc⟩
  · exact absurd hc hread
  · rw [perform_of_noConfig hc]
    exact ⟨rfl, rfl⟩
  · have hinput : NoInput inputs (inputName i) := by
      refine h.resolve_left ?_
      rintro ⟨errors, hnone⟩
      -- A configuration is not refused as well as loaded.
      obtain ⟨_, hrefused, -⟩ := hnone.baseConfig_eq .silent
      obtain ⟨_, hloaded, -⟩ := hc.baseConfig_eq .silent
      cases hrefused.symm.trans hloaded
    rw [perform_of_loads hc]
    exact (execute_of_none (readInput_eq_none_iff.mpr hinput) _).2

theorem perform_of_usable (hread : ¬UnreadableConfig inputs i.configPath)
    (h : ¬Unusable inputs i) :
    ∃ c text printed, LoadsConfig inputs i.configPath c ∧ HasText inputs (inputName i) text ∧
      StartPrints inputs c.logging.file printed ∧
      EndsAs (perform inputs .silent (.compile i)) printed (forced i c.compiler) text := by
  rcases unreadable_or_noConfig_or_loads inputs i.configPath with hc | hc | ⟨c, hc⟩
  · exact absurd hc hread
  · exact absurd (Or.inl hc) h
  · cases htext : readInput inputs (inputName i) with
    | none => exact absurd (Or.inr (readInput_eq_none_iff.mp htext)) h
    | some text =>
      obtain ⟨-, printed, hprints, hends⟩ := execute_of_some htext (override i c)
      rw [compiler_override] at hends
      rw [perform_of_loads hc]
      exact ⟨c, text, printed, hc, readInput_eq_some_iff.mp htext, hprints, hends⟩

end Perform

end CommandLine

open CommandLine

/-- **The command line agrees with the library**, where no exception ends the run. That happens if
the configuration can be opened but not read. Otherwise a run whose files cannot be used ends with 2
and prints nothing, and every other one ends with what the library makes of the text under the
options of the configuration, made pretty where the arguments ask for it: with an exception again if
a number in the text is too large. All runs that do not end so have stopped the logger, and so have
those that only show how the tool is used. -/
theorem run_endsAs (inputs : Inputs) (args : List Text) :
    StopsLogger (run inputs args) ∧
    ∀ i, Invocation.ofArgs args = .compile i →
      (UnreadableConfig inputs i.configPath →
        (run inputs args).exitCode? = none ∧ (run inputs args).output = []) ∧
      (¬UnreadableConfig inputs i.configPath → Unusable inputs i →
        (run inputs args).exitCode? = some 2 ∧ (run inputs args).output = []) ∧
      (¬UnreadableConfig inputs i.configPath → ¬Unusable inputs i →
        ∃ c text printed, LoadsConfig inputs i.configPath c ∧
          HasText inputs (inputName i) text ∧ StartPrints inputs c.logging.file printed ∧
          EndsAs (run inputs args) printed (forced i c.compiler) text) := by
  refine ⟨stopsLogger_run inputs args, fun i hargs => ?_⟩
  rw [run, hargs]
  refine ⟨fun h => ?_, perform_of_unusable, perform_of_usable⟩
  rw [perform_of_unreadable h]
  exact ⟨rfl, rfl⟩

/-- A configuration that indents by one blank. -/
def indentedJson : Text :=
  utf8 "\x7b\"compiler\":\x7b\"indent_width\":1\x7d\x7d"

/-- Users on the standard input, and the configuration in a file. -/
def indentedUsers : Inputs :=
  plainInputs (fun path => if path = utf8 "c.json" then .holds indentedJson else .missing)
    (utf8 "\x7b\"collection\":\"User\"\x7d")

/-- The users are compiled under the options of the configuration. -/
theorem run_endsAs_indentedUsers :
    let args := [utf8 "--config", utf8 "c.json", utf8 "--pretty"]
    let i : Invocation := ⟨some (utf8 "c.json"), none, true, none⟩
    Invocation.ofArgs args = .compile i ∧ ¬UnreadableConfig indentedUsers i.configPath ∧
      ¬Unusable indentedUsers i ∧
      ∃ c text, LoadsConfig indentedUsers i.configPath c ∧
        HasText indentedUsers (inputName i) text ∧
        Compiles (forced i c.compiler) text (utf8 "FOR a IN User\n RETURN a") := by
  intro args i
  have hargs : Invocation.ofArgs args = .compile i := by decide +kernel
  have hrun : (run indentedUsers args).exitCode? = some 0 ∧
      (run indentedUsers args).output = utf8 "FOR a IN User\n RETURN a" ++ utf8 "\n" := by
    decide +kernel
  obtain ⟨-, hruns⟩ := run_endsAs indentedUsers args
  obtain ⟨hunreadable, hunusable, husable⟩ := hruns i hargs
  have hread : ¬UnreadableConfig indentedUsers i.configPath := by
    intro h
    cases (hunreadable h).1.symm.trans hrun.1
  have hfiles : ¬Unusable indentedUsers i := by
    intro h
    cases (hunusable hread h).1.symm.trans hrun.1
  obtain ⟨c, text, printed, hc, htext, -, hends⟩ := husable hread hfiles
  obtain ⟨s, hs⟩ := hends.exitCode_eq_zero_iff.mp hrun.1
  have houtput := (hends.of_compiles s hs).2.1
  obtain rfl := List.append_cancel_right (houtput.symm.trans hrun.2)
  exact ⟨hargs, hread, hfiles, c, text, hc, htext, hs⟩

/-- Users with a member that is too large for a double. -/
def hugeUsers : Inputs :=
  plainInputs (fun _ => .missing) (utf8 "\x7b\"collection\":\"User\",\"x\":1e999\x7d")

/-- **A number can end a run without a word.** No file is needed and nothing can be compiled, but
the run does not end with 1 and a line about an error: an exception leaves it. -/
theorem hugeUsers_aborted :
    Invocation.ofArgs [] = .compile .standard ∧
      ¬UnreadableConfig hugeUsers Invocation.standard.configPath ∧
      ¬Unusable hugeUsers .standard ∧
      LoadsConfig hugeUsers Invocation.standard.configPath plainConfig ∧
      HasText hugeUsers (inputName .standard) hugeUsers.standardInput ∧
      (¬∃ s, Compiles plainConfig.compiler hugeUsers.standardInput s) ∧
      run hugeUsers [] = ⟨none, [], [], [], .started (.atLeast .warning)⟩ := by
  have hrange : OutOfRange hugeUsers.standardInput := by
    have hread : (Value.ofText hugeUsers.standardInput).map (fun _ => ()) = .error .outOfRange := by
      decide +kernel
    rw [OutOfRange]
    cases hj : Value.ofText hugeUsers.standardInput with
    | ok j =>
      rw [hj] at hread
      cases hread
    | error fault =>
      rw [hj] at hread
      cases hread
      rfl
  refine ⟨rfl, ?_, ?_, .standard rfl, .standardInput rfl, hrange.not_compiles, by decide +kernel⟩
  · rintro ⟨path, hpath, -⟩
    cases hpath
  · rintro (⟨errors, hnone⟩ | ⟨hname, -⟩)
    · cases hnone with
      | missing hpath => cases hpath
      | notJson hpath => cases hpath
      | noDocument hpath => cases hpath
      | notYaml hpath => cases hpath
    · exact hname rfl

end GraphQuery
