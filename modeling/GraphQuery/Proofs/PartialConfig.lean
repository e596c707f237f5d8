import GraphQuery.Proofs.CommandLine
import GraphQuery.Proofs.Overlay

/-!
# Runs under a configuration that is read in part

Reading a configuration stops at its first bad setting and has the logger write a line about it. On
the command line it is the configuration that the logger is started with. While it is read there is
no logger to write the line, and the run goes on as if nothing stood from the bad setting on.

* `HasConfig`: the configuration of an invocation is in this JSON value.
  `Config.SaysWhatIsRead`: a configuration says what is read of another, and that is all.
* `perform_silent_of_hasConfig` is a run whose configuration is read before a logger is started:
  whether all of it was read does not matter.
* `of_mem_log_execute`: the one line about an error that a run can leave is about its input.
* `partialConfig_untold`: what a run under a partly read configuration leaves, and that a logger
  started before would have told.
-/

namespace GraphQuery

/-- The line about a configuration that is read in part. -/
def partialConfigLine : LogLine :=
  ⟨.error, utf8 "Failed to parse compiler configuration from JSON: " ++ jsonErrorText⟩

/-! ### Lines of the log -/

namespace Logger

variable {l : Logger} {line : LogLine}

theorem severity_of_mem_log {places : Nat} {s : Severity} {form : Template.Form places}
    {args : Vector Text places} (h : line ∈ l.log s form args) : line.severity = s := by
  rw [log, write] at h
  split at h
  · rw [List.mem_singleton.mp h]
  · cases h

/-- Compiling a query tells of no error: what cannot be compiled is worth a warning. -/
theorem severity_of_mem_compileLines {o : Options} {q : Query} (h : line ∈ l.compileLines o q) :
    line.severity ≠ .error := by
  have hsome : line.severity = .debug ∨ line.severity = .warning := by
    rw [compileLines] at h
    split at h
    · split at h
      · exact Or.inl (severity_of_mem_log h)
      · cases h
    · exact Or.inr (severity_of_mem_log h)
  rcases hsome with h | h <;> rw [h] <;> decide

theorem mem_configLines_iff {r : ConfigReading} :
    partialConfigLine ∈ l.configLines r ↔ r.complete = false ∧ l.admits .error = true := by
  rw [configLines_eq, partialConfigLine]
  cases r.complete with
  | true => simp
  | false => simp [write]

end Logger

/-- The start of a logger is no error. -/
theorem Config.severity_of_mem_startLogger {failure? : Text → Option Text} {c : Config}
    {line : LogLine} (h : line ∈ (c.startLogger failure?).log) : line.severity = .debug := by
  simp only [startLogger, Logger.start] at h
  split at h
  · cases h
  · exact Logger.severity_of_mem_log h

/-! ### What is read of a configuration -/

/-- A configuration gives what is given before the first bad setting of another, and the default
from there on. -/
def Config.SaysWhatIsRead (whole j : Value) : Prop :=
  ∃ before after, Config.StopsBetween j before after ∧
    (∀ s ∈ before, s.given? whole = s.given? j) ∧
    ∀ s ∈ after, s.given? whole = some (s.get Config.standard)

theorem Config.SaysWhatIsRead.ofJson_eq {whole j : Value} (h : Config.SaysWhatIsRead whole j) :
    Config.ofJson whole = ⟨(Config.ofJson j).config, true⟩ := by
  obtain ⟨before, after, hstops, hbefore, hafter⟩ := h
  obtain ⟨c, hread, hgiven, hkept⟩ := hstops.exists_ofJson_eq
  rw [hread]
  refine Config.ofJson_of_given? fun s => ?_
  have hs : s ∈ before ++ after := hstops.eq_append ▸ s.mem_all
  rcases List.mem_append.mp hs with hs | hs
  · rw [hbefore s hs, hgiven s hs]
  · rw [hafter s hs, hkept s hs]

namespace CommandLine

/-- The configuration of an invocation is a file that begins with this JSON value. -/
def HasConfig (inputs : Inputs) (i : Invocation) (j : Value) : Prop :=
  ∃ path content, i.configPath = some path ∧ isYaml path = false ∧
    inputs.file path = .holds content ∧ Value.ofPrefix content = .ok j

section Runs

variable {inputs : Inputs} {i : Invocation} {j : Value}

theorem HasConfig.loadsConfig (h : HasConfig inputs i j) :
    LoadsConfig inputs i.configPath (Config.ofJson j).config := by
  obtain ⟨path, content, hpath, hyaml, hcontent, hj⟩ := h
  exact .json hpath hyaml hcontent hj

/-- With no logger started before, a run does not depend on whether all of its configuration was
read. -/
theorem perform_silent_of_hasConfig (h : HasConfig inputs i j) :
    perform inputs .silent (.compile i) =
      execute inputs i (override i (Config.ofJson j).config) :=
  perform_of_loads h.loadsConfig

/-- A logger that was started before is told what is read of a configuration. -/
theorem log_perform_of_hasConfig (h : HasConfig inputs i j) (l : Logger) :
    (perform inputs l (.compile i)).log =
      l.configLines (Config.ofJson j) ++
        (execute inputs i (override i (Config.ofJson j).config)).log := by
  obtain ⟨path, content, hpath, hyaml, hcontent, hj⟩ := h
  have hbase : baseConfig inputs l i =
      .config (Config.ofJson j).config (l.configLines (Config.ofJson j)) := by
    simp [baseConfig, loadConfig, loadJson, hpath, hyaml, hcontent, hj]
  simp only [perform, hbase]

/-- Of the files, an execution sees the text of the input and whether the file of the log can be
opened. -/
theorem execute_eq_of_readInput_eq {inputs' : Inputs}
    (h : readInput inputs' (inputName i) = readInput inputs (inputName i))
    (hlog : inputs'.logFailure? = inputs.logFailure?) (c : Config) :
    execute inputs' i c = execute inputs i c := by
  rw [execute, execute, h, hlog]

theorem severity_of_mem_log_compileText {l : Logger} {o : Options} {text : Text} {line : LogLine}
    (h : line ∈ (compileText l o text).log) : line.severity ≠ .error := by
  rw [compileText] at h
  cases hj : Value.ofText text with
  | error fault =>
    cases fault <;> simp only [hj, rejected, aborted] at h <;> cases h
  | ok j =>
    simp only [hj] at h
    cases hquery : Query.ofJson j with
    | error e =>
      simp only [hquery, rejected] at h
      cases h
    | ok q =>
      cases hresult : q.compile o with
      | error e =>
        simp only [hquery, hresult, rejected] at h
        exact Logger.severity_of_mem_compileLines h
      | ok s =>
        simp only [hquery, hresult, printed] at h
        exact Logger.severity_of_mem_compileLines h

/-- A line about an error that an execution leaves is about an input that cannot be opened. -/
theorem of_mem_log_execute {c : Config} {line : LogLine} (h : line ∈ (execute inputs i c).log)
    (herror : line.severity = .error) :
    NoInput inputs (inputName i) ∧
      line.text = utf8 "Cannot open query descriptor: " ++ inputName i := by
  have hstarting : ∀ line ∈ (c.startLogger inputs.logFailure?).log, line.severity = .debug :=
    fun _ => Config.severity_of_mem_startLogger
  rcases hstart : c.startLogger inputs.logFailure? with ⟨l, lines, errors⟩
  rw [hstart] at hstarting
  cases htext : readInput inputs (inputName i) with
  | none =>
    simp only [execute, hstart, htext, List.mem_append, unopened_eq] at h
    rcases h with h | h
    · rw [hstarting line h] at herror
      cases herror
    · refine ⟨readInput_eq_none_iff.mp htext, ?_⟩
      rw [Logger.write] at h
      split at h
      · rw [List.mem_singleton.mp h]
      · cases h
  | some text =>
    simp only [execute, hstart, htext, List.mem_append] at h
    rcases h with h | h
    · rw [hstarting line h] at herror
      cases herror
    · exact absurd herror (severity_of_mem_log_compileText h)

/-- An execution itself does not leave the line about its configuration. -/
theorem partialConfigLine_notMem_log_execute (c : Config) :
    partialConfigLine ∉ (execute inputs i c).log := by
  intro h
  have htext : partialConfigLine.text.head? = _ :=
    congrArg List.head? (of_mem_log_execute h rfl).2
  have hfirst : partialConfigLine.text.head? = some 70 := by decide +kernel
  have hother : (utf8 "Cannot open query descriptor: ").head? = some 67 := by decide +kernel
  -- The two lines begin with different letters.
  rw [List.head?_append, hother, hfirst] at htext
  cases htext

end Runs

theorem EndsAs.exitCode_ne_two {r : Run} {printed : Text} {o : Options} {text : Text}
    (h : EndsAs r printed o text) : r.exitCode? ≠ some 2 := by
  by_cases hcompiles : ∃ s, Compiles o text s
  · rw [h.exitCode_eq_zero_iff.mpr hcompiles]
    decide
  · by_cases hrange : OutOfRange text
    · rw [(h.of_outOfRange hrange).1]
      exact nofun
    · rw [(h.of_not_compiles hcompiles hrange).1]
      decide

end CommandLine

open CommandLine

/-- **A configuration that is read in part goes unsaid.** The logger that is there while it is read
gets a line about it if it admits errors, and the tool has started none yet. So at every level of
the log, a run whose configuration has a bad setting ends with 2 exactly if its input cannot be
opened. Every other such run leaves no error in the log and ends with what the library makes of the
text under the settings that were read, and prints besides at most that the file for the log cannot
be opened. No such run can be told from one under a configuration that says just what was read. -/
theorem partialConfig_untold {inputs : Inputs} {args : List Text} {i : Invocation} {j : Value}
    (hargs : Invocation.ofArgs args = .compile i) (hconfig : HasConfig inputs i j)
    (hbad : ∃ s : Setting, s.Bad j) :
    ((run inputs args).exitCode? = some 2 ↔ NoInput inputs (inputName i)) ∧
      (∀ text, HasText inputs (inputName i) text →
        (∀ line ∈ (run inputs args).log, line.severity ≠ .error) ∧
        ∃ printed, StartPrints inputs (Config.ofJson j).config.logging.file printed ∧
          EndsAs (run inputs args) printed (forced i (Config.ofJson j).config.compiler) text) ∧
      (∀ inputs' whole, HasConfig inputs' i whole → Config.SaysWhatIsRead whole j →
        readInput inputs' (inputName i) = readInput inputs (inputName i) →
        inputs'.logFailure? = inputs.logFailure? → run inputs' args = run inputs args) ∧
      ∀ l : Logger, partialConfigLine ∈ (perform inputs l (.compile i)).log ↔
        l.admits .error = true := by
  have hrun : run inputs args = execute inputs i (override i (Config.ofJson j).config) := by
    rw [run, hargs, perform_silent_of_hasConfig hconfig]
  refine ⟨?exitCode, fun text htext => ?opened,
    fun inputs' whole hconfig' hwhole hinput hlog => ?same, fun l => ?told⟩
  case exitCode =>
    rw [hrun, ← readInput_eq_none_iff]
    cases htext : readInput inputs (inputName i) with
    | none => exact iff_of_true (execute_of_none htext _).2.1 rfl
    | some text =>
      obtain ⟨-, printed, -, hends⟩ :=
        execute_of_some htext (override i (Config.ofJson j).config)
      exact iff_of_false hends.exitCode_ne_two (Option.some_ne_none _)
  case opened =>
    have hread := readInput_eq_some_iff.mpr htext
    rw [hrun]
    refine ⟨fun line hline herror => ?_, ?_⟩
    · have hnone := readInput_eq_none_iff.mpr (of_mem_log_execute hline herror).1
      cases hnone.symm.trans hread
    · obtain ⟨-, printed, hprints, hends⟩ :=
        execute_of_some hread (override i (Config.ofJson j).config)
      rw [compiler_override] at hends
      exact ⟨printed, hprints, hends⟩
  case same =>
    rw [hrun, run, hargs, perform_silent_of_hasConfig hconfig', hwhole.ofJson_eq,
      execute_eq_of_readInput_eq hinput hlog]
  case told =>
    rw [log_perform_of_hasConfig hconfig, List.mem_append, Logger.mem_configLines_iff,
      Config.complete_ofJson_iff, and_iff_right hbad,
      or_iff_left (partialConfigLine_notMem_log_execute _)]

/-- A configuration that indents by a word and allows one edge. -/
def wordyLimitJson : Text :=
  utf8 "\x7b\"compiler\":\x7b\"indent_width\":\"wide\",\"max_traversal_depth\":1\x7d\x7d"

/-- Users over two edges on the standard input, and the configuration in a file. -/
def twoEdgesUnder (config : Text) : Inputs :=
  plainInputs (fun path => if path = utf8 "c.json" then .holds config else .missing)
    (utf8 "\x7b\"collection\":\"User\",\"join\":\x7b\"direction\":\"OUTBOUND\","
      ++ utf8 "\"min_depth\":1,\"max_depth\":2,\"query\":\x7b\"collection\":\"knows\"\x7d\x7d\x7d")

theorem hasConfig_twoEdgesUnder {config : Text} {j : Value} (h : Value.ofPrefix config = .ok j) :
    HasConfig (twoEdgesUnder config) ⟨some (utf8 "c.json"), none, false, none⟩ j := by
  refine ⟨utf8 "c.json", config, rfl, by decide +kernel, ?_, h⟩
  simp only [twoEdgesUnder, plainInputs, if_true]

/-- The word is bad, and the limit behind it is not read. -/
theorem exists_ofPrefix_wordyLimitJson :
    ∃ j, Value.ofPrefix wordyLimitJson = .ok j ∧ Setting.pretty.given? j = some (.flag false) ∧
      Setting.indentWidth.given? j = none ∧ Setting.depthLimit.given? j = some (.number 1) ∧
      Config.ofJson j = ⟨Config.standard, false⟩ := by
  have hread : (Value.ofPrefix wordyLimitJson).map (fun j => (Setting.pretty.given? j,
      Setting.indentWidth.given? j, Setting.depthLimit.given? j, Config.ofJson j)) =
      .ok (some (.flag false), none, some (.number 1), ⟨Config.standard, false⟩) := by
    decide +kernel
  obtain ⟨j, hj, hgiven⟩ := map_eq_ok_iff.mp hread
  simp only [Prod.mk.injEq] at hgiven
  exact ⟨j, hj, hgiven⟩

/-- Behind a word for the indentation, a limit of one edge makes the same run as an empty
configuration. -/
theorem partialConfig_untold_wordyLimit :
    let args := [utf8 "--config", utf8 "c.json"]
    let i : Invocation := ⟨some (utf8 "c.json"), none, false, none⟩
    let inputs := twoEdgesUnder wordyLimitJson
    ∃ j, Invocation.ofArgs args = .compile i ∧ HasConfig inputs i j ∧ (∃ s : Setting, s.Bad j) ∧
      (run inputs args).exitCode? ≠ some 2 ∧ (∀ line ∈ (run inputs args).log, line.severity ≠ .error) ∧
      run (twoEdgesUnder (utf8 "\x7b\x7d")) args = run inputs args ∧
      partialConfigLine ∈ (perform inputs (.started (.atLeast .error)) (.compile i)).log := by
  intro args i inputs
  obtain ⟨j, hj, hpretty, hindent, -, -⟩ := exists_ofPrefix_wordyLimitJson
  have hargs : Invocation.ofArgs args = .compile i := by decide +kernel
  have hconfig : HasConfig inputs i j := hasConfig_twoEdgesUnder hj
  have hbad : Setting.indentWidth.Bad j := Setting.bad_iff.mpr hindent
  have hempty : HasConfig (twoEdgesUnder (utf8 "\x7b\x7d")) i (.object []) :=
    hasConfig_twoEdgesUnder rfl
  have hwhole : Config.SaysWhatIsRead (.object []) j := by
    refine ⟨[.pretty], [.indentWidth, .logQueries, .depthLimit, .level, .file, .pattern],
      ⟨rfl, ?_, ?_⟩, ?_, ?_⟩
    · rw [List.forall_mem_singleton, Setting.bad_iff, hpretty]
      exact Option.some_ne_none _
    · simpa using hbad
    · rw [List.forall_mem_singleton, hpretty]
      rfl
    · intro s _
      cases s <;> rfl
  obtain ⟨hexit, hopened, hsame, htold⟩ := partialConfig_untold hargs hconfig ⟨_, hbad⟩
  have htext : HasText inputs (inputName i) inputs.standardInput := .standardInput rfl
  refine ⟨j, hargs, hconfig, ⟨_, hbad⟩, ?_, (hopened _ htext).1, hsame _ _ hempty hwhole rfl rfl,
    (htold _).mpr rfl⟩
  exact mt hexit.mp fun hnone => hnone.1 rfl

/-- **A depth limit can be lost without a word.** The limit of one edge stands behind a bad setting,
two edges are compiled, and nothing is printed or logged but the statement, at a level that admits
errors. -/
theorem lostLimit_untold :
    let args := [utf8 "--config", utf8 "c.json"]
    let i : Invocation := ⟨some (utf8 "c.json"), none, false, none⟩
    let inputs := twoEdgesUnder wordyLimitJson
    ∃ j, Invocation.ofArgs args = .compile i ∧ HasConfig inputs i j ∧ (∃ s : Setting, s.Bad j) ∧
      (Threshold.ofName (override i (Config.ofJson j).config).logging.level).admits .error = true ∧
      Setting.depthLimit.given? j = some (.number 1) ∧
      Setting.depthLimit.get (Config.ofJson j).config = .number 0 ∧
      run inputs args =
        ⟨some 0, utf8 "FOR a IN User FOR b IN 1..2 OUTBOUND a knows RETURN b\n", [], [], .silent⟩ := by
  intro args i inputs
  obtain ⟨j, hj, -, hindent, hlimit, hread⟩ := exists_ofPrefix_wordyLimitJson
  have hbad : Setting.indentWidth.Bad j := Setting.bad_iff.mpr hindent
  refine ⟨j, by decide +kernel, hasConfig_twoEdgesUnder hj, ⟨_, hbad⟩, ?_, hlimit, ?_, ?_⟩
  · rw [hread]
    decide +kernel
  · rw [hread]
    rfl
  · decide +kernel

end GraphQuery
