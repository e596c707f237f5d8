import GraphQuery.CommandLine

/-!
# What a run reads

A run reads a configuration, where its arguments name one, and a text. Each of them is there in one
of a few ways, and this module says in which, in terms of the files alone.

* `UnreadableConfig`, `NoConfig` and `LoadsConfig`: the configuration cannot be read, or is refused,
  or is loaded. `unreadable_or_noConfig_or_loads`: there is no fourth way.
* `NoInput` and `HasText`: the input cannot be opened, or holds a text.
* `StartPrints`: what is printed where the file for the log cannot be opened.
* `perform_of_unreadable`, `perform_of_noConfig` and `perform_of_loads` are the runs of the three
  kinds.
-/

namespace GraphQuery

/-- Nothing reaches the log of a silent logger. -/
@[simp] theorem Logger.log_silent {places : Nat} {s : Severity} {form : Template.Form places}
    {args : Vector Text places} : silent.log s form args = [] := rfl

@[simp] theorem Logger.configLines_silent (r : ConfigReading) : silent.configLines r = [] := by
  rw [configLines, log_silent, ite_self]

namespace CommandLine

/-- Inputs without any YAML, where every file for the log can be opened. -/
def plainInputs (file : Text → File) (standardInput : Text) : Inputs where
  file := file
  standardInput := standardInput
  yaml _ := .error (utf8 "bad file")
  logFailure? _ := none

/-! ### Configurations -/

section Configurations

variable (inputs : Inputs) (path? : Option Text)

/-- The configuration is what can be opened but not read. -/
def UnreadableConfig : Prop :=
  ∃ path, path? = some path ∧ isYaml path = false ∧ inputs.file path = .unreadable

/-- There is no configuration where there should be one, and this is printed about it. -/
inductive NoConfig : Text → Prop where
  | missing {path : Text} : path? = some path → isYaml path = false →
      inputs.file path = .missing → NoConfig (unusableConfig path)
  /-- The file does not begin with a JSON value. -/
  | notJson {path content : Text} {fault : Json.ReadFault} : path? = some path →
      isYaml path = false → inputs.file path = .holds content →
      Value.ofPrefix content = .error fault → NoConfig (configNotJson path ++ unusableConfig path)
  /-- The YAML library has no document for the file. -/
  | noDocument {path words : Text} : path? = some path → isYaml path = true →
      inputs.yaml path = .error words → NoConfig (unusableConfig path)
  /-- The document is not made as a configuration is. -/
  | notYaml {path words : Text} {document : Yaml.Document} : path? = some path →
      isYaml path = true → inputs.yaml path = .ok document →
      Config.ofYaml document = .error words → NoConfig (unusableConfig path)

/-- A configuration is loaded, or is the one for when no file is given. -/
inductive LoadsConfig : Config → Prop where
  | standard : path? = none → LoadsConfig ⟨.standard, ⟨utf8 "warn", [], []⟩⟩
  | json {path content : Text} {j : Value} : path? = some path → isYaml path = false →
      inputs.file path = .holds content → Value.ofPrefix content = .ok j →
      LoadsConfig (Config.ofJson j).config
  | yaml {path : Text} {document : Yaml.Document} {c : Config} : path? = some path →
      isYaml path = true → inputs.yaml path = .ok document → Config.ofYaml document = .ok c →
      LoadsConfig c

/-- **A configuration is not readable, or refused, or loaded.** -/
theorem unreadable_or_noConfig_or_loads :
    UnreadableConfig inputs path? ∨ (∃ errors, NoConfig inputs path? errors) ∨
      ∃ c, LoadsConfig inputs path? c := by
  cases hpath : path? with
  | none => exact .inr (.inr ⟨_, .standard rfl⟩)
  | some path =>
    cases hyaml : isYaml path with
    | true =>
      cases hdocument : inputs.yaml path with
      | error words => exact .inr (.inl ⟨_, .noDocument rfl hyaml hdocument⟩)
      | ok document =>
        cases hc : Config.ofYaml document with
        | error words => exact .inr (.inl ⟨_, .notYaml rfl hyaml hdocument hc⟩)
        | ok c => exact .inr (.inr ⟨c, .yaml rfl hyaml hdocument hc⟩)
    | false =>
      cases hfile : inputs.file path with
      | missing => exact .inr (.inl ⟨_, .missing rfl hyaml hfile⟩)
      | unreadable => exact .inl ⟨path, rfl, hyaml, hfile⟩
      | holds content =>
        cases hj : Value.ofPrefix content with
        | error fault => exact .inr (.inl ⟨_, .notJson rfl hyaml hfile hj⟩)
        | ok j => exact .inr (.inr ⟨_, .json rfl hyaml hfile hj⟩)

end Configurations

section BaseConfig

variable {inputs : Inputs} {i : Invocation}

theorem UnreadableConfig.baseConfig_eq (h : UnreadableConfig inputs i.configPath) (l : Logger) :
    baseConfig inputs l i = .aborted := by
  obtain ⟨path, hpath, hyaml, hfile⟩ := h
  simp [baseConfig, loadConfig, loadJson, hpath, hyaml, hfile]

/-- A configuration that is refused is told of, if there is a logger. -/
theorem NoConfig.baseConfig_eq {errors : Text} (h : NoConfig inputs i.configPath errors)
    (l : Logger) :
    ∃ log, baseConfig inputs l i = .refused errors log ∧ (l = .silent → log = []) := by
  cases h with
  | missing hpath hyaml hfile =>
    exact ⟨[], by simp [baseConfig, loadConfig, loadJson, hpath, hyaml, hfile], fun _ => rfl⟩
  | notJson hpath hyaml hfile hj =>
    exact ⟨[], by simp [baseConfig, loadConfig, loadJson, hpath, hyaml, hfile, hj], fun _ => rfl⟩
  | noDocument hpath hyaml hdocument =>
    refine ⟨_, by simp [baseConfig, loadConfig, loadYaml, hpath, hyaml, hdocument]; rfl, ?_⟩
    rintro rfl
    rfl
  | notYaml hpath hyaml hdocument hc =>
    refine ⟨_, by simp [baseConfig, loadConfig, loadYaml, hpath, hyaml, hdocument, hc]; rfl, ?_⟩
    rintro rfl
    rfl

/-- A configuration that is loaded is told of, if there is a logger. -/
theorem LoadsConfig.baseConfig_eq {c : Config} (h : LoadsConfig inputs i.configPath c)
    (l : Logger) :
    ∃ log, baseConfig inputs l i = .config c log ∧ (l = .silent → log = []) := by
  cases h with
  | standard hpath => exact ⟨[], by rw [baseConfig, hpath]; rfl, fun _ => rfl⟩
  | json hpath hyaml hfile hj =>
    refine ⟨_, by simp [baseConfig, loadConfig, loadJson, hpath, hyaml, hfile, hj]; rfl, ?_⟩
    rintro rfl
    exact Logger.configLines_silent _
  | yaml hpath hyaml hdocument hc =>
    refine ⟨_, by simp [baseConfig, loadConfig, loadYaml, hpath, hyaml, hdocument, hc]; rfl, ?_⟩
    rintro rfl
    rfl

end BaseConfig

/-! ### Inputs -/

section Texts

variable (inputs : Inputs) (name : Text)

/-- The input is a file that cannot be opened. -/
def NoInput : Prop :=
  name ≠ utf8 "-" ∧ inputs.file name = .missing

/-- The text of the standard input or of the input file. What cannot be read is empty. -/
inductive HasText : Text → Prop where
  | standardInput : name = utf8 "-" → HasText inputs.standardInput
  | file {content : Text} : name ≠ utf8 "-" → inputs.file name = .holds content → HasText content
  | unreadable : name ≠ utf8 "-" → inputs.file name = .unreadable → HasText []

variable {inputs name}

theorem readInput_eq_none_iff : readInput inputs name = none ↔ NoInput inputs name := by
  rw [readInput, NoInput]
  by_cases h : name = utf8 "-"
  · simp [h]
  · cases hfile : inputs.file name <;> simp [h]

theorem readInput_eq_some_iff {text : Text} :
    readInput inputs name = some text ↔ HasText inputs name text := by
  constructor
  · intro h
    rw [readInput] at h
    by_cases hname : name = utf8 "-"
    · rw [if_pos hname, Option.some.injEq] at h
      exact h ▸ .standardInput hname
    · rw [if_neg hname] at h
      cases hfile : inputs.file name with
      | missing => simp [hfile] at h
      | unreadable =>
        simp only [hfile, Option.some.injEq] at h
        exact h ▸ .unreadable hname hfile
      | holds content =>
        simp only [hfile, Option.some.injEq] at h
        exact h ▸ .file hname hfile
  · intro h
    cases h with
    | standardInput hname => rw [readInput, if_pos hname]
    | file hname hfile => rw [readInput, if_neg hname, hfile]
    | unreadable hname hfile => rw [readInput, if_neg hname, hfile]

end Texts

/-- A run that cannot open its input tells the log so. -/
theorem unopened_eq (l : Logger) (name : Text) :
    unopened l name = ⟨some 2, [], [],
      l.write ⟨.error, utf8 "Cannot open query descriptor: " ++ name⟩, .silent⟩ := by
  simp [unopened, exitUsage, Logger.log, Logger.stop, unopenedForm]

/-! ### The file of the log -/

/-- What the start of the log prints: nothing, unless there is a file that cannot be opened. -/
inductive StartPrints (inputs : Inputs) (file : Text) : Text → Prop where
  | nothing : (file ≠ [] → inputs.logFailure? file = none) → StartPrints inputs file []
  | failure {reason : Text} : file ≠ [] → inputs.logFailure? file = some reason →
      StartPrints inputs file (utf8 "Log initialization failed: " ++ reason ++ utf8 "\n")

theorem StartPrints.eq_nil {inputs : Inputs} {printed : Text} (h : StartPrints inputs [] printed) :
    printed = [] := by
  cases h with
  | nothing => rfl
  | failure hfile => exact absurd rfl hfile

theorem startPrints_errors_start (inputs : Inputs) (file : Text) (t : Threshold) :
    StartPrints inputs file (Logger.start inputs.logFailure? file t).errors := by
  cases file with
  | nil => exact .nothing fun h => absurd rfl h
  | cons b file =>
    cases hreason : inputs.logFailure? (b :: file) with
    | none =>
      simp only [Logger.start, List.isEmpty_cons, Bool.false_eq_true, if_false, hreason]
      exact .nothing fun _ => hreason
    | some reason =>
      simp only [Logger.start, List.isEmpty_cons, Bool.false_eq_true, if_false, hreason]
      exact .failure (List.cons_ne_nil b file) hreason

/-! ### Runs by what they read -/

section Perform

variable {inputs : Inputs} {i : Invocation}

theorem perform_of_unreadable (h : UnreadableConfig inputs i.configPath) (l : Logger) :
    perform inputs l (.compile i) = aborted l := by
  simp only [perform, h.baseConfig_eq]

theorem perform_of_noConfig {errors : Text} (h : NoConfig inputs i.configPath errors) :
    perform inputs .silent (.compile i) = refused .silent errors [] := by
  obtain ⟨log, hbase, hlog⟩ := h.baseConfig_eq .silent
  simp only [perform, hbase, hlog rfl]

/-- A run that has its configuration goes on as its execution does. -/
theorem perform_of_loads {c : Config} (h : LoadsConfig inputs i.configPath c) :
    perform inputs .silent (.compile i) = execute inputs i (override i c) := by
  obtain ⟨log, hbase, hlog⟩ := h.baseConfig_eq .silent
  simp only [perform, hbase, hlog rfl, List.nil_append]

end Perform

end CommandLine

end GraphQuery
