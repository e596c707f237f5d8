import GraphQuery.Config
import GraphQuery.Json.Reader
import GraphQuery.Query.Descriptor.Chain
import GraphQuery.Statement.Logged

/-!
# The command line

The tool reads a descriptor, compiles it and prints the statement. What a run does is a function of
its arguments, the standard input and the files it can open (`CommandLine.run`); nothing here
performs input or output.

* `Invocation.ofArgs` reads the arguments from left to right and stops at the first that asks for
  help or has no place.
* `loadConfig` and `readInput` ask for files. What the YAML library makes of a file and which files
  for the log cannot be opened is part of the inputs, as what the files hold is.
* `Run` is what is left behind: an exit code, the two outputs, the log and the logger. There is no
  exit code where an exception leaves the tool.
-/

namespace GraphQuery

/-- What a run leaves behind. -/
structure Run where
  /-- There is none where the run ends with an exception that nothing catches. -/
  exitCode? : Option UInt32
  output : Text
  errors : Text
  log : List LogLine
  /-- The state of the logger afterwards. -/
  logger : Logger
  deriving DecidableEq, Repr

/-- What the arguments ask for. -/
structure Invocation where
  configPath : Option Text
  level : Option Text
  pretty : Bool
  /-- The file of the descriptor; a lone minus is the standard input. -/
  input : Option Text
  deriving DecidableEq, Repr

/-- The outcome of reading the arguments. -/
inductive Request where
  | compile (invocation : Invocation)
  | help
  /-- An argument that has no place. -/
  | unexpected (argument : Text)
  deriving DecidableEq, Repr

namespace Invocation

/-- What no arguments ask for. -/
def standard : Invocation where
  configPath := none
  level := none
  pretty := false
  input := none

/-- Whether an argument can name the input: everything but what looks like a long option. -/
def isInputName (argument : Text) : Bool :=
  !argument.beginsWith (utf8 "--")

/-- Reads arguments on top of what others ask for. An option that takes a value has none at the end
of the arguments, and is then without a place. -/
def readArgs (i : Invocation) : List Text → Request
  | [] => .compile i
  | argument :: rest =>
    if argument = utf8 "--config" then
      match rest with
      | path :: rest => readArgs { i with configPath := some path } rest
      | [] => .unexpected argument
    else if argument = utf8 "--log-level" then
      match rest with
      | level :: rest => readArgs { i with level := some level } rest
      | [] => .unexpected argument
    else if argument = utf8 "--pretty" then readArgs { i with pretty := true } rest
    else if argument = utf8 "--help" ∨ argument = utf8 "-h" then .help
    else if isInputName argument && i.input.isNone then
      readArgs { i with input := some argument } rest
    else .unexpected argument

/-- What the arguments ask for. -/
def ofArgs (args : List Text) : Request :=
  readArgs standard args

end Invocation

namespace CommandLine

/-- The name of the tool. -/
def toolName : Text := utf8 "aqlc"

/-- How the tool is used. -/
def usage : Text :=
  utf8 "Usage: " ++ toolName ++ utf8 " [options] [FILE|-]\n"
    ++ utf8 "Reads a JSON query descriptor from FILE (or stdin) and prints the compiled AQL.\n"
    ++ utf8 "Options:\n"
    ++ utf8 "  --config FILE      Load compiler/logging config from YAML or JSON file\n"
    ++ utf8 "  --pretty           One clause per line, indented by nesting depth\n"
    ++ utf8 "  --log-level LVL    trace|debug|info|warn|error|critical|off (default: warn)\n"
    ++ utf8 "  --help, -h         Show this help message\n"

/-- The exit code of a success. -/
def exitOk : UInt32 := 0

/-- The exit code of a descriptor that cannot be decoded or compiled. -/
def exitRejected : UInt32 := 1

/-- The exit code of wrong arguments and files that cannot be opened. -/
def exitUsage : UInt32 := 2

/-- What the name of a file leads to. -/
inductive File where
  /-- Nothing that can be opened. -/
  | missing
  /-- What can be opened but not read, as a directory. -/
  | unreadable
  | holds (content : Text)
  deriving DecidableEq, Repr

/-- What a run can read. -/
structure Inputs where
  file : Text → File
  standardInput : Text
  /-- What the YAML library makes of a file, or the words of its exception. -/
  yaml : Text → Except Text Yaml.Document
  /-- The reason why a file for the log cannot be opened, where it cannot. -/
  logFailure? : Text → Option Text

/-- The configuration where no file is given. -/
def plainConfig : Config :=
  { Config.standard with logging := { Config.standard.logging with level := utf8 "warn" } }

/-- Whether a configuration's file is announced as YAML by its name. -/
def isYaml (path : Text) : Bool :=
  path.endsIn (utf8 ".yaml") || path.endsIn (utf8 ".yml")

/-- The line about a file that cannot be used as a configuration. -/
def unusableConfig (path : Text) : Text :=
  utf8 "Failed to read config file: " ++ path ++ utf8 "\n"

/-- The line about a configuration that is not JSON. -/
def configNotJson (path : Text) : Text :=
  utf8 "Invalid JSON config " ++ path ++ utf8 ": " ++ jsonErrorText ++ utf8 "\n"

/-- What comes of loading a configuration. -/
inductive Loaded where
  | config (c : Config) (log : List LogLine)
  /-- There is none, and this is printed instead. -/
  | refused (errors : Text) (log : List LogLine)
  /-- An exception that nothing catches. -/
  | aborted
  deriving DecidableEq, Repr

/-- Loads a YAML configuration. -/
def loadYaml (inputs : Inputs) (l : Logger) (path : Text) : Loaded :=
  match inputs.yaml path >>= Config.ofYaml with
  | .ok c => .config c (l.log .info Logger.loadedForm #v[path])
  | .error words =>
    .refused (unusableConfig path) (l.log .error Logger.unloadedForm #v[path, words])

/-- Loads a JSON configuration. The value that the file begins with is read, and what follows it is
not looked at. -/
def loadJson (inputs : Inputs) (l : Logger) (path : Text) : Loaded :=
  match inputs.file path with
  | .missing => .refused (unusableConfig path) []
  | .unreadable => .aborted
  | .holds content =>
    match Value.ofPrefix content with
    | .error _ => .refused (configNotJson path ++ unusableConfig path) []
    | .ok j => .config (Config.ofJson j).config (l.configLines (Config.ofJson j))

/-- Loads the configuration of a file. -/
def loadConfig (inputs : Inputs) (l : Logger) (path : Text) : Loaded :=
  if isYaml path then loadYaml inputs l path else loadJson inputs l path

/-- The configuration of an invocation, before its own options are laid over. -/
def baseConfig (inputs : Inputs) (l : Logger) (i : Invocation) : Loaded :=
  match i.configPath with
  | none => .config plainConfig []
  | some path => loadConfig inputs l path

/-- Lays the options of an invocation over a configuration. -/
def override (i : Invocation) (c : Config) : Config where
  compiler := { c.compiler with pretty := c.compiler.pretty || i.pretty }
  logging := { c.logging with level := i.level.getD c.logging.level }

/-- The name of the input; the standard input where none is given. -/
def inputName (i : Invocation) : Text :=
  i.input.getD (utf8 "-")

/-- The text of the input. A file that cannot be read is empty. -/
def readInput (inputs : Inputs) (name : Text) : Option Text :=
  if name = utf8 "-" then some inputs.standardInput
  else
    match inputs.file name with
    | .missing => none
    | .unreadable => some []
    | .holds content => some content

/-- A run that ends with an error about the descriptor, and stops the logger. -/
def rejected (l : Logger) (e : QueryError) (log : List LogLine) : Run where
  exitCode? := some exitRejected
  output := []
  errors := e.summary ++ utf8 "\n"
  log := log
  logger := l.stop

/-- A run that ends with a statement, and stops the logger. -/
def printed (l : Logger) (s : Statement) (log : List LogLine) : Run where
  exitCode? := some exitOk
  output := s.text ++ utf8 "\n"
  errors := []
  log := log
  logger := l.stop

/-- The line about an input that cannot be opened. -/
def unopenedForm : Template.Form 1 :=
  .ending (utf8 "Cannot open query descriptor: ") (by decide +kernel)

/-- A run that cannot open its input, and stops the logger. -/
def unopened (l : Logger) (name : Text) : Run where
  exitCode? := some exitUsage
  output := []
  errors := []
  log := l.log .error unopenedForm #v[name]
  logger := l.stop

/-- A run that ends with an exception that nothing catches. The logger is left as it is. -/
def aborted (l : Logger) : Run where
  exitCode? := none
  output := []
  errors := []
  log := []
  logger := l

/-- A run that ends before the logger is started. -/
def refused (l : Logger) (errors : Text) (log : List LogLine) : Run where
  exitCode? := some exitUsage
  output := []
  errors := errors
  log := log
  logger := l

/-- A run that only shows how the tool is used. -/
def shownUsage (l : Logger) : Run where
  exitCode? := some exitOk
  output := usage
  errors := []
  log := []
  logger := l

/-- Compiles the text of a descriptor under a logger. A text that is not JSON is an error about the
descriptor; a number in it that is too large is an exception that nothing catches. -/
def compileText (l : Logger) (o : Options) (text : Text) : Run :=
  match Value.ofText text with
  | .error .malformed => rejected l (.invalidDescriptor .textNotJson) []
  | .error .outOfRange => aborted l
  | .ok j =>
    match Query.ofJson j with
    | .error e => rejected l e []
    | .ok q =>
      match q.compile o with
      | .error e => rejected l e (l.compileLines o q)
      | .ok s => printed l s (l.compileLines o q)

/-- Carries out an invocation under its configuration, which starts the logger. -/
def execute (inputs : Inputs) (i : Invocation) (c : Config) : Run :=
  let start := c.startLogger inputs.logFailure?
  let rest :=
    match readInput inputs (inputName i) with
    | none => unopened start.logger (inputName i)
    | some text => compileText start.logger c.compiler text
  { rest with errors := start.errors ++ rest.errors, log := start.log ++ rest.log }

/-- Carries out a request. The configuration is read under the logger that is there before the
configuration can start one. -/
def perform (inputs : Inputs) (l : Logger) : Request → Run
  | .help => shownUsage l
  | .unexpected argument =>
    refused l (utf8 "Unexpected argument: " ++ argument ++ utf8 "\n" ++ usage) []
  | .compile i =>
    match baseConfig inputs l i with
    | .aborted => aborted l
    | .refused errors log => refused l errors log
    | .config c log =>
      let rest := execute inputs i (override i c)
      { rest with log := log ++ rest.log }

/-- A run of the tool on its arguments, with no logger started before. -/
def run (inputs : Inputs) (args : List Text) : Run :=
  perform inputs .silent (Invocation.ofArgs args)

end CommandLine

end GraphQuery
