import GraphQuery.Text.Template

/-!
# Logging

A logger is silent until it is started. A started one admits the lines whose severity is at least
its threshold. Every operation returns the lines that reached the log. The words of a line are made
from a template and its arguments.

* `Logger.start`, `Logger.setThreshold` and `Logger.stop` change the state. A logger whose file
  cannot be opened does not start.
* `Logger.write` is the log of one line, and `Logger.log` that of a form.
* `Logger.call` is the log of any template, which may be malformed. `Logger.call_template`: the
  template of a form is not.
* `Threshold.ofName` reads the name of a threshold and `Threshold.name` writes it.
-/

namespace GraphQuery

/-- How grave a line is. -/
inductive Severity where
  | trace
  | debug
  | info
  | warning
  | error
  | critical
  deriving DecidableEq, Repr

/-- The place of a severity among the others. -/
def Severity.rank : Severity → Nat
  | .trace => 0
  | .debug => 1
  | .info => 2
  | .warning => 3
  | .error => 4
  | .critical => 5

/-- From which severity on lines are admitted, if any are. -/
inductive Threshold where
  | atLeast (least : Severity)
  | off
  deriving DecidableEq, Repr

namespace Threshold

/-- Whether a line of a severity is admitted. -/
def admits (t : Threshold) (s : Severity) : Bool :=
  match t with
  | .atLeast least => decide (least.rank ≤ s.rank)
  | .off => false

/-- The name of a threshold. -/
def name : Threshold → Text
  | .atLeast .trace => utf8 "trace"
  | .atLeast .debug => utf8 "debug"
  | .atLeast .info => utf8 "info"
  | .atLeast .warning => utf8 "warn"
  | .atLeast .error => utf8 "error"
  | .atLeast .critical => utf8 "critical"
  | .off => utf8 "off"

/-- The names that a threshold goes by. -/
def names : List (Text × Threshold) :=
  [(utf8 "trace", .atLeast .trace), (utf8 "debug", .atLeast .debug), (utf8 "info", .atLeast .info),
    (utf8 "warn", .atLeast .warning), (utf8 "warning", .atLeast .warning),
    (utf8 "error", .atLeast .error), (utf8 "err", .atLeast .error),
    (utf8 "critical", .atLeast .critical), (utf8 "crit", .atLeast .critical),
    (utf8 "off", .off), (utf8 "none", .off)]

/-- The threshold of a name in ASCII letters of either case. Any other text means `info`. -/
def ofName (s : Text) : Threshold :=
  match names.find? fun (name, _) => name = s.lower with
  | some (_, t) => t
  | none => .atLeast .info

@[simp] theorem ofName_name (t : Threshold) : ofName t.name = t := by
  rcases t with (_ | _ | _ | _ | _ | _) | _ <;> decide

end Threshold

/-- A line of the log. -/
structure LogLine where
  severity : Severity
  text : Text
  deriving DecidableEq, Repr

/-- What a call of a logger comes to. -/
inductive Logged where
  /-- These lines have reached the log. -/
  | lines (added : List LogLine)
  /-- The template cannot be filled in. The call ends with an exception, and adds nothing. -/
  | formatError
  deriving DecidableEq, Repr

/-- The state of a logger. -/
inductive Logger where
  | silent
  | started (threshold : Threshold)
  deriving DecidableEq, Repr

namespace Logger

/-- Whether the logger is started. -/
def isStarted : Logger → Bool
  | .silent => false
  | .started _ => true

/-- Whether a line of a severity reaches the log. -/
def admits (l : Logger) (s : Severity) : Bool :=
  match l with
  | .silent => false
  | .started t => t.admits s

/-- The lines that reach the log when one is written. -/
def write (l : Logger) (line : LogLine) : List LogLine :=
  if l.admits line.severity then [line] else []

/-- The lines that reach the log when one is made from a form, with an argument for each of its
places. -/
def log {places : Nat} (l : Logger) (s : Severity) (form : Template.Form places)
    (args : Vector Text places) : List LogLine :=
  l.write ⟨s, form.fill args⟩

/-- The log of a template with arguments. The template is looked at where the line is admitted. -/
def call (formats : Template.Formats) (l : Logger) (s : Severity) (template : Text)
    (args : List Text) : Logged :=
  if l.admits s then
    match Template.fill? formats args template with
    | some text => .lines [⟨s, text⟩]
    | none => .formatError
  else .lines []

/-- The template of a form makes the line of the form. -/
theorem call_template {places : Nat} (formats : Template.Formats) (l : Logger) (s : Severity)
    (form : Template.Form places) (args : Vector Text places) :
    l.call formats s form.template args.toList = .lines (l.log s form args) := by
  rw [call, form.fill?_template, log, write]
  cases l.admits s <;> rfl

/-- The line about a start. -/
def startForm : Template.Form 2 where
  first := utf8 "Logger initialized (level="
  after := #v[utf8 ", file=", utf8 ")"]
  plain := by decide +kernel

/-- What the start of a logger leaves behind. -/
structure Start where
  logger : Logger
  log : List LogLine
  /-- What is printed where the logger does not start. -/
  errors : Text
  deriving DecidableEq, Repr

/-- Starts a logger, in place of one that may run already. It tells so itself; the file is empty
where there is none. A file that cannot be opened for the reason given leaves no logger. -/
def start (failure? : Text → Option Text) (file : Text) (t : Threshold) : Start :=
  match if file.isEmpty then none else failure? file with
  | some reason => ⟨.silent, [], utf8 "Log initialization failed: " ++ reason ++ utf8 "\n"⟩
  | none =>
    let shown := if file.isEmpty then utf8 "<none>" else file
    ⟨.started t, (started t).log .debug startForm #v[t.name, shown], []⟩

/-- Sets the threshold of a started logger. -/
def setThreshold (l : Logger) (t : Threshold) : Logger :=
  match l with
  | .silent => .silent
  | .started _ => .started t

/-- Stops a logger. -/
def stop (_ : Logger) : Logger :=
  .silent

end Logger

end GraphQuery
