import GraphQuery.Statement.Logged

/-!
# Sessions

What a program does with its logger, from when the program starts: it starts and stops the logger,
sets its threshold and its pattern, writes lines and compiles queries, in any order.

* `Logger.step` is one call, `Logger.run` are all calls of a session.
-/

namespace GraphQuery

/-- What a program asks of its logger, or of the compiler under it. -/
inductive LogCall where
  /-- Starts the logger without a file, which cannot fail. -/
  | start (t : Threshold)
  | setThreshold (t : Threshold)
  /-- Sets how lines are laid out, which is nothing that reaches the log. -/
  | setPattern (pattern : Text)
  | stop
  /-- Writes a line made from a template. -/
  | write (s : Severity) (template : Text) (args : List Text)
  | compile (o : Options) (q : Query)
  deriving Repr

namespace Logger

section Calls

variable (formats : Template.Formats)

/-- The logger after a call, and what the call adds to the log. -/
def step (l : Logger) : LogCall → Logger × Logged
  | .start t =>
    let started := start (fun _ => none) [] t
    (started.logger, .lines started.log)
  | .setThreshold t => (l.setThreshold t, .lines [])
  | .setPattern _ => (l, .lines [])
  | .stop => (l.stop, .lines [])
  | .write s template args => (l, l.call formats s template args)
  | .compile o q => (l, .lines (l.compileLines o q))

/-- The logger after some calls, and what each of them adds to the log. A call that ends with an
exception is as good as any other to the session. -/
def run (l : Logger) : List LogCall → Logger × List Logged
  | [] => (l, [])
  | c :: rest =>
    let (l, added) := l.step formats c
    let (l, more) := run l rest
    (l, added :: more)

end Calls

end Logger

end GraphQuery
