import GraphQuery.Log
import GraphQuery.Statement.Compile

/-!
# Compiling under a logger

A compilation tells the log about a failure, and about a success where the options ask for it.
-/

namespace GraphQuery

/-- The line about a statement. -/
def Logger.compiledForm : Template.Form 2 where
  first := utf8 "Compiled AQL ("
  after := #v[utf8 " scopes): ", []]
  plain := by decide +kernel

/-- The line about a query that has no statement. -/
def Logger.rejectedForm : Template.Form 2 where
  first := utf8 "AQL compilation rejected ["
  after := #v[utf8 "]: ", []]
  plain := by decide +kernel

/-- The lines that reach the log when a query is compiled. -/
def Logger.compileLines (l : Logger) (o : Options) (q : Query) : List LogLine :=
  match q.compile o with
  | .ok s =>
    if o.logQueries then
      l.log .debug compiledForm #v[decimal s.scopes, s.text]
    else []
  | .error e => l.log .warning rejectedForm #v[e.code, e.message]

end GraphQuery
