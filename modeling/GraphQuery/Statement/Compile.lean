import GraphQuery.Options
import GraphQuery.Statement.Clauses

/-!
# Statements

The clauses of a query are laid out as one text.

* `layOut` joins clauses by blanks, or puts each on a line of its own, indented by its depth.
* `Query.compile` is the statement of a query, or the first fault.
* `Query.report` tells a caller about either.
-/

namespace GraphQuery

/-- A compiled statement. -/
structure Statement where
  text : Text
  /-- The count of its loops. -/
  scopes : Nat
  deriving DecidableEq, Repr

/-! ### Layout -/

/-- A clause on a line of its own. -/
def Clause.line (width : Nat) (c : Clause) : Text :=
  List.replicate (c.depth * width) 0x20 ++ c.text

/-- The clauses as one text. -/
def layOut (o : Options) (clauses : List Clause) : Text :=
  if o.pretty then
    Text.joinWith (utf8 "\n") (clauses.map (Clause.line o.indentWidth.toInt.toNat))
  else Text.joinWith (utf8 " ") (clauses.map Clause.text)

/-- The statement of a query, or the first fault. -/
def Query.compile (o : Options) (q : Query) : Checked Statement := do
  let clauses ← q.clauses o.depthLimit
  pure ⟨layOut o clauses, q.scopes.length⟩

/-! ### Reports -/

/-- What a caller is told about a compilation. A success has no error and a failure no statement. -/
structure Report where
  success : Bool
  statement : Text
  scopes : Nat
  code : Text
  message : Text
  deriving DecidableEq, Repr

namespace Report

/-- The report of a compilation. -/
def ofResult : Checked Statement → Report
  | .ok s => ⟨true, s.text, s.scopes, utf8 "None", []⟩
  | .error e => ⟨false, [], 0, e.code, e.message⟩

/-- The message under the name of the kind of the error. -/
def summary (r : Report) : Text :=
  r.code ++ utf8 ": " ++ r.message

end Report

/-- The report of compiling a query. -/
def Query.report (o : Options) (q : Query) : Report :=
  .ofResult (q.compile o)

end GraphQuery
