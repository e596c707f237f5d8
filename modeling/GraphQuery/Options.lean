/-!
# Options

What a caller chooses about the statements that queries are compiled to.
-/

namespace GraphQuery

/-- How statements are checked and laid out. -/
structure Options where
  /-- One clause a line, indented by nesting. -/
  pretty : Bool
  /-- Blanks for each level of nesting; a negative width counts as none. -/
  indentWidth : Int32
  /-- Whether every compiled statement is logged. -/
  logQueries : Bool
  /-- The greatest depth allowed where it is positive. -/
  depthLimit : Int32
  deriving DecidableEq, Repr

/-- The options where nothing else is said. -/
def Options.standard : Options where
  pretty := false
  indentWidth := 4
  logQueries := false
  depthLimit := 0

end GraphQuery
