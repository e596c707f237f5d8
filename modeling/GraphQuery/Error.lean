import GraphQuery.Text.Decimal

/-!
# Errors

Everything that can go wrong with a query has a cause, and the causes fall into five kinds. The text
of an error is made from its cause alone (`QueryError.message`).

A descriptor whose members are missing or of the wrong type without a rule of their own is reported
as a JSON error; what exactly was wrong with the JSON is not part of the message.
-/

namespace GraphQuery

/-- How deep filter groups, literal containers and decoded join chains may nest. -/
def maxNesting : Nat := 256

/-- A least and a greatest number of edges to follow. -/
structure DepthRange where
  least : Int32
  greatest : Int32
  deriving DecidableEq, Repr

/-- The range as it stands in a statement. -/
def DepthRange.text (r : DepthRange) : Text :=
  signedDecimal r.least.toInt ++ utf8 ".." ++ signedDecimal r.greatest.toInt

/-- What a depth range belongs to. -/
inductive DepthPlace where
  /-- A traversal at the root, over an edge collection or a graph. -/
  | traversal (target : Text)
  /-- A join into a scope. -/
  | join (name : Text)
  deriving DecidableEq, Repr

/-- The place as messages name it. -/
def DepthPlace.text : DepthPlace → Text
  | .traversal target => utf8 "traversal over " ++ target.inMarks
  | .join name => utf8 "join into " ++ name.inMarks

/-- Filters that have no text. -/
inductive FilterFault where
  | noTerm
  | tooDeep
  deriving DecidableEq, Repr

/-- Depth ranges that are incomplete, out of range or not allowed. -/
inductive DepthFault where
  /-- One of the two bounds is missing. -/
  | missing
  /-- A bound, shown by its JSON text, is not a whole number that a depth can be. -/
  | notADepth (member : String) (shown : Text)
  | negative (range : DepthRange) (place : DepthPlace)
  | reversed (range : DepthRange) (place : DepthPlace)
  /-- The greatest depth is above the configured limit. -/
  | aboveLimit (greatest limit : Int32) (place : DepthPlace)
  deriving DecidableEq, Repr

/-- Operands that cannot be written as a literal. -/
inductive OperandFault where
  | tooDeep
  | notFinite
  | notUtf8
  /-- A value of a kind that has no literal. -/
  | noLiteral (kind : String)
  deriving DecidableEq, Repr

/-- Descriptors that do not describe a query. -/
inductive DescriptorFault where
  | operandNotObject
  | operandFieldNotString
  | operandTooDeep
  | operandMissing
  | unknownOperator (name : Text)
  | unknownQuantifier (name : Text)
  | comparisonNotObject
  | subjectMissing
  | quantifiedStatement
  | comparisonJson
  | unknownConnective (name : Text)
  | filterTooDeep
  | termsMissing
  | termNotObject
  | connectiveMissing
  | termMissing
  | chainTooLong
  | queryNotObject
  | sourceMissing
  | unknownDirection (name : Text)
  | unknownSortDirection (name : Text)
  | notACount (member : String)
  | queryJson
  /-- The text of a descriptor is not JSON. -/
  | textNotJson
  /-- A traversal with a start of its own stands where a join needs a name. -/
  | joinIntoTraversal (target start : Text)
  deriving DecidableEq, Repr

/-- The causes of errors, by kind. -/
inductive QueryError where
  | malformedFilter (fault : FilterFault)
  /-- A root collection has a prune. -/
  | invalidPrune (collection : Text)
  | invalidDepth (fault : DepthFault)
  | unsupportedOperand (fault : OperandFault)
  | invalidDescriptor (fault : DescriptorFault)
  deriving DecidableEq, Repr

/-- The words that stand for what was wrong with a piece of JSON. -/
def jsonErrorText : Text :=
  utf8 "<json error>"

/-- The words about nesting that is too deep. -/
def tooDeepText (what : String) : Text :=
  utf8 what ++ utf8 " nested deeper than " ++ decimal maxNesting ++ utf8 " levels"

/-- The words about a filter. -/
def FilterFault.text : FilterFault → Text
  | .noTerm => utf8 "Filter has no term"
  | .tooDeep => tooDeepText "Filter groups"

/-- The words about a depth range. -/
def DepthFault.text : DepthFault → Text
  | .missing => utf8 "Traversal requires 'min_depth' and 'max_depth'"
  | .notADepth member shown =>
    utf8 "Traversal " ++ (utf8 member).inMarks ++ utf8 " must be an integer in [0, "
      ++ signedDecimal Int32.maxValue.toInt ++ utf8 "], got " ++ shown
  | .negative range place =>
    utf8 "Negative traversal depth " ++ range.text ++ utf8 " in " ++ place.text
  | .reversed range place =>
    utf8 "Minimum depth exceeds maximum depth " ++ range.text ++ utf8 " in " ++ place.text
  | .aboveLimit greatest limit place =>
    utf8 "Maximum depth " ++ signedDecimal greatest.toInt ++ utf8 " in " ++ place.text
      ++ utf8 " exceeds configured limit " ++ signedDecimal limit.toInt

/-- The words about an operand. -/
def OperandFault.text : OperandFault → Text
  | .tooDeep => tooDeepText "Operand"
  | .notFinite => utf8 "Non-finite numeric operand has no AQL literal"
  | .notUtf8 => utf8 "String operand cannot be escaped: " ++ jsonErrorText
  | .noLiteral kind => utf8 "Operand of type " ++ (utf8 kind).inMarks ++ utf8 " has no AQL literal"

/-- The words about a descriptor. -/
def DescriptorFault.text : DescriptorFault → Text
  | .operandNotObject => utf8 "Operand must be an object"
  | .operandFieldNotString => utf8 "Operand field reference must be a string"
  | .operandTooDeep => tooDeepText "Operand"
  | .operandMissing => utf8 "Operand requires 'value' or 'field'"
  | .unknownOperator name => utf8 "Unknown comparison operator: " ++ name
  | .unknownQuantifier name => utf8 "Unknown array quantifier: " ++ name
  | .comparisonNotObject => utf8 "Comparison must be an object"
  | .subjectMissing => utf8 "Comparison requires 'field' or 'statement'"
  | .quantifiedStatement => utf8 "A statement comparison cannot carry a quantifier"
  | .comparisonJson => utf8 "Invalid comparison: " ++ jsonErrorText
  | .unknownConnective name => utf8 "Unknown logical operator: " ++ name
  | .filterTooDeep => tooDeepText "Filter groups"
  | .termsMissing => utf8 "Filter requires a 'terms' array"
  | .termNotObject => utf8 "Filter term must be an object"
  | .connectiveMissing => utf8 "Filter term after the first requires 'op'"
  | .termMissing => utf8 "Filter term requires 'comparison' or 'filter'"
  | .chainTooLong => tooDeepText "Join chain"
  | .queryNotObject => utf8 "Query descriptor must be an object"
  | .sourceMissing => utf8 "Query requires 'collection' or 'traversal'"
  | .unknownDirection name => utf8 "Unknown traversal direction: " ++ name
  | .unknownSortDirection name => utf8 "Unknown sort direction: " ++ name
  | .notACount member =>
    utf8 "Limit " ++ (utf8 member).inMarks ++ utf8 " must be a non-negative 32-bit integer"
  | .queryJson => utf8 "Invalid query descriptor: " ++ jsonErrorText
  | .textNotJson => jsonErrorText
  | .joinIntoTraversal target start =>
    utf8 "Join target " ++ target.inMarks ++ utf8 " is a traversal rooted at " ++ start.inMarks
      ++ utf8 ", joins must target a collection, edge collection or graph name"

namespace QueryError

/-- The name of the kind of an error. -/
def code : QueryError → Text
  | .malformedFilter _ => utf8 "MalformedFilter"
  | .invalidPrune _ => utf8 "InvalidPrune"
  | .invalidDepth _ => utf8 "InvalidTraversalDepth"
  | .unsupportedOperand _ => utf8 "UnsupportedOperand"
  | .invalidDescriptor _ => utf8 "InvalidDescriptor"

/-- The words about an error, with the names they mention in full. -/
def text : QueryError → Text
  | .malformedFilter fault => fault.text
  | .invalidPrune collection =>
    utf8 "PRUNE requires a traversal, " ++ collection.inMarks ++ utf8 " is a plain collection"
  | .invalidDepth fault => fault.text
  | .unsupportedOperand fault => fault.text
  | .invalidDescriptor fault => fault.text

/-- The message of an error. A message ends before the first zero byte of its words. -/
def message (e : QueryError) : Text :=
  e.text.beforeZero

/-- The message under the name of its kind. -/
def summary (e : QueryError) : Text :=
  e.code ++ utf8 ": " ++ e.message

end QueryError

end GraphQuery
