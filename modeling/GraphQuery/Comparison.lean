import GraphQuery.Operand
import GraphQuery.Vocabulary

/-!
# Comparisons

A comparison relates a subject to an operand. The subject is a field of the scope, possibly one that
holds an array and is quantified over, or a raw statement that is copied as it is.

* `Operator` and `Quantifier` are closed vocabularies: `ofName` reads back what `name` writes.
* `Subject.equals` and its neighbours build comparisons.
* `Comparison.render` writes a comparison in a scope.
* `Comparison.toJson` and `Comparison.ofJson` are its descriptor.
-/

namespace GraphQuery

/-! ### Vocabularies -/

/-- The operators of comparisons. -/
inductive Operator where
  | equal
  | notEqual
  | greater
  | greaterOrEqual
  | less
  | lessOrEqual
  | like
  | notLike
  | regexMatch
  | regexMismatch
  | isIn
  | notIn
  deriving DecidableEq, Repr

namespace Operator

/-- Every operator. -/
def all : List Operator :=
  [.equal, .notEqual, .greater, .greaterOrEqual, .less, .lessOrEqual, .like, .notLike,
    .regexMatch, .regexMismatch, .isIn, .notIn]

/-- The operator as it stands in a statement. -/
def name : Operator → Text
  | .equal => utf8 "=="
  | .notEqual => utf8 "!="
  | .greater => utf8 ">"
  | .greaterOrEqual => utf8 ">="
  | .less => utf8 "<"
  | .lessOrEqual => utf8 "<="
  | .like => utf8 "LIKE"
  | .notLike => utf8 "NOT LIKE"
  | .regexMatch => utf8 "=~"
  | .regexMismatch => utf8 "!~"
  | .isIn => utf8 "IN"
  | .notIn => utf8 "NOT IN"

/-- The operators by their names. -/
def vocabulary : Vocabulary Operator where
  name := name
  all := all
  mem_all := by intro op; cases op <;> decide
  name_inj := by intro op op'; cases op <;> cases op' <;> simp [name]

/-- The operator of a name, or the fault of an unknown one. -/
def ofName (s : Text) : Checked Operator :=
  orFault (vocabulary.ofName? s) (.invalidDescriptor (.unknownOperator s))

theorem ofName_eq_ok_iff {s : Text} {op : Operator} : ofName s = .ok op ↔ s = op.name :=
  orFault_eq_ok_iff.trans vocabulary.ofName?_eq_some_iff

@[simp] theorem name_inj {op op' : Operator} : op.name = op'.name ↔ op = op' :=
  vocabulary.name_eq_iff

end Operator

/-- How many elements of an array a comparison must hold for. -/
inductive Quantifier where
  | all
  | any
  | none
  deriving DecidableEq, Repr

namespace Quantifier

/-- The quantifier as it stands in a statement. -/
def name : Quantifier → Text
  | .all => utf8 "ALL"
  | .any => utf8 "ANY"
  | .none => utf8 "NONE"

/-- The name of a quantifier that may be missing; the empty text stands for none. -/
def nameOrEmpty : Option Quantifier → Text
  | some q => q.name
  | Option.none => []

/-- The quantifiers, and the want of one, by their names. -/
def vocabulary : Vocabulary (Option Quantifier) where
  name := nameOrEmpty
  all := [Option.none, some .all, some .any, some .none]
  mem_all := by rintro (_ | _ | _ | _) <;> decide
  name_inj := by rintro (_ | _ | _ | _) (_ | _ | _ | _) <;> decide

/-- The quantifier of a name. The empty text is the name of having none. -/
def ofName (s : Text) : Checked (Option Quantifier) :=
  orFault (vocabulary.ofName? s) (.invalidDescriptor (.unknownQuantifier s))

theorem ofName_eq_ok_iff {s : Text} {q : Option Quantifier} :
    ofName s = .ok q ↔ s = nameOrEmpty q :=
  orFault_eq_ok_iff.trans vocabulary.ofName?_eq_some_iff

@[simp] theorem nameOrEmpty_inj {q q' : Option Quantifier} :
    nameOrEmpty q = nameOrEmpty q' ↔ q = q' :=
  vocabulary.name_eq_iff

end Quantifier

/-! ### Comparisons and how they are built -/

/-- The left side of a comparison. -/
inductive Subject where
  /-- A field of the scope, and how an array in it is quantified over. -/
  | field (name : Text) (quantifier : Option Quantifier)
  /-- An expression that is copied as it is. -/
  | statement (expression : Text)
  deriving DecidableEq, Repr

namespace Subject

/-- The name of the field or the expression. -/
def text : Subject → Text
  | .field name _ => name
  | .statement expression => expression

/-- The quantifier of a field that has one. -/
def quantifier : Subject → Option Quantifier
  | .field _ quantifier => quantifier
  | .statement _ => none

/-- Whether the subject is an expression. -/
def isStatement : Subject → Bool
  | .statement _ => true
  | .field _ _ => false

/-- The text of a subject in a scope. -/
def render (scope : Text) : Subject → Text
  | .field name none => Operand.qualified scope name
  | .field name (some q) => Operand.qualified scope name ++ utf8 " " ++ q.name
  | .statement expression => expression

end Subject

/-- A predicate on one scope. -/
structure Comparison where
  subject : Subject
  operator : Operator
  operand : Operand
  deriving Repr

namespace Subject

/-- The subject equals the operand. -/
def equals (s : Subject) (o : Operand) : Comparison := ⟨s, .equal, o⟩

/-- The subject differs from the operand. -/
def differs (s : Subject) (o : Operand) : Comparison := ⟨s, .notEqual, o⟩

/-- The subject is greater than the operand. -/
def greater (s : Subject) (o : Operand) : Comparison := ⟨s, .greater, o⟩

/-- The subject is at least the operand. -/
def atLeast (s : Subject) (o : Operand) : Comparison := ⟨s, .greaterOrEqual, o⟩

/-- The subject is less than the operand. -/
def less (s : Subject) (o : Operand) : Comparison := ⟨s, .less, o⟩

/-- The subject is at most the operand. -/
def atMost (s : Subject) (o : Operand) : Comparison := ⟨s, .lessOrEqual, o⟩

/-- The subject is an element of the operand. -/
def isIn (s : Subject) (o : Operand) : Comparison := ⟨s, .isIn, o⟩

/-- The subject is no element of the operand. -/
def notIn (s : Subject) (o : Operand) : Comparison := ⟨s, .notIn, o⟩

/-- The subject has the form of a pattern with placeholders. -/
def like (s : Subject) (pattern : Text) : Comparison := ⟨s, .like, .literal (.string pattern)⟩

/-- The subject has not the form of a pattern with placeholders. -/
def notLike (s : Subject) (pattern : Text) : Comparison :=
  ⟨s, .notLike, .literal (.string pattern)⟩

/-- The subject matches a regular expression. -/
def hasMatch (s : Subject) (regex : Text) : Comparison :=
  ⟨s, .regexMatch, .literal (.string regex)⟩

/-- The subject matches a regular expression nowhere. -/
def hasNoMatch (s : Subject) (regex : Text) : Comparison :=
  ⟨s, .regexMismatch, .literal (.string regex)⟩

/-- The subject is null. -/
def isNull (s : Subject) : Comparison := s.equals (.literal .null)

/-- The subject is not null. -/
def notNull (s : Subject) : Comparison := s.differs (.literal .null)

/-- The subject is true. -/
def isTrue (s : Subject) : Comparison := s.equals (.literal (.bool true))

/-- The subject is false. -/
def isFalse (s : Subject) : Comparison := s.equals (.literal (.bool false))

end Subject

namespace Comparison

/-- The text of a comparison in a scope. -/
def render (scope : Text) (c : Comparison) : Checked Text := do
  let operand ← c.operand.render scope
  pure (c.subject.render scope ++ utf8 " " ++ c.operator.name ++ utf8 " " ++ operand)

/-! ### Descriptors -/

/-- The members that describe a subject. -/
def subjectMembers : Subject → List (Text × Value)
  | .field name none => [(utf8 "field", .string name)]
  | .field name (some q) => [(utf8 "field", .string name), (utf8 "quantifier", .string q.name)]
  | .statement expression => [(utf8 "statement", .string expression)]

/-- The descriptor of a comparison. -/
def toJson (c : Comparison) : Value :=
  .ofMembers
    ([(utf8 "operator", .string c.operator.name), (utf8 "operand", c.operand.toJson)]
      ++ subjectMembers c.subject)

/-- The error of a descriptor whose members are missing or of the wrong type. -/
def jsonFault : QueryError :=
  .invalidDescriptor .comparisonJson

/-- The quantifier of a descriptor that may have none. -/
def decodeQuantifier (j : Value) : Decoded (Option Quantifier) := do
  let name ← orFault (j.textOr? (utf8 "quantifier") []) .json
  (Quantifier.ofName name).asDecoded

/-- The subject of a descriptor. A statement wins over a field and takes no quantifier. -/
def decodeSubject (j : Value) : Decoded Subject :=
  match j.get? (utf8 "statement"), j.get? (utf8 "field") with
  | some statement, _ => do
    let expression ← orFault statement.text? .json
    let quantifier ← decodeQuantifier j
    require quantifier.isNone (.query (.invalidDescriptor .quantifiedStatement))
    pure (.statement expression)
  | none, some field => do
    let name ← orFault field.text? .json
    let quantifier ← decodeQuantifier j
    pure (.field name quantifier)
  | none, none => .error (.query (.invalidDescriptor .subjectMissing))

/-- The comparison that the members of a descriptor stand for. -/
def decodeMembers (j : Value) : Decoded Comparison := do
  let subject ← decodeSubject j
  let operatorName ← orFault (j.textAt? (utf8 "operator")) .json
  let operator ← (Operator.ofName operatorName).asDecoded
  let operandJson ← orFault (j.get? (utf8 "operand")) .json
  let operand ← (Operand.ofJson operandJson).asDecoded
  pure ⟨subject, operator, operand⟩

/-- The comparison of a descriptor. -/
def ofJson (j : Value) : Checked Comparison := do
  require j.isObject (.invalidDescriptor .comparisonNotObject)
  (decodeMembers j).catching jsonFault

end Comparison

end GraphQuery
