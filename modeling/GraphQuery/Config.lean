import GraphQuery.Error
import GraphQuery.Json.Value
import GraphQuery.Log
import GraphQuery.Options

/-!
# Configurations

A configuration holds the options of the compiler and of the log. Reading one from JSON lays the
members over the defaults in a fixed order and stops at the first that has the wrong type: what was
read before stays, what would have been read after keeps its default (`Config.ofJson`). Reading one
from YAML goes on behind a member of the wrong type, which keeps its default, but an exception of
the YAML library leaves nothing (`Config.ofYaml`).

* `Setting` lists the members in the order in which they are read.
* `Config.toJson` writes a configuration; reading gives it back.
* `Yaml.Document` is what the YAML library shows of a document.
-/

namespace GraphQuery

/-- Where and how much is logged. -/
structure LogOptions where
  level : Text
  file : Text
  pattern : Text
  deriving DecidableEq, Repr

/-- The options of the compiler and of the log. -/
structure Config where
  compiler : Options
  logging : LogOptions
  deriving DecidableEq, Repr

namespace Config

/-- The configuration where nothing else is said. -/
def standard : Config where
  compiler := .standard
  logging := ⟨utf8 "info", [], []⟩

end Config

/-- What a library makes of a value, by the type that is asked for. -/
structure Scalar where
  flag? : Option Bool
  number? : Option Int32
  text? : Option Text
  deriving DecidableEq, Repr

/-- A JSON value by the type that is asked for. -/
def Scalar.ofJson (v : Value) : Scalar :=
  ⟨v.flag?, v.int32?, v.text?⟩

/-- The members of a configuration. -/
inductive Setting where
  | pretty
  | indentWidth
  | logQueries
  | depthLimit
  | level
  | file
  | pattern
  deriving DecidableEq, Repr

namespace Setting

/-- The settings in the order in which they are read. -/
def all : List Setting :=
  [.pretty, .indentWidth, .logQueries, .depthLimit, .level, .file, .pattern]

/-- The section that a setting stands in. -/
def sectionKey : Setting → Text
  | .pretty | .indentWidth | .logQueries | .depthLimit => utf8 "compiler"
  | .level | .file | .pattern => utf8 "logging"

/-- The key of a setting in its section. -/
def key : Setting → Text
  | .pretty => utf8 "pretty"
  | .indentWidth => utf8 "indent_width"
  | .logQueries => utf8 "log_queries"
  | .depthLimit => utf8 "max_traversal_depth"
  | .level => utf8 "level"
  | .file => utf8 "file"
  | .pattern => utf8 "pattern"

/-- The configuration with a value for a setting, where the value has the type of the setting. -/
def put? (c : Config) (v : Scalar) : Setting → Option Config
  | .pretty => v.flag?.map fun b => { c with compiler := { c.compiler with pretty := b } }
  | .indentWidth =>
    v.number?.map fun n => { c with compiler := { c.compiler with indentWidth := n } }
  | .logQueries => v.flag?.map fun b => { c with compiler := { c.compiler with logQueries := b } }
  | .depthLimit =>
    v.number?.map fun n => { c with compiler := { c.compiler with depthLimit := n } }
  | .level => v.text?.map fun s => { c with logging := { c.logging with level := s } }
  | .file => v.text?.map fun s => { c with logging := { c.logging with file := s } }
  | .pattern => v.text?.map fun s => { c with logging := { c.logging with pattern := s } }

/-- The configuration with a JSON value for a setting. -/
def store? (c : Config) (v : Value) (s : Setting) : Option Config :=
  s.put? c (.ofJson v)

/-- Reads a setting. A missing section or member changes nothing; a section that is no object and a
value of the wrong type cannot be read. -/
def read? (j : Value) (c : Config) (s : Setting) : Option Config :=
  match j.get? s.sectionKey with
  | none => some c
  | some members =>
    if members.isObject then
      match members.get? s.key with
      | none => some c
      | some v => s.store? c v
    else none

end Setting

/-- What was read of a configuration, and whether all of it was. -/
structure ConfigReading where
  config : Config
  complete : Bool
  deriving DecidableEq, Repr

namespace Config

/-- Reads settings in order up to the first that cannot be read. -/
def overlay (j : Value) (c : Config) : List Setting → ConfigReading
  | [] => ⟨c, true⟩
  | s :: rest =>
    match s.read? j c with
    | some c => overlay j c rest
    | none => ⟨c, false⟩

/-- The configuration of a JSON value. -/
def ofJson (j : Value) : ConfigReading :=
  overlay j standard Setting.all

/-- The JSON form of a configuration. -/
def toJson (c : Config) : Value :=
  .ofMembers
    [(utf8 "compiler", .ofMembers
        [(utf8 "pretty", .bool c.compiler.pretty),
          (utf8 "indent_width", .signed c.compiler.indentWidth.toInt64),
          (utf8 "log_queries", .bool c.compiler.logQueries),
          (utf8 "max_traversal_depth", .signed c.compiler.depthLimit.toInt64)]),
      (utf8 "logging", .ofMembers
        [(utf8 "level", .string c.logging.level),
          (utf8 "file", .string c.logging.file),
          (utf8 "pattern", .string c.logging.pattern)])]

/-- Starts the logger that a configuration asks for. -/
def startLogger (failure? : Text → Option Text) (c : Config) : Logger.Start :=
  Logger.start failure? c.logging.file (.ofName c.logging.level)

end Config

/-! ### YAML -/

namespace Yaml

/-- What the library shows of a section: the members under their keys. A member that is not there
has no type. An exception of the library is told by its words. -/
abbrev Members := Text → Except Text Scalar

/-- What the library shows of a document: the sections under their keys, where they are there. -/
abbrev Document := Text → Except Text (Option Members)

end Yaml

/-- Reads a setting of a document. A missing section changes nothing, and a member of the wrong type
leaves what is there, which is the default as every setting is read once. -/
def Setting.readYaml (document : Yaml.Document) (c : Config) (s : Setting) : Except Text Config := do
  match ← document s.sectionKey with
  | none => pure c
  | some members =>
    let v ← members s.key
    pure ((s.put? c v).getD c)

/-- The configuration of a YAML document, or the words of the exception that prevents it. -/
def Config.ofYaml (document : Yaml.Document) : Except Text Config :=
  Setting.all.foldlM (Setting.readYaml document) Config.standard

/-! ### What is told about it -/

namespace Logger

/-- The line about a JSON configuration that is read in part. -/
def partialForm : Template.Form 1 :=
  .ending (utf8 "Failed to parse compiler configuration from JSON: ") (by decide +kernel)

/-- The line about a YAML configuration. -/
def loadedForm : Template.Form 1 :=
  .ending (utf8 "Loaded compiler configuration from ") (by decide +kernel)

/-- The line about a YAML configuration that cannot be read. -/
def unloadedForm : Template.Form 2 where
  first := utf8 "Failed to load compiler configuration from "
  after := #v[utf8 ": ", []]
  plain := by decide +kernel

/-- The lines that reach the log when a configuration is read from JSON. -/
def configLines (l : Logger) (r : ConfigReading) : List LogLine :=
  if r.complete then [] else l.log .error partialForm #v[jsonErrorText]

end Logger

end GraphQuery
