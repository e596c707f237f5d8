import GraphQuery.CommandLine

/-!
# The tool

Reads what a run needs, carries it out and prints what it leaves behind. Lines of the log go to the
standard error, after the errors, and to no file. There is no YAML library here, so no YAML file can
be used.
-/

namespace GraphQuery.Main

/-- A text as bytes for output. -/
def toBytes (t : Text) : ByteArray :=
  t.toByteArray

/-- The name of a file, where the text can be one. -/
def fileName? (path : Text) : Option String :=
  String.fromUTF8? (toBytes path)

/-- What an open file holds, where it can be read. -/
def readHandle (handle : IO.FS.Handle) : IO CommandLine.File := do
  try
    let bytes ← handle.readBinToEnd
    return .holds bytes.toList
  catch _ => return .unreadable

/-- What a path leads to. -/
def readFile (path : Text) : IO CommandLine.File := do
  match fileName? path with
  | none => return .missing
  | some name =>
    let handle? ← try
        let handle ← IO.FS.Handle.mk name .read
        pure (some handle)
      catch _ => pure none
    match handle? with
    | none => return .missing
    | some handle => readHandle handle

/-- All of the standard input. -/
def readStandardInput : IO Text := do
  let bytes ← (← IO.getStdin).readBinToEnd
  return bytes.toList

/-- The inputs with some files and a standard input. -/
def inputsWith (file : Text → CommandLine.File) (standardInput : Text) : CommandLine.Inputs where
  file := file
  standardInput := standardInput
  yaml _ := .error (utf8 "YAML is not supported")
  logFailure? _ := none

/-- What an invocation reads. -/
def gather (i : Invocation) : IO CommandLine.Inputs := do
  let config ← match i.configPath with
    | some path => readFile path
    | none => pure .missing
  let name := CommandLine.inputName i
  let fromInput := name = utf8 "-"
  let input ← if fromInput then pure .missing else readFile name
  let standardInput ← if fromInput then readStandardInput else pure []
  let file := fun path =>
    if i.configPath = some path then config else if path = name then input else .missing
  return inputsWith file standardInput

/-- What a request reads. -/
def inputsOf : Request → IO CommandLine.Inputs
  | .compile i => gather i
  | _ => return inputsWith (fun _ => .missing) []

/-- The name of a severity in a line of the log. -/
def severityName : Severity → String
  | .trace => "trace"
  | .debug => "debug"
  | .info => "info"
  | .warning => "warning"
  | .error => "error"
  | .critical => "critical"

/-- A line of the log as it is printed. -/
def lineText (line : LogLine) : Text :=
  utf8 "[" ++ utf8 (severityName line.severity) ++ utf8 "] " ++ line.text ++ utf8 "\n"

/-- The exit code of a process that an exception has ended. -/
def exitAborted : UInt32 := 134

end GraphQuery.Main

open GraphQuery in
/-- Runs the tool on its arguments. -/
def main (args : List String) : IO UInt32 := do
  let request := Invocation.ofArgs (args.map utf8)
  let inputs ← Main.inputsOf request
  let run := CommandLine.perform inputs .silent request
  (← IO.getStdout).write (Main.toBytes run.output)
  (← IO.getStderr).write (Main.toBytes (run.errors ++ run.log.flatMap Main.lineText))
  return run.exitCode?.getD Main.exitAborted
