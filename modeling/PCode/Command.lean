import PCode.Command.Arguments
import PCode.Command.Help
import PCode.Command.Report
import PCode.Diagnostic
import PCode.Machine.Run
import PCode.Settings
import PCode.Syntax.Printer

namespace PCode.Command

/-- Why a command did not finish. -/
inductive Failure where
  /-- An error, with its message. -/
  | error (message : String)
  /-- The machine stopped on a fault. -/
  | fault

/-- What has been written so far: the answer, and notes on the progress. -/
structure Log where
  output : String := ""
  notes : List String := []

/-- Commands write as they go; what was written before a failure stays. -/
abbrev Work := ExceptT Failure (StateM Log)

def write (text : String) : Work Unit :=
  modify fun log => { log with output := log.output ++ text }

def note (text : String) : Work Unit :=
  modify fun log => { log with notes := log.notes ++ [text] }

def fail {α : Type} (message : String) : Work α :=
  throw (.error message)

def readSource (files : Files) (path : Path) : Work Source :=
  match files.text path with
  | .ok text => return ⟨path, text⟩
  | .error cause => fail (path ++ " could not be read: " ++ cause.message)

def failOn {α : Type} (source : Source) (diagnostic : Diagnostic) : Work α :=
  fail ((diagnostic.message? source).getD diagnostic.summary)

def parseSource (source : Source) : Work Program :=
  match Program.parse source.text with
  | .ok program => return program
  | .error error => failOn source (.parse error)

def noteDeclared (context : Context) : Work Unit := do
  let functions := context.symbols.count .function
  let records := context.symbols.count .type
  if 0 < functions + records then
    note ("declared " ++ toString functions ++ " functions and " ++ toString records ++ " records")

def checkSource (source : Source) : Work (Program × Context) := do
  let program ← parseSource source
  match program.check .empty with
  | .ok (program, context) =>
    noteDeclared context
    note "type assignment finished"
    return (program, context)
  | .error stopped =>
    noteDeclared stopped.context
    failOn source (.type stopped.error)

def compileSource (source : Source) : Work Image := do
  let (program, context) ← checkSource source
  match program.compile context with
  | .ok image =>
    note ("compiled to " ++ toString image.code.size ++ " instructions")
    return image
  | .error error => failOn source (.codegen error)

/-- The settings for a source file: those for its directory. -/
def settingsFor (files : Files) (path : Path) : Work Settings := do
  let directory := path.parent?.getD "."
  match Settings.find files directory with
  | .ok settings =>
    if let some file := Settings.locate? files directory then
      note ("loaded settings from " ++ file)
    return settings
  | .error failure => fail failure.message

def cellBound : Nat := 1 <<< 60

/-- A blank memory, if there can be one of this capacity. -/
def allocate (capacity : Nat) : Work Memory :=
  if capacity < cellBound then return .blank capacity else throw .fault

def renderStack (stack : List Cell) : String :=
  "[" ++ ", ".intercalate (stack.map fun cell => toString cell.toInt) ++ "]"

def run (files : Files) (path : Path) (call : Option String) (arguments : List Cell) :
    Work (Option (Status × String)) := do
  let settings ← settingsFor files path
  let image ← compileSource (← readSource files path)
  if settings.dump then write image.dump
  let memory ← allocate settings.stack
  let outcome ← match call with
    | none => pure (image.run memory)
    | some name =>
      match image.invoke? memory name arguments with
      | some outcome => pure outcome
      | none => fail ("no function named `" ++ name ++ "`")
  match outcome with
  | .halted exit _ =>
    note ("halted with " ++ toString exit.stack.length ++ " cells")
    write (renderStack exit.stack ++ "\n")
    return some (.info, "halted after " ++ toString exit.steps ++ " steps")
  | _ => throw .fault

/-- Performs an action. The result is a closing message, if there is any. -/
def perform (files : Files) : Action → Work (Option (Status × String))
  | .run path call arguments => run files path call arguments
  | .check path => do
    let _ ← checkSource (← readSource files path)
    return some (.success, path ++ " type-checks")
  | .dump path => do
    let image ← compileSource (← readSource files path)
    write image.dump
    return none
  | .parse path => do
    let program ← parseSource (← readSource files path)
    write program.render
    return none

/-- The report on an action. Notes are shown only if they are asked for. -/
def Invocation.report (invocation : Invocation) (files : Files) : Report :=
  let (result, log) := (perform files invocation.action).run {}
  let notes := if 0 < invocation.verbosity then log.notes.map ("note: " ++ · ++ "\n") else []
  let shown := String.join notes
  match result with
  | .ok none => ⟨0, log.output, shown⟩
  | .ok (some (status, message)) => ⟨0, log.output, shown ++ status.render message⟩
  | .error (.error message) => ⟨failureCode, log.output, shown ++ Status.fatal.render message⟩
  | .error .fault => ⟨faultCode, log.output, shown ++ "the machine stopped on a fault\n"⟩

def Instead.report : Instead → Report
  | .help topic => ⟨0, topic.page.render topic.title, ""⟩
  | .version topic => ⟨0, topic.title ++ "\n", ""⟩
  | .misuse => ⟨failureCode, "", "error: the arguments are not understood; try --help\n"⟩

def execute (arguments : List String) (files : Files) : Report :=
  match Invocation.ofArguments arguments with
  | .ok invocation => invocation.report files
  | .error other => other.report

def Action.paths : Action → List Path
  | .run path _ _ => Settings.candidates (path.parent?.getD ".") ++ [path]
  | .check path | .dump path | .parse path => [path]

end PCode.Command
