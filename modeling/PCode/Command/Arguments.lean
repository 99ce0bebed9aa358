import PCode.Machine.Image
import PCode.Path
import PCode.Text.Digits

namespace PCode.Command

/-- The names of the commands. -/
inductive Name where
  | run
  | check
  | dump
  | parse
deriving DecidableEq

namespace Name

def all : List Name := [.run, .check, .dump, .parse]

def text : Name → String
  | .run => "run"
  | .check => "check"
  | .dump => "dump"
  | .parse => "parse"

def ofText? (text : String) : Option Name :=
  all.find? (·.text == text)

end Name

/-- What is to be done. -/
inductive Action where
  /-- Runs a program, or one of its functions with arguments. -/
  | run (path : Path) (call : Option String) (arguments : List Cell)
  | check (path : Path)
  | dump (path : Path)
  | parse (path : Path)

structure Invocation where
  /-- How often notes on the progress were asked for. -/
  verbosity : Nat
  action : Action

/-- What a help page is about. -/
inductive Topic where
  | program
  | command (name : Name)
  | help
deriving DecidableEq

/-- Why there is no action to perform. -/
inductive Instead where
  /-- A help page is asked for. -/
  | help (topic : Topic)
  /-- The version is asked for. -/
  | version (topic : Topic)
  /-- The arguments are wrong. -/
  | misuse
deriving DecidableEq

/-- Whether an argument is an option; a dash alone is a value. -/
def isOption (argument : String) : Bool :=
  argument.startsWith "-" && argument != "-"

/-- The name of a long option and the value behind its first equals sign. -/
def longOption (argument : String) : String × Option String :=
  let body := argument.toList.dropWhile (· == '-')
  let name := String.ofList (body.takeWhile (· != '='))
  match body.dropWhile (· != '=') with
  | [] => (name, none)
  | _ :: value => (name, some (String.ofList (value.dropWhile (· == '='))))

/-- What a command was given. -/
structure Operands where
  /-- The arguments that are no options. -/
  values : List String := []
  /-- The functions to call. -/
  calls : List String := []
  /-- Whether an option lacks its value. -/
  incomplete : Bool := false

/-- Adds a value. All commands but `run` take one only. -/
def Operands.add (command : Name) (operands : Operands) (value : String) :
    Except Instead Operands :=
  if command != .run && operands.values.length = 1 then .error .misuse
  else .ok { operands with values := operands.values ++ [value] }

def shortOption (topic : Topic) (c : Char) : Instead :=
  if c = 'h' then .help topic else if c = 'V' then .version topic else .misuse

def commonOption (topic : Topic) (name : String) : Instead :=
  if name = "help" then .help topic else if name = "version" then .version topic else .misuse

/-- Reads the arguments of a command. Behind `--` all are values. -/
def readOperands (command : Name) (operands : Operands) :
    List String → Except Instead Operands
  | [] => .ok operands
  | argument :: rest =>
    if argument = "--" then rest.foldlM (Operands.add command) operands
    else if argument.startsWith "--" then
      match longOption argument with
      | ("call", value) =>
        if command != .run then .error .misuse
        else
          match value, rest with
          | some value, rest =>
            readOperands command { operands with calls := operands.calls ++ [value] } rest
          | none, [] => .error .misuse
          | none, value :: others =>
            if isOption value then
              readOperands command { operands with incomplete := true } (value :: others)
            else readOperands command { operands with calls := operands.calls ++ [value] } others
      | (name, _) => .error (commonOption (.command command) name)
    else if isOption argument then
      .error (shortOption (.command command) ((argument.toList.drop 1).headD '-'))
    else do
      let operands ← operands.add command argument
      readOperands command operands rest
termination_by arguments => arguments.length

def cell? (text : String) : Option Cell :=
  let (negative, digits) := Text.splitSign text.toList
  if digits.isEmpty || !digits.all Char.isDigit then none else Text.word? 10 negative digits

def action (command : Name) (operands : Operands) : Except Instead Action :=
  if operands.incomplete then .error .misuse
  else
    match command, operands.calls, operands.values with
    | _, _, [] => .error .misuse
    | _, _ :: _ :: _, _ => .error .misuse
    | .run, calls, path :: values =>
      match values.mapM cell? with
      | some arguments => .ok (.run path calls.head? arguments)
      | none => .error .misuse
    | .check, _, path :: _ => .ok (.check path)
    | .dump, _, path :: _ => .ok (.dump path)
    | .parse, _, path :: _ => .ok (.parse path)

def helpTopic : List String → Instead
  | [] => .help .program
  | ["help"] => .help .help
  | [name] =>
    match Name.ofText? name with
    | some command => .help (.command command)
    | none => .misuse
  | _ => .misuse

/-- Reads a bundle of short options before the command. -/
def bundle (verbosity : Nat) : List Char → Except Instead Nat
  | [] => .ok verbosity
  | c :: rest =>
    if c = 'v' then bundle (verbosity + 1) rest else .error (shortOption .program c)

def readArguments (verbosity : Nat) : List String → Except Instead Invocation
  | [] => .error .misuse
  | argument :: rest =>
    if argument = "--" then .error .misuse
    else if argument.startsWith "--" then
      match longOption argument with
      | ("verbose", _) => readArguments (verbosity + 1) rest
      | (name, _) => .error (commonOption .program name)
    else if isOption argument then do
      let verbosity ← bundle verbosity (argument.toList.drop 1)
      readArguments verbosity rest
    else if argument = "help" then .error (helpTopic rest)
    else
      match Name.ofText? argument with
      | none => .error .misuse
      | some command => do
        let operands ← readOperands command {} rest
        return ⟨verbosity, ← action command operands⟩

def Invocation.ofArguments (arguments : List String) : Except Instead Invocation :=
  readArguments 0 arguments

end PCode.Command
