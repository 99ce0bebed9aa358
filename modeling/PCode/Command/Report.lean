namespace PCode.Command

/-- How a command came out. -/
inductive Status where
  | info
  | success
  | fatal
deriving DecidableEq

namespace Status

def tag : Status → String
  | .info => "Info"
  | .success => "Success"
  | .fatal => "Fatal"

/-- The number of lines of a text; a line break at its end starts no line. -/
def lineCount (text : String) : Nat :=
  let pieces := text.splitOn "\n"
  if pieces.getLast? = some "" then pieces.length - 1 else pieces.length

/-- A message of one line stands behind its tag, a longer one below it. -/
def render (status : Status) (message : String) : String :=
  if 1 < lineCount message then "\n" ++ status.tag ++ "\n" ++ message ++ "\n\n"
  else String.ofList (status.tag.toList.leftpad 12 ' ') ++ " " ++ message ++ "\n"

end Status

/-- An exit code, the answer and the texts beside it. -/
structure Report where
  exit : Nat
  output : String
  messages : String
deriving DecidableEq

def failureCode : Nat := 1

def faultCode : Nat := 101

end PCode.Command
