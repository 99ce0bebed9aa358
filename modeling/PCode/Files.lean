import PCode.Path

namespace PCode

/-- Why a text cannot be read. -/
inductive FileError where
  /-- The system refuses, with a text and a number for the reason. -/
  | system (text : String) (code : Nat)
  /-- The bytes are not UTF-8. -/
  | notText
deriving DecidableEq

namespace FileError

def missing : FileError := .system "No such file or directory" 2

def notDirectory : FileError := .system "Not a directory" 20

def isDirectory : FileError := .system "Is a directory" 21

def message : FileError → String
  | .system text code => text ++ " (os error " ++ toString code ++ ")"
  | .notText => "stream did not contain valid UTF-8"

end FileError

/-- What stands at a path. -/
inductive Entry where
  | file (bytes : ByteArray)
  | directory

abbrev Files := Path → Except FileError Entry

namespace Files

def hasFile (files : Files) (path : Path) : Bool :=
  match files path with
  | .ok (.file _) => true
  | _ => false

def text (files : Files) (path : Path) : Except FileError String := do
  match ← files path with
  | .directory => .error .isDirectory
  | .file bytes =>
    match String.fromUTF8? bytes with
    | some text => .ok text
    | none => .error .notText

/-- A file of a tree: the names that lead to it, and its bytes. -/
structure Leaf where
  names : List String
  bytes : ByteArray

/-- What stands in a tree under a list of names. The directories are those that lead to a file. -/
def entry? (leaves : List Leaf) (names : List String) : Option Entry :=
  match leaves.find? (·.names == names) with
  | some leaf => some (.file leaf.bytes)
  | none =>
    if names.isEmpty || leaves.any fun leaf => names.isPrefixOf leaf.names then some .directory
    else none

/-- Goes from the directory under `names` along the pieces of a path. Nothing lies above the
root. -/
def walk (leaves : List Leaf) : List String → List String → Except FileError Entry
  | names, [] =>
    match entry? leaves names with
    | some entry => .ok entry
    | none => .error .missing
  | names, piece :: pieces =>
    match entry? leaves names with
    | none => .error .missing
    | some (.file _) => .error .notDirectory
    | some .directory =>
      if Path.isIdle piece then walk leaves names pieces
      else if piece = ".." then
        if names.isEmpty then .error .missing else walk leaves names.dropLast pieces
      else walk leaves (names ++ [piece]) pieces

/-- The files of a tree, given by their paths from its root. -/
def ofList (entries : List (Path × ByteArray)) : Files := fun path =>
  let leaves := entries.map fun (path, bytes) => Leaf.mk (path.pieces.filter (!Path.isIdle ·)) bytes
  if path = "" || path.startsWith "/" then .error .missing
  else walk leaves [] path.pieces

end Files

end PCode
