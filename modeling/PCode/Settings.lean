import PCode.Files
import PCode.Session
import PCode.Toml.Document

namespace PCode

structure Settings where
  /-- The capacity of the memory. -/
  stack : Nat := defaultCapacity
  /-- Whether the code is printed before it is run. -/
  dump : Bool := false
deriving DecidableEq

namespace Settings

open Toml

def fileName : String := "xi.toml"

def single? (name : String) (entries : Entries) : Option (Option Value) :=
  match entries.filter (·.1 == name) with
  | [] => some none
  | [(_, value)] => some (some value)
  | _ => none

/-- A group of settings: the entries of a table, or the items of an array in order. -/
def groupEntries? (fields : List String) : Value → Option Entries
  | .table _ entries => some entries
  | .array items => if items.length ≤ fields.length then some (fields.zip items) else none
  | _ => none

/-- The entries of a group of settings, which stand under one key at the top or under a header. -/
def group? (name : String) (fields : List String) (document : Document) : Option Entries := do
  let sections := document.sections.filter fun s => s.path.head? = some name
  match ← single? name document.entries, sections with
  | none, [] => some []
  | some value, [] => groupEntries? fields value
  | none, sections =>
    if sections.any fun s => s.path.length = 1 && s.isArray then none
    else
      let inner := sections.filterMap fun s => s.path[1]?
      let own := sections.flatMap fun s => if s.path.length = 1 then s.entries else []
      -- a subsection is a table under its name
      some (own ++ (inner.eraseDups.map fun name => (name, Value.table false [])))
  | some _, _ :: _ => none

def count? (default : Nat) : Option Value → Option Nat
  | none => some default
  | some (.integer value) => if 0 ≤ value then some value.toInt.toNat else none
  | some _ => none

def flag? (default : Bool) : Option Value → Option Bool
  | none => some default
  | some (.boolean value) => some value
  | some _ => none

def ofDocument? (document : Document) : Option Settings := do
  let vm ← group? "vm" ["stack"] document
  let compile ← group? "compile" ["dump"] document
  let stack ← count? defaultCapacity (← single? "stack" vm)
  let dump ← flag? false (← single? "dump" compile)
  some { stack, dump }

def parse? (text : String) : Option Settings := do
  ofDocument? (← Toml.parse? text)

/-- Where settings for a directory may stand: in it or in a directory above, nearest first. -/
def candidates (directory : Path) : List Path :=
  directory.ancestors.map (·.join fileName)

/-- Why settings cannot be had from the file that holds them. -/
inductive Failure where
  | unreadable (path : Path) (cause : FileError)
  | invalid (path : Path)
deriving DecidableEq

def Failure.message : Failure → String
  | .unreadable path cause => path ++ " could not be read: " ++ cause.message
  | .invalid path => path ++ " is not a valid configuration: settings expected"

/-- The nearest file that holds settings for a directory. -/
def locate? (files : Files) (directory : Path) : Option Path :=
  (candidates directory).find? files.hasFile

def load (files : Files) (path : Path) : Except Failure Settings := do
  let text ← (files.text path).mapError (.unreadable path)
  match parse? text with
  | some settings => .ok settings
  | none => .error (.invalid path)

/-- The settings for a directory: those of the nearest file, or the defaults if there is none. -/
def find (files : Files) (directory : Path) : Except Failure Settings :=
  match locate? files directory with
  | some path => load files path
  | none => .ok {}

end Settings

end PCode
