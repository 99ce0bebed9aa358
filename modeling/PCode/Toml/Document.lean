import PCode.Toml.Value

namespace PCode.Toml

open PCode.Parser

/-- Entries under a header. The header of an array section stands between double brackets. -/
structure Section where
  path : List String
  isArray : Bool
  entries : Entries

/-- A document: the entries before the first header, and the sections. -/
structure Document where
  entries : Entries
  sections : List Section

def lineSpace : Parser Unit :=
  many (choice [map (satisfy isBlank) fun _ => (), newline, comment]) () fun _ _ => ()

def entryLine (fuel : Nat) : Parser (List String × Value) :=
  left (keyValue (value fuel)) lineEnd

/-- The lines with keys and values up to the next header. -/
def entryLines (fuel : Nat) : Parser Entries := do
  let pairs ← list (left (entryLine fuel) lineSpace)
  given (insertAll pairs [])

def header : Parser (List String × Bool) := do
  let _ ← literal "["
  let double ← maybe (literal "[")
  blank
  let path ← dottedKey
  let _ ← literal "]"
  if double.isSome then
    let _ ← literal "]"
  lineEnd
  return (path, double.isSome)

def sectionOf (fuel : Nat) : Parser Section := do
  let (path, isArray) ← header
  lineSpace
  let entries ← entryLines fuel
  return ⟨path, isArray, entries⟩

def document (fuel : Nat) : Parser Document := do
  let _ ← maybe (literal "\ufeff")
  lineSpace
  let entries ← entryLines fuel
  let sections ← list (sectionOf fuel)
  atEnd
  return ⟨entries, sections⟩

def goesBelow (path base : List String) : Bool :=
  base.length < path.length && base.isPrefixOf path

/-- Whether a section stands against those before it. A new item of an array above it starts afresh.
Two sections share a path only as items of one array, and an array comes before what lies in it. -/
def clashes (before : List Section) (s : Section) : Bool :=
  let earlier := before.reverse.takeWhile fun other =>
    !(other.isArray && goesBelow s.path other.path)
  let same := earlier.filter (·.path == s.path)
  same.any (fun other => !(other.isArray && s.isArray)) ||
    (s.isArray && same.isEmpty && earlier.any fun other => goesBelow other.path s.path)

def areCompatible : List Section → List Section → Bool
  | _, [] => true
  | before, s :: rest => !clashes before s && areCompatible (before ++ [s]) rest

def parse? (text : String) : Option Document := do
  let cursor := Cursor.ofText text
  let (document, _) ← document (cursor.rest.length + 1) cursor
  if areCompatible [] document.sections then some document else none

end PCode.Toml
