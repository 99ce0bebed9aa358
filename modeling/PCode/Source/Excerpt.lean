import PCode.Source
import PCode.Text.Quoted

namespace PCode

/-- The lines that a span touches. Lines and columns are counted from zero. -/
structure Excerpt where
  path : Path
  firstLine : Nat
  lines : List String
  startColumn : Nat
  stopColumn : Nat

namespace Excerpt

def isMultiline (e : Excerpt) : Bool :=
  e.lines.length != 1

def gutter (e : Excerpt) : Nat :=
  (toString (e.firstLine + e.lines.length)).length

/-- How many characters to underline: at least one, and none over several lines. -/
def carets? (e : Excerpt) : Option Nat :=
  if e.isMultiline then none else some (max (e.stopColumn - e.startColumn) 1)

def spaces (count : Nat) : String :=
  String.ofList (List.replicate count ' ')

def numbered (e : Excerpt) (mark : String) (index : Nat) (line : String) : String :=
  let number := toString (e.firstLine + index + 1)
  number ++ spaces (e.gutter - number.length) ++ " " ++ mark ++ " " ++ line ++ "\n"

def body (e : Excerpt) : String :=
  match e.carets? with
  | some count =>
    e.numbered "|" 0 (e.lines.headD "") ++ spaces e.gutter ++ " | " ++ spaces e.startColumn
      ++ String.ofList (List.replicate count '^') ++ "\n"
  | none => String.join (e.lines.mapIdx (e.numbered ">"))

def render (e : Excerpt) : String :=
  "In " ++ e.path ++ ":" ++ toString (e.firstLine + 1) ++ ":"
    ++ toString (e.startColumn + 1) ++ "\n"
    ++ spaces e.gutter ++ " |\n" ++ e.body ++ spaces e.gutter ++ " |\n"

end Excerpt

def dropReturns (line : String) : String :=
  String.ofList (line.toList.reverse.dropWhile (· == '\r')).reverse

/-- The excerpt for a span, if both its ends lie in the source and between characters. -/
def Source.excerpt? (source : Source) (span : Span) : Option Excerpt := do
  let first ← source.line? span.start
  let last ← source.line? span.stop
  let startColumn ← source.column? span.start
  let stopColumn ← source.column? span.stop
  let lines := ((source.lines.drop first).take (last - first + 1)).map dropReturns
  return ⟨source.path, first, lines, startColumn, stopColumn⟩

namespace Region

def excerpt? (region : Region) : Option Excerpt :=
  region.source.excerpt? region.span

/-- A one-line description: the text of the region, quoted, and its two ends. -/
def describe? (region : Region) : Option String := do
  let slice ← region.source.slice? region.span
  return "Span \x7b contents: " ++ Text.quote (String.ofList slice) ++ ", start: "
    ++ toString region.span.start ++ ", end: " ++ toString region.span.stop ++ " \x7d"

end Region

end PCode
