import PCode.Path

namespace PCode

/-- A text with the path it came from. -/
structure Source where
  path : Path
  text : String
deriving DecidableEq

def byteLength : List Char → Nat
  | [] => 0
  | c :: text => c.utf8Size + byteLength text

/-- Cuts a text at a byte offset, unless the offset lies past its end or inside a character. -/
def splitAt? : List Char → Nat → Option (List Char × List Char)
  | text, 0 => some ([], text)
  | [], _ + 1 => none
  | c :: text, offset =>
    if c.utf8Size ≤ offset then
      (splitAt? text (offset - c.utf8Size)).map fun (before, after) => (c :: before, after)
    else none

namespace Source

def defaultPath : Path := "./source"

/-- Two sources are the same if their texts and their paths agree. -/
def same (a b : Source) : Bool :=
  a.text == b.text && a.path.components == b.path.components

def before? (source : Source) (offset : Nat) : Option (List Char) :=
  (splitAt? source.text.toList offset).map Prod.fst

def line? (source : Source) (offset : Nat) : Option Nat :=
  (source.before? offset).map (List.count '\n')

/-- The column of an offset: the number of characters since the last line break. -/
def column? (source : Source) (offset : Nat) : Option Nat :=
  (source.before? offset).map fun text => (text.reverse.takeWhile (· != '\n')).length

def lines (source : Source) : List String :=
  (source.text.toList.splitOn '\n').map String.ofList

end Source

/-- A stretch of a source text: its first byte and its length in bytes. -/
structure Span where
  start : Nat
  length : Nat
deriving DecidableEq

namespace Span

def stop (span : Span) : Nat :=
  span.start + span.length

def point (offset : Nat) : Span :=
  ⟨offset, 0⟩

def between (start stop : Nat) : Span :=
  ⟨start, stop - start⟩

def cover (a b : Span) : Span :=
  between (min a.start b.start) (max a.stop b.stop)

end Span

def Source.slice? (source : Source) (span : Span) : Option (List Char) := do
  let (_, after) ← splitAt? source.text.toList span.start
  let (slice, _) ← splitAt? after span.length
  return slice

/-- A stretch of a known source. -/
structure Region where
  source : Source
  span : Span

namespace Region

/-- The least region that covers both, if they are of one source. -/
def cover? (a b : Region) : Option Region :=
  if a.source.same b.source then some ⟨a.source, a.span.cover b.span⟩ else none

def same (a b : Region) : Bool :=
  a.source.same b.source && a.span == b.span

end Region

end PCode
