import PCode.Source
import PCode.Text.Blank

namespace PCode

/-- A place in a text between two characters: its byte offset and the text from there on. -/
structure Cursor where
  offset : Nat
  rest : List Char
deriving DecidableEq

namespace Cursor

def ofText (text : String) : Cursor :=
  ⟨0, text.toList⟩

/-- The place at a byte offset, unless it lies past the end or inside a character. -/
def at? (text : String) (offset : Nat) : Option Cursor :=
  (splitAt? text.toList offset).map fun (_, rest) => ⟨offset, rest⟩

def isEmpty (cursor : Cursor) : Bool :=
  cursor.rest.isEmpty

/-- The first place ahead that is not before a spacing character. -/
def skipSpacing (cursor : Cursor) : Cursor :=
  ⟨cursor.offset + byteLength (cursor.rest.takeWhile Text.isSpacing),
    cursor.rest.dropWhile Text.isSpacing⟩

def newlineAhead (cursor : Cursor) : Bool :=
  (cursor.rest.takeWhile Text.isSpacing).contains '\n'

def spanTo (cursor stop : Cursor) : Span :=
  Span.between cursor.offset stop.offset

end Cursor

abbrev Parser := StateT Cursor Option

namespace Parser

variable {α β γ : Type}

def unit (value : α) : Parser α := fun cursor =>
  some (value, cursor)

def reject : Parser α := fun _ =>
  none

/-- The second parser, chosen by the value of the first, goes on behind it. -/
def andThen (p : Parser α) (f : α → Parser β) : Parser β := fun cursor =>
  match p cursor with
  | some (value, rest) => f value rest
  | none => none

def map (p : Parser α) (f : α → β) : Parser β := fun cursor =>
  match p cursor with
  | some (value, rest) => some (f value, rest)
  | none => none

/-- The first parser, or the second from the same place. -/
def alt (p q : Parser α) : Parser α := fun cursor =>
  match p cursor with
  | some reply => some reply
  | none => q cursor

def choice : List (Parser α) → Parser α
  | [] => reject
  | p :: ps => alt p (choice ps)

/-- Folds matches from left to right until there is none, or behind the first that consumes nothing,
for at most `fuel` matches; also counts them. -/
def foldMatches (p : Parser α) (fold : β → α → β) : Nat → β → Nat → Cursor → β × Nat × Cursor
  | 0, acc, count, cursor => (acc, count, cursor)
  | fuel + 1, acc, count, cursor =>
    match p cursor with
    | none => (acc, count, cursor)
    | some (value, rest) =>
      if rest.offset = cursor.offset then (fold acc value, count + 1, rest)
      else foldMatches p fold fuel (fold acc value) (count + 1) rest

/-- All matches in a row. Each but the last consumes a character, so there is at most one more than
there are characters. -/
def repeated (p : Parser α) (init : β) (fold : β → α → β) (cursor : Cursor) : β × Nat × Cursor :=
  foldMatches p fold (cursor.rest.length + 1) init 0 cursor

def many (p : Parser α) (init : β) (fold : β → α → β) : Parser β := fun cursor =>
  let (acc, _, rest) := repeated p init fold cursor
  some (acc, rest)

def many1 (p : Parser α) (init : β) (fold : β → α → β) : Parser β := fun cursor =>
  let (acc, count, rest) := repeated p init fold cursor
  if count = 0 then none else some (acc, rest)

def list (p : Parser α) : Parser (List α) :=
  map (many p [] fun items item => item :: items) List.reverse

def list1 (p : Parser α) : Parser (List α) :=
  map (many1 p [] fun items item => item :: items) List.reverse

def chars (p : Parser Char) : Parser String :=
  many1 p "" String.push

def maybe (p : Parser α) : Parser (Option α) := fun cursor =>
  match p cursor with
  | some (value, rest) => some (some value, rest)
  | none => some (none, cursor)

def pair (p : Parser α) (q : Parser β) : Parser (α × β) :=
  andThen p fun first => map q fun second => (first, second)

def left (p : Parser α) (q : Parser β) : Parser α :=
  map (pair p q) Prod.fst

def right (p : Parser α) (q : Parser β) : Parser β :=
  map (pair p q) Prod.snd

def verify (p : Parser α) (test : α → Bool) : Parser α := fun cursor =>
  match p cursor with
  | some (value, rest) => if test value then some (value, rest) else none
  | none => none

def token (p : Parser α) : Parser α := fun cursor =>
  p cursor.skipSpacing

def satisfy (test : Char → Bool) : Parser Char := fun cursor =>
  match cursor.rest with
  | [] => none
  | c :: rest => if test c then some (c, ⟨cursor.offset + c.utf8Size, rest⟩) else none

def literal (text : String) : Parser String := fun cursor =>
  if text.toList.isPrefixOf cursor.rest then
    some (text, ⟨cursor.offset + byteLength text.toList, cursor.rest.drop text.toList.length⟩)
  else none

def spanned (p : Parser α) : Parser (α × Span) := fun cursor =>
  match p cursor with
  | some (value, rest) => some ((value, cursor.spanTo rest), rest)
  | none => none

/-- Operands with operators between them, folded from the left. -/
def chainLeft (operand : Parser α) (operator : Parser β) (fold : α → β × α → α) : Parser α :=
  andThen operand fun first => many (pair operator operand) first fold

def here : Parser Cursor := fun cursor =>
  some (cursor, cursor)

end Parser

end PCode
