import PCode.Parser
import PCode.Real.Nearest
import PCode.Text.Digits

namespace PCode.Toml

open PCode.Parser
open PCode.Text (digitValue spelled splitSign word?)

/-- A value. Of a float only its presence matters here. A table that dotted keys have opened may
be extended by further dotted keys. -/
inductive Value where
  | integer (value : Int64)
  | float
  | boolean (value : Bool)
  | string (value : String)
  | array (items : List Value)
  | table (dotted : Bool) (entries : List (String × Value))

abbrev Entries := List (String × Value)

def isBlank (c : Char) : Bool :=
  c == ' ' || c == '\t'

def blank : Parser Unit :=
  many (satisfy isBlank) () fun _ _ => ()

def newline : Parser Unit :=
  map (alt (literal "\n") (literal "\r\n")) fun _ => ()

def atEnd : Parser Unit := fun cursor =>
  if cursor.isEmpty then some ((), cursor) else none

/-- What may stand in a comment: anything but control characters other than the tab. -/
def isCommentChar (c : Char) : Bool :=
  c == '\t' || ' ' ≤ c

def comment : Parser Unit := do
  let _ ← literal "#"
  many (satisfy isCommentChar) () fun _ _ => ()
  alt newline atEnd

def lineEnd : Parser Unit := do
  blank
  choice [comment, newline, atEnd]

def isWordChar (c : Char) : Bool :=
  c.isAlphanum || c == '_' || c == '-'

def bareWord : Parser String :=
  chars (satisfy isWordChar)

def isPlain (c : Char) : Bool :=
  c == '\t' || (' ' ≤ c && c != '\x7f')

def isHexDigit (c : Char) : Bool :=
  c.isDigit || ('a' ≤ c && c ≤ 'f') || ('A' ≤ c && c ≤ 'F')

def hexDigits : Nat → Parser (List Char)
  | 0 => unit []
  | count + 1 => do
    let c ← satisfy isHexDigit
    return c :: (← hexDigits count)

/-- The character with a code point given by its digits. -/
def codePoint (count : Nat) : Parser Char := do
  let digits ← hexDigits count
  let code := spelled 16 digits
  if code < 0xd800 || (0xe000 ≤ code && code < 0x110000) then return Char.ofNat code else reject

def escape : Parser Char :=
  choice [
    map (literal "\"") fun _ => '"',
    map (literal "\\") fun _ => '\\',
    map (literal "b") fun _ => '\x08',
    map (literal "f") fun _ => '\x0c',
    map (literal "n") fun _ => '\n',
    map (literal "r") fun _ => '\r',
    map (literal "t") fun _ => '\t',
    right (literal "u") (codePoint 4),
    right (literal "U") (codePoint 8)]

def basicChar : Parser Char :=
  alt (right (literal "\\") escape) (satisfy fun c => isPlain c && c != '"' && c != '\\')

def basicString : Parser String := do
  let _ ← literal "\""
  let text ← many basicChar "" String.push
  let _ ← literal "\""
  return text

def literalString : Parser String := do
  let _ ← literal "'"
  let text ← many (satisfy fun c => isPlain c && c != '\'') "" String.push
  let _ ← literal "'"
  return text

/-- A parser that looks ahead: it matches where another does not, and consumes nothing. -/
def absent (p : Parser String) : Parser Unit := fun cursor =>
  match p cursor with
  | some _ => none
  | none => some ((), cursor)

/-- Line breaks and blanks behind a backslash at the end of a line are skipped. -/
def continuation : Parser String := do
  let _ ← literal "\\"
  blank
  newline
  many (alt (map (satisfy isBlank) fun _ => ()) newline) () fun _ _ => ()
  return ""

/-- A string of several lines between three quotes. The line break behind the first three does not
belong to it; up to two more quotes behind the last three do. -/
def longString (quote : String) (piece : Parser String) : Parser String := do
  let quotes := quote ++ quote ++ quote
  let _ ← literal quotes
  let _ ← maybe newline
  let text ← many (right (absent (literal quotes)) piece) "" String.append
  let _ ← literal quotes
  let extra ← maybe (literal quote)
  let more ← maybe (literal quote)
  return text ++ extra.getD "" ++ more.getD ""

def longBasicString : Parser String :=
  longString "\"" <| choice [
    continuation,
    map (right (literal "\\") escape) Char.toString,
    map newline fun _ => "\n",
    map (satisfy fun c => isPlain c && c != '\\') Char.toString]

def longLiteralString : Parser String :=
  longString "'" <| alt (map newline fun _ => "\n") (map (satisfy isPlain) Char.toString)

def key : Parser String :=
  choice [bareWord, basicString, literalString]

def dottedKey : Parser (List String) := do
  let first ← key
  blank
  let others ← list do
    let _ ← literal "."
    blank
    let part ← key
    blank
    return part
  return first :: others

def isDigitIn (radix : Nat) (c : Char) : Bool :=
  isHexDigit c && digitValue c < radix

/-- The digits at the start of a word, with single underscores between them, and what follows.
Unless leading zeros are allowed, a zero stands alone. -/
def digitRun (radix : Nat) (leadingZeros : Bool) (word : List Char) :
    Option (List Char × List Char) :=
  go word [] false
where
  go : List Char → List Char → Bool → Option (List Char × List Char)
    | [], digits, gap => finish digits [] gap
    | c :: rest, digits, gap =>
      if isDigitIn radix c then
        if digits = ['0'] && !leadingZeros then none else go rest (digits ++ [c]) false
      else if c = '_' && !digits.isEmpty && !gap then go rest digits true
      else if c = '_' && digits.isEmpty then none
      else finish digits (c :: rest) gap
  finish (digits rest : List Char) (gap : Bool) : Option (List Char × List Char) :=
    if digits.isEmpty || gap then none else some (digits, rest)

def integer? (radix : Nat) (signed : Bool) (word : List Char) : Option Value := do
  let (negative, digits) := if signed then splitSign word else (false, word)
  let (digits, rest) ← digitRun radix (radix != 10) digits
  if rest.isEmpty then (word? radix negative digits).map .integer else none

/-- Whether a decimal with these digits, this many of them behind its point, and an exponent is
below the bound of the finite reals. -/
def isFinite (digits : List Char) (places : Nat) (exponent : Int) : Bool :=
  let significant := digits.dropWhile (· == '0')
  let magnitude : Int := significant.length - places + exponent
  if significant.isEmpty || magnitude < 300 then true
  else if 320 < magnitude then false
  else
    let power := exponent - places
    Real.nearest (spelled 10 significant * Nat.pow 10 power.toNat) (Nat.pow 10 (-power).toNat)
      < Real.infinityBits

/-- The exponent of a float: `e` and digits, perhaps with a sign, at the end of a word; a plus
sign ends the word. -/
def exponent (suffix : List Char) : Parser Int :=
  match suffix with
  | [] => unit 0
  | e :: rest =>
    if e = 'e' || e = 'E' then do
      let (negative, digits) ←
        if rest.isEmpty then do
          let _ ← maybe (literal "+")
          let word ← bareWord
          pure (false, word.toList)
        else pure (splitSign rest)
      match digitRun 10 true digits with
      | some (digits, []) =>
        let value : Int := spelled 10 digits
        return if negative then -value else value
      | _ => reject
    else reject

/-- A float whose word is given and whose fraction, if any, stands behind a point. -/
def float (word : List Char) (fraction : Option (List Char)) : Parser Value := do
  match digitRun 10 false (splitSign word).2, fraction with
  | some (whole, suffix), none =>
    let power ← exponent suffix
    if isFinite whole 0 power then return .float else reject
  | some (whole, []), some fraction =>
    match digitRun 10 true fraction with
    | some (places, suffix) =>
      let power ← exponent suffix
      if isFinite (whole ++ places) places.length power then return .float else reject
    | none => reject
  | _, _ => reject

def given {α : Type} : Option α → Parser α
  | some value => unit value
  | none => reject

def numberOf (word : String) : Parser Value := do
  match word.toList with
  | '0' :: 'x' :: digits => given (integer? 16 false digits)
  | '0' :: 'o' :: digits => given (integer? 8 false digits)
  | '0' :: 'b' :: digits => given (integer? 2 false digits)
  | chars =>
    if chars.contains 'e' || chars.contains 'E' then float chars none
    else
      match ← maybe (literal ".") with
      | some _ => float chars (some (← bareWord).toList)
      | none =>
        if ["inf", "-inf", "nan", "-nan"].contains word then return .float
        else given (integer? 10 true chars)

/-- A word that is no string: a truth value or a number. -/
def wordValue : Parser Value := do
  let word ← bareWord
  if word = "true" then return .boolean true
  else if word = "false" then return .boolean false
  else if word = "inf" || word = "nan" then return .float
  else
    match word.toList with
    | c :: _ => if c = '-' || c.isDigit then numberOf word else reject
    | [] => reject

/-- Adds a value under a dotted key. Every part but the last opens a table or goes on with one that
dotted keys have opened. -/
def insertAt : List String → Value → Entries → Option Entries
  | [], _, _ => none
  | [name], value, entries => some (entries ++ [(name, value)])
  | name :: names, value, entries =>
    match entries.find? (·.1 == name) with
    | none => do
      let inner ← insertAt names value []
      some (entries ++ [(name, .table true inner)])
    | some (_, .table true inner) => do
      let inner ← insertAt names value inner
      some (entries.map fun entry => if entry.1 == name then (name, .table true inner) else entry)
    | some _ => none

def keyValue (value : Parser Value) : Parser (List String × Value) := do
  let names ← dottedKey
  let _ ← literal "="
  blank
  let value ← value
  return (names, value)

def insertAll (pairs : List (List String × Value)) (entries : Entries) : Option Entries :=
  pairs.foldlM (fun entries (names, value) => insertAt names value entries) entries

def inlineTable (value : Parser Value) : Parser Value := do
  let _ ← literal "\x7b"
  blank
  match ← maybe (literal "\x7d") with
  | some _ => return .table false []
  | none =>
    let first ← left (keyValue value) blank
    let others ← list do
      let _ ← literal ","
      blank
      left (keyValue value) blank
    let _ ← literal "\x7d"
    let entries ← given (insertAll (first :: others) [])
    return .table false entries

/-- Blanks, line breaks and comments between the items of an array. -/
def arraySpace : Parser Unit :=
  many (choice [map (satisfy isBlank) fun _ => (), newline, comment]) () fun _ _ => ()

def array (value : Parser Value) : Parser Value := do
  let _ ← literal "["
  arraySpace
  let items ← maybe value
  match items with
  | none =>
    let _ ← literal "]"
    return .array []
  | some first =>
    arraySpace
    let others ← list do
      let _ ← literal ","
      arraySpace
      left value arraySpace
    let _ ← maybe (literal ",")
    arraySpace
    let _ ← literal "]"
    return .array (first :: others)

def value : Nat → Parser Value
  | 0 => reject
  | fuel + 1 =>
    choice [
      map longBasicString .string,
      map basicString .string,
      map longLiteralString .string,
      map literalString .string,
      wordValue,
      right (literal "+") (andThen bareWord numberOf),
      inlineTable (value fuel),
      array (value fuel)]

end PCode.Toml
