import PCode.Parser
import PCode.Real.Numeral
import PCode.Text.Alphanumeric
import PCode.Text.Digits

namespace PCode.Grammar

open PCode.Parser

def keywords : List String :=
  ["if", "then", "else", "while", "return", "let", "in", "set", "true", "false"]

def isWordChar (c : Char) : Bool :=
  Text.isAlphanumeric c || c == '_'

/-- A run of word characters that does not start with a digit. -/
def word : Parser String :=
  token (verify (chars (satisfy isWordChar)) fun word => !(word.toList.headD 'a').isDigit)

def ident : Parser String :=
  verify word fun word => !keywords.contains word

def keyword (expected : String) : Parser Unit :=
  map (verify word (· == expected)) fun _ => ()

def punct (symbol : String) : Parser Unit :=
  map (token (literal symbol)) fun _ => ()

/-- The characters that would make a longer operator of the one before them. -/
def extendsOperator (c : Char) : Bool :=
  c == '=' || c == '>' || c == '&' || c == '|'

/-- A symbol that is not the start of a longer operator. -/
def op (symbol : String) : Parser Unit := do
  punct symbol
  let cursor ← here
  match cursor.rest with
  | c :: _ => if extendsOperator c then reject else return ()
  | [] => return ()

def digits : Parser String :=
  chars (satisfy Char.isDigit)

/-- A numeral: whether it has a sign, its digits, and those behind a point. -/
structure Numeral where
  negative : Bool
  whole : List Char
  fraction : Option (List Char)

/-- A numeral; the sign, the digits and the point stand next to each other. -/
def numeral : Parser Numeral := do
  let sign ← maybe (literal "-")
  let whole ← digits
  let fraction ← maybe (right (literal ".") digits)
  return ⟨sign.isSome, whole.toList, fraction.map String.toList⟩

/-- The integer that a sign and digits spell, if it fits a cell. -/
def Numeral.integer? (n : Numeral) : Option Int64 :=
  Text.word? 10 n.negative n.whole

/-- One character of a quoted string: an escape, or anything but a quote and a backslash. -/
def stringChar : Parser Char :=
  choice [
    map (literal "\\n") fun _ => '\n',
    map (literal "\\t") fun _ => '\t',
    map (literal "\\\\") fun _ => '\\',
    map (literal "\\\"") fun _ => '"',
    satisfy fun c => c != '"' && c != '\\']

def quoted : Parser String := do
  let _ ← literal "\""
  let contents ← many stringChar "" String.push
  let _ ← literal "\""
  return contents

end PCode.Grammar
