import PCode.Grammar.Expression
import PCode.Text.Blank

namespace PCode.Grammar

open PCode.Parser

/-- A comment: what follows a `#` on its line, trimmed. -/
def comment : Parser (Note → Stmt) := do
  punct "#"
  let text ← list (satisfy (· != '\n'))
  return .comment (String.ofList (Text.trim text))

def recordMember (ty : Parser Ty) : Parser (String × Ty) := do
  punct "("
  let name ← ident
  let ty ← ty
  punct ")"
  return (name, ty)

def record (ty : Parser Ty) : Parser (Note → Stmt) := do
  keyword "set"
  let name ← ident
  op "="
  let members ← list1 (recordMember ty)
  return .record name members

def declaration (ty : Parser Ty) : Parser (Note → Stmt) := do
  let name ← ident
  op ":"
  let params ← list ty
  op "->"
  let ret ← ty
  return .declare name (.function params false ret)

def binding (expr : Parser Expr) : Parser (String × Expr) := do
  let name ← ident
  op "="
  let value ← expr
  return (name, value)

def localBindings (expr : Parser Expr) : Parser (List (String × Expr)) := do
  keyword "let"
  let first ← binding expr
  let others ← list (right (punct ",") (binding expr))
  keyword "in"
  return first :: others

/-- A parameter stands on the line of the name it belongs to. -/
def parameter : Parser String := fun cursor =>
  if cursor.newlineAhead then none else ident cursor

def definition (expr : Parser Expr) (block : Parser (List Stmt)) : Parser (Note → Stmt) := do
  let name ← ident
  let params ← list parameter
  op "="
  match ← maybe block with
  | some body => return .defineBlock name params [] body
  | none =>
    let locals ← maybe (localBindings expr)
    let value ← expr
    return .define name params (locals.getD []) value

def returning (expr : Parser Expr) : Parser (Note → Stmt) :=
  map (right (keyword "return") expr) .ret

def loop (expr : Parser Expr) (block : Parser (List Stmt)) : Parser (Note → Stmt) := do
  keyword "while"
  let test ← expr
  let body ← block
  return .loop test body

/-- A branch; behind `else` stands a block or, for the fuel's number of times, a further branch. -/
def branch (expr : Parser Expr) (block : Parser (List Stmt)) : Nat → Parser (Note → Stmt)
  | 0 => reject
  | fuel + 1 => do
    keyword "if"
    let test ← expr
    let thenBody ← block
    match ← maybe (keyword "else") with
    | none => return .branch test thenBody []
    | some () =>
      match ← maybe block with
      | some elseBody => return .branch test thenBody elseBody
      | none =>
        let (form, span) ← token (spanned (branch expr block fuel))
        return .branch test thenBody [form ⟨span, .unknown⟩]

def bindStatement (expr : Parser Expr) : Parser (Note → Stmt) := do
  keyword "let"
  let (name, value) ← binding expr
  return .bind name value

def block (statement : Parser Stmt) : Parser (List Stmt) := do
  punct "\x7b"
  let body ← list statement
  punct "\x7d"
  return body

/-- Every form of a statement, in the order in which they are tried. -/
def statementForm (fuel : Nat) (inner : Parser Stmt) : Parser (Note → Stmt) :=
  let ty := type fuel
  let expr := expression fuel
  choice [
    comment,
    record ty,
    declaration ty,
    definition expr (block inner),
    returning expr,
    loop expr (block inner),
    branch expr (block inner) fuel,
    bindStatement expr,
    map (block inner) .block,
    map expr .expr]

/-- A statement, nested at most as deep as the fuel goes. Its span starts at its first token. -/
def statement : Nat → Parser Stmt
  | 0 => reject
  | fuel + 1 =>
    map (token (spanned (statementForm (fuel + 1) (statement fuel)))) fun (form, span) =>
      form ⟨span, .unknown⟩

end PCode.Grammar

namespace PCode

/-- No statement matches at an offset. -/
structure ParseError where
  offset : Nat
deriving DecidableEq

/-- Reads a program: as many statements as match, and then nothing but spacing. -/
def Program.parse (text : String) : Except ParseError Program :=
  let start := Cursor.ofText text
  let (reversed, _, rest) :=
    Parser.repeated (Grammar.statement (start.rest.length + 1)) [] (fun items s => s :: items) start
  let rest := rest.skipSpacing
  if rest.isEmpty then .ok reversed.reverse else .error ⟨rest.offset⟩

end PCode
