import PCode.Grammar.Lexeme
import PCode.Syntax

namespace PCode.Grammar

open PCode.Parser

def typeNamed (name : String) : Ty :=
  if name = "i64" then .i64
  else if name = "real" then .real
  else if name = "string" then .string
  else if name = "bool" then .bool
  else .named name

def arrayType (inner : Parser Ty) : Parser Ty := do
  punct "["
  let element ← inner
  punct "]"
  return .array element

def functionType (inner : Parser Ty) : Parser Ty := do
  punct "("
  let params ← list inner
  op "->"
  let ret ← inner
  punct ")"
  return .function params false ret

def type : Nat → Parser Ty
  | 0 => reject
  | fuel + 1 =>
    choice [
      map (op "...") fun _ => .vararg,
      arrayType (type fuel),
      functionType (type fuel),
      map ident typeNamed]

def node (p : Parser (Note → Expr)) : Parser Expr :=
  map (token (spanned p)) fun (form, span) => form ⟨span, .unknown⟩

def number : Parser Expr := fun cursor =>
  let start := cursor.skipSpacing
  match numeral start with
  | none => none
  | some (n, rest) =>
    let note : Note := ⟨start.spanTo rest, .unknown⟩
    match n.fraction with
    | some fraction => some (.real (Real.ofDigits n.negative n.whole fraction) note, rest)
    | none => n.integer?.map fun value => (.integer value note, rest)

def boolean : Parser (Note → Expr) :=
  alt (map (keyword "true") fun _ => .boolean true) (map (keyword "false") fun _ => .boolean false)

def identifier : Parser (Note → Expr) :=
  map ident .name

def conditional (inner : Parser Expr) : Parser (Note → Expr) := do
  keyword "if"
  let test ← inner
  keyword "then"
  let thenValue ← inner
  keyword "else"
  let elseValue ← inner
  return .cond test thenValue elseValue

def lambda (inner : Parser Expr) : Parser (Note → Expr) := do
  punct "\\"
  let params ← list1 ident
  op "->"
  let body ← inner
  return .lambda params body

def argument (inner : Parser Expr) : Parser Expr := fun cursor =>
  if cursor.newlineAhead then none else inner cursor

def arguments (inner : Parser Expr) : Parser (List Expr) := do
  match ← maybe inner with
  | some first => return first :: (← list (argument inner))
  | none => return []

/-- A call; its opening parenthesis follows the name at once. -/
def call (inner : Parser Expr) : Parser (Note → Expr) := do
  let callee ← ident
  let _ ← literal "("
  let args ← arguments inner
  punct ")"
  return .call callee args

def array (inner : Parser Expr) : Parser (Note → Expr) := do
  punct "["
  let items ← list inner
  punct "]"
  return .array items

/-- An expression in parentheses; it keeps its own span. -/
def group (inner : Parser Expr) : Parser Expr := do
  punct "("
  let value ← inner
  punct ")"
  return value

def atom (inner : Parser Expr) : Parser Expr :=
  choice [
    number,
    node (map quoted .text),
    node boolean,
    node (conditional inner),
    node (lambda inner),
    node (call inner),
    node (array inner),
    node identifier,
    group inner]

/-- What may follow an atom without spacing: a member access or an index. -/
inductive Suffix where
  | member (field : String) (span : Span)
  | index (position : Expr) (closing : Span)

def memberSuffix : Parser Suffix := do
  let (field, span) ← token (spanned ident)
  return .member field span

def indexSuffix (inner : Parser Expr) : Parser Suffix := do
  let _ ← literal "["
  let position ← inner
  let (_, closing) ← token (spanned (literal "]"))
  return .index position closing

def suffix (inner : Parser Expr) : Parser Suffix := do
  match ← maybe (literal ".") with
  | some _ => memberSuffix
  | none => indexSuffix inner

def applySuffix (target : Expr) : Suffix → Expr
  | .member field span =>
    .member target (.name field ⟨span, .unknown⟩) none ⟨target.span.cover span, .unknown⟩
  | .index position closing => .index target position ⟨target.span.cover closing, .unknown⟩

def postfixed (inner : Parser Expr) : Parser Expr :=
  andThen (atom inner) fun first => many (suffix inner) first applySuffix

def unaryOp : Parser UnaryOp :=
  choice [
    map (op "-") fun _ => .neg,
    map (op "+") fun _ => .plus,
    map (op "!") fun _ => .not]

/-- An operand behind any number of prefix operators, at most as many as the fuel. -/
def unary (inner : Parser Expr) : Nat → Parser Expr
  | 0 => reject
  | fuel + 1 => alt (postfixed inner) fun cursor =>
    let start := cursor.skipSpacing
    match pair unaryOp (unary inner fuel) start with
    | some ((op, operand), rest) => some (.unary op operand ⟨start.spanTo rest, .unknown⟩, rest)
    | none => none

def binaryOp (table : List BinaryOp) : Parser BinaryOp :=
  choice (table.map fun operator => map (op operator.symbol) fun _ => operator)

def applyBinary (left : Expr) : BinaryOp × Expr → Expr
  | (op, right) => .binary op left right ⟨left.span.cover right.span, .unknown⟩

/-- The binary operators, loosest first; those of one level group from the left. -/
def levels : List (List BinaryOp) :=
  [[.or], [.and], [.eq, .ne], [.lt, .gt], [.add, .sub], [.mul, .div, .mod]]

def binary (operand : Parser Expr) : List (List BinaryOp) → Parser Expr
  | [] => operand
  | level :: tighter => chainLeft (binary operand tighter) (binaryOp level) applyBinary

def assignment (inner : Parser Expr) : Parser Expr := do
  let (target, span) ← token (spanned ident)
  op ":="
  let value ← inner
  return .assign (.name target ⟨span, .unknown⟩) value ⟨span.cover value.span, .unknown⟩

/-- An expression, nested at most as deep as the fuel goes. -/
def expression : Nat → Parser Expr
  | 0 => reject
  | fuel + 1 =>
    alt (assignment (expression fuel)) (binary (unary (expression fuel) (fuel + 1)) levels)

end PCode.Grammar
