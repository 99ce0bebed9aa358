import PCode.Source
import PCode.Ty

namespace PCode

/-- Where a node stands in its source, and its type, `unknown` until it is checked. -/
structure Note where
  span : Span
  ty : Ty := .unknown
deriving DecidableEq

inductive UnaryOp where
  | plus
  | neg
  | not
deriving DecidableEq, Repr

inductive BinaryOp where
  | or
  | and
  | eq
  | ne
  | lt
  | gt
  | add
  | sub
  | mul
  | div
  | mod
deriving DecidableEq, Repr

/-- Expressions. A real literal holds the bits of its value. A member access knows the ordinal of
the member once it is checked. Any expression may stand as a member or as the target of an
assignment; checking accepts only names there. -/
inductive Expr where
  | integer (value : Int64) (note : Note)
  | real (bits : Int64) (note : Note)
  | text (value : String) (note : Note)
  | boolean (value : Bool) (note : Note)
  | name (name : String) (note : Note)
  | unary (op : UnaryOp) (operand : Expr) (note : Note)
  | binary (op : BinaryOp) (left right : Expr) (note : Note)
  | member (target field : Expr) (ordinal : Option Nat) (note : Note)
  | assign (target value : Expr) (note : Note)
  | cond (test thenValue elseValue : Expr) (note : Note)
  | lambda (params : List String) (body : Expr) (note : Note)
  | call (callee : String) (args : List Expr) (note : Note)
  | array (items : List Expr) (note : Note)
  | index (target position : Expr) (note : Note)

/-- Statements. A function is defined by an expression or by a block, with local bindings before
it. -/
inductive Stmt where
  | expr (value : Expr) (note : Note)
  | declare (name : String) (ty : Ty) (note : Note)
  | record (name : String) (members : List (String × Ty)) (note : Note)
  | comment (text : String) (note : Note)
  | ret (value : Expr) (note : Note)
  | define (name : String) (params : List String) (locals : List (String × Expr)) (value : Expr)
      (note : Note)
  | defineBlock (name : String) (params : List String) (locals : List (String × Expr))
      (body : List Stmt) (note : Note)
  | loop (test : Expr) (body : List Stmt) (note : Note)
  | branch (test : Expr) (thenBody elseBody : List Stmt) (note : Note)
  | bind (name : String) (value : Expr) (note : Note)
  | block (body : List Stmt) (note : Note)

abbrev Program := List Stmt

namespace UnaryOp

def symbol : UnaryOp → String
  | .plus => "+"
  | .neg => "-"
  | .not => "!"

end UnaryOp

namespace BinaryOp

def symbol : BinaryOp → String
  | .or => "||"
  | .and => "&&"
  | .eq => "=="
  | .ne => "!="
  | .lt => "<"
  | .gt => ">"
  | .add => "+"
  | .sub => "-"
  | .mul => "*"
  | .div => "/"
  | .mod => "%"

end BinaryOp

namespace Expr

def note : Expr → Note
  | .integer _ note | .real _ note | .text _ note | .boolean _ note | .name _ note
  | .unary _ _ note | .binary _ _ _ note | .member _ _ _ note | .assign _ _ note
  | .cond _ _ _ note | .lambda _ _ note | .call _ _ note | .array _ note | .index _ _ note => note

def span (e : Expr) : Span :=
  e.note.span

def ty (e : Expr) : Ty :=
  e.note.ty

def name? : Expr → Option String
  | .name x _ => some x
  | _ => none

def withTy (ty : Ty) : Expr → Expr
  | .integer v note => .integer v { note with ty }
  | .real v note => .real v { note with ty }
  | .text v note => .text v { note with ty }
  | .boolean v note => .boolean v { note with ty }
  | .name n note => .name n { note with ty }
  | .unary op e note => .unary op e { note with ty }
  | .binary op l r note => .binary op l r { note with ty }
  | .member t f o note => .member t f o { note with ty }
  | .assign t v note => .assign t v { note with ty }
  | .cond c t e note => .cond c t e { note with ty }
  | .lambda ps b note => .lambda ps b { note with ty }
  | .call f args note => .call f args { note with ty }
  | .array items note => .array items { note with ty }
  | .index a i note => .index a i { note with ty }

end Expr

namespace Stmt

def note : Stmt → Note
  | .expr _ note | .declare _ _ note | .record _ _ note | .comment _ note | .ret _ note
  | .define _ _ _ _ note | .defineBlock _ _ _ _ note | .loop _ _ note | .branch _ _ _ note
  | .bind _ _ note | .block _ note => note

def span (s : Stmt) : Span :=
  s.note.span

def ty (s : Stmt) : Ty :=
  s.note.ty

end Stmt

end PCode
