import PCode.Syntax
import PCode.Real.Numeral
import PCode.Text.Quoted

namespace PCode

def spaced (words : List String) : String :=
  " ".intercalate words

namespace Expr

mutual

def render : Expr → String
  | .integer value _ => toString value.toInt
  | .real bits _ => Real.render bits
  | .text value _ => Text.quote value
  | .boolean value _ => if value then "true" else "false"
  | .name x _ => x
  | .unary op operand _ => "(" ++ op.symbol ++ " " ++ operand.render ++ ")"
  | .binary op left right _ =>
    "(" ++ op.symbol ++ " " ++ left.render ++ " " ++ right.render ++ ")"
  | .member target field _ _ => "(. " ++ target.render ++ " " ++ field.render ++ ")"
  | .assign target value _ => "(:= " ++ target.render ++ " " ++ value.render ++ ")"
  | .cond test thenValue elseValue _ =>
    "(if " ++ test.render ++ " " ++ thenValue.render ++ " " ++ elseValue.render ++ ")"
  | .lambda params body _ => "(\\ (" ++ spaced params ++ ") " ++ body.render ++ ")"
  | .call callee args _ => "(" ++ callee ++ renderAfter args ++ ")"
  | .array items _ => "[" ++ spaced (renderList items) ++ "]"
  | .index target position _ => "(@ " ++ target.render ++ " " ++ position.render ++ ")"

def renderList : List Expr → List String
  | [] => []
  | e :: es => e.render :: renderList es

def renderAfter : List Expr → String
  | [] => ""
  | e :: es => " " ++ e.render ++ renderAfter es

end

end Expr

namespace Stmt

def renderMembers : List (String × Ty) → String
  | [] => ""
  | (name, ty) :: members => " (" ++ name ++ " " ++ ty.render ++ ")" ++ renderMembers members

def renderLocals : List (String × Expr) → String
  | [] => ""
  | (name, value) :: locals =>
    " (let " ++ name ++ " " ++ value.render ++ ")" ++ renderLocals locals

/-- Statements, already printed behind spaces, between braces. -/
def braced (statements : String) : String :=
  "\x7b" ++ statements ++ " \x7d"

mutual

def render : Stmt → String
  | .expr value _ => value.render
  | .declare name ty _ => "(decl " ++ name ++ " " ++ ty.render ++ ")"
  | .record name members _ => "(set " ++ name ++ renderMembers members ++ ")"
  | .comment text _ => "(# " ++ Text.quote text ++ ")"
  | .ret value _ => "(return " ++ value.render ++ ")"
  | .define name params locals value _ =>
    "(def " ++ name ++ " (" ++ spaced params ++ ")" ++ renderLocals locals ++ " " ++ value.render
      ++ ")"
  | .defineBlock name params locals body _ =>
    "(def " ++ name ++ " (" ++ spaced params ++ ")" ++ renderLocals locals ++ " "
      ++ braced (renderAfter body) ++ ")"
  | .loop test body _ => "(while " ++ test.render ++ " " ++ braced (renderAfter body) ++ ")"
  | .branch test thenBody elseBody _ =>
    "(if " ++ test.render ++ " " ++ braced (renderAfter thenBody) ++ " "
      ++ braced (renderAfter elseBody) ++ ")"
  | .bind name value _ => "(let " ++ name ++ " " ++ value.render ++ ")"
  | .block body _ => braced (renderAfter body)

def renderAfter : List Stmt → String
  | [] => ""
  | s :: ss => " " ++ s.render ++ renderAfter ss

end

end Stmt

def Program.render (program : Program) : String :=
  String.join (program.map fun statement => statement.render ++ "\n")

end PCode
