import PCode.Syntax

namespace PCode

/-- A node of a tree, without its children. -/
structure OutlineNode where
  label : String
  note : Note
  /-- For a member access, the ordinal of the member once it is known. -/
  ordinal : Option Nat := none

namespace Expr

def label : Expr → String
  | .integer .. => "integer"
  | .real .. => "real"
  | .text .. => "str"
  | .boolean .. => "bool"
  | .name .. => "iden"
  | .unary op _ _ => "unary " ++ op.symbol
  | .binary op _ _ _ => "binary " ++ op.symbol
  | .member .. => "binary ."
  | .assign .. => "binary :="
  | .cond .. => "if"
  | .lambda .. => "lambda"
  | .call .. => "call"
  | .array .. => "array"
  | .index .. => "index"

mutual

def outline : Expr → List OutlineNode
  | e@(.integer _ note) | e@(.real _ note) | e@(.text _ note) | e@(.boolean _ note)
  | e@(.name _ note) => [⟨e.label, note, none⟩]
  | e@(.unary _ operand note) => ⟨e.label, note, none⟩ :: operand.outline
  | e@(.binary _ left right note) => ⟨e.label, note, none⟩ :: left.outline ++ right.outline
  | e@(.member target field ordinal note) =>
    ⟨e.label, note, ordinal⟩ :: target.outline ++ field.outline
  | e@(.assign target value note) => ⟨e.label, note, none⟩ :: target.outline ++ value.outline
  | e@(.cond test thenValue elseValue note) =>
    ⟨e.label, note, none⟩ :: test.outline ++ thenValue.outline ++ elseValue.outline
  | e@(.lambda _ body note) => ⟨e.label, note, none⟩ :: body.outline
  | e@(.call _ args note) => ⟨e.label, note, none⟩ :: outlineList args
  | e@(.array items note) => ⟨e.label, note, none⟩ :: outlineList items
  | e@(.index target position note) =>
    ⟨e.label, note, none⟩ :: target.outline ++ position.outline

def outlineList : List Expr → List OutlineNode
  | [] => []
  | e :: es => e.outline ++ outlineList es

end

end Expr

namespace Stmt

def label : Stmt → String
  | .expr .. => "stmt expr"
  | .declare .. => "stmt decl"
  | .record .. => "stmt record"
  | .comment .. => "stmt comment"
  | .ret .. => "stmt return"
  | .define .. | .defineBlock .. => "stmt def"
  | .loop .. => "stmt while"
  | .branch .. => "stmt if"
  | .bind .. => "stmt let"
  | .block .. => "stmt block"

mutual

def outline : Stmt → List OutlineNode
  | s@(.declare _ _ note) | s@(.record _ _ note) | s@(.comment _ note) => [⟨s.label, note, none⟩]
  | s@(.expr value note) | s@(.ret value note) | s@(.bind _ value note) =>
    ⟨s.label, note, none⟩ :: value.outline
  | s@(.define _ _ locals value note) =>
    ⟨s.label, note, none⟩ :: locals.flatMap (·.2.outline) ++ value.outline
  | s@(.defineBlock _ _ locals body note) =>
    ⟨s.label, note, none⟩ :: locals.flatMap (·.2.outline) ++ outlineList body
  | s@(.loop test body note) => ⟨s.label, note, none⟩ :: test.outline ++ outlineList body
  | s@(.branch test thenBody elseBody note) =>
    ⟨s.label, note, none⟩ :: test.outline ++ outlineList thenBody ++ outlineList elseBody
  | s@(.block body note) => ⟨s.label, note, none⟩ :: outlineList body

def outlineList : List Stmt → List OutlineNode
  | [] => []
  | s :: ss => s.outline ++ outlineList ss

end

end Stmt

def Program.outline (program : Program) : List OutlineNode :=
  Stmt.outlineList program

end PCode
