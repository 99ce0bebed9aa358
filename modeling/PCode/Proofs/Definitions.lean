import PCode.Syntax

namespace PCode

/-- What a function is defined by: a value or a block, with bindings before it. -/
inductive Body where
  | value (locals : List (String × Expr)) (value : Expr)
  | block (locals : List (String × Expr)) (body : List Stmt)

namespace Stmt

/-- The function that a statement defines: its name, its parameters and its body. -/
def definition? : Stmt → Option (String × List String × Body)
  | .define name params locals value _ => some (name, params, .value locals value)
  | .defineBlock name params locals body _ => some (name, params, .block locals body)
  | _ => none

/-- Whether one of these statements defines the function of a name. -/
def isDefinedIn (name : String) (body : List Stmt) : Bool :=
  body.any fun s => s.definition?.any (·.1 == name)

/-- Statements that only tell the checker something. -/
def isSilent : Stmt → Bool
  | .declare .. | .record .. | .comment .. => true
  | _ => false

@[simp] theorem isDefinedIn_nil (name : String) : isDefinedIn name [] = false := rfl

theorem isDefinedIn_cons (name : String) (s : Stmt) (body : List Stmt) :
    isDefinedIn name (s :: body) = (s.definition?.any (·.1 == name) || isDefinedIn name body) := rfl

theorem definition?_of_isSilent {s : Stmt} (h : s.isSilent = true) : s.definition? = none := by
  cases s <;> simp [isSilent] at h <;> rfl

mutual

/-- The functions that a statement defines, itself first, at any depth. -/
def defines : Stmt → List String
  | .define name .. => [name]
  | .defineBlock name _ _ body _ => name :: definesList body
  | .loop _ body _ => definesList body
  | .branch _ t e _ => definesList t ++ definesList e
  | .block body _ => definesList body
  | _ => []

def definesList : List Stmt → List String
  | [] => []
  | s :: ss => defines s ++ definesList ss

end

end Stmt

end PCode
