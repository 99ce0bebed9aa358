import PCode.Syntax

namespace PCode.Stmt

mutual

/-- The names that a statement declares, defines or sets, in order. -/
def names : Stmt → List String
  | .declare name _ _ | .record name _ _ | .define name _ _ _ _ => [name]
  | .defineBlock name _ _ body _ => name :: namesList body
  | .loop _ body _ | .block body _ => namesList body
  | .branch _ thenBody elseBody _ => namesList thenBody ++ namesList elseBody
  | .expr .. | .comment .. | .ret .. | .bind .. => []

def namesList : List Stmt → List String
  | [] => []
  | s :: ss => s.names ++ namesList ss

end

end PCode.Stmt
