import PCode.Proofs.Definitions
import PCode.Symbols

namespace PCode

/-- An expression, the variables that are bound where it stands, and the functions that are defined
at the top level or directly in a block around it. -/
structure Occurrence where
  expr : Expr
  vars : List String
  funs : List String

namespace Occurrence

/-- There is code for expressions of this form: all but lambdas, array literals, indexing and calls
of variables. -/
def Supported (o : Occurrence) : Prop :=
  match o.expr with
  | .lambda .. | .array .. | .index .. => False
  | .call f _ _ => f ∉ o.vars
  | _ => True

/-- What is called and is no variable is the constructor of a record, or defined around the call. -/
def Resolved (Δ : Context) (o : Occurrence) : Prop :=
  match o.expr with
  | .call f _ _ => f ∉ o.vars → Δ.isConstructor f = true ∨ f ∈ o.funs
  | _ => True

end Occurrence

namespace Expr

mutual

/-- The expressions with a value inside an expression: not the name of a member or of the variable
that is assigned. -/
def parts (vars funs : List String) : Expr → List Occurrence
  | .integer .. | .real .. | .text .. | .boolean .. | .name .. => []
  | .unary _ e _ | .member e .. | .assign _ e _ => ⟨e, vars, funs⟩ :: e.parts vars funs
  | .binary _ l r _ | .index l r _ =>
    (⟨l, vars, funs⟩ :: l.parts vars funs) ++ (⟨r, vars, funs⟩ :: r.parts vars funs)
  | .cond c t e _ =>
    (⟨c, vars, funs⟩ :: c.parts vars funs) ++ (⟨t, vars, funs⟩ :: t.parts vars funs)
      ++ (⟨e, vars, funs⟩ :: e.parts vars funs)
  | .lambda params body _ => ⟨body, params ++ vars, funs⟩ :: body.parts (params ++ vars) funs
  | .call _ es _ | .array es _ => partsList vars funs es

def partsList (vars funs : List String) : List Expr → List Occurrence
  | [] => []
  | e :: es => (⟨e, vars, funs⟩ :: e.parts vars funs) ++ partsList vars funs es

end

/-- An expression and those inside it. -/
def occurrences (vars funs : List String) (e : Expr) : List Occurrence :=
  ⟨e, vars, funs⟩ :: e.parts vars funs

end Expr

/-- The expressions of bindings, each in the scope of those before it. -/
def bindingOccurrences (vars funs : List String) : List (String × Expr) → List Occurrence
  | [] => []
  | (x, e) :: es => e.occurrences vars funs ++ bindingOccurrences (x :: vars) funs es

namespace Stmt

/-- The functions that these statements define themselves. -/
def definedIn (body : List Stmt) : List String :=
  body.filterMap fun s => s.definition?.map Prod.fst

/-- The variables that a statement binds for those behind it. -/
def bound : Stmt → List String
  | .bind x _ _ => [x]
  | _ => []

mutual

/-- The expressions of a statement. A body has the functions in scope that it defines itself. -/
def occurrences (vars funs : List String) : Stmt → List Occurrence
  | .expr e _ | .ret e _ | .bind _ e _ => e.occurrences vars funs
  | .declare .. | .record .. | .comment .. => []
  | .define _ params locals e _ =>
    bindingOccurrences (params ++ vars) funs locals
      ++ e.occurrences ((locals.map Prod.fst).reverse ++ (params ++ vars)) funs
  | .defineBlock _ params locals body _ =>
    bindingOccurrences (params ++ vars) funs locals
      ++ occurrencesList ((locals.map Prod.fst).reverse ++ (params ++ vars))
        (definedIn body ++ funs) body
  | .loop c body _ =>
    c.occurrences vars funs ++ occurrencesList vars (definedIn body ++ funs) body
  | .branch c t e _ =>
    c.occurrences vars funs ++ occurrencesList vars (definedIn t ++ funs) t
      ++ occurrencesList vars (definedIn e ++ funs) e
  | .block body _ => occurrencesList vars (definedIn body ++ funs) body

def occurrencesList (vars funs : List String) : List Stmt → List Occurrence
  | [] => []
  | s :: ss => s.occurrences vars funs ++ occurrencesList (s.bound ++ vars) funs ss

end

theorem mem_definedIn {name : String} {body : List Stmt} :
    name ∈ definedIn body ↔ isDefinedIn name body = true := by
  simp only [definedIn, isDefinedIn, List.mem_filterMap, Option.map_eq_some_iff, List.any_eq_true,
    Option.any_eq_true, beq_iff_eq]

theorem definedIn_subset {name : String} : ∀ {body : List Stmt}, name ∈ definedIn body →
    name ∈ definesList body
  | [], h => h
  | s :: ss, h => by
    rw [definesList, List.mem_append]
    rw [mem_definedIn, isDefinedIn_cons, Bool.or_eq_true] at h
    rcases h with h | h
    · left
      cases s <;> simp_all [definition?, defines]
    · exact .inr (definedIn_subset (mem_definedIn.mpr h))

end Stmt

namespace Program

/-- The expressions in the definitions of a program. -/
def occurrences (program : Program) : List Occurrence :=
  (program.filter (·.definition?.isSome)).flatMap (Stmt.occurrences [] (Stmt.definedIn program))

/-- What a typed program needs so that there is code for it. -/
structure Compilable (Δ : Context) (program : Program) : Prop where
  /-- The top level has definitions, declarations, records and comments only. -/
  top : ∀ s ∈ program, s.definition?.isSome = true ∨ s.isSilent = true
  /-- There is code for all forms of expressions in the definitions. -/
  supported : ∀ o ∈ program.occurrences, o.Supported
  /-- All functions that are called are defined around the call. -/
  resolved : ∀ o ∈ program.occurrences, o.Resolved Δ
  /-- The function that is run first is defined at the top level. -/
  main : "main" ∈ Stmt.definedIn program
  /-- It is declared without parameters. -/
  parameters : ∃ variadic ret, Δ.function? "main" = some (.function [] variadic ret)

end Program

end PCode
