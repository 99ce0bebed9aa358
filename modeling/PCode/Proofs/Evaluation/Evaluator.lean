import PCode.Machine.Image
import PCode.Proofs.Definitions

namespace PCode.Evaluation

/-- A value is a row of cells; that of a record is made of those of its members. -/
abbrev Value := List Cell

/-- Why evaluation gives no value: nothing is said about the result, the fuel is used up, or the
program is not one that checking accepts and compilation supports. -/
inductive Stop where
  | undefined
  | timeout
  | stuck
deriving DecidableEq, Repr

/-- The contents of each location. -/
abbrev Store := List (Option Value)

/-- Evaluation of something. -/
abbrev Eval := StateT Store (Except Stop)

/-- What a scope adds: a variable with its location, or a block with the location of the first
variable that it binds. -/
inductive Binding where
  | var (name : String) (location : Nat)
  | block (body : List Stmt) (first : Nat)

/-- Innermost first. -/
abbrev Scope := List Binding

/-- A function with the scope of its definition. -/
structure Closure where
  params : List String
  body : Body
  scope : Scope

/-- What evaluation knows of the whole program: its records, and where its strings stand. -/
structure Setting where
  context : Context
  strings : Pool

/-- How a function is called. -/
abbrev Caller := Closure → List Value → Eval Value

/-- The variables that a block binds itself. -/
def locals : List Stmt → Nat
  | [] => 0
  | .bind .. :: body => locals body + 1
  | _ :: body => locals body

/-- The function of a name that statements define; `next` is the location of the next variable. -/
def definitionIn (name : String) (next : Nat) (ρ : Scope) : List Stmt → Option Closure
  | [] => none
  | .bind x _ _ :: body => definitionIn name (next + 1) (.var x next :: ρ) body
  | s :: body =>
    match s.definition? with
    | some (other, params, value) =>
      if other = name then some ⟨params, value, ρ⟩ else definitionIn name next ρ body
    | none => definitionIn name next ρ body

namespace Scope

/-- The location of a variable. -/
def var? (name : String) : Scope → Option Nat
  | [] => none
  | .var x location :: ρ => if x = name then some location else var? name ρ
  | .block .. :: ρ => var? name ρ

/-- The function of a name. -/
def function? (name : String) : Scope → Option Closure
  | [] => none
  | .var .. :: ρ => function? name ρ
  | .block body first :: ρ =>
    (definitionIn name first (.block body first :: ρ) body).or (function? name ρ)

end Scope

def stop {α : Type} (cause : Stop) : Eval α := fun _ => .error cause

/-- The value of an option that should be there. -/
def require {α : Type} : Option α → Eval α
  | some a => pure a
  | none => stop .stuck

/-- The contents of a location. -/
def read (location : Nat) : Eval Value := fun σ =>
  match σ[location]? with
  | some (some v) => .ok (v, σ)
  | some none => .error .undefined
  | none => .error .stuck

/-- Replaces the contents of a location. -/
def assign (location : Nat) (v : Value) : Eval Unit := fun σ =>
  match σ[location]? with
  | some (some _) => .ok ((), σ.set location (some v))
  | some none => .error .undefined
  | none => .error .stuck

/-- Gives a location its first contents. -/
def settle (location : Nat) (v : Value) : Eval Unit := fun σ =>
  .ok ((), σ.set location (some v))

/-- New locations without contents; gives the first. -/
def reserve (count : Nat) : Eval Nat := fun σ =>
  .ok (σ.length, σ ++ List.replicate count none)

/-- A new location with contents. -/
def allocate (v : Value) : Eval Nat := fun σ =>
  .ok (σ.length, σ ++ [some v])

/-- The only cell of a value. -/
def single : Value → Eval Cell
  | [c] => pure c
  | _ => stop .stuck

/-- A sign or negation acts on a cell as the machine's operator of that kind does. -/
def unary (op : UnaryOp) (ty : Ty) (c : Cell) : Cell :=
  match op with
  | .plus => c
  | .neg => if ty = .real then Operator.realNeg.apply 0 c else Operator.neg.apply 0 c
  | .not => Operator.not.apply 0 c

/-- The operator on integers and truth values. -/
def onCells : BinaryOp → Operator
  | .or => .or
  | .and => .and
  | .eq => .eq
  | .ne => .ne
  | .lt => .lt
  | .gt => .gt
  | .add => .add
  | .sub => .sub
  | .mul => .mul
  | .div => .div
  | .mod => .mod

/-- The operator on reals, where there is one. -/
def onReals : BinaryOp → Operator
  | .eq => .realEq
  | .ne => .realNe
  | .lt => .realLt
  | .gt => .realGt
  | .add => .realAdd
  | .sub => .realSub
  | .mul => .realMul
  | .div => .realDiv
  | op => onCells op

def binary (op : BinaryOp) (ty : Ty) (a b : Cell) : Cell :=
  (if ty = .real then onReals op else onCells op).apply a b

mutual

/-- The value of an expression. Operands and arguments are evaluated from left to right. -/
def expr (S : Setting) (call : Caller) (ρ : Scope) : Expr → Eval Value
  | .integer v _ | .real v _ => pure [v]
  | .text v _ => do return [Int64.ofInt (← require (S.strings.findIdx? (· == v)))]
  | .boolean v _ => pure [.ofBool v]
  | .name x _ => do read (← require (ρ.var? x))
  | .unary op e _ => do
    let c ← single (← expr S call ρ e)
    return [unary op e.ty c]
  | .binary op l r _ => do
    let a ← single (← expr S call ρ l)
    let b ← single (← expr S call ρ r)
    return [binary op l.ty a b]
  | .member e _ ordinal note => do
    let v ← expr S call ρ e
    let offset ← require (ordinal.bind e.ty.memberOffset?)
    return (v.drop offset).take note.ty.size
  | .assign target e _ => do
    let location ← require (target.name?.bind ρ.var?)
    let v ← expr S call ρ e
    assign location v
    return v
  | .cond c t e _ => do
    let test ← single (← expr S call ρ c)
    if test = 0 then expr S call ρ e else expr S call ρ t
  | .call f args _ =>
    if (ρ.var? f).isSome then stop .stuck
    else if S.context.isConstructor f then do return (← exprs S call ρ args).flatten
    else do
      let closure ← require (ρ.function? f)
      call closure (← exprs S call ρ args)
  | .lambda .. | .array .. | .index .. => stop .stuck

def exprs (S : Setting) (call : Caller) (ρ : Scope) : List Expr → Eval (List Value)
  | [] => pure []
  | e :: es => do
    let v ← expr S call ρ e
    let vs ← exprs S call ρ es
    return v :: vs

end

/-- Runs a body as long as a test holds and nothing is returned. -/
def iterate (test : Eval Cell) (body : Eval (Option Value)) : Nat → Eval (Option Value)
  | 0 => stop .timeout
  | fuel + 1 => do
    let c ← test
    if c = 0 then return none
    else
      match ← body with
      | some v => return some v
      | none => iterate test body fuel

mutual

/-- Runs a statement; gives the value that is returned, if one is. -/
def stmt (S : Setting) (call : Caller) (fuel : Nat) (ρ : Scope) : Stmt → Eval (Option Value)
  | .expr e _ | .bind _ e _ => do
    let _ ← expr S call ρ e
    return none
  | .declare .. | .record .. | .comment .. | .define .. | .defineBlock .. => pure none
  | .ret e _ => do return some (← expr S call ρ e)
  | .loop c body _ =>
    iterate (do single (← expr S call ρ c)) (do
      let first ← reserve (locals body)
      stmts S call fuel (.block body first :: ρ) first body) fuel
  | .branch c t e _ => do
    let test ← single (← expr S call ρ c)
    if test = 0 then
      let first ← reserve (locals e)
      stmts S call fuel (.block e first :: ρ) first e
    else
      let first ← reserve (locals t)
      stmts S call fuel (.block t first :: ρ) first t
  | .block body _ => do
    let first ← reserve (locals body)
    stmts S call fuel (.block body first :: ρ) first body

/-- Runs statements in a row; `next` is the location of the next variable. -/
def stmts (S : Setting) (call : Caller) (fuel : Nat) (ρ : Scope) (next : Nat) :
    List Stmt → Eval (Option Value)
  | [] => pure none
  | .bind x e _ :: body => do
    settle next (← expr S call ρ e)
    stmts S call fuel (.var x next :: ρ) (next + 1) body
  | s :: body => do
    match ← stmt S call fuel ρ s with
    | some v => return some v
    | none => stmts S call fuel ρ next body

end

/-- Binds names to new locations with these values. -/
def bindAll (ρ : Scope) : List (String × Value) → Eval Scope
  | [] => pure ρ
  | (x, v) :: rest => do bindAll (.var x (← allocate v) :: ρ) rest

/-- Evaluates bindings, each in the scope of those before it. -/
def bindings (S : Setting) (call : Caller) (ρ : Scope) : List (String × Expr) → Eval Scope
  | [] => pure ρ
  | (x, e) :: rest => do
    let location ← allocate (← expr S call ρ e)
    bindings S call (.var x location :: ρ) rest

/-- The value of a body. A block has to return one. -/
def body (S : Setting) (call : Caller) (fuel : Nat) (ρ : Scope) : Body → Eval Value
  | .value bound e => do
    let ρ ← bindings S call ρ bound
    expr S call ρ e
  | .block bound body => do
    let ρ ← bindings S call ρ bound
    let first ← reserve (locals body)
    match ← stmts S call fuel (.block body first :: ρ) first body with
    | some v => return v
    | none => stop .undefined

/-- Calls a function; arguments beyond its parameters are ignored. The fuel bounds how deep calls
nest and how often a loop turns. -/
def invoke (S : Setting) : Nat → Caller
  | 0 => fun _ _ => stop .timeout
  | fuel + 1 => fun closure args => do
    let ρ ← bindAll closure.scope (closure.params.zip args)
    body S (invoke S fuel) fuel ρ closure.body

/-- The value of a program is that of its function `main`. -/
def program (S : Setting) (fuel : Nat) (p : Program) : Except Stop Value :=
  match Scope.function? "main" [.block p 0] with
  | some main => (invoke S fuel main [] []).map Prod.fst
  | none => .error .stuck

end PCode.Evaluation
