import PCode.Codegen.Expression

namespace PCode.Codegen

/-- Enters the functions that statements define, so that they can be called before they are
defined. -/
def hoist (env : Env) : List Stmt → Env
  | [] => env
  | .define name .. :: statements | .defineBlock name .. :: statements =>
    hoist { env with funs := env.funs.insert name env.level } statements
  | _ :: statements => hoist env statements

def binding (env : Env) (start : Nat) (name : String) (value : Expr) : Gen (List Item × Env) := do
  let size := value.ty.size
  let offset ← allocate size
  let code ← expr env start value
  return (code ++ env.storeCells 0 offset size, env.bind name offset value.ty)

/-- Bindings one after the other, each in the scope of those before it. -/
def bindings (env : Env) (start : Nat) : List (String × Expr) → Gen (List Item × Env)
  | [] => pure ([], env)
  | (name, value) :: others => do
    let (code, env) ← binding env start name value
    let (rest, env) ← bindings env (start + code.length) others
    return (code ++ rest, env)

/-- Evaluates an expression for its effect; an assignment is not loaded again. -/
def effect (env : Env) (start : Nat) : Expr → Gen (List Item)
  | .assign target value _ => do
    let slot ← assigned env target
    let code ← expr env start value
    return code ++ env.store slot
  | e => do
    let code ← expr env start e
    let size := e.ty.size
    return if size = 0 then code else code ++ [env.item .ini 0 (-size)]

/-- Gives the parameters the first cells behind the header. -/
def parameters (env : Env) : List (String × Ty) → Gen Env
  | [] => pure env
  | (name, ty) :: params => do
    let offset ← allocate ty.size
    parameters (env.bind name offset ty) params

/-- The declared types of a function's parameters and result. -/
def signature (env : Env) (name : String) (span : Span) : Gen (List Ty × Ty) :=
  match env.context.function? name with
  | some (.function types _ result) => pure (types, result)
  | _ => fail (.noSignature name) span

/-- The code of a function that starts at an address: room for its variables, the body, and a
return, which is `closing` behind a block. The body is given its scope and its address. -/
def function (env : Env) (start : Nat) (name : String) (params : List String) (span : Span)
    (closing : Bool) (body : Env → Nat → Gen (List Item)) : Gen (List Item) := do
  let (types, result) ← signature env name span
  let outer ← get
  set { outer with functions := outer.functions.insert name start, size := headerSize }
  let inner ← parameters { env with path := name :: env.path } (params.zip types)
  let first := (← get).size
  let code ← body inner (start + 1)
  let last ← get
  set { last with size := outer.size }
  return [inner.item .ini 0 (last.size - first : Nat)] ++ code
    ++ [.line ⟨inner.path, ⟨.ret, 0, Int64.ofInt result.size⟩, closing⟩]

/-- Bindings, and what stands behind them in their scope. -/
def withBindings (env : Env) (start : Nat) (locals : List (String × Expr))
    (body : Env → Nat → Gen (List Item)) : Gen (List Item) := do
  let (code, env) ← bindings env start locals
  let rest ← body env (start + code.length)
  return code ++ rest

def equation (env : Env) (start : Nat) (name : String) (params : List String)
    (locals : List (String × Expr)) (value : Expr) (span : Span) : Gen (List Item) :=
  function env start name params span false fun env start =>
    withBindings env start locals fun env start => expr env start value

def skipped (env : Env) (start : Nat) (code : List Item) : List Item :=
  env.item .jmp 0 (start + 1 + code.length : Nat) :: code

mutual

def stmt (env : Env) (start : Nat) : Stmt → Gen (List Item × Env)
  | .expr value _ => do return (← effect env start value, env)
  | .declare .. | .record .. | .comment .. => pure ([], env)
  | .ret value _ => do
    let code ← expr env start value
    return (code ++ [env.item .ret 0 value.ty.size], env)
  | .define name params locals value note => do
    let code ← equation env (start + 1) name params locals value note.span
    return (skipped env start code, env)
  | .defineBlock name params locals body note => do
    let code ← function env (start + 1) name params note.span true fun env start =>
      withBindings env start locals fun env start => do
        let (code, _) ← stmts (hoist env body) start body
        return code
    return (skipped env start code, env)
  | .loop test body _ => do
    let testCode ← expr env start test
    let bodyStart := start + testCode.length + 1
    let (bodyCode, _) ← stmts (hoist env body) bodyStart body
    let exit := bodyStart + bodyCode.length + 1
    return (testCode ++ [env.item .jpc 0 exit] ++ bodyCode ++ [env.item .jmp 0 start], env)
  | .branch test thenBody elseBody _ => do
    let testCode ← expr env start test
    let start := start + testCode.length
    let (thenCode, _) ← stmts (hoist env thenBody) (start + 1) thenBody
    let (elseCode, _) ← stmts (hoist env elseBody) (start + 1 + thenCode.length + 1) elseBody
    return (testCode ++ choose env start thenCode elseCode, env)
  | .bind name value _ => binding env start name value
  | .block body _ => do
    let (code, _) ← stmts (hoist env body) start body
    return (code, env)

/-- The code of statements in a row, and the scope behind the last. -/
def stmts (env : Env) (start : Nat) : List Stmt → Gen (List Item × Env)
  | [] => pure ([], env)
  | s :: ss => do
    let (code, env) ← stmt env start s
    let (rest, env) ← stmts env (start + code.length) ss
    return (code ++ rest, env)

end

def block (env : Env) (start : Nat) (body : List Stmt) : Gen (List Item) := do
  let (code, _) ← stmts (hoist env body) start body
  return code

/-- The code of the functions of a program. Only definitions have code at the top level. -/
def topLevel (env : Env) (start : Nat) : List Stmt → Gen (List Item)
  | [] => pure []
  | s :: ss => do
    let code ← match s with
      | .define name params locals value note =>
        equation env start name params locals value note.span
      | .defineBlock name params locals body note =>
        function env start name params note.span true fun env start =>
          withBindings env start locals fun env start => block env start body
      | .declare .. | .record .. | .comment .. => pure []
      | other => fail .topLevelStatement other.span
    let rest ← topLevel env (start + code.length) ss
    return code ++ rest

/-- Fills in the calls of functions whose entries are known at the end. -/
def link (functions : Table Nat) : List Item → Except CodegenError (List Line)
  | [] => .ok []
  | .line l :: items => do return l :: (← link functions items)
  | .forward owner level name span :: items =>
    match functions.get? name with
    | none => .error ⟨.neverDefined name, some span⟩
    | some entry => do
      return { owner, instruction := ⟨.cal, level, Int64.ofNat entry⟩ } :: (← link functions items)

/-- The entry of `main`, which is defined at the top level and has no parameters. -/
def mainEntry (env : Env) (functions : Table Nat) : Except CodegenError Nat :=
  match functions.get? "main" with
  | none => .error ⟨.noMain, none⟩
  | some entry =>
    if env.funs.contains "main" then
      match env.context.function? "main" with
      | some (.function (_ :: _) _ _) => .error ⟨.mainParameters, none⟩
      | _ => .ok entry
    else .error ⟨.noMain, none⟩

/-- The lines of a program with its strings and the entries of its functions. -/
structure Listing where
  lines : List Line
  strings : Pool
  functions : Table Nat

def Listing.image (listing : Listing) : Image :=
  ⟨(listing.lines.map Line.instruction).toArray, listing.strings, listing.functions⟩

end PCode.Codegen

namespace PCode

open Codegen

/-- The listing of a program, given what checking has found about it. -/
def Program.listing (context : Context) (program : Program) : Except CodegenError Listing := do
  let env := hoist { context } program
  let (functions, frame) ← topLevel env 1 program {}
  let main ← mainEntry env frame.functions
  let items := [env.item .jmp 0 (1 + functions.length : Nat)] ++ functions
    ++ [env.item .cap 0 0, env.item .cal 0 main]
  let lines ← link frame.functions items
  return ⟨lines, frame.strings, frame.functions⟩

/-- The image of a program, given what checking has found about it. -/
def Program.compile (context : Context) (program : Program) : Except CodegenError Image := do
  return (← program.listing context).image

end PCode
