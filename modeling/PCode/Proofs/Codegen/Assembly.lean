import PCode.Proofs.Codegen.Fragments

namespace PCode.Codegen

/-- A call of a function that had no code yet. -/
structure Pending where
  index : Nat
  name : String
  span : Span

/-- What one pass has written: the image so far, the nesting level of the current function, the next
cell of its frame, and the calls left open. The functions that are complete and the calls of each
name are noted beside it. -/
structure Assembly where
  image : Image := {}
  level : Nat := 0
  offset : Nat := headerSize
  pending : List Pending := []
  extents : List Extent := []
  calls : List (Nat × String) := []

/-- A step of the pass: it gives a value, fails, or is stuck. -/
def Emit (α : Type) : Type :=
  Assembly → Option (Except CodegenError α × Assembly)

namespace Emit

variable {α : Type}

instance : Monad Emit where
  pure a := fun s => some (.ok a, s)
  bind x f := fun s =>
    match x s with
    | none => none
    | some (.error e, s) => some (.error e, s)
    | some (.ok a, s) => f a s

def fail (fault : CodegenFault) (span : Span) : Emit α := fun s =>
  some (.error ⟨fault, some span⟩, s)

/-- What a step comes to. It is carried on behind a failure. -/
def attempt (x : Emit α) : Emit (Except CodegenError α) := fun s =>
  (x s).map fun (result, s) => (.ok result, s)

/-- Goes on with a result, or fails with its error. -/
def settle (result : Except CodegenError α) : Emit α := fun s =>
  some (result, s)

def state : Emit Assembly := fun s =>
  some (.ok s, s)

def change (f : Assembly → Assembly) : Emit Unit := fun s =>
  some (.ok (), f s)

/-- A difference of counters. -/
def minus (a b : Nat) : Emit Nat := fun s =>
  if b ≤ a then some (.ok (a - b), s) else none

/-- Writes an instruction and gives its address. -/
def emit (op : Opcode) (level : Nat) (operand : Cell) : Emit Nat := fun s =>
  some (.ok s.image.here, { s with image := s.image.emit ⟨op, level, operand⟩ })

/-- Writes an instruction. -/
def put (op : Opcode) (level : Nat) (operand : Cell) : Emit Unit := fun s =>
  some (.ok (), { s with image := s.image.emit ⟨op, level, operand⟩ })

/-- Replaces an operand. -/
def patch (index : Nat) (operand : Cell) : Emit Unit := fun s =>
  (s.image.patch? index operand).map fun (_, image) => (.ok (), { s with image })

/-- Points a jump to the next instruction. -/
def patchHere (index : Nat) : Emit Unit := do
  patch index (Int64.ofInt (← state).image.here)

def allocate (size : Nat) : Emit Nat := fun s =>
  some (.ok s.offset, { s with offset := s.offset + size })

def intern (text : String) : Emit Nat := fun s =>
  let (index, image) := s.image.intern text
  some (.ok index, { s with image })

def loadCells (level offset size : Nat) : Emit Unit :=
  (List.range size).forM fun cell => put .lod level (Int64.ofInt (offset + cell : Nat))

def storeCells (level offset size : Nat) : Emit Unit :=
  (List.range size).reverse.forM fun cell => put .sto level (Int64.ofInt (offset + cell : Nat))

/-- Loads a variable of this function or one around it. -/
def load (slot : Slot) : Emit Unit := do
  loadCells (← minus (← state).level slot.level) slot.offset slot.ty.size

def store (slot : Slot) : Emit Unit := do
  storeCells (← minus (← state).level slot.level) slot.offset slot.ty.size

/-- The variable of a name. -/
def slot (env : Env) (name : String) (span : Span) : Emit Slot :=
  match env.vars.get? name with
  | some slot => pure slot
  | none => fail (.notInScope name) span

def assigned (env : Env) (target : Expr) : Emit Slot :=
  match target.name? with
  | some x => slot env x target.span
  | none => fail .notAssignable target.span

/-- Binds a variable at the current level. -/
def bind (env : Env) (name : String) (offset : Nat) (ty : Ty) : Emit Env := do
  return { env with vars := env.vars.insert name ⟨(← state).level, offset, ty⟩ }

/-- Enters the functions that statements define at the current level. -/
def hoist (env : Env) : List Stmt → Emit Env
  | [] => pure env
  | .define name .. :: statements | .defineBlock name .. :: statements => do
    hoist { env with funs := env.funs.insert name (← state).level } statements
  | _ :: statements => hoist env statements

/-- Calls a function, or leaves its entry open if it has no code yet. -/
def call (delta : Nat) (name : String) (span : Span) : Emit Unit := do
  match (← state).image.entry? name with
  | some entry =>
    let index ← emit .cal delta (Int64.ofInt entry)
    change fun s => { s with calls := s.calls ++ [(index, name)] }
  | none =>
    let index ← emit .cal delta 0
    change fun s => { s with
      pending := s.pending ++ [⟨index, name, span⟩]
      calls := s.calls ++ [(index, name)] }

/-- Chooses between two pieces of code behind a test. -/
def choose (thenCode elseCode : Emit Unit) : Emit Unit := do
  let toElse ← emit .jpc 0 0
  thenCode
  let toEnd ← emit .jmp 0 0
  patchHere toElse
  elseCode
  patchHere toEnd

mutual

def expr (env : Env) : Expr → Emit Unit
  | .integer value _ => put .lit 0 value
  | .real bits _ => put .lit 0 bits
  | .text value _ => do put .lit 0 (Int64.ofInt (← intern value))
  | .boolean value _ => put .lit 0 (Int64.ofInt (if value then 1 else 0))
  | .name x note => do load (← slot env x note.span)
  | .unary op operand _ => do
    expr env operand
    match unaryOperator? op operand.ty with
    | some operator => put .opr 0 operator.operand
    | none => pure ()
  | .binary op left right _ => do
    expr env left
    expr env right
    put .opr 0 (binaryOperator op left.ty).operand
  | e@(.member target _ ordinal note) =>
    match place? env e with
    | some slot => load slot
    | none =>
      match ordinal.bind target.ty.memberOffset? with
      | none => fail (.noSuchMember target.ty) note.span
      | some offset => do
        expr env target
        let spill ← allocate target.ty.size
        storeCells 0 spill target.ty.size
        loadCells 0 (spill + offset) note.ty.size
  | .assign target value _ => do
    let place ← assigned env target
    expr env value
    store place
    expr env target
  | .cond test thenValue elseValue _ => do
    expr env test
    choose (expr env thenValue) (expr env elseValue)
  | .call callee args note =>
    if env.vars.contains callee then fail (.unsupported .functionValue) note.span
    else if env.context.isConstructor callee then exprs env args
    else
      match env.funs.get? callee with
      | none => fail (.notDefinedHere callee) note.span
      | some level => do
        let delta ← minus (← state).level level
        put .cap delta 0
        exprs env args
        call delta callee note.span
  | .lambda _ _ note => fail (.unsupported .lambda) note.span
  | .array _ note => fail (.unsupported .array) note.span
  | .index _ _ note => fail (.unsupported .index) note.span

def exprs (env : Env) : List Expr → Emit Unit
  | [] => pure ()
  | e :: es => do
    expr env e
    exprs env es

end

def binding (env : Env) (name : String) (value : Expr) : Emit Env := do
  let size := value.ty.size
  let offset ← allocate size
  expr env value
  storeCells 0 offset size
  bind env name offset value.ty

def bindings (env : Env) : List (String × Expr) → Emit Env
  | [] => pure env
  | (name, value) :: others => do
    let env ← binding env name value
    bindings env others

/-- Evaluates an expression for its effect. -/
def effect (env : Env) : Expr → Emit Unit
  | .assign target value _ => do
    let place ← assigned env target
    expr env value
    store place
  | e => do
    expr env e
    let size := e.ty.size
    if size = 0 then pure () else put .ini 0 (Int64.ofInt (-size))

def parameters (env : Env) : List (String × Ty) → Emit Env
  | [] => pure env
  | (name, ty) :: params => do
    let offset ← allocate ty.size
    let env ← bind env name offset ty
    parameters env params

def signature (env : Env) (name : String) (span : Span) : Emit (List Ty × Ty) :=
  match env.context.function? name with
  | some (.function types _ result) => pure (types, result)
  | _ => fail (.noSignature name) span

/-- A function begins with its entry, on a level of its own and in a frame of its own. -/
def enter (name : String) : Emit Unit :=
  change fun s => { s with
    image := s.image.define name s.image.here
    level := s.level + 1
    offset := headerSize }

/-- A function ends: the room behind its parameters is known, and the counters of the function
around it are restored. -/
def leave (outer : Assembly) (name : String) (reserve first : Nat) : Emit Unit := do
  patch reserve (Int64.ofInt (← minus (← state).offset first))
  let level ← minus (← state).level 1
  change fun s => { s with
    level
    offset := outer.offset
    extents := s.extents ++ [⟨name, outer.image.here, s.image.here⟩] }

/-- Writes a function. It is left also where its body fails. -/
def function (env : Env) (name : String) (params : List String) (span : Span)
    (body : Env → Emit Unit) : Emit Unit := do
  let (types, result) ← signature env name span
  let outer ← state
  enter name
  let inner ← parameters env (params.zip types)
  let first := (← state).offset
  let reserve ← emit .ini 0 0
  let written ← attempt do
    body inner
    put .ret 0 (Int64.ofInt result.size)
  leave outer name reserve first
  settle written

def withBindings (env : Env) (locals : List (String × Expr)) (body : Env → Emit Unit) :
    Emit Unit := do
  let env ← bindings env locals
  body env

def equation (env : Env) (name : String) (params : List String) (locals : List (String × Expr))
    (value : Expr) (span : Span) : Emit Unit :=
  function env name params span fun env => withBindings env locals fun env => expr env value

/-- A function inside another is jumped over. -/
def skipped (code : Emit Unit) : Emit Unit := do
  let skip ← emit .jmp 0 0
  code
  patchHere skip

mutual

def stmt (env : Env) : Stmt → Emit Env
  | .expr value _ => do
    effect env value
    return env
  | .declare .. | .record .. | .comment .. => pure env
  | .ret value _ => do
    expr env value
    put .ret 0 (Int64.ofInt value.ty.size)
    return env
  | .define name params locals value note => do
    skipped (equation env name params locals value note.span)
    return env
  | .defineBlock name params locals body note => do
    skipped (function env name params note.span fun env =>
      withBindings env locals fun env => do
        let _ ← stmts (← hoist env body) body)
    return env
  | .loop test body _ => do
    let start := (← state).image.here
    expr env test
    let exit ← emit .jpc 0 0
    let _ ← stmts (← hoist env body) body
    put .jmp 0 (Int64.ofInt start)
    patchHere exit
    return env
  | .branch test thenBody elseBody _ => do
    expr env test
    choose (do let _ ← stmts (← hoist env thenBody) thenBody)
      (do let _ ← stmts (← hoist env elseBody) elseBody)
    return env
  | .bind name value _ => binding env name value
  | .block body _ => do
    let _ ← stmts (← hoist env body) body
    return env

def stmts (env : Env) : List Stmt → Emit Env
  | [] => pure env
  | s :: ss => do
    let env ← stmt env s
    stmts env ss

end

def topLevel (env : Env) : List Stmt → Emit Unit
  | [] => pure ()
  | s :: ss => do
    match s with
      | .define name params locals value note => equation env name params locals value note.span
      | .defineBlock name params locals body note =>
        function env name params note.span fun env =>
          withBindings env locals fun env => do
            let _ ← stmts (← hoist env body) body
      | .declare .. | .record .. | .comment .. => pure ()
      | other => fail .topLevelStatement other.span
    topLevel env ss

/-- Fills in the calls that were left open. -/
def backpatch : List Pending → Emit Unit
  | [] => pure ()
  | site :: sites => do
    match (← state).image.entry? site.name with
    | none => fail (.neverDefined site.name) site.span
    | some entry => patch site.index (Int64.ofInt entry)
    backpatch sites

/-- Writes a program: a jump over the functions to a call of `main`. -/
def program (context : Context) (statements : Program) : Emit Unit := do
  let skip ← emit .jmp 0 0
  let env ← hoist { context } statements
  topLevel env statements
  let main ← settle (mainEntry env (← state).image.functions)
  patchHere skip
  put .cap 0 0
  let index ← emit .cal 0 (Int64.ofInt main)
  change fun s => { s with calls := s.calls ++ [(index, "main")] }
  backpatch (← state).pending

end Emit

end PCode.Codegen
