import Mathlib
import PCode.Codegen.Statement
import PCode.Proofs.Definitions

namespace PCode.Codegen

namespace Env

/-- A line of the current function. -/
def line (env : Env) (op : Opcode) (level : Nat) (operand : Cell) : Line :=
  { owner := env.path, instruction := ⟨op, level, operand⟩ }

/-- The lines that load cells in order. -/
def loads (env : Env) (level offset size : Nat) : List Line :=
  (List.range size).map fun cell => env.line .lod level (Int64.ofInt (offset + cell : Nat))

/-- The lines that store cells, the topmost into the last. -/
def stores (env : Env) (level offset size : Nat) : List Line :=
  (List.range size).reverse.map fun cell => env.line .sto level (Int64.ofInt (offset + cell : Nat))

/-- The static links between the current function and that of a variable. -/
def distance (env : Env) (slot : Slot) : Nat :=
  env.level - slot.level

/-- Inside a function with these parameters, whose cells start at an offset. -/
def withParams (env : Env) (offset : Nat) : List (String × Ty) → Env
  | [] => env
  | (name, ty) :: params => (env.bind name offset ty).withParams (offset + ty.size) params

@[simp] theorem withParams_path (params : List (String × Ty)) (env : Env) (offset : Nat) :
    (env.withParams offset params).path = env.path := by
  induction params generalizing env offset with
  | nil => rfl
  | cons param params ih => exact ih _ _

theorem withParams_context (params : List (String × Ty)) (env : Env) (offset : Nat) :
    (env.withParams offset params).context = env.context := by
  induction params generalizing env offset with
  | nil => rfl
  | cons param params ih => exact ih _ _

/-- Inside a function of this name. -/
def inside (env : Env) (name : String) : Env :=
  { env with path := name :: env.path }

end Env

/-- The number of cells of values of these types. -/
def cellsOf (types : List Ty) : Nat :=
  (types.map Ty.size).sum

/-- The lines that choose between two pieces; `start` is the address behind the test. -/
def chooseLines (env : Env) (start : Nat) (thenLines elseLines : List Line) : List Line :=
  let elseStart := start + 1 + thenLines.length + 1
  [env.line .jpc 0 (Int64.ofInt elseStart)] ++ thenLines
    ++ [env.line .jmp 0 (Int64.ofInt (elseStart + elseLines.length : Nat))] ++ elseLines

/-- The cells of a variable, or of a member at any depth of one. -/
inductive EmitsPlace (env : Env) : Expr → Slot → Prop where
  | name {x n slot} : env.vars.get? x = some slot → n.ty = slot.ty → EmitsPlace env (.name x n) slot
  | member {t field k n slot offset} : EmitsPlace env t slot →
      t.ty.memberOffset? k = some offset → offset + n.ty.size ≤ t.ty.size →
      EmitsPlace env (.member t field (some k) n) ⟨slot.level, slot.offset + offset, n.ty⟩

mutual

/-- The code of an expression leaves its value on the stack. -/
inductive EmitsExpr (L : Listing) (env : Env) : Nat → Nat → Expr → List Line → Nat → Prop where
  | integer {start f v n} : n.ty.size = 1 →
      EmitsExpr L env start f (.integer v n) [env.line .lit 0 v] f
  | real {start f v n} : n.ty.size = 1 →
      EmitsExpr L env start f (.real v n) [env.line .lit 0 v] f
  | text {start f v n index} : n.ty.size = 1 → L.strings.findIdx? (· == v) = some index →
      EmitsExpr L env start f (.text v n) [env.line .lit 0 (Int64.ofInt index)] f
  | boolean {start f v n} : n.ty.size = 1 →
      EmitsExpr L env start f (.boolean v n)
        [env.line .lit 0 (Int64.ofInt (if v then 1 else 0))] f
  | place {start f e slot} : EmitsPlace env e slot →
      EmitsExpr L env start f e (env.loads (env.distance slot) slot.offset slot.ty.size) f
  | plus {start f f' e n a} : EmitsExpr L env start f e a f' → e.ty.size = 1 → n.ty.size = 1 →
      EmitsExpr L env start f (.unary .plus e n) a f'
  | unary {start f f' op operator e n a} : EmitsExpr L env start f e a f' →
      unaryOperator? op e.ty = some operator → e.ty.size = 1 → n.ty.size = 1 →
      EmitsExpr L env start f (.unary op e n) (a ++ [env.line .opr 0 operator.operand]) f'
  | binary {start f f₁ f₂ op l r n a b} : EmitsExpr L env start f l a f₁ →
      EmitsExpr L env (start + a.length) f₁ r b f₂ →
      l.ty.size = 1 → r.ty.size = 1 → n.ty.size = 1 →
      EmitsExpr L env start f (.binary op l r n)
        (a ++ b ++ [env.line .opr 0 (binaryOperator op l.ty).operand]) f₂
  | spill {start f f' t field k n a offset} : EmitsExpr L env start f t a f' →
      place? env t = none → t.ty.memberOffset? k = some offset → offset + n.ty.size ≤ t.ty.size →
      EmitsExpr L env start f (.member t field (some k) n)
        (a ++ env.stores 0 f' t.ty.size ++ env.loads 0 (f' + offset) n.ty.size) (f' + t.ty.size)
  | assign {start f f' x xn e n a slot} : env.vars.get? x = some slot →
      EmitsExpr L env start f e a f' → e.ty = slot.ty → n.ty = slot.ty →
      EmitsExpr L env start f (.assign (.name x xn) e n)
        (a ++ env.stores (env.distance slot) slot.offset slot.ty.size
          ++ env.loads (env.distance slot) slot.offset slot.ty.size) f'
  | cond {start f f₁ f₂ f₃ c t e n a b d} : EmitsExpr L env start f c a f₁ →
      EmitsExpr L env (start + a.length + 1) f₁ t b f₂ →
      EmitsExpr L env (start + a.length + 1 + b.length + 1) f₂ e d f₃ →
      c.ty.size = 1 → t.ty = n.ty → e.ty = n.ty →
      EmitsExpr L env start f (.cond c t e n) (a ++ chooseLines env (start + a.length) b d) f₃
  | construct {start f f' c args n a} : env.vars.get? c = none →
      env.context.isConstructor c = true → EmitsExprs L env start f args a f' →
      n.ty.size = cellsOf (args.map Expr.ty) → EmitsExpr L env start f (.call c args n) a f'
  | call {start f f' c args n a} : env.vars.get? c = none → env.context.isConstructor c = false →
      EmitsCall L env start f c args n.ty a f' → EmitsExpr L env start f (.call c args n) a f'

/-- The code of a call of a function that returns `ret`. -/
inductive EmitsCall (L : Listing) (env : Env) :
    Nat → Nat → String → List Expr → Ty → List Line → Nat → Prop where
  | mk {start f f' c args ret a level types variadic entry} : env.funs.get? c = some level →
      env.context.function? c = some (.function types variadic ret) →
      types <+: args.map Expr.ty → L.functions.get? c = some entry →
      EmitsExprs L env (start + 1) f args a f' →
      EmitsCall L env start f c args ret
        ([env.line .cap (env.level - level) 0] ++ a
          ++ [env.line .cal (env.level - level) (Int64.ofInt entry)]) f'

/-- The code of expressions one after the other. -/
inductive EmitsExprs (L : Listing) (env : Env) :
    Nat → Nat → List Expr → List Line → Nat → Prop where
  | nil {start f} : EmitsExprs L env start f [] [] f
  | cons {start f f₁ f₂ e es a b} : EmitsExpr L env start f e a f₁ →
      EmitsExprs L env (start + a.length) f₁ es b f₂ →
      EmitsExprs L env start f (e :: es) (a ++ b) f₂

end

/-- The code of bindings, each into cells of its own, and the scope behind them. -/
inductive EmitsBindings (L : Listing) :
    Env → Nat → Nat → List (String × Expr) → List Line → Env → Nat → Prop where
  | nil {env start f} : EmitsBindings L env start f [] [] env f
  | cons {env env' start f f₁ f₂ x e es a b} :
      EmitsExpr L env start (f + e.ty.size) e a f₁ →
      EmitsBindings L (env.bind x f e.ty) (start + (a ++ env.stores 0 f e.ty.size).length) f₁ es b
        env' f₂ →
      EmitsBindings L env start f ((x, e) :: es) (a ++ env.stores 0 f e.ty.size ++ b) env' f₂

mutual

/-- The code of a statement in a function that returns `ret`, the scope behind it, and the offset
and size of the variable that it binds, if it does. -/
inductive EmitsStmt (L : Listing) :
    Ty → Env → Nat → Nat → Stmt → List Line → Env → Nat → List (Nat × Nat) → Prop where
  | expr {ret env start f f' e n a} : (∀ t v vn, e ≠ .assign t v vn) →
      EmitsExpr L env start f e a f' →
      EmitsStmt L ret env start f (.expr e n)
        (a ++ if e.ty.size = 0 then [] else [env.line .ini 0 (Int64.ofInt (-e.ty.size))]) env f' []
  | assign {ret env start f f' x xn e en n a slot} : env.vars.get? x = some slot →
      EmitsExpr L env start f e a f' → e.ty = slot.ty →
      EmitsStmt L ret env start f (.expr (.assign (.name x xn) e en) n)
        (a ++ env.stores (env.distance slot) slot.offset slot.ty.size) env f' []
  | declare {ret env start f x τ n} : EmitsStmt L ret env start f (.declare x τ n) [] env f []
  | record {ret env start f x ms n} : EmitsStmt L ret env start f (.record x ms n) [] env f []
  | comment {ret env start f text n} : EmitsStmt L ret env start f (.comment text n) [] env f []
  | ret {ret env start f f' e n a} : EmitsExpr L env start f e a f' → e.ty = ret →
      EmitsStmt L ret env start f (.ret e n)
        (a ++ [env.line .ret 0 (Int64.ofInt ret.size)]) env f' []
  | define {ret env start f s name params body a} :
      s.definition? = some (name, params, body) →
      EmitsFunction L env (start + 1) name params body a →
      EmitsStmt L ret env start f s
        (env.line .jmp 0 (Int64.ofInt (start + 1 + a.length : Nat)) :: a) env f []
  | loop {ret env env' start f f₁ f₂ c body n a b slots} : EmitsExpr L env start f c a f₁ →
      c.ty.size = 1 →
      EmitsStmts L ret (hoist env body) (start + a.length + 1) f₁ body b env' f₂ slots →
      EmitsStmt L ret env start f (.loop c body n)
        (a ++ [env.line .jpc 0 (Int64.ofInt (start + a.length + 1 + b.length + 1 : Nat))] ++ b
          ++ [env.line .jmp 0 (Int64.ofInt start)]) env f₂ []
  | branch {ret env env₁ env₂ start f f₁ f₂ f₃ c t e n a b d slots₁ slots₂} :
      EmitsExpr L env start f c a f₁ → c.ty.size = 1 →
      EmitsStmts L ret (hoist env t) (start + a.length + 1) f₁ t b env₁ f₂ slots₁ →
      EmitsStmts L ret (hoist env e) (start + a.length + 1 + b.length + 1) f₂ e d env₂ f₃ slots₂ →
      EmitsStmt L ret env start f (.branch c t e n)
        (a ++ chooseLines env (start + a.length) b d) env f₃ []
  | bind {ret env start f f' x e n a} : EmitsExpr L env start (f + e.ty.size) e a f' →
      EmitsStmt L ret env start f (.bind x e n) (a ++ env.stores 0 f e.ty.size)
        (env.bind x f e.ty) f' [(f, e.ty.size)]
  | block {ret env env' start f f' body n a slots} :
      EmitsStmts L ret (hoist env body) start f body a env' f' slots →
      EmitsStmt L ret env start f (.block body n) a env f' []

/-- The code of statements in a row, the scope behind the last, and the offsets and sizes of the
variables that they bind. -/
inductive EmitsStmts (L : Listing) :
    Ty → Env → Nat → Nat → List Stmt → List Line → Env → Nat → List (Nat × Nat) → Prop where
  | nil {ret env start f} : EmitsStmts L ret env start f [] [] env f []
  | cons {ret env env₁ env₂ start f f₁ f₂ s ss a b slots₁ slots₂} :
      EmitsStmt L ret env start f s a env₁ f₁ slots₁ →
      EmitsStmts L ret env₁ (start + a.length) f₁ ss b env₂ f₂ slots₂ →
      EmitsStmts L ret env start f (s :: ss) (a ++ b) env₂ f₂ (slots₁ ++ slots₂)

/-- The code of the body of a function that returns `ret`, and whether the return behind it is
closing. -/
inductive EmitsBody (L : Listing) :
    Ty → Env → Nat → Nat → Body → List Line → Nat → Bool → Prop where
  | value {ret env env' start f f₁ f₂ locals e a b} : EmitsBindings L env start f locals a env' f₁ →
      EmitsExpr L env' (start + a.length) f₁ e b f₂ → e.ty = ret →
      EmitsBody L ret env start f (.value locals e) (a ++ b) f₂ false
  | block {ret env env₁ env₂ start f f₁ f₂ locals body a b slots} :
      EmitsBindings L env start f locals a env₁ f₁ →
      EmitsStmts L ret (hoist env₁ body) (start + a.length) f₁ body b env₂ f₂ slots →
      EmitsBody L ret env start f (.block locals body) (a ++ b) f₂ true

/-- The code of a function: room for its variables, the body, and a return. -/
inductive EmitsFunction (L : Listing) :
    Env → Nat → String → List String → Body → List Line → Prop where
  | mk {env start f' name params types variadic ret body a closing} :
      env.context.function? name = some (.function types variadic ret) →
      params.length = types.length → L.functions.get? name = some start →
      EmitsBody L ret ((env.inside name).withParams headerSize (params.zip types)) (start + 1)
        (headerSize + cellsOf types) body a f' closing →
      EmitsFunction L env start name params body
        ([(env.inside name).line .ini 0 (Int64.ofInt (f' - (headerSize + cellsOf types) : Nat))]
          ++ a ++ [⟨name :: env.path, ⟨.ret, 0, Int64.ofInt ret.size⟩, closing⟩])

end

/-- The code of the functions of a program. -/
inductive EmitsTop (L : Listing) (env : Env) : Nat → List Stmt → List Line → Prop where
  | nil {start} : EmitsTop L env start [] []
  | skip {start s ss a} : s.isSilent = true → EmitsTop L env start ss a →
      EmitsTop L env start (s :: ss) a
  | define {start s ss name params body a b} : s.definition? = some (name, params, body) →
      EmitsFunction L env start name params body a → EmitsTop L env (start + a.length) ss b →
      EmitsTop L env start (s :: ss) (a ++ b)

/-- The lines of a program: a jump to the end, where `main` is called, and the functions. -/
inductive EmitsProgram (L : Listing) (context : Context) (program : Program) : Prop where
  | mk {env functions call ret} : env = hoist { context } program →
      EmitsTop L env 1 program functions →
      EmitsCall L env (1 + functions.length) headerSize "main" [] ret call headerSize →
      L.lines = [env.line .jmp 0 (Int64.ofInt (1 + functions.length : Nat))] ++ functions ++ call →
      EmitsProgram L context program

end PCode.Codegen
