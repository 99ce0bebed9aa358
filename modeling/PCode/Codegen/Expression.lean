import PCode.Codegen.Frame
import PCode.Syntax

namespace PCode.Codegen

/-- The operator for a sign on an operand of a type; a plus needs none. -/
def unaryOperator? : UnaryOp → Ty → Option Operator
  | .plus, _ => none
  | .neg, ty => some (if ty = .real then .realNeg else .neg)
  | .not, _ => some .not

/-- The operator for a binary operation on operands of a type. -/
def binaryOperator (op : BinaryOp) (ty : Ty) : Operator :=
  match op, ty with
  | .add, .real => .realAdd
  | .add, _ => .add
  | .sub, .real => .realSub
  | .sub, _ => .sub
  | .mul, .real => .realMul
  | .mul, _ => .mul
  | .div, .real => .realDiv
  | .div, _ => .div
  | .mod, _ => .mod
  | .eq, .real => .realEq
  | .eq, _ => .eq
  | .ne, .real => .realNe
  | .ne, _ => .ne
  | .lt, .real => .realLt
  | .lt, _ => .lt
  | .gt, .real => .realGt
  | .gt, _ => .gt
  | .and, _ => .and
  | .or, _ => .or

/-- The cells of a variable, or of a member at any depth of one. -/
def place? (env : Env) : Expr → Option Slot
  | .name x _ => env.vars.get? x
  | .member target _ (some ordinal) note => do
    let record ← place? env target
    let offset ← target.ty.memberOffset? ordinal
    some ⟨record.level, record.offset + offset, note.ty⟩
  | _ => none

/-- The variable that an assignment stores into. -/
def assigned (env : Env) (target : Expr) : Gen Slot :=
  match target.name? with
  | some x => env.slot x target.span
  | none => fail .notAssignable target.span

/-- The call of a function with this entry, or of one still to come. -/
def callItem (env : Env) (level : Nat) (name : String) (span : Span) : Option Nat → Item
  | some entry => env.item .cal level entry
  | none => .forward env.path level name span

/-- The code that chooses between two pieces; `start` is the address behind the test. -/
def choose (env : Env) (start : Nat) (thenCode elseCode : List Item) : List Item :=
  let elseStart := start + 1 + thenCode.length + 1
  [env.item .jpc 0 elseStart] ++ thenCode
    ++ [env.item .jmp 0 (elseStart + elseCode.length : Nat)] ++ elseCode

mutual

/-- The code of an expression that starts at an address. -/
def expr (env : Env) (start : Nat) : Expr → Gen (List Item)
  | .integer value _ => pure [env.emit .lit 0 value]
  | .real bits _ => pure [env.emit .lit 0 bits]
  | .text value _ => do return [env.item .lit 0 (← intern value)]
  | .boolean value _ => pure [env.item .lit 0 (if value then 1 else 0)]
  | .name x note => do return env.load (← env.slot x note.span)
  | .unary op operand _ => do
    let code ← expr env start operand
    match unaryOperator? op operand.ty with
    | some operator => return code ++ [env.emit .opr 0 operator.operand]
    | none => return code
  | .binary op left right _ => do
    let leftCode ← expr env start left
    let rightCode ← expr env (start + leftCode.length) right
    let operator := binaryOperator op left.ty
    return leftCode ++ rightCode ++ [env.emit .opr 0 operator.operand]
  | e@(.member target _ ordinal note) =>
    match place? env e with
    | some slot => pure (env.load slot)
    | none =>
      match ordinal.bind target.ty.memberOffset? with
      | none => fail (.noSuchMember target.ty) note.span
      | some offset => do
        let code ← expr env start target
        let spill ← allocate target.ty.size
        return code ++ env.storeCells 0 spill target.ty.size
          ++ env.loadCells 0 (spill + offset) note.ty.size
  | .assign target value _ => do
    let slot ← assigned env target
    let code ← expr env start value
    return code ++ env.store slot ++ env.load slot
  | .cond test thenValue elseValue _ => do
    let testCode ← expr env start test
    let start := start + testCode.length
    let thenCode ← expr env (start + 1) thenValue
    let elseCode ← expr env (start + 1 + thenCode.length + 1) elseValue
    return testCode ++ choose env start thenCode elseCode
  | .call callee args note =>
    if env.vars.contains callee then fail (.unsupported .functionValue) note.span
    else if env.context.isConstructor callee then exprs env start args
    else
      match env.funs.get? callee with
      | none => fail (.notDefinedHere callee) note.span
      | some level => do
        let delta := env.level - level
        let code ← exprs env (start + 1) args
        return [env.item .cap delta 0] ++ code
          ++ [callItem env delta callee note.span (← knownEntry callee)]
  | .lambda _ _ note => fail (.unsupported .lambda) note.span
  | .array _ note => fail (.unsupported .array) note.span
  | .index _ _ note => fail (.unsupported .index) note.span

def exprs (env : Env) (start : Nat) : List Expr → Gen (List Item)
  | [] => pure []
  | e :: es => do
    let code ← expr env start e
    let rest ← exprs env (start + code.length) es
    return code ++ rest

end

end PCode.Codegen
