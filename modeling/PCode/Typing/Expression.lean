import PCode.Syntax
import PCode.Typing.Resolve

namespace PCode

/-- A check that stopped at an error: the tree as far as it was annotated, and the context as far as
it was filled. -/
structure Stopped (τ : Type) where
  error : TypeError
  tree : τ
  context : Context

/-- A check that stops inside a part of a tree stops inside the tree. -/
def inside {τ υ α : Type} (rebuild : τ → υ) :
    Except (Stopped τ) α → Except (Stopped υ) α
  | .ok value => .ok value
  | .error stop => .error ⟨stop.error, rebuild stop.tree, stop.context⟩

def UnaryOp.allows : UnaryOp → Ty → Bool
  | .plus, ty | .neg, ty => ty.isNumeric
  | .not, ty => ty == .bool

def BinaryOp.allows : BinaryOp → Ty → Bool
  | .add, ty | .sub, ty | .mul, ty | .div, ty | .lt, ty | .gt, ty => ty.isNumeric
  | .mod, ty => ty == .i64
  | .eq, ty | .ne, ty => ty.isNumeric || ty == .bool
  | .and, ty | .or, ty => ty == .bool

/-- What an operator gives for operands of a type that it takes. -/
def BinaryOp.result : BinaryOp → Ty → Ty
  | .eq, _ | .ne, _ | .lt, _ | .gt, _ => .bool
  | _, ty => ty

/-- The expression found at a place has the type that the place demands. -/
def expect (place : Place) (expected found : Ty) (span : Span) : Except TypeError Unit :=
  if expected = found then .ok () else .error ⟨.unexpected place expected found, span⟩

def checkUnary (op : UnaryOp) (operand : Ty) (span : Span) : Except TypeError Ty :=
  if op.allows operand then .ok operand else .error ⟨.badOperand op.symbol operand, span⟩

/-- Both operands have one type, and the operator takes it. -/
def checkBinary (op : BinaryOp) (left right : Ty) (span : Span) : Except TypeError Ty :=
  if left = right then
    if op.allows left then .ok (op.result left) else .error ⟨.badOperand op.symbol left, span⟩
  else .error ⟨.unequalOperands op.symbol left right, span⟩

/-- Only a name can be assigned to. -/
def checkTarget (target : Expr) : Except TypeError Unit :=
  if target.name?.isSome then .ok () else .error ⟨.notAssignable, target.span⟩

/-- The member that a name stands for in a value of this type. -/
def checkMember (target : Ty) (field : Expr) (span : Span) : Except TypeError (Nat × Ty) :=
  match field.name?, target with
  | none, _ => .error ⟨.noMemberName, field.span⟩
  | some name, .record .. =>
    match target.member? name with
    | some found => .ok found
    | none => .error ⟨.unknownMember target name, field.span⟩
  | some _, _ => .error ⟨.noMembers target, span⟩

/-- The signature of what is called: a variable, or else a declared function. -/
def checkCallee (context : Context) (locals : Locals) (callee : String) (count : Nat)
    (span : Span) : Except TypeError (List Ty × Ty) :=
  match (locals.get? callee).or (context.function? callee) with
  | none => .error ⟨.undeclared callee, span⟩
  | some (.function params variadic ret) =>
    if count < params.length || (params.length < count && !variadic) then
      .error ⟨.argumentCount callee params.length count, span⟩
    else .ok (params, ret)
  | some ty => .error ⟨.notAFunction callee ty, span⟩

/-- A lambda has as many parameters as are expected, with different names. -/
def checkLambda (params : List String) (types : List Ty) (span : Span) : Except TypeError Unit :=
  if params.length = types.length then
    match repeated? params with
    | some name => .error ⟨.boundTwice name, span⟩
    | none => .ok ()
  else .error ⟨.lambdaCount params.length types.length, span⟩

namespace Expr

def stop {τ α : Type} (context : Context) (tree : τ) (error : TypeError) :
    Except (Stopped τ) α :=
  .error ⟨error, tree, context⟩

/-- Annotates a node with the type that its rule gives, or stops there. -/
def settle (context : Context) (e : Expr) : Except TypeError Ty → Except (Stopped Expr) (Expr × Ty)
  | .ok ty => .ok (e.withTy ty, ty)
  | .error error => stop context e error

/-- Goes on if the rule holds, and else stops at the node. -/
def require {τ α : Type} (context : Context) (tree : τ) (result : Except TypeError α) :
    Except (Stopped τ) α :=
  match result with
  | .ok value => .ok value
  | .error error => stop context tree error

mutual

/-- Checks an expression: the annotated expression and its type. -/
def check (context : Context) (locals : Locals) : Expr → Except (Stopped Expr) (Expr × Ty)
  | .integer value note => settle context (.integer value note) (.ok .i64)
  | .real bits note => settle context (.real bits note) (.ok .real)
  | .text value note => settle context (.text value note) (.ok .string)
  | .boolean value note => settle context (.boolean value note) (.ok .bool)
  | .name x note =>
    settle context (.name x note) <|
      match locals.get? x with
      | some ty => .ok ty
      | none => .error ⟨.unbound x, note.span⟩
  | .unary op operand note => do
    let (operand, ty) ← inside (.unary op · note) (operand.check context locals)
    settle context (.unary op operand note) (checkUnary op ty operand.span)
  | .binary op left right note => do
    let (left, leftTy) ← inside (.binary op · right note) (left.check context locals)
    let (right, rightTy) ← inside (.binary op left · note) (right.check context locals)
    settle context (.binary op left right note) (checkBinary op leftTy rightTy note.span)
  | .member target field ordinal note => do
    let (target, targetTy) ← inside (.member · field ordinal note) (target.check context locals)
    match checkMember targetTy field target.span with
    | .error error => stop context (.member target field ordinal note) error
    | .ok (found, ty) =>
      .ok (.member target (field.withTy ty) (some found) { note with ty }, ty)
  | .assign target value note => do
    require context (.assign target value note) (checkTarget target)
    let (target, ty) ← inside (.assign · value note) (target.check context locals)
    let (value, found) ← inside (.assign target · note) (value.check context locals)
    let node := Expr.assign target value note
    require context node (expect .assignment ty found value.span)
    .ok (node.withTy ty, ty)
  | .cond test thenValue elseValue note => do
    let (test, found) ← inside (.cond · thenValue elseValue note) (test.check context locals)
    require context (.cond test thenValue elseValue note)
      (expect .ifCondition .bool found test.span)
    let (thenValue, ty) ← inside (.cond test · elseValue note) (thenValue.check context locals)
    let (elseValue, found) ← inside (.cond test thenValue · note) (elseValue.check context locals)
    let node := Expr.cond test thenValue elseValue note
    require context node (expect .elseBranch ty found elseValue.span)
    .ok (node.withTy ty, ty)
  | .lambda params body note => stop context (.lambda params body note) ⟨.lambdaAlone, note.span⟩
  | .call callee args note => do
    let (params, ret) ←
      require context (.call callee args note)
        (checkCallee context locals callee args.length note.span)
    let args ← inside (.call callee · note) (checkArgs context locals callee 1 params args)
    .ok (.call callee args { note with ty := ret }, ret)
  | .array [] note => stop context (.array [] note) ⟨.emptyArray, note.span⟩
  | .array (first :: items) note => do
    let (first, ty) ← inside (fun e => .array (e :: items) note) (first.check context locals)
    let items ← inside (fun es => .array (first :: es) note) (checkItems context locals ty items)
    .ok (.array (first :: items) { note with ty := .array ty }, .array ty)
  | .index target position note => do
    let (target, targetTy) ← inside (.index · position note) (target.check context locals)
    match targetTy with
    | .array ty =>
      let (position, found) ← inside (.index target · note) (position.check context locals)
      let node := Expr.index target position note
      require context node (expect .index .i64 found position.span)
      .ok (node.withTy ty, ty)
    | other => stop context (.index target position note) ⟨.notAnArray other, target.span⟩

/-- Checks the arguments of a call, numbered from `number`, against the parameters; arguments beyond
the parameters may have any type. A lambda takes its type from its parameter. -/
def checkArgs (context : Context) (locals : Locals) (callee : String) (number : Nat)
    (params : List Ty) : List Expr → Except (Stopped (List Expr)) (List Expr)
  | [] => .ok []
  | .lambda names body note :: args =>
    match params.head? with
    | some (.function types variadic ret) => do
      let expected := Ty.function types variadic ret
      require context (.lambda names body note :: args) (checkLambda names types note.span)
      let (body, found) ← inside (.lambda names · note :: args)
        (body.check context (locals.bindAll (names.zip types)))
      require context (.lambda names body note :: args) (expect .lambda ret found body.span)
      let args ← inside (.lambda names body { note with ty := expected } :: ·)
        (checkArgs context locals callee (number + 1) params.tail args)
      .ok (.lambda names body { note with ty := expected } :: args)
    | _ => stop context (.lambda names body note :: args) ⟨.lambdaAlone, note.span⟩
  | arg :: args => do
    let (arg, found) ← inside (· :: args) (arg.check context locals)
    match params with
    | [] => pure ()
    | expected :: _ =>
      require context (arg :: args) (expect (.argument number callee) expected found arg.span)
    let args ← inside (arg :: ·)
      (checkArgs context locals callee (number + 1) params.tail args)
    .ok (arg :: args)

/-- Checks that the further items of an array have the type of the first. -/
def checkItems (context : Context) (locals : Locals) (ty : Ty) :
    List Expr → Except (Stopped (List Expr)) (List Expr)
  | [] => .ok []
  | item :: items => do
    let (item, found) ← inside (· :: items) (item.check context locals)
    require context (item :: items) (expect .array ty found item.span)
    let items ← inside (item :: ·) (checkItems context locals ty items)
    .ok (item :: items)

end

end Expr

end PCode
