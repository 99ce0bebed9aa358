import PCode.Typing.Expression

namespace PCode

/-- The context and the variables in scope at a point of a program. -/
structure Scope where
  context : Context
  locals : Locals

/-- The declared type of a function to be defined with these parameters and further bound names:
its parameter types, what it returns, and the whole. -/
def checkHeader (context : Context) (name : String) (params bound : List String) (span : Span) :
    Except TypeError (List Ty × Ty × Ty) :=
  if context.isConstructor name || context.isDefined name then .error ⟨.alreadyDefined name, span⟩
  else
    match context.function? name with
    | none => .error ⟨.neverDeclared name, span⟩
    | some (.function types variadic ret) =>
      if params.length = types.length then
        match repeated? (params ++ bound) with
        | some twice => .error ⟨.boundTwice twice, span⟩
        | none => .ok (types, ret, .function types variadic ret)
      else .error ⟨.parameterCount name types.length params.length, span⟩
    | some ty => .error ⟨.declaredAs name ty, span⟩

/-- A check that stops inside the body of a function stops outside of it, where `current` is again
what it was. -/
def leaving {τ υ α : Type} (current : Option Ty) (rebuild : τ → υ) :
    Except (Stopped τ) α → Except (Stopped υ) α
  | .ok value => .ok value
  | .error stop => .error ⟨stop.error, rebuild stop.tree, stop.context.returning current⟩

/-- Checks the bindings before the body of a function, each in the scope of those before it. -/
def checkBindings (context : Context) (locals : Locals) : List (String × Expr) →
    Except (Stopped (List (String × Expr))) (List (String × Expr) × Locals)
  | [] => .ok ([], locals)
  | (name, value) :: bindings => do
    let (value, ty) ← inside (fun e => (name, e) :: bindings) (value.check context locals)
    let (bindings, locals) ←
      inside ((name, value) :: ·) (checkBindings context (locals.insert name ty) bindings)
    .ok ((name, value) :: bindings, locals)

/-- Enters a record and the function that builds it. The type is entered first, and stays if the
name of the function is taken. -/
def registerRecord (symbols : Symbols) (name : String) (members : List (String × Ty)) :
    Except Symbols Symbols :=
  match symbols.register? name .type (.record name members) with
  | none => .error symbols
  | some symbols =>
    match symbols.register? name .function
        (.function (members.map Prod.snd) false (.record name members)) with
    | none => .error symbols
    | some symbols => .ok symbols

namespace Stmt

open PCode.Expr (stop require)

mutual

/-- Checks a statement: the annotated statement, its type, and the scope behind it. -/
def check (context : Context) (locals : Locals) :
    Stmt → Except (Stopped Stmt) (Stmt × Ty × Scope)
  | .expr value note => do
    let (value, ty) ← inside (.expr · note) (value.check context locals)
    .ok (.expr value { note with ty }, ty, ⟨context, locals⟩)
  | .declare name ty note =>
    match ty.resolve context with
    | .error fault => stop context (.declare name ty note) ⟨fault, note.span⟩
    | .ok signature =>
      match context.symbols.register? name .function signature with
      | none => stop context (.declare name ty note) ⟨.alreadyDeclared name, note.span⟩
      | some symbols =>
        .ok (.declare name signature { note with ty := signature }, signature,
          ⟨{ context with symbols }, locals⟩)
  | .record name members note =>
    match repeated? (members.map Prod.fst) with
    | some twice => stop context (.record name members note) ⟨.memberTwice twice, note.span⟩
    | none =>
      match Ty.resolveMembers context members with
      | .error (fault, members) => stop context (.record name members note) ⟨fault, note.span⟩
      | .ok members =>
        match registerRecord context.symbols name members with
        | .error symbols =>
          stop { context with symbols } (.record name members note)
            ⟨.alreadyDeclared name, note.span⟩
        | .ok symbols =>
          let ty := Ty.record name members
          .ok (.record name members { note with ty }, ty, ⟨{ context with symbols }, locals⟩)
  | .comment text note =>
    .ok (.comment text { note with ty := .list [] }, .list [], ⟨context, locals⟩)
  | .ret value note =>
    match context.current with
    | none => stop context (.ret value note) ⟨.returnOutside, note.span⟩
    | some expected => do
      let (value, found) ← inside (.ret · note) (value.check context locals)
      require context (.ret value note) (expect .ret expected found value.span)
      .ok (.ret value { note with ty := .list [found] }, .list [found], ⟨context, locals⟩)
  | .define name params bindings value note => do
    let (types, result, declared) ← require context (.define name params bindings value note)
      (checkHeader context name params (bindings.map Prod.fst) note.span)
    let inner := (context.withDefinition name note.span).returning (some result)
    let (bindings, scope) ← leaving context.current (.define name params · value note)
      (checkBindings inner (locals.bindAll (params.zip types)) bindings)
    let (value, found) ← leaving context.current (.define name params bindings · note)
      (value.check inner scope)
    let outer := inner.returning context.current
    if found = result then
      .ok (.define name params bindings value { note with ty := declared }, declared,
        ⟨outer, locals⟩)
    else
      stop outer (.define name params bindings value note)
        ⟨.wrongBody name result found, value.span⟩
  | .defineBlock name params bindings body note => do
    let (types, result, declared) ← require context (.defineBlock name params bindings body note)
      (checkHeader context name params (bindings.map Prod.fst) note.span)
    let inner := (context.withDefinition name note.span).returning (some result)
    let (bindings, scope) ← leaving context.current (.defineBlock name params · body note)
      (checkBindings inner (locals.bindAll (params.zip types)) bindings)
    let (body, _, scope) ← leaving context.current (.defineBlock name params bindings · note)
      (checkList inner scope body)
    .ok (.defineBlock name params bindings body { note with ty := declared }, declared,
      ⟨scope.context.returning context.current, locals⟩)
  | .loop test body note => do
    let (test, found) ← inside (.loop · body note) (test.check context locals)
    require context (.loop test body note) (expect .whileCondition .bool found test.span)
    let (body, outcomes, scope) ← inside (.loop test · note) (checkList context locals body)
    let ty := Ty.list outcomes
    .ok (.loop test body { note with ty }, ty, ⟨scope.context, locals⟩)
  | .branch test thenBody elseBody note => do
    let (test, found) ← inside (.branch · thenBody elseBody note) (test.check context locals)
    require context (.branch test thenBody elseBody note)
      (expect .ifCondition .bool found test.span)
    let (thenBody, thenOutcomes, scope) ←
      inside (.branch test · elseBody note) (checkList context locals thenBody)
    let (elseBody, elseOutcomes, scope) ←
      inside (.branch test thenBody · note) (checkList scope.context locals elseBody)
    let ty := Ty.list (thenOutcomes ++ elseOutcomes)
    .ok (.branch test thenBody elseBody { note with ty }, ty, ⟨scope.context, locals⟩)
  | .bind name value note => do
    let (value, ty) ← inside (.bind name · note) (value.check context locals)
    .ok (.bind name value { note with ty }, ty, ⟨context, locals.insert name ty⟩)
  | .block body note => do
    let (body, outcomes, scope) ← inside (.block · note) (checkList context locals body)
    let ty := Ty.list outcomes
    .ok (.block body { note with ty }, ty, ⟨scope.context, locals⟩)

/-- Checks statements in a row: the annotated statements, what they may return, and the scope behind
the last. -/
def checkList (context : Context) (locals : Locals) :
    List Stmt → Except (Stopped (List Stmt)) (List Stmt × List Ty × Scope)
  | [] => .ok ([], [], ⟨context, locals⟩)
  | s :: ss => do
    let (s, ty, scope) ← inside (· :: ss) (s.check context locals)
    let (ss, outcomes, scope) ← inside (s :: ·) (checkList scope.context scope.locals ss)
    .ok (s :: ss, ty.outcomes ++ outcomes, scope)

end

end Stmt

/-- Checks a program against a context. No variable is in scope at its start. -/
def Program.check (context : Context) (program : Program) :
    Except (Stopped Program) (Program × Context) :=
  match Stmt.checkList context [] program with
  | .ok (program, _, scope) => .ok (program, scope.context)
  | .error stopped => .error stopped

end PCode
