import PCode.Typing.Statement

namespace PCode

/-- The operand of a sign or of a negation. -/
inductive UnaryOp.Takes : UnaryOp → Ty → Prop where
  | sign {op τ} : op ∈ [.plus, .neg] → τ ∈ [Ty.i64, .real] → Takes op τ
  | not : Takes .not .bool

/-- The common type of the operands of a binary operator, and the type of its result. -/
inductive BinaryOp.Takes : BinaryOp → Ty → Ty → Prop where
  | arithmetic {op τ} : op ∈ [.add, .sub, .mul, .div] → τ ∈ [Ty.i64, .real] → Takes op τ τ
  | remainder : Takes .mod .i64 .i64
  | equality {op τ} : op ∈ [.eq, .ne] → τ ∈ [Ty.i64, .real, .bool] → Takes op τ .bool
  | order {op τ} : op ∈ [.lt, .gt] → τ ∈ [Ty.i64, .real] → Takes op τ .bool
  | logic {op} : op ∈ [.and, .or] → Takes op .bool .bool

mutual

/-- The type that a written type stands for. A `...` stands for none. -/
inductive Resolves (Δ : Context) : Ty → Ty → Prop where
  | i64 : Resolves Δ .i64 .i64
  | real : Resolves Δ .real .real
  | string : Resolves Δ .string .string
  | bool : Resolves Δ .bool .bool
  | array {w τ} : Resolves Δ w τ → Resolves Δ (.array w) (.array τ)
  | function {ws τs w τ flag variadic} : ResolvesParams Δ ws τs variadic → Resolves Δ w τ →
      Resolves Δ (.function ws flag w) (.function τs variadic τ)
  | named {name τ} : Δ.record? name = some τ → Resolves Δ (.named name) τ
  | record {name m ms} : Resolves Δ (.record name (m :: ms)) (.record name (m :: ms))

/-- Parameter types; a `...` may end them. -/
inductive ResolvesParams (Δ : Context) : List Ty → List Ty → Bool → Prop where
  | nil : ResolvesParams Δ [] [] false
  | ellipsis : ResolvesParams Δ [.vararg] [] true
  | cons {w τ ws τs variadic} : Resolves Δ w τ → ResolvesParams Δ ws τs variadic →
      ResolvesParams Δ (w :: ws) (τ :: τs) variadic

end

/-- The members of a record, one by one. -/
inductive ResolvesMembers (Δ : Context) :
    List (String × Ty) → List (String × Ty) → Prop where
  | nil : ResolvesMembers Δ [] []
  | cons {name w τ ws τs} : Resolves Δ w τ → ResolvesMembers Δ ws τs →
      ResolvesMembers Δ ((name, w) :: ws) ((name, τ) :: τs)

/-- A name in a call means a variable, or else a declared function. -/
inductive Callee (Δ : Context) (Γ : Locals) (name : String) : Ty → Prop where
  | bound {τ} : Γ.get? name = some τ → Callee Δ Γ name τ
  | declared {τ} : Γ.get? name = none → Δ.function? name = some τ → Callee Δ Γ name τ

mutual

/-- The rules for expressions. There is none for a lambda, and only a name is a member or assigned
to. -/
inductive Expr.Typed (Δ : Context) : Locals → Expr → Expr → Prop where
  | integer {Γ v n} : Typed Δ Γ (.integer v n) (.integer v { n with ty := .i64 })
  | real {Γ v n} : Typed Δ Γ (.real v n) (.real v { n with ty := .real })
  | text {Γ v n} : Typed Δ Γ (.text v n) (.text v { n with ty := .string })
  | boolean {Γ v n} : Typed Δ Γ (.boolean v n) (.boolean v { n with ty := .bool })
  | name {Γ x τ n} : Γ.get? x = some τ → Typed Δ Γ (.name x n) (.name x { n with ty := τ })
  | unary {Γ op e a n} : Typed Δ Γ e a → op.Takes a.ty →
      Typed Δ Γ (.unary op e n) (.unary op a { n with ty := a.ty })
  | binary {Γ op l r a b τ n} : Typed Δ Γ l a → Typed Δ Γ r b → b.ty = a.ty → op.Takes a.ty τ →
      Typed Δ Γ (.binary op l r n) (.binary op a b { n with ty := τ })
  | member {Γ e a record members field index τ fn ordinal n} : Typed Δ Γ e a →
      a.ty = .record record members → members[index]? = some (field, τ) →
      (∀ m ∈ members.take index, m.1 ≠ field) →
      Typed Δ Γ (.member e (.name field fn) ordinal n)
        (.member a (.name field { fn with ty := τ }) (some index) { n with ty := τ })
  | assign {Γ x e a xn n} : Γ.get? x = some a.ty → Typed Δ Γ e a →
      Typed Δ Γ (.assign (.name x xn) e n)
        (.assign (.name x { xn with ty := a.ty }) a { n with ty := a.ty })
  | cond {Γ c t e c' t' e' n} : Typed Δ Γ c c' → c'.ty = .bool → Typed Δ Γ t t' → Typed Δ Γ e e' →
      e'.ty = t'.ty → Typed Δ Γ (.cond c t e n) (.cond c' t' e' { n with ty := t'.ty })
  | call {Γ f params variadic ret args args' n} : Callee Δ Γ f (.function params variadic ret) →
      (params.length < args.length → variadic = true) → TypedArgs Δ Γ params args args' →
      Typed Δ Γ (.call f args n) (.call f args' { n with ty := ret })
  | array {Γ e es a as n} : Typed Δ Γ e a → TypedItems Δ Γ a.ty es as →
      Typed Δ Γ (.array (e :: es) n) (.array (a :: as) { n with ty := .array a.ty })
  | index {Γ e i a b τ n} : Typed Δ Γ e a → a.ty = .array τ → Typed Δ Γ i b → b.ty = .i64 →
      Typed Δ Γ (.index e i n) (.index a b { n with ty := τ })

/-- Arguments against parameters. Those beyond the parameters have any type, and a lambda takes its
type from a parameter that is a function. -/
inductive Expr.TypedArgs (Δ : Context) : Locals → List Ty → List Expr → List Expr → Prop where
  | nil {Γ} : TypedArgs Δ Γ [] [] []
  | value {Γ e a es as τs} : Typed Δ Γ e a → TypedArgs Δ Γ τs es as →
      TypedArgs Δ Γ (a.ty :: τs) (e :: es) (a :: as)
  | lambda {Γ params σs variadic body b n τs es as} : params.length = σs.length → params.Nodup →
      Typed Δ (Γ.bindAll (params.zip σs)) body b → TypedArgs Δ Γ τs es as →
      TypedArgs Δ Γ (.function σs variadic b.ty :: τs) (.lambda params body n :: es)
        (.lambda params b { n with ty := .function σs variadic b.ty } :: as)
  | extra {Γ e a es as} : Typed Δ Γ e a → TypedArgs Δ Γ [] es as →
      TypedArgs Δ Γ [] (e :: es) (a :: as)

/-- Items that all have one type. -/
inductive Expr.TypedItems (Δ : Context) : Locals → Ty → List Expr → List Expr → Prop where
  | nil {Γ τ} : TypedItems Δ Γ τ [] []
  | cons {Γ e a es as} : Typed Δ Γ e a → TypedItems Δ Γ a.ty es as →
      TypedItems Δ Γ a.ty (e :: es) (a :: as)

end

/-- Bindings before the body of a function; they lead to a larger scope. -/
inductive TypedBindings (Δ : Context) :
    Locals → List (String × Expr) → List (String × Expr) → Locals → Prop where
  | nil {Γ} : TypedBindings Δ Γ [] [] Γ
  | cons {Γ Γ' name e a es as} : e.Typed Δ Γ a → TypedBindings Δ (Γ.insert name a.ty) es as Γ' →
      TypedBindings Δ Γ ((name, e) :: es) ((name, a) :: as) Γ'

namespace Context

/-- The context with a further function. -/
def withFunction (Δ : Context) (name : String) (τ : Ty) : Context :=
  { Δ with symbols := { Δ.symbols with functions := Δ.symbols.functions.insert name τ } }

/-- The context with a further record and the function that builds it. -/
def withRecord (Δ : Context) (name : String) (members : List (String × Ty)) : Context :=
  let record := Ty.record name members
  { Δ with symbols :=
      { functions := Δ.symbols.functions.insert name (.function (members.map Prod.snd) false record)
        types := Δ.symbols.types.insert name record } }

/-- A function of this type may be defined: it is declared, and neither defined nor the constructor
of a record. -/
structure Definable (Δ : Context) (name : String) (τ : Ty) : Prop where
  declared : Δ.function? name = some τ
  fresh : Δ.isDefined name = false
  ordinary : Δ.isConstructor name = false

end Context

/-- What statements return, in order. -/
def returns (body : List Stmt) : List Ty :=
  body.flatMap (·.ty.outcomes)

mutual

/-- The rules for statements. -/
inductive Stmt.Typed : Context → Locals → Stmt → Stmt → Context → Locals → Prop where
  | expr {Δ Γ e a n} : e.Typed Δ Γ a → Typed Δ Γ (.expr e n) (.expr a { n with ty := a.ty }) Δ Γ
  | declare {Δ Γ name w τ n} : Resolves Δ w τ → Δ.function? name = none →
      Typed Δ Γ (.declare name w n) (.declare name τ { n with ty := τ }) (Δ.withFunction name τ) Γ
  | record {Δ Γ name ws τs n} : (ws.map Prod.fst).Nodup → ResolvesMembers Δ ws τs →
      Δ.record? name = none → Δ.function? name = none →
      Typed Δ Γ (.record name ws n) (.record name τs { n with ty := .record name τs })
        (Δ.withRecord name τs) Γ
  | comment {Δ Γ text n} :
      Typed Δ Γ (.comment text n) (.comment text { n with ty := .list [] }) Δ Γ
  | ret {Δ Γ e a n} : Δ.current = some a.ty → e.Typed Δ Γ a →
      Typed Δ Γ (.ret e n) (.ret a { n with ty := .list [a.ty] }) Δ Γ
  | define {Δ Γ Γ' name params τs variadic es as e a n} :
      Δ.Definable name (.function τs variadic a.ty) → params.length = τs.length →
      (params ++ es.map Prod.fst).Nodup →
      TypedBindings (Δ.withDefinition name n.span) (Γ.bindAll (params.zip τs)) es as Γ' →
      e.Typed (Δ.withDefinition name n.span) Γ' a →
      Typed Δ Γ (.define name params es e n)
        (.define name params as a { n with ty := .function τs variadic a.ty })
        (Δ.withDefinition name n.span) Γ
  | defineBlock {Δ Δ' Γ Γ₁ Γ' name params τs variadic ret es as body body' n} :
      Δ.Definable name (.function τs variadic ret) → params.length = τs.length →
      (params ++ es.map Prod.fst).Nodup →
      TypedBindings (Δ.withDefinition name n.span) (Γ.bindAll (params.zip τs)) es as Γ₁ →
      TypedList ((Δ.withDefinition name n.span).returning (some ret)) Γ₁ body body' Δ' Γ' →
      Typed Δ Γ (.defineBlock name params es body n)
        (.defineBlock name params as body' { n with ty := .function τs variadic ret })
        (Δ'.returning Δ.current) Γ
  | loop {Δ Δ' Γ Γ' c c' body body' n} : c.Typed Δ Γ c' → c'.ty = .bool →
      TypedList Δ Γ body body' Δ' Γ' →
      Typed Δ Γ (.loop c body n) (.loop c' body' { n with ty := .list (returns body') }) Δ' Γ
  | branch {Δ Δ₁ Δ₂ Γ Γ₁ Γ₂ c c' t t' e e' n} : c.Typed Δ Γ c' → c'.ty = .bool →
      TypedList Δ Γ t t' Δ₁ Γ₁ → TypedList Δ₁ Γ e e' Δ₂ Γ₂ →
      Typed Δ Γ (.branch c t e n)
        (.branch c' t' e' { n with ty := .list (returns t' ++ returns e') }) Δ₂ Γ
  | bind {Δ Γ x e a n} : e.Typed Δ Γ a →
      Typed Δ Γ (.bind x e n) (.bind x a { n with ty := a.ty }) Δ (Γ.insert x a.ty)
  | block {Δ Δ' Γ Γ' body body' n} : TypedList Δ Γ body body' Δ' Γ' →
      Typed Δ Γ (.block body n) (.block body' { n with ty := .list (returns body') }) Δ' Γ

/-- Statements one after the other. -/
inductive Stmt.TypedList :
    Context → Locals → List Stmt → List Stmt → Context → Locals → Prop where
  | nil {Δ Γ} : TypedList Δ Γ [] [] Δ Γ
  | cons {Δ Δ₁ Δ₂ Γ Γ₁ Γ₂ s s' ss ss'} : Typed Δ Γ s s' Δ₁ Γ₁ →
      TypedList Δ₁ Γ₁ ss ss' Δ₂ Γ₂ → TypedList Δ Γ (s :: ss) (s' :: ss') Δ₂ Γ₂

end

/-- A program is typed from an empty scope. -/
def Program.Typed (Δ : Context) (program typed : Program) (Δ' : Context) : Prop :=
  ∃ Γ, Stmt.TypedList Δ [] program typed Δ' Γ

end PCode
