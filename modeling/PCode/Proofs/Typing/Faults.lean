import PCode.Proofs.Typing.Positions
import PCode.Proofs.Typing.Statements

namespace PCode

section Spans

/-- The spans of the nodes of an expression, in the order of its outline. -/
def Expr.spans (e : Expr) : List Span :=
  e.outline.map (·.note.span)

def Expr.spansList (es : List Expr) : List Span :=
  (Expr.outlineList es).map (·.note.span)

/-- The spans of the nodes of a statement, in the order of its outline. -/
def Stmt.spans (s : Stmt) : List Span :=
  s.outline.map (·.note.span)

def Stmt.spansList (ss : List Stmt) : List Span :=
  (Stmt.outlineList ss).map (·.note.span)

/-- The spans of the expressions in bindings. -/
def bindingSpans (bs : List (String × Expr)) : List Span :=
  bs.flatMap (·.2.spans)

/-- The spans of the nodes of a program. -/
def Program.spans (program : Program) : List Span :=
  Stmt.spansList program

@[simp] theorem subset_between {span : Span} {before spans behind : List Span} :
    spans ⊆ span :: (before ++ (spans ++ behind)) :=
  fun _ h => List.mem_cons_of_mem _ (List.mem_append_right _ (List.mem_append_left _ h))

@[simp] theorem subset_behind {span : Span} {before between spans : List Span} :
    spans ⊆ span :: (before ++ (between ++ spans)) :=
  fun _ h => List.mem_cons_of_mem _ (List.mem_append_right _ (List.mem_append_right _ h))

namespace Expr

variable {e f l r t c i : Expr} {es : List Expr} {n : Note}

@[simp] theorem spans_unary {op : UnaryOp} : (Expr.unary op e n).spans = n.span :: e.spans := rfl

@[simp] theorem spans_binary {op : BinaryOp} :
    (Expr.binary op l r n).spans = n.span :: (l.spans ++ r.spans) := by
  simp [spans, outline]

@[simp] theorem spans_member {ordinal : Option Nat} :
    (Expr.member t f ordinal n).spans = n.span :: (t.spans ++ f.spans) := by
  simp [spans, outline]

@[simp] theorem spans_assign : (Expr.assign t e n).spans = n.span :: (t.spans ++ e.spans) := by
  simp [spans, outline]

@[simp] theorem spans_cond :
    (Expr.cond c t e n).spans = n.span :: (c.spans ++ (t.spans ++ e.spans)) := by
  simp [spans, outline]

@[simp] theorem spans_lambda {params : List String} :
    (Expr.lambda params e n).spans = n.span :: e.spans := rfl

@[simp] theorem spans_call {x : String} : (Expr.call x es n).spans = n.span :: spansList es := rfl

@[simp] theorem spans_array : (Expr.array es n).spans = n.span :: spansList es := rfl

@[simp] theorem spans_index :
    (Expr.index e i n).spans = n.span :: (e.spans ++ i.spans) := by
  simp [spans, outline]

@[simp] theorem spansList_nil : spansList [] = [] := rfl

@[simp] theorem spansList_cons : spansList (e :: es) = e.spans ++ spansList es := by
  simp [spansList, spans, outlineList]

@[simp] theorem span_mem_spans (e : Expr) : e.span ∈ e.spans := by
  cases e <;> exact List.mem_cons_self

end Expr

@[simp] theorem bindingSpans_cons {x : String} {e : Expr} {bs : List (String × Expr)} :
    bindingSpans ((x, e) :: bs) = e.spans ++ bindingSpans bs := rfl

namespace Stmt

variable {e c : Expr} {s : Stmt} {body t f : List Stmt} {n : Note}

@[simp] theorem spans_expr : (Stmt.expr e n).spans = n.span :: e.spans := rfl

@[simp] theorem spans_ret : (Stmt.ret e n).spans = n.span :: e.spans := rfl

@[simp] theorem spans_bind {x : String} : (Stmt.bind x e n).spans = n.span :: e.spans := rfl

@[simp] theorem spans_define {name : String} {params : List String} {bs : List (String × Expr)} :
    (Stmt.define name params bs e n).spans = n.span :: (bindingSpans bs ++ e.spans) := by
  simp [spans, Expr.spans, bindingSpans, outline, List.map_flatMap]

@[simp] theorem spans_defineBlock {name : String} {params : List String}
    {bs : List (String × Expr)} : (Stmt.defineBlock name params bs body n).spans =
      n.span :: (bindingSpans bs ++ spansList body) := by
  simp [spans, spansList, Expr.spans, bindingSpans, outline, List.map_flatMap]

@[simp] theorem spans_loop :
    (Stmt.loop c body n).spans = n.span :: (c.spans ++ spansList body) := by
  simp [spans, spansList, Expr.spans, outline]

@[simp] theorem spans_branch :
    (Stmt.branch c t f n).spans = n.span :: (c.spans ++ (spansList t ++ spansList f)) := by
  simp [spans, spansList, Expr.spans, outline]

@[simp] theorem spans_block : (Stmt.block body n).spans = n.span :: spansList body := rfl

@[simp] theorem spansList_nil : spansList [] = [] := rfl

@[simp] theorem spansList_cons : spansList (s :: body) = s.spans ++ spansList body := by
  simp [spansList, spans, outlineList]

@[simp] theorem span_mem_spans (s : Stmt) : s.span ∈ s.spans := by
  cases s <;> exact List.mem_cons_self

end Stmt

end Spans

namespace Expr

theorem Typed.span_eq {Δ : Context} {Γ : Locals} {e a : Expr} (h : Typed Δ Γ e a) :
    a.span = e.span := by
  cases h <;> rfl

end Expr

theorem Program.Typed.spans_eq {Δ Δ' : Context} {program typed : Program}
    (h : program.Typed Δ typed Δ') : typed.spans = program.spans := by
  calc typed.spans
    _ = SpanTree.spansList typed.spanTrees := (Stmt.spans_spanTrees typed).symm
    _ = SpanTree.spansList program.spanTrees := by rw [h.spanTrees_eq]
    _ = program.spans := Stmt.spans_spanTrees program

/-- A rule is judged at one span. -/
def FaultAt {α : Type} (span : Span) (x : Except TypeError α) : Prop :=
  ∀ error, x = .error error → error.span = span

section Rules

variable {span : Span}

theorem expect_faultAt {place : Place} {expected found : Ty} :
    FaultAt span (expect place expected found span) := by
  intro error h
  unfold expect at h
  split at h <;> cases h
  rfl

theorem checkUnary_faultAt {op : UnaryOp} {τ : Ty} : FaultAt span (checkUnary op τ span) := by
  intro error h
  unfold checkUnary at h
  split at h <;> cases h
  rfl

theorem checkBinary_faultAt {op : BinaryOp} {l r : Ty} :
    FaultAt span (checkBinary op l r span) := by
  intro error h
  unfold checkBinary at h
  split at h
  · split at h <;> cases h
    rfl
  · cases h
    rfl

theorem checkTarget_faultAt {target : Expr} : FaultAt target.span (checkTarget target) := by
  intro error h
  unfold checkTarget at h
  split at h <;> cases h
  rfl

theorem checkMember_fault {target : Ty} {field : Expr} {error : TypeError}
    (h : checkMember target field span = .error error) :
    error.span = span ∨ error.span = field.span := by
  unfold checkMember at h
  split at h
  · cases h
    exact .inr rfl
  · split at h <;> cases h
    exact .inr rfl
  · cases h
    exact .inl rfl

theorem checkCallee_faultAt {Δ : Context} {Γ : Locals} {callee : String} {count : Nat} :
    FaultAt span (checkCallee Δ Γ callee count span) := by
  intro error h
  unfold checkCallee at h
  split at h
  · cases h
    rfl
  · split at h <;> cases h
    rfl
  · cases h
    rfl

theorem checkLambda_faultAt {params : List String} {types : List Ty} :
    FaultAt span (checkLambda params types span) := by
  intro error h
  unfold checkLambda at h
  split at h
  · split at h <;> cases h
    rfl
  · cases h
    rfl

theorem checkHeader_faultAt {Δ : Context} {name : String} {params bound : List String} :
    FaultAt span (checkHeader Δ name params bound span) := by
  intro error h
  unfold checkHeader at h
  split at h
  · cases h
    rfl
  · split at h
    · cases h
      rfl
    · split at h
      · split at h <;> cases h
        rfl
      · cases h
        rfl
    · cases h
      rfl

end Rules

end PCode
