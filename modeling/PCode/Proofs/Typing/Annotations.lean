import PCode.Proofs.Grammar.Yields
import PCode.Proofs.Typing.Statements
import PCode.Proofs.Typing.Tables
import PCode.Syntax.Outline

namespace PCode

namespace Ty

/-- A type with nothing left open: its records have members and are those of the context. -/
inductive Complete (Δ : Context) : Ty → Prop where
  | i64 : Complete Δ .i64
  | real : Complete Δ .real
  | string : Complete Δ .string
  | bool : Complete Δ .bool
  | array {τ} : Complete Δ τ → Complete Δ (.array τ)
  | function {τs variadic τ} : (∀ σ ∈ τs, Complete Δ σ) → Complete Δ τ →
      Complete Δ (.function τs variadic τ)
  | record {name members} : Δ.record? name = some (.record name members) → members ≠ [] →
      (∀ m ∈ members, Complete Δ m.2) → Complete Δ (.record name members)

variable {Δ : Context} {τ : Ty} {τs : List Ty} {variadic : Bool}

theorem Complete.ne_unknown (h : τ.Complete Δ) : τ ≠ .unknown := by
  rintro rfl
  cases h

theorem Complete.element (h : (Ty.array τ).Complete Δ) : τ.Complete Δ := by
  cases h with
  | array h => exact h

theorem Complete.params (h : (Ty.function τs variadic τ).Complete Δ) : ∀ σ ∈ τs, σ.Complete Δ := by
  cases h with
  | function hs _ => exact hs

theorem Complete.result (h : (Ty.function τs variadic τ).Complete Δ) : τ.Complete Δ := by
  cases h with
  | function _ h => exact h

theorem Complete.member {record field : String} {members : List (String × Ty)} {index : Nat}
    (h : (Ty.record record members).Complete Δ) (hmember : members[index]? = some (field, τ)) :
    τ.Complete Δ := by
  cases h with
  | record _ _ hs => exact hs _ (List.mem_of_getElem? hmember)

end Ty

theorem BinaryOp.Takes.complete {op : BinaryOp} {σ τ : Ty} {Δ : Context} (h : op.Takes σ τ) :
    τ.Complete Δ := by
  cases h with
  | arithmetic _ hτ =>
    obtain rfl | rfl : σ = .i64 ∨ σ = .real := by simpa using hτ
    · exact .i64
    · exact .real
  | remainder => exact .i64
  | equality | order | logic => exact .bool

namespace Expr

mutual

/-- The nodes of an expression in preorder. -/
def nodes : Expr → List Expr
  | e@(.integer ..) | e@(.real ..) | e@(.text ..) | e@(.boolean ..) | e@(.name ..) => [e]
  | e@(.unary _ operand _) => e :: operand.nodes
  | e@(.binary _ left right _) => e :: left.nodes ++ right.nodes
  | e@(.member target field _ _) => e :: target.nodes ++ field.nodes
  | e@(.assign target value _) => e :: target.nodes ++ value.nodes
  | e@(.cond test thenValue elseValue _) =>
    e :: test.nodes ++ thenValue.nodes ++ elseValue.nodes
  | e@(.lambda _ body _) => e :: body.nodes
  | e@(.call _ args _) => e :: nodesList args
  | e@(.array items _) => e :: nodesList items
  | e@(.index target position _) => e :: target.nodes ++ position.nodes

def nodesList : List Expr → List Expr
  | [] => []
  | e :: es => e.nodes ++ nodesList es

end

mutual

theorem map_note_nodes : ∀ e : Expr, e.nodes.map note = e.outline.map (·.note)
  | .integer .. | .real .. | .text .. | .boolean .. | .name .. => rfl
  | .unary _ e _ => by simp [nodes, outline, note, map_note_nodes e]
  | .binary _ l r _ => by simp [nodes, outline, note, map_note_nodes l, map_note_nodes r]
  | .member t field _ _ => by
    simp [nodes, outline, note, map_note_nodes t, map_note_nodes field]
  | .assign t v _ => by simp [nodes, outline, note, map_note_nodes t, map_note_nodes v]
  | .cond c t e _ => by
    simp [nodes, outline, note, map_note_nodes c, map_note_nodes t, map_note_nodes e]
  | .lambda _ b _ => by simp [nodes, outline, note, map_note_nodes b]
  | .call _ es _ => by simp [nodes, outline, note, map_note_nodesList es]
  | .array es _ => by simp [nodes, outline, note, map_note_nodesList es]
  | .index t p _ => by simp [nodes, outline, note, map_note_nodes t, map_note_nodes p]

theorem map_note_nodesList : ∀ es : List Expr,
    (nodesList es).map note = (outlineList es).map (·.note)
  | [] => rfl
  | e :: es => by simp [nodesList, outlineList, map_note_nodes e, map_note_nodesList es]

end

theorem mem_nodes_self (e : Expr) : e ∈ e.nodes := by
  cases e <;> simp [nodes]

/-- The ordinal of a member access is that of a member of the target's record, with the name that is
accessed and the type of the access. -/
def Selects : Expr → Prop
  | .member target field ordinal note => ∃ record members index name,
      target.ty = .record record members ∧ ordinal = some index ∧ field.name? = some name ∧
        members[index]? = some (name, note.ty)
  | _ => True

/-- A node that is typed and resolved. -/
structure Complete (Δ : Context) (e : Expr) : Prop where
  ty : e.ty.Complete Δ
  selects : e.Selects

/-- An expression whose nodes are all typed and resolved. -/
def Annotated (Δ : Context) (e : Expr) : Prop :=
  ∀ node ∈ e.nodes, node.Complete Δ

theorem Annotated.ty {Δ : Context} {e : Expr} (h : e.Annotated Δ) : e.ty.Complete Δ :=
  (h e (mem_nodes_self e)).ty

theorem Annotated.known {Δ : Context} {e : Expr} (h : e.Annotated Δ) :
    ∀ node ∈ e.outline, node.note.ty ≠ .unknown := by
  intro node hnode
  have hnote : node.note ∈ e.nodes.map note := by
    rw [map_note_nodes]
    exact List.mem_map_of_mem hnode
  obtain ⟨a, ha, hnote⟩ := List.mem_map.mp hnote
  rw [← hnote]
  exact (h a ha).ty.ne_unknown

end Expr

/-- The variables in scope have complete types. -/
def Locals.Complete (Δ : Context) (Γ : Locals) : Prop :=
  ∀ x τ, Γ.get? x = some τ → τ.Complete Δ

namespace Locals

variable {Δ : Context} {Γ : Locals}

theorem Complete.insert (h : Γ.Complete Δ) {x : String} {τ : Ty} (hτ : τ.Complete Δ) :
    Locals.Complete Δ (Γ.insert x τ) := by
  intro y σ hy
  rw [Table.get?_insert] at hy
  split at hy
  · cases hy
    exact hτ
  · exact h y σ hy

theorem Complete.bindAll (h : Γ.Complete Δ) {τs : List Ty} (hτs : ∀ τ ∈ τs, τ.Complete Δ)
    (params : List String) : (Γ.bindAll (params.zip τs)).Complete Δ := by
  induction params generalizing Γ τs with
  | nil => exact h
  | cons param params ih =>
    cases τs with
    | nil => exact h
    | cons τ τs =>
      rw [List.forall_mem_cons] at hτs
      exact ih (h.insert hτs.1) hτs.2

end Locals

/-- The entries of a context are complete types of the context that the program ends with. -/
structure Context.Complete (Ω Δ : Context) : Prop where
  functions : ∀ name τ, Δ.function? name = some τ → τ.Complete Ω
  records : ∀ name τ, Δ.record? name = some τ → τ.Complete Ω

namespace Context

variable {Ω Δ : Context}

theorem record?_withRecord (name : String) (members : List (String × Ty)) :
    (Δ.withRecord name members).record? name = some (.record name members) := by
  simp [withRecord, record?, Symbols.get?, Symbols.ofKind]

theorem Complete.withFunction (h : Complete Ω Δ) {name : String} {τ : Ty} (hτ : τ.Complete Ω) :
    Complete Ω (Δ.withFunction name τ) where
  functions := Locals.Complete.insert h.functions hτ
  records := h.records

theorem Complete.withRecord (h : Complete Ω Δ) {name : String} {members : List (String × Ty)}
    (hτ : (Ty.record name members).Complete Ω) : Complete Ω (Δ.withRecord name members) where
  functions := by
    apply Locals.Complete.insert h.functions
    cases hτ with
    | record hentry hne hs =>
      refine .function ?_ (.record hentry hne hs)
      intro σ hσ
      obtain ⟨m, hm, rfl⟩ := List.mem_map.mp hσ
      exact hs m hm
  records := Locals.Complete.insert h.records hτ

theorem Complete.withDefinition (h : Complete Ω Δ) (name : String) (span : Span) :
    Complete Ω (Δ.withDefinition name span) := ⟨h.functions, h.records⟩

theorem Complete.returning (h : Complete Ω Δ) (ret : Option Ty) :
    Complete Ω (Δ.returning ret) := ⟨h.functions, h.records⟩

end Context

section Completeness

variable {Ω : Context}

mutual

theorem Resolves.complete {Δ : Context} {w τ : Ty} (hΔ : Context.Complete Ω Δ) :
    Resolves Δ w τ → w.WellFormed → τ.Complete Ω
  | .i64, _ => .i64
  | .real, _ => .real
  | .string, _ => .string
  | .bool, _ => .bool
  | .array h, hw => by
    cases hw with
    | array hw => exact .array (h.complete hΔ hw)
  | .function hs h, hw => by
    cases hw with
    | function hws hw => exact .function (hs.complete hΔ hws) (h.complete hΔ hw)
  | .named hr, _ => hΔ.records _ _ hr
  -- members are never written
  | .record, hw => nomatch hw

theorem ResolvesParams.complete {Δ : Context} {ws τs : List Ty} {variadic : Bool}
    (hΔ : Context.Complete Ω Δ) :
    ResolvesParams Δ ws τs variadic → (∀ w ∈ ws, w.WellFormed) → ∀ τ ∈ τs, τ.Complete Ω
  | .nil, _ => List.forall_mem_nil _
  | .ellipsis, _ => List.forall_mem_nil _
  | .cons h hs, hws => by
    rw [List.forall_mem_cons] at hws ⊢
    exact ⟨h.complete hΔ hws.1, hs.complete hΔ hws.2⟩

end

theorem ResolvesMembers.complete {Δ : Context} {ws τs : List (String × Ty)}
    (hΔ : Context.Complete Ω Δ) (h : ResolvesMembers Δ ws τs) (hws : ∀ w ∈ ws, w.2.WellFormed) :
    ∀ m ∈ τs, m.2.Complete Ω := by
  induction h with
  | nil => exact List.forall_mem_nil _
  | cons h _ ih =>
    rw [List.forall_mem_cons] at hws ⊢
    exact ⟨h.complete hΔ hws.1, ih hws.2⟩

theorem ResolvesMembers.ne_nil {Δ : Context} {ws τs : List (String × Ty)}
    (h : ResolvesMembers Δ ws τs) (hws : ws ≠ []) : τs ≠ [] := by
  cases h with
  | nil => exact absurd rfl hws
  | cons => exact List.cons_ne_nil _ _

theorem Callee.complete {Δ : Context} {Γ : Locals} {name : String} {τ : Ty}
    (hΔ : Context.Complete Ω Δ) (hΓ : Γ.Complete Ω) (h : Callee Δ Γ name τ) : τ.Complete Ω := by
  cases h with
  | bound hbound => exact hΓ name τ hbound
  | declared _ hdeclared => exact hΔ.functions name τ hdeclared

namespace Expr

mutual

/-- A typed expression in a complete scope is annotated throughout. -/
theorem Typed.annotated {Δ : Context} {Γ : Locals} {e a : Expr} (hΔ : Context.Complete Ω Δ) :
    Typed Δ Γ e a → Γ.Complete Ω → a.Annotated Ω
  | .integer, _ => List.forall_mem_singleton.mpr ⟨.i64, trivial⟩
  | .real, _ => List.forall_mem_singleton.mpr ⟨.real, trivial⟩
  | .text, _ => List.forall_mem_singleton.mpr ⟨.string, trivial⟩
  | .boolean, _ => List.forall_mem_singleton.mpr ⟨.bool, trivial⟩
  | .name h, hΓ => List.forall_mem_singleton.mpr ⟨hΓ _ _ h, trivial⟩
  | .unary h _, hΓ => by
    have ha := h.annotated hΔ hΓ
    exact List.forall_mem_cons.mpr ⟨⟨ha.ty, trivial⟩, ha⟩
  | .binary hl hr _ hop, hΓ => by
    rw [Annotated, nodes, List.cons_append, List.forall_mem_cons, List.forall_mem_append]
    exact ⟨⟨hop.complete, trivial⟩, hl.annotated hΔ hΓ, hr.annotated hΔ hΓ⟩
  | .member h hty hmember _, hΓ => by
    have ha := h.annotated hΔ hΓ
    have hrecord := ha.ty
    rw [hty] at hrecord
    have hτ := hrecord.member hmember
    rw [Annotated, nodes, nodes, List.cons_append, List.forall_mem_cons, List.forall_mem_append,
      List.forall_mem_singleton]
    exact ⟨⟨hτ, _, _, _, _, hty, rfl, rfl, hmember⟩, ha, hτ, trivial⟩
  | .assign _ h, hΓ => by
    have ha := h.annotated hΔ hΓ
    rw [Annotated, nodes, nodes, List.cons_append, List.forall_mem_cons, List.forall_mem_append,
      List.forall_mem_singleton]
    exact ⟨⟨ha.ty, trivial⟩, ⟨ha.ty, trivial⟩, ha⟩
  | .cond hc _ ht he _, hΓ => by
    have ht' := ht.annotated hΔ hΓ
    rw [Annotated, nodes, List.cons_append, List.cons_append, List.forall_mem_cons,
      List.forall_mem_append, List.forall_mem_append]
    exact ⟨⟨ht'.ty, trivial⟩, ⟨hc.annotated hΔ hΓ, ht'⟩, he.annotated hΔ hΓ⟩
  | .call hcallee _ hargs, hΓ => by
    have hf := hcallee.complete hΔ hΓ
    rw [Annotated, nodes, List.forall_mem_cons]
    exact ⟨⟨hf.result, trivial⟩, hargs.annotated hΔ hΓ hf.params⟩
  | .array h hs, hΓ => by
    have ha := h.annotated hΔ hΓ
    rw [Annotated, nodes, nodesList, List.forall_mem_cons, List.forall_mem_append]
    exact ⟨⟨.array ha.ty, trivial⟩, ha, hs.annotated hΔ hΓ⟩
  | .index h hty hi _, hΓ => by
    have ha := h.annotated hΔ hΓ
    have harray := ha.ty
    rw [hty] at harray
    rw [Annotated, nodes, List.cons_append, List.forall_mem_cons, List.forall_mem_append]
    exact ⟨⟨harray.element, trivial⟩, ha, hi.annotated hΔ hΓ⟩

-- a lambda has its type, and that of its parameters, from the parameter it is passed for
theorem TypedArgs.annotated {Δ : Context} {Γ : Locals} {τs : List Ty} {es as : List Expr}
    (hΔ : Context.Complete Ω Δ) :
    TypedArgs Δ Γ τs es as → Γ.Complete Ω → (∀ τ ∈ τs, τ.Complete Ω) →
      ∀ node ∈ nodesList as, node.Complete Ω
  | .nil, _, _ => List.forall_mem_nil _
  | .value h hs, hΓ, hτs => by
    rw [nodesList, List.forall_mem_append]
    exact ⟨h.annotated hΔ hΓ, hs.annotated hΔ hΓ (List.forall_mem_cons.mp hτs).2⟩
  | .lambda _ _ h hs, hΓ, hτs => by
    rw [List.forall_mem_cons] at hτs
    have hb := h.annotated hΔ (hΓ.bindAll hτs.1.params _)
    rw [nodesList, nodes, List.cons_append, List.forall_mem_cons, List.forall_mem_append]
    exact ⟨⟨hτs.1, trivial⟩, hb, hs.annotated hΔ hΓ hτs.2⟩
  | .extra h hs, hΓ, hτs => by
    rw [nodesList, List.forall_mem_append]
    exact ⟨h.annotated hΔ hΓ, hs.annotated hΔ hΓ hτs⟩

theorem TypedItems.annotated {Δ : Context} {Γ : Locals} {τ : Ty} {es as : List Expr}
    (hΔ : Context.Complete Ω Δ) :
    TypedItems Δ Γ τ es as → Γ.Complete Ω → ∀ node ∈ nodesList as, node.Complete Ω
  | .nil, _ => List.forall_mem_nil _
  | .cons h hs, hΓ => by
    rw [nodesList, List.forall_mem_append]
    exact ⟨h.annotated hΔ hΓ, hs.annotated hΔ hΓ⟩

end

end Expr

theorem TypedBindings.annotated {Δ : Context} {Γ Γ' : Locals} {es as : List (String × Expr)}
    (hΔ : Context.Complete Ω Δ) (h : TypedBindings Δ Γ es as Γ') (hΓ : Γ.Complete Ω) :
    (∀ node ∈ as.flatMap (·.2.outline), node.note.ty ≠ .unknown) ∧
      (∀ e ∈ as.flatMap (·.2.nodes), e.Complete Ω) ∧ Γ'.Complete Ω := by
  induction h with
  | nil => exact ⟨List.forall_mem_nil _, List.forall_mem_nil _, hΓ⟩
  | cons h _ ih =>
    have ha := h.annotated hΔ hΓ
    obtain ⟨hknown, hnodes, hΓ'⟩ := ih (hΓ.insert ha.ty)
    rw [List.flatMap_cons, List.flatMap_cons, List.forall_mem_append, List.forall_mem_append]
    exact ⟨⟨ha.known, hknown⟩, ⟨ha, hnodes⟩, hΓ'⟩

end Completeness

namespace Stmt

mutual

/-- The nodes of the expressions in a statement. -/
def nodes : Stmt → List Expr
  | .declare .. | .record .. | .comment .. => []
  | .expr value _ | .ret value _ | .bind _ value _ => value.nodes
  | .define _ _ locals value _ => locals.flatMap (·.2.nodes) ++ value.nodes
  | .defineBlock _ _ locals body _ => locals.flatMap (·.2.nodes) ++ nodesList body
  | .block body _ => nodesList body
  | .loop test body _ => test.nodes ++ nodesList body
  | .branch test thenBody elseBody _ => test.nodes ++ nodesList thenBody ++ nodesList elseBody

def nodesList : List Stmt → List Expr
  | [] => []
  | s :: ss => s.nodes ++ nodesList ss

end

/-- Every node of a statement has a type, and those of its expressions are resolved. -/
structure Annotated (Ω : Context) (s : Stmt) : Prop where
  known : ∀ node ∈ s.outline, node.note.ty ≠ .unknown
  nodes : ∀ e ∈ s.nodes, e.Complete Ω

/-- The same of statements in a row. -/
structure AnnotatedList (Ω : Context) (ss : List Stmt) : Prop where
  known : ∀ node ∈ outlineList ss, node.note.ty ≠ .unknown
  nodes : ∀ e ∈ nodesList ss, e.Complete Ω

variable {Ω : Context}

theorem AnnotatedList.nil : AnnotatedList Ω [] :=
  ⟨List.forall_mem_nil _, List.forall_mem_nil _⟩

theorem AnnotatedList.cons {s : Stmt} {ss : List Stmt} (h : s.Annotated Ω)
    (hs : AnnotatedList Ω ss) : AnnotatedList Ω (s :: ss) where
  known := by
    rw [outlineList, List.forall_mem_append]
    exact ⟨h.known, hs.known⟩
  nodes := by
    rw [nodesList, List.forall_mem_append]
    exact ⟨h.nodes, hs.nodes⟩

mutual

/-- A typed statement is annotated throughout, and leaves its context and its scope complete. The
types are judged by the context at the end of the program, which has all entries that the statement
makes. -/
theorem Typed.annotated {s a : Stmt} {Δ Δ' : Context} {Γ Γ' : Locals} :
    Typed Δ Γ s a Δ' Γ' → s.WellFormed → Δ'.Extends Ω → Context.Complete Ω Δ → Γ.Complete Ω →
      a.Annotated Ω ∧ Context.Complete Ω Δ' ∧ Γ'.Complete Ω
  | .expr h, _, _, hΔ, hΓ => by
    have ha := h.annotated hΔ hΓ
    exact ⟨⟨List.forall_mem_cons.mpr ⟨ha.ty.ne_unknown, ha.known⟩, ha⟩, hΔ, hΓ⟩
  | .declare hw _, hwf, _, hΔ, hΓ => by
    cases hwf with
    | declare _ hwf _ =>
      have hτ := hw.complete hΔ hwf
      exact ⟨⟨List.forall_mem_singleton.mpr hτ.ne_unknown, List.forall_mem_nil _⟩,
        hΔ.withFunction hτ, hΓ⟩
  | .record _ hws _ _, hwf, hΩ, hΔ, hΓ => by
    cases hwf with
    | record _ hne hwfs _ =>
      have hentry := hΩ.records (Context.record?_withRecord _ _)
      have hτ := Ty.Complete.record hentry (hws.ne_nil hne)
        (hws.complete hΔ fun w hw => (hwfs w hw).2)
      exact ⟨⟨List.forall_mem_singleton.mpr hτ.ne_unknown, List.forall_mem_nil _⟩,
        hΔ.withRecord hτ, hΓ⟩
  | .comment, _, _, hΔ, hΓ =>
    ⟨⟨List.forall_mem_singleton.mpr Ty.noConfusion, List.forall_mem_nil _⟩, hΔ, hΓ⟩
  | .ret _ h, _, _, hΔ, hΓ => by
    have ha := h.annotated hΔ hΓ
    exact ⟨⟨List.forall_mem_cons.mpr ⟨Ty.noConfusion, ha.known⟩, ha⟩, hΔ, hΓ⟩
  | .define hdef _ _ hes h, _, _, hΔ, hΓ => by
    have hf := hΔ.functions _ _ hdef.declared
    obtain ⟨hknown, hnodes, hΓ'⟩ := hes.annotated (hΔ.withDefinition _ _) (hΓ.bindAll hf.params _)
    have ha := h.annotated (hΔ.withDefinition _ _) hΓ'
    refine ⟨⟨?_, ?_⟩, hΔ.withDefinition _ _, hΓ⟩
    · rw [outline, List.cons_append, List.forall_mem_cons, List.forall_mem_append]
      exact ⟨Ty.noConfusion, hknown, ha.known⟩
    · rw [nodes, List.forall_mem_append]
      exact ⟨hnodes, ha⟩
  | .defineBlock hdef _ _ hes hbody, hwf, hΩ, hΔ, hΓ => by
    cases hwf with
    | defineBlock _ _ hwfs _ =>
      have hf := hΔ.functions _ _ hdef.declared
      obtain ⟨hknown, hnodes, hΓ₁⟩ := hes.annotated (hΔ.withDefinition _ _)
        (hΓ.bindAll hf.params _)
      obtain ⟨ha, hΔ', _⟩ := hbody.annotated hwfs ⟨hΩ.functions, hΩ.records⟩
        ((hΔ.withDefinition _ _).returning _) hΓ₁
      refine ⟨⟨?_, ?_⟩, hΔ'.returning _, hΓ⟩
      · rw [outline, List.cons_append, List.forall_mem_cons, List.forall_mem_append]
        exact ⟨Ty.noConfusion, hknown, ha.known⟩
      · rw [nodes, List.forall_mem_append]
        exact ⟨hnodes, ha.nodes⟩
  | .loop hc _ hbody, hwf, hΩ, hΔ, hΓ => by
    cases hwf with
    | loop _ hwfs _ =>
      have hc' := hc.annotated hΔ hΓ
      obtain ⟨ha, hΔ', _⟩ := hbody.annotated hwfs hΩ hΔ hΓ
      refine ⟨⟨?_, ?_⟩, hΔ', hΓ⟩
      · rw [outline, List.cons_append, List.forall_mem_cons, List.forall_mem_append]
        exact ⟨Ty.noConfusion, hc'.known, ha.known⟩
      · rw [nodes, List.forall_mem_append]
        exact ⟨hc', ha.nodes⟩
  | .branch hc _ ht he, hwf, hΩ, hΔ, hΓ => by
    cases hwf with
    | branch _ hwft hwfe _ =>
      have hc' := hc.annotated hΔ hΓ
      obtain ⟨ht', hΔ₁, _⟩ := ht.annotated hwft (he.growth.kept.trans hΩ) hΔ hΓ
      obtain ⟨he', hΔ₂, _⟩ := he.annotated hwfe hΩ hΔ₁ hΓ
      refine ⟨⟨?_, ?_⟩, hΔ₂, hΓ⟩
      · rw [outline, List.cons_append, List.cons_append, List.forall_mem_cons,
          List.forall_mem_append, List.forall_mem_append]
        exact ⟨Ty.noConfusion, ⟨hc'.known, ht'.known⟩, he'.known⟩
      · rw [nodes, List.forall_mem_append, List.forall_mem_append]
        exact ⟨⟨hc', ht'.nodes⟩, he'.nodes⟩
  | .bind h, _, _, hΔ, hΓ => by
    have ha := h.annotated hΔ hΓ
    exact ⟨⟨List.forall_mem_cons.mpr ⟨ha.ty.ne_unknown, ha.known⟩, ha⟩, hΔ, hΓ.insert ha.ty⟩
  | .block hbody, hwf, hΩ, hΔ, hΓ => by
    cases hwf with
    | block hwfs _ =>
      obtain ⟨ha, hΔ', _⟩ := hbody.annotated hwfs hΩ hΔ hΓ
      exact ⟨⟨List.forall_mem_cons.mpr ⟨Ty.noConfusion, ha.known⟩, ha.nodes⟩, hΔ', hΓ⟩

theorem TypedList.annotated {ss as : List Stmt} {Δ Δ' : Context} {Γ Γ' : Locals} :
    TypedList Δ Γ ss as Δ' Γ' → (∀ s ∈ ss, s.WellFormed) → Δ'.Extends Ω →
      Context.Complete Ω Δ → Γ.Complete Ω →
      AnnotatedList Ω as ∧ Context.Complete Ω Δ' ∧ Γ'.Complete Ω
  | .nil, _, _, hΔ, hΓ => ⟨.nil, hΔ, hΓ⟩
  | .cons h hs, hwfs, hΩ, hΔ, hΓ => by
    rw [List.forall_mem_cons] at hwfs
    obtain ⟨ha, hΔ₁, hΓ₁⟩ := h.annotated hwfs.1 (hs.growth.kept.trans hΩ) hΔ hΓ
    obtain ⟨has, hΔ₂, hΓ₂⟩ := hs.annotated hwfs.2 hΩ hΔ₁ hΓ₁
    exact ⟨.cons ha has, hΔ₂, hΓ₂⟩

end

end Stmt

/-- The nodes of the expressions in a program. -/
def Program.nodes (program : Program) : List Expr :=
  Stmt.nodesList program

end PCode
