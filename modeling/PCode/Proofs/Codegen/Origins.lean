import PCode.Proofs.Codegen.Generation
import PCode.Proofs.Typing.Faults

namespace PCode

namespace Program

/-- The literals of the definitions of a program. -/
def literals (program : Program) : List Literal :=
  Stmt.literalsList (program.filter fun s => s.definition?.isSome)

end Program

/-- The cell for a constant, and the pool behind it. -/
def Constant.encode (pool : Pool) : Constant → Cell × Pool
  | .integer value | .real value => (value, pool)
  | .boolean value => (Int64.ofInt (if value then 1 else 0), pool)
  | .text value => (Int64.ofInt (pool.intern value).1, (pool.intern value).2)

/-- The literals become these cells, one after the other, and the pool changes to another one. -/
inductive Encodes : Pool → List Literal → List Cell → Pool → Prop
  | nil {pool} : Encodes pool [] [] pool
  | cons {pool pool' l ls cells} : Encodes (l.value.encode pool).2 ls cells pool' →
      Encodes pool (l :: ls) ((l.value.encode pool).1 :: cells) pool'

theorem Encodes.append {pool pool₁ pool' : Pool} {ls ls' : List Literal} {cells cells' : List Cell}
    (h : Encodes pool ls cells pool₁) (h' : Encodes pool₁ ls' cells' pool') :
    Encodes pool (ls ++ ls') (cells ++ cells') pool' := by
  induction h with
  | nil => exact h'
  | cons _ ih => exact .cons (ih h')

/-- The cell that an instruction puts on the stack as it is. -/
def Instruction.constant? (i : Instruction) : Option Cell :=
  if i.op = .lit then some i.operand else none

namespace Codegen

/-- The node that a call comes from while its entry is not known. -/
def Item.callSpan? : Item → Option Span
  | .line _ => none
  | .forward _ _ _ span => some span

/-- The nodes that calls without an entry come from. -/
def callSpans (items : List Item) : List Span :=
  items.filterMap Item.callSpan?

section Calls

variable {env : Env} {items others : List Item}

@[simp] theorem callSpans_nil : callSpans [] = [] := rfl

@[simp] theorem callSpans_line {l : Line} : callSpans (.line l :: items) = callSpans items := rfl

@[simp] theorem callSpans_emit {op : Opcode} {level : Nat} {operand : Cell} :
    callSpans (env.emit op level operand :: items) = callSpans items := rfl

@[simp] theorem callSpans_item {op : Opcode} {level : Nat} {operand : Int} :
    callSpans (env.item op level operand :: items) = callSpans items := rfl

@[simp] theorem callSpans_append :
    callSpans (items ++ others) = callSpans items ++ callSpans others :=
  List.filterMap_append

@[simp] theorem callSpans_loadCells {level offset size : Nat} :
    callSpans (env.loadCells level offset size) = [] := by
  simp [callSpans, Env.loadCells, Env.item, Env.emit, Item.callSpan?]

@[simp] theorem callSpans_storeCells {level offset size : Nat} :
    callSpans (env.storeCells level offset size) = [] := by
  simp [callSpans, Env.storeCells, Env.item, Env.emit, Item.callSpan?]

@[simp] theorem callSpans_load {slot : Slot} : callSpans (env.load slot) = [] :=
  callSpans_loadCells

@[simp] theorem callSpans_store {slot : Slot} : callSpans (env.store slot) = [] :=
  callSpans_storeCells

@[simp] theorem callSpans_choose {start : Nat} :
    callSpans (choose env start items others) = callSpans items ++ callSpans others := by
  simp [choose]

@[simp] theorem callSpans_skipped {start : Nat} :
    callSpans (skipped env start items) = callSpans items := rfl

theorem callSpans_callItem {level : Nat} {name : String} {span : Span} {known : Option Nat}
    {spans : List Span} (h : span ∈ spans) :
    callSpans [callItem env level name span known] ⊆ spans := by
  cases known with
  | none => exact List.cons_subset.mpr ⟨h, List.nil_subset _⟩
  | some entry => exact List.nil_subset _

end Calls

def Item.constant? : Item → Option Cell
  | .line l => l.instruction.constant?
  | .forward .. => none

/-- The cells that items put on the stack as they are. -/
def constants (items : List Item) : List Cell :=
  items.filterMap Item.constant?

section Constants

variable {env : Env} {items others : List Item}

@[simp] theorem constants_nil : constants [] = [] := rfl

@[simp] theorem constants_append :
    constants (items ++ others) = constants items ++ constants others :=
  List.filterMap_append

@[simp] theorem constants_line {l : Line} :
    constants (.line l :: items) = l.instruction.constant?.toList ++ constants items := by
  rw [constants, List.filterMap_cons, Item.constant?]
  cases l.instruction.constant? with
  | none => rfl
  | some cell => rfl

@[simp] theorem constants_emit {op : Opcode} {level : Nat} {operand : Cell} :
    constants (env.emit op level operand :: items) =
      if op = .lit then operand :: constants items else constants items := by
  by_cases hop : op = .lit
  · simp [Env.emit, Instruction.constant?, hop]
  · simp [Env.emit, Instruction.constant?, hop]

@[simp] theorem constants_item {op : Opcode} {level : Nat} {operand : Int} :
    constants (env.item op level operand :: items) =
      if op = .lit then Int64.ofInt operand :: constants items else constants items :=
  constants_emit

@[simp] theorem constants_loadCells {level offset size : Nat} :
    constants (env.loadCells level offset size) = [] := by
  simp [constants, Env.loadCells, Env.item, Env.emit, Item.constant?, Instruction.constant?]

@[simp] theorem constants_storeCells {level offset size : Nat} :
    constants (env.storeCells level offset size) = [] := by
  simp [constants, Env.storeCells, Env.item, Env.emit, Item.constant?, Instruction.constant?]

@[simp] theorem constants_load {slot : Slot} : constants (env.load slot) = [] :=
  constants_loadCells

@[simp] theorem constants_store {slot : Slot} : constants (env.store slot) = [] :=
  constants_storeCells

@[simp] theorem constants_choose {start : Nat} :
    constants (choose env start items others) = constants items ++ constants others := by
  simp [choose]

@[simp] theorem constants_skipped {start : Nat} :
    constants (skipped env start items) = constants items := by
  simp [skipped]

@[simp] theorem constants_callItem {level : Nat} {name : String} {span : Span}
    {known : Option Nat} : constants [callItem env level name span known] = [] := by
  cases known with
  | none => rfl
  | some entry => simp [callItem]

end Constants

theorem literals_of_place? {env : Env} : ∀ {e : Expr} {slot : Slot},
    place? env e = some slot → e.literals = []
  | .name .., _, _ => rfl
  | .member e _ ordinal _, _, h => by
    cases ordinal with
    | none => simp [place?] at h
    | some k =>
      simp only [place?, Option.bind_eq_bind, Option.bind_eq_some_iff] at h
      obtain ⟨record, hrecord, -⟩ := h
      rw [Expr.literals, literals_of_place? hrecord]
  | .integer .., _, h | .real .., _, h | .text .., _, h | .boolean .., _, h | .unary .., _, h
  | .binary .., _, h | .assign .., _, h | .cond .., _, h | .lambda .., _, h | .call .., _, h
  | .array .., _, h | .index .., _, h => by
    simp [place?] at h

/-- What generation makes, from any frame, of a part of a tree with these nodes and literals. The
cells of the literals and the open calls stand in the code behind those of the items that are done;
a call is of one of the nodes, and so is an error. -/
structure Draws {α : Type} (done : List Item) (g : Gen α) (spans : List Span) (ls : List Literal)
    (code : α → List Item) : Prop where
  made : ∀ {frame a frame'}, g frame = .ok (a, frame') →
    ∃ cells, Encodes frame.strings ls cells frame'.strings ∧
      constants (code a) = constants done ++ cells ∧ callSpans (code a) ⊆ callSpans done ++ spans
  fault : ∀ {frame error}, g frame = .error error → ∃ span ∈ spans, error.span = some span

namespace Draws

variable {α β : Type} {done : List Item} {g : Gen α} {f : α → Gen β} {spans spans' : List Span}
  {ls ls' : List Literal} {code : α → List Item} {code' : β → List Item} {span : Span}

theorem pure {b : β} (h : constants (code' b) = constants done ∧
    callSpans (code' b) ⊆ callSpans done ++ spans) : Draws done (Pure.pure b) spans [] code' := by
  refine ⟨fun heq => ?_, nofun⟩
  obtain ⟨rfl, rfl⟩ := pure_apply_eq_ok_iff.mp heq
  exact ⟨[], .nil, by rw [h.1, List.append_nil], h.2⟩

theorem fail {kind : CodegenFault} (h : span ∈ spans) :
    Draws done (Codegen.fail kind span) spans ls code := by
  refine ⟨fun heq => absurd heq fail_ne_ok, fun heq => ?_⟩
  cases heq
  exact ⟨span, h, rfl⟩

theorem mono (h : Draws done g spans ls code) (hsub : spans ⊆ spans') :
    Draws done g spans' ls code := by
  refine ⟨fun heq => ?_, fun heq => ?_⟩
  · obtain ⟨cells, hcells, hcode, hcalls⟩ := h.made heq
    exact ⟨cells, hcells, hcode, fun _ hspan =>
      List.mem_append.mpr ((List.mem_append.mp (hcalls hspan)).imp id fun hmem => hsub hmem)⟩
  · obtain ⟨span, hspan, herror⟩ := h.fault heq
    exact ⟨span, hsub hspan, herror⟩

theorem inside (h : Draws done g spans ls code) : Draws done g (span :: spans) ls code :=
  h.mono (List.subset_cons_self _ _)

theorem bind (h : Draws [] g spans ls code)
    (h' : ∀ a, Draws (done ++ code a) (f a) spans' ls' code') :
    Draws done (g >>= f) (spans ++ spans') (ls ++ ls') code' := by
  refine ⟨fun heq => ?_, fun heq => ?_⟩
  · obtain ⟨a, mid, ha, hb⟩ := bind_apply_eq_ok_iff.mp heq
    obtain ⟨cells, hcells, hcode, hcalls⟩ := h.made ha
    obtain ⟨cells', hcells', hcode', hcalls'⟩ := (h' a).made hb
    refine ⟨cells ++ cells', hcells.append hcells', by simp [hcode', hcode], fun span hspan => ?_⟩
    have hcall := hcalls' hspan
    simp only [callSpans_append, List.mem_append] at hcall ⊢
    rcases hcall with (hdone | hcode) | hnew
    · exact .inl hdone
    · exact .inr (.inl (hcalls hcode))
    · exact .inr (.inr hnew)
  · rcases bind_apply_eq_error_iff.mp heq with hg | ⟨a, mid, -, hf⟩
    · obtain ⟨span, hspan, herror⟩ := h.fault hg
      exact ⟨span, List.mem_append_left _ hspan, herror⟩
    · obtain ⟨span, hspan, herror⟩ := (h' a).fault hf
      exact ⟨span, List.mem_append_right _ hspan, herror⟩

theorem last (h : Draws [] g spans ls code)
    (h' : ∀ a, Draws (done ++ code a) (f a) [] [] code') : Draws done (g >>= f) spans ls code' := by
  rw [← List.append_nil spans, ← List.append_nil ls]
  exact h.bind h'

theorem step (hg : ∀ {frame a frame'}, g frame = .ok (a, frame') → frame'.strings = frame.strings)
    (hfault : ∀ {frame error}, g frame = .error error → ∃ span ∈ spans, error.span = some span)
    (h : ∀ a, Draws done (f a) spans ls code') : Draws done (g >>= f) spans ls code' := by
  refine ⟨fun heq => ?_, fun heq => ?_⟩
  · obtain ⟨a, mid, ha, hb⟩ := bind_apply_eq_ok_iff.mp heq
    rw [← hg ha]
    exact (h a).made hb
  · rcases bind_apply_eq_error_iff.mp heq with ha | ⟨a, mid, -, hb⟩
    · exact hfault ha
    · exact (h a).fault hb

theorem slot {env : Env} {x : String} {f : Slot → Gen β} (hspan : span ∈ spans)
    (h : ∀ a, Draws done (f a) spans ls code') :
    Draws done (env.slot x span >>= f) spans ls code' := by
  refine step (fun heq => by rw [(slot_eq_ok_iff.mp heq).2]) (fun heq => ⟨span, hspan, ?_⟩) h
  unfold Env.slot at heq
  cases hx : env.vars.get? x with
  | none =>
    rw [hx] at heq
    cases heq
    rfl
  | some slot =>
    rw [hx] at heq
    cases heq

theorem assigned {env : Env} {target : Expr} {f : Slot → Gen β} (hspan : target.span ∈ spans)
    (h : ∀ a, Draws done (f a) spans ls code') :
    Draws done (Codegen.assigned env target >>= f) spans ls code' := by
  unfold Codegen.assigned
  cases target.name? with
  | some x => exact .slot hspan h
  | none =>
    refine step (fun heq => absurd heq fail_ne_ok) (fun heq => ?_) h
    cases heq
    exact ⟨target.span, hspan, rfl⟩

theorem allocate {size : Nat} {f : Nat → Gen β} (h : ∀ a, Draws done (f a) spans ls code') :
    Draws done (Codegen.allocate size >>= f) spans ls code' :=
  step (fun heq => by rw [(allocate_eq_ok_iff.mp heq).2]) nofun h

end Draws

mutual

theorem expr_draws (env : Env) : ∀ (e : Expr) (start : Nat),
    Draws [] (expr env start e) e.spans e.literals id
  | .integer .., _ | .real .., _ | .boolean .., _ => by
    rw [expr]
    refine ⟨fun h => ?_, nofun⟩
    obtain ⟨rfl, rfl⟩ := pure_apply_eq_ok_iff.mp h
    exact ⟨_, .cons .nil, rfl, List.nil_subset _⟩
  | .text .., _ => by
    rw [expr]
    refine ⟨fun h => ?_, nofun⟩
    simp only [bind_apply_eq_ok_iff, intern_eq_ok_iff, pure_apply_eq_ok_iff] at h
    obtain ⟨index, _, ⟨rfl, rfl⟩, rfl, rfl⟩ := h
    exact ⟨_, .cons .nil, rfl, List.nil_subset _⟩
  | .name .., _ => by
    rw [expr]
    exact .slot List.mem_cons_self fun _ => .pure (by simp)
  | .unary op e _, start => by
    rw [expr]
    cases unaryOperator? op e.ty <;>
      exact ((expr_draws env e start).last fun _ => .pure (by simp)).inside
  | .binary _ l r _, start => by
    rw [expr, Expr.spans_binary]
    exact ((expr_draws env l start).bind fun _ => (expr_draws env r _).last fun _ =>
      .pure (by simp)).inside
  | .member e _ _ _, start => by
    rw [expr]
    split
    · rename_i hplace
      rw [literals_of_place? hplace]
      exact .pure (by simp)
    · split
      · exact .fail List.mem_cons_self
      · exact ((expr_draws env e start).last fun _ => .allocate fun _ => .pure (by simp)).mono
          (by simp)
  | .assign _ e _, start => by
    rw [expr]
    exact .assigned (by simp) fun _ => ((expr_draws env e start).last fun _ =>
      .pure (by simp)).mono (by simp)
  | .cond c t e _, start => by
    rw [expr, Expr.spans_cond]
    exact ((expr_draws env c start).bind fun _ => (expr_draws env t _).bind fun _ =>
      (expr_draws env e _).last fun _ => .pure (by simp)).inside
  | .call _ es n, start => by
    rw [expr]
    split
    · exact .fail List.mem_cons_self
    split
    · exact (exprs_draws env es start).inside
    split
    · exact .fail List.mem_cons_self
    · -- the call itself is of this node
      rw [Expr.literals, ← List.append_nil (Expr.literalsList es)]
      refine (?_ : Draws _ _ (Expr.spansList es ++ [n.span]) _ _).mono (by simp)
      exact (exprs_draws env es _).bind fun _ =>
        .step (fun heq => by rw [(knownEntry_eq_ok_iff.mp heq).2])
          (fun heq => by cases heq) fun _ => .pure (by simp [callSpans_callItem])
  | .lambda .., _ | .array .., _ | .index .., _ => by
    rw [expr]
    exact .fail List.mem_cons_self

theorem exprs_draws (env : Env) : ∀ (es : List Expr) (start : Nat),
    Draws [] (exprs env start es) (Expr.spansList es) (Expr.literalsList es) id
  | [], _ => by
    rw [exprs]
    exact .pure (by simp)
  | e :: es, start => by
    rw [exprs, Expr.spansList_cons]
    exact (expr_draws env e start).bind fun _ => (exprs_draws env es _).last fun _ =>
      .pure (by simp)

end

section Functions

theorem binding_draws (env : Env) (start : Nat) (x : String) (e : Expr) :
    Draws [] (binding env start x e) e.spans e.literals Prod.fst :=
  .allocate fun _ => (expr_draws env e start).last fun _ => .pure (by simp)

theorem bindings_draws : ∀ (bs : List (String × Expr)) (env : Env) (start : Nat),
    Draws [] (bindings env start bs) (bindingSpans bs) (bindingLiterals bs) Prod.fst
  | [], _, _ => .pure (by simp)
  | (x, e) :: bs, env, start =>
    (binding_draws env start x e).bind fun _ => (bindings_draws bs _ _).last fun _ =>
      .pure (by simp)

theorem effect_draws (env : Env) (start : Nat) (e : Expr) :
    Draws [] (effect env start e) e.spans e.literals id := by
  unfold effect
  split
  · exact .assigned (by simp) fun _ => ((expr_draws env _ start).last fun _ =>
      .pure (by simp)).mono (by simp)
  · refine (expr_draws env e start).last fun a => .pure ?_
    split <;> simp

theorem parameters_ne_error {error : CodegenError} : ∀ (params : List (String × Ty)) (env : Env)
    (frame : Frame), parameters env params frame ≠ .error error
  | [], _, _ => nofun
  | _ :: params, _, _ => parameters_ne_error params _ _

theorem span_of_signature {env : Env} {name : String} {span : Span} {frame : Frame}
    {error : CodegenError} (h : signature env name span frame = .error error) :
    error.span = some span := by
  unfold signature at h
  cases hname : env.context.function? name with
  | none =>
    rw [hname] at h
    cases h
    rfl
  | some τ =>
    rw [hname] at h
    cases τ <;> cases h <;> rfl

theorem function_draws {env : Env} {start : Nat} {name : String} {params : List String}
    {span : Span} {closing : Bool} {body : Env → Nat → Gen (List Item)} {spans : List Span}
    {ls : List Literal} (hspan : span ∈ spans)
    (hbody : ∀ env start, Draws [] (body env start) spans ls id) :
    Draws [] (function env start name params span closing body) spans ls id := by
  refine ⟨fun h => ?_, fun h => ?_⟩
  · simp only [function, bind_apply_eq_ok_iff, pure_apply_eq_ok_iff, get_eq_ok_iff, set_eq_ok_iff,
      parameters_eq_ok_iff, signature_eq_ok_iff, Prod.exists] at h
    obtain ⟨types, ret, _, ⟨-, rfl⟩, _, outer, ⟨rfl, rfl⟩, _, _, rfl, _, _, ⟨rfl, rfl⟩, _, _,
      ⟨rfl, rfl⟩, a, _, ha, _, last, ⟨rfl, rfl⟩, _, _, rfl, rfl, rfl⟩ := h
    obtain ⟨cells, hcells, hcode, hcalls⟩ := (hbody _ _).made ha
    exact ⟨cells, hcells, by simpa [Instruction.constant?] using ⟨hcode, hcalls⟩⟩
  · -- of the steps only the lookup of the type and the body can fail
    rcases bind_apply_eq_error_iff.mp h with h | ⟨_, _, -, h⟩
    · exact ⟨span, hspan, span_of_signature h⟩
    simp only [bind_apply_eq_error_iff] at h
    rcases h with h | ⟨_, _, -, h | ⟨_, _, -, h | ⟨_, _, -, h | ⟨_, _, -, h | ⟨_, _, -, h⟩⟩⟩⟩⟩
    · cases h
    · cases h
    · exact absurd h (parameters_ne_error _ _ _)
    · cases h
    · exact (hbody _ _).fault h
    · rcases h with h | ⟨_, _, -, h | ⟨_, _, -, h⟩⟩ <;> cases h

theorem withBindings_draws {env : Env} {start : Nat} {bs : List (String × Expr)}
    {body : Env → Nat → Gen (List Item)} {spans : List Span} {ls : List Literal}
    (hbody : ∀ env start, Draws [] (body env start) spans ls id) :
    Draws [] (withBindings env start bs body) (bindingSpans bs ++ spans)
      (bindingLiterals bs ++ ls) id :=
  (bindings_draws bs env start).bind fun _ => (hbody _ _).last fun _ => .pure (by simp)

theorem equation_draws (env : Env) (start : Nat) (name : String) (params : List String)
    (bs : List (String × Expr)) (e : Expr) (span : Span) :
    Draws [] (equation env start name params bs e span) (span :: (bindingSpans bs ++ e.spans))
      (bindingLiterals bs ++ e.literals) id :=
  function_draws List.mem_cons_self fun _ _ =>
    (withBindings_draws fun env start => expr_draws env e start).inside

end Functions

mutual

theorem stmt_draws : ∀ (s : Stmt) (env : Env) (start : Nat),
    Draws [] (stmt env start s) s.spans s.literals Prod.fst
  | .expr e _, env, start => by
    rw [stmt]
    exact ((effect_draws env start e).last fun _ => .pure (by simp)).inside
  | .declare .., _, _ | .record .., _, _ | .comment .., _, _ => by
    rw [stmt]
    exact .pure (by simp)
  | .ret e _, env, start => by
    rw [stmt]
    exact ((expr_draws env e start).last fun _ => .pure (by simp)).inside
  | .define .., env, start => by
    rw [stmt, Stmt.spans_define]
    exact (equation_draws ..).last fun _ => .pure (by simp)
  | .defineBlock _ _ _ body _, env, start => by
    rw [stmt, Stmt.spans_defineBlock]
    exact (function_draws List.mem_cons_self fun _ _ => (withBindings_draws fun _ _ =>
      (stmts_draws body _ _).last fun _ => .pure (by simp)).inside).last fun _ => .pure (by simp)
  | .loop c body _, env, start => by
    rw [stmt, Stmt.spans_loop]
    exact ((expr_draws env c start).bind fun _ => (stmts_draws body _ _).last fun _ =>
      .pure (by simp)).inside
  | .branch c t e _, env, start => by
    rw [stmt, Stmt.spans_branch]
    exact ((expr_draws env c start).bind fun _ => (stmts_draws t _ _).bind fun _ =>
      (stmts_draws e _ _).last fun _ => .pure (by simp)).inside
  | .bind x e _, env, start => by
    rw [stmt]
    exact (binding_draws env start x e).inside
  | .block body _, env, start => by
    rw [stmt]
    exact ((stmts_draws body _ start).last fun _ => .pure (by simp)).inside

theorem stmts_draws : ∀ (ss : List Stmt) (env : Env) (start : Nat),
    Draws [] (stmts env start ss) (Stmt.spansList ss) (Stmt.literalsList ss) Prod.fst
  | [], _, _ => by
    rw [stmts]
    exact .pure (by simp)
  | s :: ss, env, start => by
    rw [stmts, Stmt.spansList_cons]
    exact (stmt_draws s env start).bind fun _ => (stmts_draws ss _ _).last fun _ =>
      .pure (by simp)

end

/-- The code of a program is made of its definitions. A statement outside of functions that has code
and defines none is at fault as a whole. -/
theorem topLevel_draws (env : Env) : ∀ (ss : List Stmt) (start : Nat),
    Draws [] (topLevel env start ss) (Stmt.spansList ss) (Program.literals ss) id
  | [], _ => .pure (by simp)
  | s :: ss, start => by
    have hrest {g : Gen (List Item)} {ls : List Literal} (hg : Draws [] g s.spans ls id) :
        Draws [] (g >>= fun a => topLevel env (start + a.length) ss >>= fun b => pure (a ++ b))
          (Stmt.spansList (s :: ss)) (ls ++ Program.literals ss) id := by
      rw [Stmt.spansList_cons]
      exact hg.bind fun _ => (topLevel_draws env ss _).last fun _ => .pure (by simp)
    cases s with
    | define => exact hrest (by simpa using equation_draws ..)
    | defineBlock _ _ _ body _ =>
      rw [Stmt.spans_defineBlock] at hrest
      exact hrest (function_draws List.mem_cons_self fun _ _ => (withBindings_draws fun _ _ =>
        (stmts_draws body _ _).last fun _ => .pure (by simp)).inside)
    | declare | record | comment => exact @hrest (pure []) [] (.pure (by simp))
    | _ => exact @hrest _ [] (.fail (Stmt.span_mem_spans _))

theorem link_error {functions : Table Nat} {error : CodegenError} : ∀ {items : List Item},
    link functions items = .error error → ∃ span ∈ callSpans items, error.span = some span
  | .line _ :: _, h => by
    rw [callSpans_line]
    rw [link] at h
    rcases bind_eq_error_iff.mp h with h | ⟨_, _, h⟩
    · exact link_error h
    · cases h
  | .forward _ _ _ span :: _, h => by
    rw [link] at h
    split at h
    · cases h
      exact ⟨span, List.mem_cons_self, rfl⟩
    · rcases bind_eq_error_iff.mp h with h | ⟨_, _, h⟩
      · obtain ⟨span, hmem, hspan⟩ := link_error h
        exact ⟨span, List.mem_cons_of_mem _ hmem, hspan⟩
      · cases h

theorem mainEntry_error {env : Env} {functions : Table Nat} {error : CodegenError}
    (h : mainEntry env functions = .error error) :
    error = ⟨.noMain, none⟩ ∨ error = ⟨.mainParameters, none⟩ := by
  unfold mainEntry at h
  split at h
  · cases h
    exact .inl rfl
  · split at h
    · split at h <;> cases h
      exact .inr rfl
    · cases h
      exact .inl rfl

end Codegen

open Codegen

/-- An error of code generation is about `main`, or has the span of a node of the program. -/
theorem Program.span_mem_of_compile {Δ : Context} {program : Program} {error : CodegenError}
    (h : program.compile Δ = .error error) :
    (error = ⟨.noMain, none⟩ ∨ error = ⟨.mainParameters, none⟩) ∨
      ∃ span ∈ program.spans, error.span = some span := by
  unfold Program.compile Program.listing at h
  have htop := topLevel_draws (hoist { context := Δ } program) program 1
  rcases bind_eq_error_iff.mp h with h | ⟨_, _, h⟩
  · rcases bind_eq_error_iff.mp h with h | ⟨⟨functions, frame⟩, hfunctions, h⟩
    · exact .inr (htop.fault h)
    · rcases bind_eq_error_iff.mp h with h | ⟨main, -, h⟩
      · exact .inl (mainEntry_error h)
      · rcases bind_eq_error_iff.mp h with h | ⟨lines, -, h⟩
        · -- the jump at the start and the call of `main` at the end are no open calls
          obtain ⟨span, hmem, hspan⟩ := link_error h
          simp only [callSpans_append, callSpans_item, callSpans_nil, List.nil_append,
            List.append_nil] at hmem
          obtain ⟨-, -, -, hcalls⟩ := htop.made hfunctions
          exact .inr ⟨span, hcalls hmem, hspan⟩
        · cases h
  · cases h

end PCode
