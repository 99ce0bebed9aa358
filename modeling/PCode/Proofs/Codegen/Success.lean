import PCode.Proofs.Codegen.Generation
import PCode.Proofs.Codegen.Occurrences

namespace PCode.Codegen

/-- The kinds of errors that typed programs can lead to. -/
def CodegenErrorKind.Expected (kind : CodegenErrorKind) : Prop :=
  kind ∈ [.notImplemented, .unknownFunction, .invalidArgumentCount]

instance : DecidablePred CodegenErrorKind.Expected :=
  fun kind => inferInstanceAs (Decidable (kind ∈ _))

/-- A success under a condition, with a property of the result, or an expected error without it. -/
def Verdict {α β : Type} (P : Prop) (Q : α → Prop) : Except CodegenError (α × β) → Prop
  | .ok (a, _) => P ∧ Q a
  | .error error => ¬ P ∧ CodegenErrorKind.Expected error.fault.kind

/-- Generation succeeds exactly if a condition holds, with a property of what it gives, and fails
with an expected error otherwise. -/
def Decided {α : Type} (P : Prop) (Q : α → Prop) (g : Gen α) : Prop :=
  ∀ frame, Verdict P Q (g frame)

namespace Decided

variable {α β : Type} {P P' : Prop} {Q Q₁ : α → Prop} {Q' : β → Prop} {g : Gen α}

theorem pure {a : α} (h : Q a) : Decided True Q (Pure.pure a) :=
  fun _ => ⟨trivial, h⟩

theorem fails {fault : CodegenFault} {span : Span} (hP : ¬ P)
    (hkind : CodegenErrorKind.Expected fault.kind) : Decided P Q (fail fault span) :=
  fun _ => ⟨hP, hkind⟩

theorem iff (h : Decided P Q g) (hP : P ↔ P') : Decided P' Q g := by
  rwa [propext hP] at h

theorem bind {f : α → Gen β} (h : Decided P Q g) (hf : ∀ a, Q a → Decided P' Q' (f a)) :
    Decided (P ∧ P') Q' (g >>= f) := by
  intro frame
  have hframe := h frame
  rw [bind_apply]
  cases hg : g frame with
  | error error =>
    rw [hg] at hframe
    exact ⟨fun hP => hframe.1 hP.1, hframe.2⟩
  | ok answer =>
    rw [hg] at hframe
    have hrest := hf _ hframe.2 answer.2
    dsimp only
    cases hfa : f answer.1 answer.2 with
    | error error =>
      rw [hfa] at hrest
      exact ⟨fun hP => hrest.1 hP.2, hrest.2⟩
    | ok final =>
      rw [hfa] at hrest
      exact ⟨⟨hframe.1, hrest.1⟩, hrest.2⟩

theorem after {f : α → Gen β} (h : Decided True Q g) (hf : ∀ a, Q a → Decided P' Q' (f a)) :
    Decided P' Q' (g >>= f) :=
  (h.bind hf).iff ⟨fun h => h.2, fun h => ⟨trivial, h⟩⟩

theorem map {f : α → β} (h : Decided P Q g) (hf : ∀ a, Q a → Q' (f a)) :
    Decided P Q' (g >>= fun a => Pure.pure (f a)) :=
  (h.bind fun a ha => pure (hf a ha)).iff ⟨fun h => h.1, fun h => ⟨h, trivial⟩⟩

theorem slot {env : Env} {x : String} {span : Span} (h : ∃ slot, env.vars.get? x = some slot) :
    Decided True (fun _ => True) (env.slot x span) := by
  obtain ⟨slot, hslot⟩ := h
  rw [Env.slot, hslot]
  exact pure trivial

theorem interns (text : String) : Decided True (fun _ => True) (intern text) :=
  fun _ => ⟨trivial, trivial⟩

theorem gets : Decided True (fun _ => True) (get : Gen Frame) :=
  fun _ => ⟨trivial, trivial⟩

theorem sets (frame : Frame) : Decided True (fun _ => True) (set frame : Gen PUnit) :=
  fun _ => ⟨trivial, trivial⟩

theorem knows (f : String) : Decided True (fun _ => True) (knownEntry f) :=
  fun _ => ⟨trivial, trivial⟩

theorem allocates (size : Nat) : Decided True (fun _ => True) (allocate size) :=
  fun _ => ⟨trivial, trivial⟩

end Decided

/-- Calls that are still to be filled in are of these functions. -/
def Linked (names : List String) (items : List Item) : Prop :=
  ∀ owner level name span, Item.forward owner level name span ∈ items → name ∈ names

section Linked

variable {names : List String} {items others : List Item} {env : Env}
variable {level : Nat}

theorem linked_nil : Linked names [] := nofun

theorem linked_append :
    Linked names (items ++ others) ↔ Linked names items ∧ Linked names others := by
  constructor
  · intro h
    exact ⟨fun _ _ _ _ hmem => h _ _ _ _ (List.mem_append_left _ hmem),
      fun _ _ _ _ hmem => h _ _ _ _ (List.mem_append_right _ hmem)⟩
  · intro h owner level name span hmem
    rcases List.mem_append.mp hmem with hmem | hmem
    · exact h.1 _ _ _ _ hmem
    · exact h.2 _ _ _ _ hmem

theorem linked_cons {item : Item} :
    Linked names (item :: items) ↔ Linked names [item] ∧ Linked names items := by
  rw [← List.singleton_append, linked_append]

theorem linked_line (l : Line) : Linked names [.line l] := by
  intro owner level name span hmem
  cases List.mem_singleton.mp hmem

theorem linked_emit {op : Opcode} {operand : Cell} : Linked names [env.emit op level operand] :=
  linked_line _

theorem linked_item {op : Opcode} {operand : Int} : Linked names [env.item op level operand] :=
  linked_line _

theorem linked_loadCells {offset size : Nat} : Linked names (env.loadCells level offset size) := by
  intro owner level name span hmem
  obtain ⟨l, -, hl⟩ := List.mem_map.mp hmem
  cases hl

theorem linked_storeCells {offset size : Nat} :
    Linked names (env.storeCells level offset size) := by
  intro owner level name span hmem
  obtain ⟨l, -, hl⟩ := List.mem_map.mp hmem
  cases hl

theorem linked_choose {start : Nat} (h : Linked names items) (h' : Linked names others) :
    Linked names (choose env start items others) := by
  simp only [choose, linked_append]
  exact ⟨⟨⟨linked_item, h⟩, linked_item⟩, h'⟩

theorem linked_skipped {start : Nat} (h : Linked names items) :
    Linked names (skipped env start items) := by
  rw [skipped, linked_cons]
  exact ⟨linked_item, h⟩

theorem linked_callItem {f : String} {span : Span} {known : Option Nat} (h : f ∈ names) :
    Linked names [callItem env level f span known] := by
  cases known with
  | some entry => exact linked_item
  | none =>
    intro owner level name span hmem
    cases List.mem_singleton.mp hmem
    exact h

theorem link_of_linked {fs : Table Nat} (h : Linked names items)
    (hnames : ∀ name ∈ names, ∃ entry, fs.get? name = some entry) :
    ∃ lines, link fs items = .ok lines := by
  induction items with
  | nil => exact ⟨[], rfl⟩
  | cons item items ih =>
    rw [linked_cons] at h
    obtain ⟨lines, hlines⟩ := ih h.2
    cases item with
    | line l => exact ⟨_, link_cons.mpr ⟨l, lines, rfl, hlines, rfl⟩⟩
    | forward owner level name span =>
      obtain ⟨entry, hentry⟩ := hnames name (h.1 _ _ _ _ List.mem_cons_self)
      exact ⟨_, link_cons.mpr
        ⟨_, lines, Option.map_eq_some_iff.mpr ⟨entry, hentry, rfl⟩, hlines, rfl⟩⟩

end Linked

/-- The names in scope. -/
structure Env.Sees (env : Env) (vars funs : List String) : Prop where
  vars : ∀ x, env.vars.contains x = true ↔ x ∈ vars
  funs : ∀ f, env.funs.contains f = true ↔ f ∈ funs

namespace Env.Sees

variable {env : Env} {vars funs : List String}

theorem bind (h : env.Sees vars funs) (x : String) (offset : Nat) (ty : Ty) :
    (env.bind x offset ty).Sees (x :: vars) funs := by
  refine ⟨fun y => ?_, h.funs⟩
  rw [Env.bind, Table.contains, Table.get?_insert, List.mem_cons, ← h.vars, Table.contains]
  by_cases hxy : x = y
  · simp [hxy]
  · simp [hxy, Ne.symm hxy]

theorem withParams (params : List (String × Ty)) (h : env.Sees vars funs) (offset : Nat) :
    (env.withParams offset params).Sees ((params.map Prod.fst).reverse ++ vars) funs := by
  induction params generalizing env vars offset with
  | nil => exact h
  | cons param params ih =>
    have hrest := ih (h.bind param.1 offset param.2) (offset + param.2.size)
    simpa [Env.withParams] using hrest

theorem hoist (h : env.Sees vars funs) (body : List Stmt) :
    (Codegen.hoist env body).Sees vars (Stmt.definedIn body ++ funs) := by
  refine ⟨fun x => by rw [hoist_vars, h.vars], fun f => ?_⟩
  rw [Table.contains, hoist_funs, List.mem_append, Stmt.mem_definedIn, ← h.funs, Table.contains]
  split
  · simp [*]
  · simp [*]

end Env.Sees

/-- There is code for all these expressions, and what they call is defined. -/
def AllGood (Δ : Context) (os : List Occurrence) : Prop :=
  ∀ o ∈ os, o.Supported ∧ o.Resolved Δ

section Good

variable {Δ : Context} {os os' : List Occurrence} {o : Occurrence} {e : Expr}
  {vars funs : List String}

@[simp] theorem allGood_nil : AllGood Δ [] := nofun

@[simp] theorem allGood_cons :
    AllGood Δ (o :: os) ↔ (o.Supported ∧ o.Resolved Δ) ∧ AllGood Δ os :=
  List.forall_mem_cons

@[simp] theorem allGood_append : AllGood Δ (os ++ os') ↔ AllGood Δ os ∧ AllGood Δ os' :=
  List.forall_mem_append

theorem allGood_occurrences : AllGood Δ (e.occurrences vars funs) ↔
    (Occurrence.Supported ⟨e, vars, funs⟩ ∧ Occurrence.Resolved Δ ⟨e, vars, funs⟩) ∧
      AllGood Δ (e.parts vars funs) :=
  allGood_cons

theorem allGood_parts
    (h : Occurrence.Supported ⟨e, vars, funs⟩ ∧ Occurrence.Resolved Δ ⟨e, vars, funs⟩) :
    AllGood Δ (e.parts vars funs) ↔ AllGood Δ (e.occurrences vars funs) := by
  rw [allGood_occurrences, and_iff_right h]

theorem allGood_place {env : Env} : ∀ {e : Expr} {slot : Slot}, place? env e = some slot →
    AllGood Δ (e.occurrences vars funs)
  | .name .., _, _ => allGood_occurrences.mpr ⟨⟨trivial, trivial⟩, nofun⟩
  | .member t field (some k) n, slot, h => by
    simp only [place?, Option.bind_eq_bind, Option.bind_eq_some_iff] at h
    obtain ⟨record, ht, -⟩ := h
    exact allGood_occurrences.mpr ⟨⟨trivial, trivial⟩, allGood_place ht⟩
  | .member _ _ none _, _, h | .integer .., _, h | .real .., _, h | .text .., _, h
  | .boolean .., _, h | .unary .., _, h | .binary .., _, h | .assign .., _, h | .cond .., _, h
  | .lambda .., _, h | .call .., _, h | .array .., _, h | .index .., _, h => by
    simp [place?] at h

end Good

theorem Env.Matches.slot {Δ : Context} {Γ : Locals} {env : Env} (hm : env.Matches Δ Γ) {x : String}
    {τ : Ty} (h : Γ.get? x = some τ) : ∃ slot, env.vars.get? x = some slot := by
  rw [hm.vars] at h
  obtain ⟨slot, hslot, -⟩ := Option.map_eq_some_iff.mp h
  exact ⟨slot, hslot⟩

section Expressions

variable {env : Env} {vars funs names : List String}

theorem Decided.unsupported {α : Type} {Δ : Context} {e : Expr} {Q : α → Prop}
    {feature : Feature} {span : Span} (h : ¬ Occurrence.Supported ⟨e, vars, funs⟩) :
    Decided (AllGood Δ (e.occurrences vars funs)) Q (fail (.unsupported feature) span) :=
  .fails (fun hall => h (hall _ List.mem_cons_self).1)
    (by simp [CodegenErrorKind.Expected, CodegenFault.kind])

mutual

theorem expr_decided {Δ : Context} {Γ : Locals} (hm : env.Matches Δ Γ) (hsees : env.Sees vars funs)
    (hnames : ∀ f ∈ funs, f ∈ names) {e a : Expr} (start : Nat) : e.Typed Δ Γ a →
    Decided (AllGood env.context (a.occurrences vars funs)) (Linked names) (expr env start a)
  | .integer | .real | .boolean => by
    rw [expr]
    apply (Decided.pure linked_emit).iff
    exact iff_of_true trivial (allGood_occurrences.mpr ⟨⟨trivial, trivial⟩, nofun⟩)
  | .text => by
    rw [expr]
    apply ((Decided.interns _).map fun _ _ => linked_item).iff
    exact iff_of_true trivial (allGood_occurrences.mpr ⟨⟨trivial, trivial⟩, nofun⟩)
  | .name hx => by
    rw [expr]
    apply ((Decided.slot (hm.slot hx)).map fun _ _ => linked_loadCells).iff
    exact iff_of_true trivial (allGood_occurrences.mpr ⟨⟨trivial, trivial⟩, nofun⟩)
  | .unary ht _ => by
    rw [expr]
    refine Decided.iff (.bind (expr_decided hm hsees hnames start ht)
      fun code hcode => (?_ : Decided True _ _)) ?_
    · split
      · exact .pure (linked_append.mpr ⟨hcode, linked_emit⟩)
      · exact .pure hcode
    · rw [and_true]
      exact allGood_parts (e := .unary _ _ _) ⟨trivial, trivial⟩
  | .binary hl hr _ _ => by
    rw [expr]
    refine Decided.iff (.bind (expr_decided hm hsees hnames start hl) fun code hcode =>
      .map (expr_decided hm hsees hnames _ hr) fun rest hrest => ?_) ?_
    · simp only [linked_append]
      exact ⟨⟨hcode, hrest⟩, linked_emit⟩
    · rw [← allGood_append]
      exact allGood_parts (e := .binary _ _ _ _) ⟨trivial, trivial⟩
  | .member ht hty hmember _ => by
    rw [expr]
    split
    · rename_i slot hslot
      exact (Decided.pure linked_loadCells).iff (iff_of_true trivial (allGood_place hslot))
    · obtain ⟨offset, hoffset⟩ := memberOffset?_isSome hty hmember
      rw [Option.bind_some, hoffset]
      refine Decided.iff (.bind (expr_decided hm hsees hnames start ht)
        fun code hcode => .map (.allocates _) fun spill _ => ?_) ?_
      · simp only [linked_append]
        exact ⟨⟨hcode, linked_storeCells⟩, linked_loadCells⟩
      · rw [and_true]
        exact allGood_parts (e := .member _ _ _ _) ⟨trivial, trivial⟩
  | .assign hx ht => by
    rw [expr, assigned_name]
    refine Decided.iff (.after (.slot (hm.slot hx)) fun slot _ =>
      .map (expr_decided hm hsees hnames start ht) fun code hcode => ?_)
      (allGood_parts (e := .assign _ _ _) ⟨trivial, trivial⟩)
    simp only [linked_append]
    exact ⟨⟨hcode, linked_storeCells⟩, linked_loadCells⟩
  | .cond hc _ ht he _ => by
    rw [expr]
    refine Decided.iff (.bind (expr_decided hm hsees hnames start hc) fun code hcode =>
      .bind (expr_decided hm hsees hnames _ ht) fun thenCode hthen =>
      .map (expr_decided hm hsees hnames _ he) fun elseCode helse => ?_) ?_
    · exact linked_append.mpr ⟨hcode, linked_choose hthen helse⟩
    · rw [← and_assoc, ← allGood_append, ← allGood_append]
      exact allGood_parts (e := .cond _ _ _ _) ⟨trivial, trivial⟩
  | .call (f := f) _ _ hargs => by
    rw [expr]
    by_cases hvar : f ∈ vars
    · rw [if_pos ((hsees.vars f).mpr hvar)]
      exact .unsupported fun h => h hvar
    rw [if_neg (by rwa [hsees.vars])]
    by_cases hrecord : env.context.isConstructor f = true
    · rw [if_pos hrecord]
      refine (exprs_decided hm hsees hnames start hargs).iff ?_
      simp [Expr.occurrences, Expr.parts, Occurrence.Supported, Occurrence.Resolved, hvar, hrecord]
    rw [if_neg hrecord]
    -- neither a variable nor a constructor: only a function in scope can be called
    by_cases hfun : f ∈ funs
    · obtain ⟨level, hlevel⟩ := Option.isSome_iff_exists.mp ((hsees.funs f).mpr hfun)
      rw [hlevel]
      refine Decided.iff (.bind (exprs_decided hm hsees hnames _ hargs)
        fun code hcode => .map (.knows f) fun known _ => ?_) ?_
      · simp only [linked_append]
        exact ⟨⟨linked_item, hcode⟩, linked_callItem (hnames f hfun)⟩
      · simp [Expr.occurrences, Expr.parts, Occurrence.Supported, Occurrence.Resolved, hvar, hfun]
    · have hnone : env.funs.get? f = none := by
        rw [← hsees.funs f] at hfun
        simpa [Table.contains] using hfun
      rw [hnone]
      apply Decided.fails
      · intro h
        rcases (h _ List.mem_cons_self).2 hvar with h | h
        · exact hrecord h
        · exact hfun h
      · simp [CodegenErrorKind.Expected, CodegenFault.kind]
  | .array _ _ | .index _ _ _ _ => by
    rw [expr]
    exact .unsupported id

theorem exprs_decided {Δ : Context} {Γ : Locals} (hm : env.Matches Δ Γ)
    (hsees : env.Sees vars funs) (hnames : ∀ f ∈ funs, f ∈ names) {τs : List Ty}
    {es as : List Expr} (start : Nat) : Expr.TypedArgs Δ Γ τs es as →
    Decided (AllGood env.context (Expr.partsList vars funs as)) (Linked names) (exprs env start as)
  | .nil => by
    rw [exprs]
    exact (Decided.pure linked_nil).iff (by simp [Expr.partsList])
  | .value ha has | .extra ha has => by
    rw [exprs]
    exact Decided.iff (.bind (expr_decided hm hsees hnames start ha) fun code hcode =>
      .map (exprs_decided hm hsees hnames _ has) fun rest hrest =>
        linked_append.mpr ⟨hcode, hrest⟩) allGood_append.symm
  | .lambda _ _ _ has => by
    rw [exprs, expr]
    exact Decided.iff (.bind (.unsupported id) fun code hcode =>
      .map (exprs_decided hm hsees hnames _ has) fun rest hrest =>
        linked_append.mpr ⟨hcode, hrest⟩) allGood_append.symm

end

end Expressions

/-- What generation leads to behind bindings or a statement: the variables that were bound are in
scope, and the rest is as before. -/
structure Leads (names : List String) (env : Env) (Γ Γ' : Locals) (vars funs : List String)
    (answer : List Item × Env) : Prop where
  linked : Linked names answer.1
  context : answer.2.context = env.context
  matched : ∀ Δ, env.Matches Δ Γ → answer.2.Matches Δ Γ'
  sees : answer.2.Sees vars funs

section Functions

variable {Δ : Context} {Γ Γ' : Locals} {env : Env} {vars funs names : List String} {start : Nat}

theorem binding_decided (hm : env.Matches Δ Γ) (hsees : env.Sees vars funs)
    (hnames : ∀ f ∈ funs, f ∈ names) {e a : Expr} (ht : e.Typed Δ Γ a) (x : String) :
    Decided (AllGood env.context (a.occurrences vars funs))
      (Leads names env Γ (Γ.insert x a.ty) (x :: vars) funs) (binding env start x a) := by
  rw [binding]
  refine .after (.allocates _) fun offset _ =>
    .map (expr_decided hm hsees hnames start ht) fun code hcode => ?_
  exact ⟨linked_append.mpr ⟨hcode, linked_storeCells⟩, rfl, fun Δ hm => hm.bind x offset a.ty,
    hsees.bind x offset a.ty⟩

theorem bindings_decided (hnames : ∀ f ∈ funs, f ∈ names) {es as : List (String × Expr)}
    {Γ Γ' : Locals} {env : Env} {vars : List String} (start : Nat) (hm : env.Matches Δ Γ)
    (hsees : env.Sees vars funs) (hes : TypedBindings Δ Γ es as Γ') :
    Decided (AllGood env.context (bindingOccurrences vars funs as))
      (Leads names env Γ Γ' ((as.map Prod.fst).reverse ++ vars) funs) (bindings env start as) := by
  induction hes generalizing env vars start with
  | nil =>
    rw [bindings]
    exact (Decided.pure ⟨linked_nil, rfl, fun _ => id, hsees⟩).iff
      (iff_of_true trivial (List.forall_mem_nil _))
  | cons ha _ ih =>
    rw [bindings]
    refine Decided.iff (.bind (binding_decided hm hsees hnames ha _) fun answer hfirst => ?_)
      allGood_append.symm
    -- the other bindings are generated behind the first, in the same context
    rw [← hfirst.context]
    refine .map (ih _ (hfirst.matched Δ hm) hfirst.sees) fun rest hrest => ?_
    refine ⟨linked_append.mpr ⟨hfirst.linked, hrest.linked⟩, hrest.context.trans hfirst.context,
      fun Δ hm => hrest.matched Δ (hfirst.matched Δ hm), ?_⟩
    simpa using hrest.sees

theorem parameters_decided (params : List (String × Ty)) (env : Env) :
    Decided True (fun inner => ∃ offset, inner = env.withParams offset params)
      (parameters env params) := by
  intro frame
  rw [parameters_eq_ok_iff.mpr ⟨rfl, rfl⟩]
  exact ⟨trivial, frame.size, rfl⟩

variable {name : String} {params : List String} {types : List Ty} {variadic : Bool} {ret : Ty}
  {P : Prop}

theorem signature_decided {span : Span}
    (hf : env.context.function? name = some (.function types variadic ret)) :
    Decided True (fun answer => answer = (types, ret)) (signature env name span) := by
  rw [signature, hf]
  exact .pure rfl

theorem function_decided {span : Span} {closing : Bool} {body : Env → Nat → Gen (List Item)}
    (hf : env.context.function? name = some (.function types variadic ret))
    (hbody : ∀ offset, Decided P (Linked names)
      (body ((env.inside name).withParams offset (params.zip types)) (start + 1))) :
    Decided P (Linked names) (function env start name params span closing body) := by
  rw [function]
  refine .after (signature_decided hf) fun answer hanswer => ?_
  subst hanswer
  refine .after .gets fun outer _ => .after (.sets _) fun _ _ => ?_
  refine .after (parameters_decided _ _) fun inner hinner => ?_
  obtain ⟨offset, rfl⟩ := hinner
  -- only the body can fail: the steps around it read and set the frame
  refine .after .gets fun first _ => Decided.iff (.bind (hbody offset) fun code hcode =>
    .after .gets fun last _ => .map (.sets _) fun _ _ => ?_) (and_iff_left trivial)
  simp only [linked_append]
  exact ⟨⟨linked_item, hcode⟩, linked_line _⟩

theorem inside_scope (name : String) (hm : env.Matches Δ Γ) (hsees : env.Sees vars funs)
    (hlength : params.length = types.length) (offset : Nat) :
    ((env.inside name).withParams offset (params.zip types)).Matches Δ
        (Γ.bindAll (params.zip types)) ∧
      ((env.inside name).withParams offset (params.zip types)).Sees (params ++ vars) funs ∧
      ((env.inside name).withParams offset (params.zip types)).context = env.context := by
  refine ⟨(hm.inside name).withParams _ offset, ?_, Env.withParams_context _ _ _⟩
  have hinside : (env.inside name).Sees vars funs := ⟨hsees.vars, hsees.funs⟩
  have hparams := hinside.withParams (params.zip types) offset
  rw [List.map_fst_zip (by omega)] at hparams
  refine ⟨fun x => ?_, hparams.funs⟩
  rw [hparams.vars, List.mem_append, List.mem_append, List.mem_reverse]

theorem withBindings_decided {locals locals' : List (String × Expr)}
    {body : Env → Nat → Gen (List Item)} (hm : env.Matches Δ Γ) (hsees : env.Sees vars funs)
    (hnames : ∀ f ∈ funs, f ∈ names) (hlocals : TypedBindings Δ Γ locals locals' Γ')
    (hbody : ∀ env' start', env'.Matches Δ Γ' →
      env'.Sees ((locals'.map Prod.fst).reverse ++ vars) funs → env'.context = env.context →
      Decided P (Linked names) (body env' start')) :
    Decided (AllGood env.context (bindingOccurrences vars funs locals') ∧ P) (Linked names)
      (withBindings env start locals' body) := by
  rw [withBindings]
  refine .bind (bindings_decided hnames start hm hsees hlocals) fun answer hfirst => ?_
  exact .map (hbody _ _ (hfirst.matched Δ hm) hfirst.sees hfirst.context)
    fun rest hrest => linked_append.mpr ⟨hfirst.linked, hrest⟩

theorem equation_decided {span : Span} {locals locals' : List (String × Expr)} {e a : Expr}
    (hm : env.Matches Δ Γ) (hsees : env.Sees vars funs) (hnames : ∀ f ∈ funs, f ∈ names)
    (hf : env.context.function? name = some (.function types variadic a.ty))
    (hlength : params.length = types.length)
    (hlocals : TypedBindings Δ (Γ.bindAll (params.zip types)) locals locals' Γ')
    (ha : e.Typed Δ Γ' a) (n : Note) :
    Decided (AllGood env.context ((Stmt.define name params locals' a n).occurrences vars funs))
      (Linked names) (equation env start name params locals' a span) := by
  rw [equation]
  refine function_decided hf fun offset => ?_
  obtain ⟨hinner, hseen, hcontext⟩ := inside_scope name hm hsees hlength offset
  rw [← hcontext]
  refine Decided.iff (withBindings_decided hinner hseen hnames hlocals ?_) allGood_append.symm
  intro env' start' hm' hsees' hcontext'
  rw [← hcontext']
  exact expr_decided hm' hsees' hnames start' ha

/-- What generation says of a body, whatever the scope around it. -/
def BodyDecided (names : List String) (Δ : Context) (Γ : Locals) (body : List Stmt) : Prop :=
  ∀ ⦃env : Env⦄ ⦃vars funs : List String⦄ (start : Nat), env.Matches Δ Γ → env.Sees vars funs →
    (∀ f ∈ funs, f ∈ names) →
    Decided (AllGood env.context (Stmt.occurrencesList vars (Stmt.definedIn body ++ funs) body))
      (fun answer => Linked names answer.1) (stmts (hoist env body) start body)

theorem BodyDecided.of_stmts {body : List Stmt}
    (hinner : ∀ f ∈ Stmt.definesList body, f ∈ names)
    (hstmts : ∀ {env : Env} {vars funs : List String} (start : Nat), env.Matches Δ Γ →
      env.Sees vars funs → (∀ f ∈ funs, f ∈ names) →
      Decided (AllGood env.context (Stmt.occurrencesList vars funs body))
        (fun answer => Linked names answer.1) (stmts env start body)) :
    BodyDecided names Δ Γ body := by
  intro env vars funs start hm hsees hnames
  have hfuns : ∀ f ∈ Stmt.definedIn body ++ funs, f ∈ names := by
    rw [List.forall_mem_append]
    exact ⟨fun f hf => hinner f (Stmt.definedIn_subset hf), hnames⟩
  have hbody := hstmts start (hm.hoist body) (hsees.hoist body) hfuns
  rwa [hoist_context] at hbody

theorem procedure_decided {span : Span} {locals locals' : List (String × Expr)} {body : List Stmt}
    (hm : env.Matches Δ Γ) (hsees : env.Sees vars funs) (hnames : ∀ f ∈ funs, f ∈ names)
    (hf : env.context.function? name = some (.function types variadic ret))
    (hlength : params.length = types.length)
    (hlocals : TypedBindings Δ (Γ.bindAll (params.zip types)) locals locals' Γ')
    (hbody : BodyDecided names Δ Γ' body) (n : Note) :
    Decided
      (AllGood env.context ((Stmt.defineBlock name params locals' body n).occurrences vars funs))
      (Linked names) (function env start name params span true fun env start =>
        withBindings env start locals' fun env start => block env start body) := by
  refine function_decided hf fun offset => ?_
  obtain ⟨hinner, hseen, hcontext⟩ := inside_scope name hm hsees hlength offset
  rw [← hcontext]
  refine Decided.iff (withBindings_decided hinner hseen hnames hlocals ?_) allGood_append.symm
  intro env' start' hm' hsees' hcontext'
  rw [← hcontext', block]
  exact .map (hbody start' hm' hsees' hnames) fun _ => id

theorem effect_decided (hm : env.Matches Δ Γ) (hsees : env.Sees vars funs)
    (hnames : ∀ f ∈ funs, f ∈ names) {e a : Expr} (ht : e.Typed Δ Γ a) :
    Decided (AllGood env.context (a.occurrences vars funs)) (Linked names)
      (effect env start a) := by
  -- an assignment that is a statement leaves no value, every other expression is dropped
  by_cases hassign : ∃ t v vn, a = .assign t v vn
  · obtain ⟨t, v, vn, rfl⟩ := hassign
    cases ht with
    | assign hx ht =>
      rw [effect, assigned_name]
      exact Decided.iff (.after (.slot (hm.slot hx)) fun slot _ =>
        .map (expr_decided hm hsees hnames start ht) fun code hcode =>
          linked_append.mpr ⟨hcode, linked_storeCells⟩)
        (allGood_parts (e := .assign _ _ _) ⟨trivial, trivial⟩)
  · rw [effect_of_not_assign hassign]
    refine .map (expr_decided hm hsees hnames start ht) fun code hcode => ?_
    split
    · exact hcode
    · exact linked_append.mpr ⟨hcode, linked_item⟩

end Functions

mutual

theorem stmt_decided {names : List String} {s a : Stmt} {Δ Δ' : Context} {Γ Γ' : Locals}
    {env : Env} {vars funs : List String} (start : Nat) :
    s.Typed Δ Γ a Δ' Γ' → (∀ f ∈ a.defines, f ∈ names) → env.Matches Δ' Γ → env.Sees vars funs →
    (∀ f ∈ funs, f ∈ names) →
    Decided (AllGood env.context (a.occurrences vars funs))
      (Leads names env Γ Γ' (a.bound ++ vars) funs) (stmt env start a)
  | .expr he, _, hm, hsees, hnames => by
    rw [stmt]
    exact .map (effect_decided hm hsees hnames he) fun code hcode =>
      ⟨hcode, rfl, fun _ => id, hsees⟩
  | .declare _ _, _, hm, hsees, hnames | .record _ _ _ _, _, hm, hsees, hnames
  | .comment, _, hm, hsees, hnames => by
    rw [stmt]
    exact (Decided.pure ⟨linked_nil, rfl, fun _ => id, hsees⟩).iff (iff_of_true trivial nofun)
  | .ret _ he, _, hm, hsees, hnames => by
    rw [stmt]
    exact .map (expr_decided hm hsees hnames start he) fun code hcode =>
      ⟨linked_append.mpr ⟨hcode, linked_item⟩, rfl, fun _ => id, hsees⟩
  | .define hdef hlength _ hlocals he, _, hm, hsees, hnames => by
    rw [stmt]
    have hf := hm.context.functions hdef.declared
    exact .map (equation_decided hm hsees hnames hf hlength hlocals he _) fun code hcode =>
      ⟨linked_skipped hcode, rfl, fun _ => id, hsees⟩
  | .defineBlock hdef hlength _ hlocals hbody, hinner, hm, hsees, hnames => by
    obtain ⟨hf, hm', hlocals'⟩ := hm.procedure hdef hlocals hbody
    rw [stmt]
    have hinner := fun f hf => hinner f (List.mem_cons_of_mem _ hf)
    have hbody := BodyDecided.of_stmts hinner fun start => stmts_decided start hbody hinner
    exact .map (procedure_decided hm' hsees hnames hf hlength hlocals' hbody _) fun code hcode =>
      ⟨linked_skipped hcode, rfl, fun _ => id, hsees⟩
  | .loop hc _ hbody, hinner, hm, hsees, hnames => by
    have hm' := hm.earlier hbody.growth.kept
    have hbody := BodyDecided.of_stmts hinner fun start => stmts_decided start hbody hinner
    rw [stmt]
    refine Decided.iff (.bind (expr_decided hm' hsees hnames start hc) fun code hcode =>
      .map (hbody _ hm hsees hnames) fun answer hanswer => ?_) allGood_append.symm
    refine ⟨?_, rfl, fun _ => id, hsees⟩
    simp only [linked_append]
    exact ⟨⟨⟨hcode, linked_item⟩, hanswer⟩, linked_item⟩
  | .branch hc _ ht he, hinner, hm, hsees, hnames => by
    rw [Stmt.defines, List.forall_mem_append] at hinner
    -- each part was checked in the context that the part before it led to
    have hm' := hm.earlier he.growth.kept
    have hm'' := hm'.earlier ht.growth.kept
    have hthen := BodyDecided.of_stmts hinner.1 fun start => stmts_decided start ht hinner.1
    have helse := BodyDecided.of_stmts hinner.2 fun start => stmts_decided start he hinner.2
    rw [stmt]
    refine Decided.iff (.bind (expr_decided hm'' hsees hnames start hc) fun code hcode =>
      .bind (hthen _ hm' hsees hnames) fun first hfirst =>
      .map (helse _ hm hsees hnames) fun second hsecond => ?_) ?_
    · exact ⟨linked_append.mpr ⟨hcode, linked_choose hfirst hsecond⟩, rfl, fun _ => id, hsees⟩
    · rw [Stmt.occurrences, allGood_append, allGood_append, and_assoc]
  | .bind he, _, hm, hsees, hnames => by
    rw [stmt]
    exact binding_decided hm hsees hnames he _
  | .block hbody, hinner, hm, hsees, hnames => by
    have hbody := BodyDecided.of_stmts hinner fun start => stmts_decided start hbody hinner
    rw [stmt]
    exact .map (hbody start hm hsees hnames) fun answer hanswer =>
      ⟨hanswer, rfl, fun _ => id, hsees⟩

theorem stmts_decided {names : List String} {ss as : List Stmt} {Δ Δ' : Context} {Γ Γ' : Locals}
    {env : Env} {vars funs : List String} (start : Nat) :
    Stmt.TypedList Δ Γ ss as Δ' Γ' → (∀ f ∈ Stmt.definesList as, f ∈ names) →
    env.Matches Δ' Γ → env.Sees vars funs → (∀ f ∈ funs, f ∈ names) →
    Decided (AllGood env.context (Stmt.occurrencesList vars funs as))
      (fun answer => Linked names answer.1) (stmts env start as)
  | .nil, _, hm, hsees, hnames => by
    rw [stmts]
    exact (Decided.pure linked_nil).iff (iff_of_true trivial nofun)
  | .cons ha has, hinner, hm, hsees, hnames => by
    rw [Stmt.definesList, List.forall_mem_append] at hinner
    rw [stmts]
    have hfirst := stmt_decided start ha hinner.1 (hm.earlier has.growth.kept) hsees hnames
    refine Decided.iff (.bind hfirst fun answer hanswer => ?_) allGood_append.symm
    rw [← hanswer.context]
    exact .map (stmts_decided _ has hinner.2 (hanswer.matched _ hm) hanswer.sees hnames)
      fun rest hrest => linked_append.mpr ⟨hanswer.linked, hrest⟩

end

/-- What the statements of the top level must be like. -/
def TopGood (Δ : Context) (funs : List String) (as : List Stmt) : Prop :=
  (∀ s ∈ as, s.definition?.isSome = true ∨ s.isSilent = true) ∧
    AllGood Δ ((as.filter (·.definition?.isSome)).flatMap (Stmt.occurrences [] funs))

section Top

variable {Δ : Context} {funs : List String} {s : Stmt} {as : List Stmt}

theorem topGood_nil : TopGood Δ funs [] :=
  ⟨nofun, nofun⟩

theorem topGood_definition (hs : s.definition?.isSome = true) :
    TopGood Δ funs (s :: as) ↔ AllGood Δ (s.occurrences [] funs) ∧ TopGood Δ funs as := by
  have hfilter : (s :: as).filter (·.definition?.isSome) =
      s :: as.filter (·.definition?.isSome) := by
    simp [hs]
  rw [TopGood, List.forall_mem_cons, hfilter, List.flatMap_cons, allGood_append]
  exact ⟨fun h => ⟨h.2.1, h.1.2, h.2.2⟩, fun h => ⟨⟨.inl hs, h.2.1⟩, h.1, h.2.2⟩⟩

theorem topGood_silent (hs : s.isSilent = true) :
    TopGood Δ funs (s :: as) ↔ TopGood Δ funs as := by
  have hdef := Stmt.definition?_of_isSilent hs
  rw [TopGood, List.forall_mem_cons, List.filter_cons_of_neg (by simp [hdef])]
  exact ⟨fun h => ⟨h.1.2, h.2⟩, fun h => ⟨⟨.inr hs, h.1⟩, h.2⟩⟩

theorem not_topGood (hdef : s.definition?.isSome = false) (hs : s.isSilent = false) :
    ¬ TopGood Δ funs (s :: as) := by
  intro h
  have hfirst := h.1 s List.mem_cons_self
  simp [hdef, hs] at hfirst

end Top

theorem topLevel_decided {names funs : List String} (hnames : ∀ f ∈ funs, f ∈ names)
    {ss as : List Stmt} {Δ Δ' : Context} {Γ Γ' : Locals} {env : Env} (start : Nat)
    (hsees : env.Sees [] funs) : Stmt.TypedList Δ Γ ss as Δ' Γ' → env.Matches Δ' Γ →
    (∀ f ∈ Stmt.definesList as, f ∈ names) →
    Decided (TopGood env.context funs as) (Linked names) (topLevel env start as)
  | .nil, _, _ => by
    rw [topLevel]
    exact (Decided.pure linked_nil).iff (iff_of_true trivial topGood_nil)
  | .cons ha has, hm, hinner => by
    rw [Stmt.definesList, List.forall_mem_append] at hinner
    have hm₁ := hm.earlier has.growth.kept
    cases ha with
    | define hdef hlength _ hlocals he =>
      have hf := hm₁.context.functions hdef.declared
      rw [topLevel]
      exact Decided.iff (.bind (equation_decided hm₁ hsees hnames hf hlength hlocals he _)
        fun code hcode => .map (topLevel_decided hnames _ hsees has hm hinner.2)
        fun rest hrest => linked_append.mpr ⟨hcode, hrest⟩) (topGood_definition rfl).symm
    | defineBlock hdef hlength _ hlocals hbody =>
      obtain ⟨hf, hm', hlocals'⟩ := hm₁.procedure hdef hlocals hbody
      have hinside := fun f hf => hinner.1 f (List.mem_cons_of_mem _ hf)
      have hbody := BodyDecided.of_stmts hinside fun start => stmts_decided start hbody hinside
      rw [topLevel]
      exact Decided.iff (.bind (procedure_decided hm' hsees hnames hf hlength hlocals' hbody _)
        fun code hcode => .map (topLevel_decided hnames _ hsees has hm hinner.2)
        fun rest hrest => linked_append.mpr ⟨hcode, hrest⟩) (topGood_definition rfl).symm
    | declare | record | comment =>
      rw [topLevel]
      exact Decided.iff (.after (.pure linked_nil) fun code hcode =>
        .map (topLevel_decided hnames _ hsees has hm hinner.2)
        fun rest hrest => linked_append.mpr ⟨hcode, hrest⟩) (topGood_silent rfl).symm
    | _ =>
      -- the first statement of another form is refused before what stands behind it is looked at
      intro frame
      exact ⟨not_topGood rfl rfl, List.mem_cons_self⟩

theorem EmitsProgram.main {L : Listing} {Δ : Context} {program : Program}
    (h : EmitsProgram L Δ program) : "main" ∈ Stmt.definedIn program ∧
      ∃ variadic ret, Δ.function? "main" = some (.function [] variadic ret) := by
  cases h with
  | mk henv _ hcall _ =>
    subst henv
    cases hcall with
    | mk hlevel hf htypes _ _ =>
      obtain rfl := List.prefix_nil.mp htypes
      rw [hoist_context] at hf
      refine ⟨?_, _, _, hf⟩
      rw [hoist_funs] at hlevel
      rw [Stmt.mem_definedIn]
      by_cases hdef : Stmt.isDefinedIn "main" program = true
      · exact hdef
      · simp [hdef] at hlevel

theorem mainEntry_expected {env : Env} {fs : Table Nat} {error : CodegenError}
    (h : mainEntry env fs = .error error) : CodegenErrorKind.Expected error.fault.kind := by
  unfold mainEntry at h
  split at h
  · cases h
    decide
  · split at h
    · split at h
      · cases h
        decide
      · cases h
    · cases h
      decide

end PCode.Codegen

namespace PCode

open Codegen

section Compile

variable {program typed : Program} {Δ : Context}

/-- What generation says of the functions of a typed program; behind them the entries of all its
functions are known. -/
theorem Program.Typed.functions (ht : program.Typed .empty typed Δ) :
    Verdict (TopGood Δ (Stmt.definedIn typed) typed) (Linked (Stmt.definesList typed))
      (topLevel (hoist { context := Δ } typed) 1 typed {}) ∧
    ∀ items frame, topLevel (hoist { context := Δ } typed) 1 typed {} = .ok (items, frame) →
      ∀ name ∈ Stmt.definesList typed, ∃ entry, frame.functions.get? name = some entry := by
  have hlawful := ht.lawful
  obtain ⟨Γ, ht⟩ := ht
  have hm : (hoist { context := Δ } typed).Matches Δ [] := by
    refine Env.Matches.hoist ⟨?_, .refl Δ, hlawful⟩ typed
    intro x
    rfl
  have hsees : (hoist { context := Δ } typed).Sees [] (Stmt.definedIn typed) := by
    have hnone : Env.Sees { context := Δ } [] [] := by
      constructor <;> simp [Table.contains]
    simpa using hnone.hoist typed
  constructor
  · have hverdict := topLevel_decided (fun f hf => Stmt.definedIn_subset hf) 1 hsees ht hm
      (fun f hf => hf) {}
    rwa [hoist_context] at hverdict
  · intro items frame hitems name hname
    obtain ⟨entries, hfunctions, hnames⟩ := (topLevel_generated ht hm hitems).grows.functions
    rw [List.append_nil] at hfunctions
    apply Option.ne_none_iff_exists'.mp
    intro hnone
    rw [hfunctions, Table.get?_eq_none_iff, hnames, List.mem_reverse] at hnone
    exact hnone hname

theorem mainEntry_ok {fs : Table Nat} (hmain : "main" ∈ Stmt.definedIn typed)
    (hparams : ∃ variadic ret, Δ.function? "main" = some (.function [] variadic ret))
    (hentry : ∃ entry, fs.get? "main" = some entry) :
    ∃ entry, mainEntry (hoist { context := Δ } typed) fs = .ok entry := by
  obtain ⟨variadic, ret, hparams⟩ := hparams
  obtain ⟨entry, hentry⟩ := hentry
  refine ⟨entry, ?_⟩
  have hfuns : (hoist { context := Δ } typed).funs.contains "main" = true := by
    rw [Table.contains, hoist_funs, Stmt.mem_definedIn.mp hmain]
    rfl
  rw [mainEntry, hentry, hoist_context]
  simp only [hfuns, hparams, if_true]

/-- Each step of a compilation either needs its part of the conditions or never fails. -/
theorem Program.Typed.listing_verdict (ht : program.Typed .empty typed Δ) :
    match typed.listing Δ with
    | .ok _ => typed.Compilable Δ
    | .error error => ¬ typed.Compilable Δ ∧ CodegenErrorKind.Expected error.fault.kind := by
  obtain ⟨hverdict, hentries⟩ := ht.functions
  cases hitems : topLevel (hoist { context := Δ } typed) 1 typed {} with
  | error error =>
    rw [hitems] at hverdict
    have hlisting : typed.listing Δ = .error error := by
      simp [Program.listing, hitems, bind, Except.bind]
    rw [hlisting]
    refine ⟨fun hgood => hverdict.1 ⟨hgood.top, ?_⟩, hverdict.2⟩
    exact fun o ho => ⟨hgood.supported o ho, hgood.resolved o ho⟩
  | ok answer =>
    obtain ⟨items, frame⟩ := answer
    rw [hitems] at hverdict
    have hknown := hentries items frame hitems
    cases hmain : mainEntry (hoist { context := Δ } typed) frame.functions with
    | error error =>
      have hlisting : typed.listing Δ = .error error := by
        simp [Program.listing, hitems, hmain, bind, Except.bind]
      rw [hlisting]
      refine ⟨fun hgood => ?_, mainEntry_expected hmain⟩
      obtain ⟨entry, hentry⟩ := mainEntry_ok hgood.main hgood.parameters
        (hknown "main" (Stmt.definedIn_subset hgood.main))
      rw [hmain] at hentry
      cases hentry
    | ok entry =>
      -- every call left open is of a function that has been generated by now
      have hlinked : Linked (Stmt.definesList typed)
          ([(hoist { context := Δ } typed).item .jmp 0 (1 + items.length : Nat)] ++ items ++
            [(hoist { context := Δ } typed).item .cap 0 0,
              (hoist { context := Δ } typed).item .cal 0 entry]) := by
        rw [linked_append, linked_append]
        exact ⟨⟨linked_item, hverdict.2⟩, linked_cons.mpr ⟨linked_item, linked_item⟩⟩
      obtain ⟨lines, hlines⟩ := link_of_linked hlinked hknown
      have hlisting : typed.listing Δ = .ok ⟨lines, frame.strings, frame.functions⟩ := by
        rw [Program.listing, hitems]
        simp only [bind, Except.bind, hmain, hlines]
        rfl
      obtain ⟨hdefined, hparams⟩ := (Program.listing_emits ht hlisting).main
      rw [hlisting]
      exact ⟨hverdict.1.1, fun o ho => (hverdict.1.2 o ho).1, fun o ho => (hverdict.1.2 o ho).2,
        hdefined, hparams⟩

/-- There is code for a typed program exactly if it is compilable, and a refusal is of one of three
kinds. -/
theorem Program.compile_ok_iff (h : program.check .empty = .ok (typed, Δ)) :
    ((∃ image, typed.compile Δ = .ok image) ↔ typed.Compilable Δ) ∧
      ∀ error, typed.compile Δ = .error error →
        error.fault.kind ∈ [.notImplemented, .unknownFunction, .invalidArgumentCount] := by
  have hverdict := (Program.check_eq_ok_iff.mp h).listing_verdict
  cases hlisting : typed.listing Δ with
  | ok L =>
    rw [hlisting] at hverdict
    have hcompile : typed.compile Δ = .ok L.image := by rw [Program.compile, hlisting]; rfl
    rw [hcompile]
    refine ⟨iff_of_true ⟨_, rfl⟩ hverdict, ?_⟩
    intro error herror
    cases herror
  | error error =>
    rw [hlisting] at hverdict
    have hcompile : typed.compile Δ = .error error := by rw [Program.compile, hlisting]; rfl
    rw [hcompile]
    refine ⟨iff_of_false (by simp) hverdict.1, ?_⟩
    intro other hother
    cases hother
    exact hverdict.2

end Compile

/-- A function in another, which calls the constructor of a record. -/
def boxProgram : Program :=
  let n : Note := { span := .point 0 }
  [.record "box" [("a", .i64)] n,
    .declare "main" (.function [] false .i64) n,
    .defineBlock "main" [] [] [
      .declare "get" (.function [] false .i64) n,
      .define "get" [] [] (.member (.call "box" [.integer 1 n] n) (.name "a" n) none n) n,
      .ret (.call "get" [] n) n] n]

/-- A function that is called outside of the one in which it is defined. -/
def strayProgram : Program :=
  let n : Note := { span := .point 0 }
  [.declare "get" (.function [] false .i64) n,
    .declare "main" (.function [] false .i64) n,
    .declare "other" (.function [] false .i64) n,
    .define "main" [] [] (.call "get" [] n) n,
    .defineBlock "other" [] [] [.define "get" [] [] (.integer 1 n) n, .ret (.integer 2 n) n] n]

theorem boxProgram_compiles : (match boxProgram.check .empty with
    | .ok (typed, Δ) => (typed.compile Δ).isOk
    | .error _ => false) = true := by
  decide +kernel

theorem strayProgram_refused : (match strayProgram.check .empty with
    | .ok (typed, Δ) => match typed.compile Δ with
      | .ok _ => false
      | .error error => error.fault.kind == .unknownFunction
    | .error _ => false) = true := by
  decide +kernel

theorem compile_ok_iff_box_stray :
    (∃ typed Δ, boxProgram.check .empty = .ok (typed, Δ) ∧ typed.Compilable Δ) ∧
      ∃ typed Δ, strayProgram.check .empty = .ok (typed, Δ) ∧ ¬ typed.Compilable Δ := by
  constructor
  · have h := boxProgram_compiles
    split at h
    · rename_i typed Δ hcheck
      refine ⟨typed, Δ, hcheck, ?_⟩
      apply (Program.compile_ok_iff hcheck).1.mp
      cases hcompile : typed.compile Δ with
      | ok image => exact ⟨image, rfl⟩
      | error error =>
        rw [hcompile] at h
        cases h
    · cases h
  · have h := strayProgram_refused
    split at h
    · rename_i typed Δ hcheck
      refine ⟨typed, Δ, hcheck, fun hgood => ?_⟩
      obtain ⟨image, hcompile⟩ := (Program.compile_ok_iff hcheck).1.mpr hgood
      rw [hcompile] at h
      cases h
    · cases h

end PCode
