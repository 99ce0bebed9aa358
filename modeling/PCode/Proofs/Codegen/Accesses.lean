import PCode.Proofs.Codegen.Areas
import PCode.Proofs.Codegen.Generation
import PCode.Proofs.Machine.Memory

namespace PCode

open Codegen

/-- A variable in scope: the nesting level of its function, and the index of its area in the frame
of that function. -/
structure Variable where
  level : Nat
  area : Nat

/-- Where code stands: its function and those around that one, innermost first, and the variables in
scope. -/
structure Nesting where
  path : List String := []
  vars : Table Variable := []

/-- A transfer between the stack and cells of an area, in the frame of the function `level` levels
around the owner. -/
structure Access where
  owner : List String
  store : Bool
  level : Nat
  area : Nat
  purpose : Purpose
  first : Nat
  size : Nat
deriving DecidableEq

namespace Nesting

def level (nesting : Nesting) : Nat :=
  nesting.path.length

/-- Binds a variable of the current function. -/
def bind (nesting : Nesting) (name : String) (area : Nat) : Nesting :=
  { nesting with vars := nesting.vars.insert name ⟨nesting.level, area⟩ }

/-- Binds variables to areas in a row. -/
def bindAll (nesting : Nesting) (area : Nat) : List String → Nesting
  | [] => nesting
  | name :: names => (nesting.bind name area).bindAll (area + 1) names

/-- Inside a function, whose parameters have the first areas. -/
def enter (nesting : Nesting) (name : String) (params : List String) : Nesting :=
  { nesting with path := name :: nesting.path }.bindAll 0 params

/-- Transfers cells of a variable. -/
def transfer (nesting : Nesting) (store : Bool) (name : String) (first size : Nat) : List Access :=
  match nesting.vars.get? name with
  | some v =>
    [⟨nesting.path, store, nesting.level - v.level, v.area, .named name, first, size⟩]
  | none => []

/-- Transfers cells of an area of the current function. -/
def transferOwn (nesting : Nesting) (store : Bool) (area : Nat) (purpose : Purpose)
    (first size : Nat) : Access :=
  ⟨nesting.path, store, 0, area, purpose, first, size⟩

end Nesting

mutual

/-- The accesses of an expression whose temporaries start with the area `next`. -/
def Expr.accesses (nesting : Nesting) (next : Nat) : Expr → List Access
  | .name x note => nesting.transfer false x 0 note.ty.size
  | .unary _ operand _ => operand.accesses nesting next
  | .binary _ left right _ =>
    left.accesses nesting next ++ right.accesses nesting (next + left.areas.length)
  | .member target field ordinal note =>
    match (Expr.member target field ordinal note).part? with
    | some (x, first) => nesting.transfer false x first note.ty.size
    | none =>
      let temporary := next + target.areas.length
      let offset := (ordinal.bind target.ty.memberOffset?).getD 0
      target.accesses nesting next
        ++ [nesting.transferOwn true temporary .temporary 0 target.ty.size,
          nesting.transferOwn false temporary .temporary offset note.ty.size]
  | .assign (.name x _) value _ =>
    value.accesses nesting next ++ nesting.transfer true x 0 value.ty.size
      ++ nesting.transfer false x 0 value.ty.size
  | .cond test thenValue elseValue _ =>
    test.accesses nesting next
      ++ thenValue.accesses nesting (next + test.areas.length)
      ++ elseValue.accesses nesting (next + test.areas.length + thenValue.areas.length)
  | .call _ args _ => Expr.accessesList nesting next args
  | _ => []

def Expr.accessesList (nesting : Nesting) (next : Nat) : List Expr → List Access
  | [] => []
  | e :: es => e.accesses nesting next ++ Expr.accessesList nesting (next + e.areas.length) es

end

namespace Nesting

/-- The accesses of a binding: those of the value, and the store into its area. -/
def binding (nesting : Nesting) (next : Nat) (name : String) (value : Expr) : List Access :=
  value.accesses nesting (next + 1)
    ++ [nesting.transferOwn true next (.named name) 0 value.ty.size]

def bindings (nesting : Nesting) (next : Nat) : List (String × Expr) → List Access
  | [] => []
  | (name, value) :: others =>
    nesting.binding next name value
      ++ (nesting.bind name next).bindings (next + (Area.binding name value).length) others

/-- The variables in scope behind bindings. -/
def behind (nesting : Nesting) (next : Nat) : List (String × Expr) → Nesting
  | [] => nesting
  | (name, value) :: others =>
    (nesting.bind name next).behind (next + (Area.binding name value).length) others

/-- The accesses of a value with bindings before it. -/
def equation (nesting : Nesting) (next : Nat) (locals : List (String × Expr)) (value : Expr) :
    List Access :=
  nesting.bindings next locals
    ++ value.accesses (nesting.behind next locals) (next + (Area.bindings locals).length)

/-- The variables in scope behind a statement. -/
def after (nesting : Nesting) (next : Nat) : Stmt → Nesting
  | .bind name _ _ => nesting.bind name next
  | _ => nesting

end Nesting

mutual

/-- The accesses of a statement whose areas start with the area `next`, and of the functions inside
it. An assignment is not loaded again if it is a statement. -/
def Stmt.accesses (nesting : Nesting) (next : Nat) : Stmt → List Access
  | .expr (.assign (.name x _) value _) _ =>
    value.accesses nesting next ++ nesting.transfer true x 0 value.ty.size
  | .expr value _ | .ret value _ => value.accesses nesting next
  | .define name params locals value _ =>
    (nesting.enter name params).equation params.length locals value
  | .defineBlock name params locals body _ =>
    let inner := nesting.enter name params
    inner.bindings params.length locals
      ++ Stmt.accessesList (inner.behind params.length locals)
        (params.length + (Area.bindings locals).length) body
  | .loop test body _ =>
    test.accesses nesting next ++ Stmt.accessesList nesting (next + test.areas.length) body
  | .branch test thenBody elseBody _ =>
    test.accesses nesting next
      ++ Stmt.accessesList nesting (next + test.areas.length) thenBody
      ++ Stmt.accessesList nesting
        (next + test.areas.length + (Stmt.areasList thenBody).length) elseBody
  | .bind name value _ => nesting.binding next name value
  | .block body _ => Stmt.accessesList nesting next body
  | _ => []

def Stmt.accessesList (nesting : Nesting) (next : Nat) : List Stmt → List Access
  | [] => []
  | s :: ss =>
    s.accesses nesting next
      ++ Stmt.accessesList (nesting.after next s) (next + s.areas.length) ss

end

def Body.accesses (nesting : Nesting) (next : Nat) : Body → List Access
  | .value locals result => nesting.equation next locals result
  | .block locals body =>
    nesting.bindings next locals
      ++ Stmt.accessesList (nesting.behind next locals) (next + (Area.bindings locals).length) body

/-- The accesses of all functions of a program, in the order of its text. -/
def Program.accesses (program : Program) : List Access :=
  Stmt.accessesList {} 0 program

/-- The types of the parameters of a function. -/
def Context.parameters (context : Context) (name : String) : List Ty :=
  match context.function? name with
  | some (.function types _ _) => types
  | _ => []

/-- The layouts of the frames of all functions of a program. -/
def Program.layouts (context : Context) (program : Program) : Table Layout :=
  (Stmt.definitionsList program).map fun (name, params, body) =>
    (name, .ofFunction (params.zip (context.parameters name)) body)

namespace Access

variable (layouts : Table Layout)

/-- The layout of the frame that is accessed. -/
def layout? (a : Access) : Option Layout :=
  a.owner[a.level]?.bind layouts.get?

/-- The cells of the frame that are accessed. -/
def cells (a : Access) : List Nat :=
  match a.layout? layouts with
  | some layout => (List.range a.size).map fun cell => layout.offset a.area + a.first + cell
  | none => []

/-- The line that transfers one cell. -/
def line (a : Access) (cell : Nat) : Line :=
  ⟨a.owner, ⟨if a.store then .sto else .lod, a.level, Int64.ofInt cell⟩, false⟩

/-- Cells are loaded in order, and stored from the last to the first. -/
def lines (a : Access) : List Line :=
  if a.store then (a.cells layouts).reverse.map a.line else (a.cells layouts).map a.line

/-- The cells lie in the area, which is there for what is accessed. -/
def Fits (a : Access) : Prop :=
  ∃ layout area, a.layout? layouts = some layout ∧ layout.areas[a.area]? = some area ∧
    area.purpose = a.purpose ∧ a.first + a.size ≤ area.size

end Access

namespace Codegen

/-- A line that loads or stores a cell of a frame. -/
def Line.isTransfer (l : Line) : Bool :=
  l.instruction.op = .lod || l.instruction.op = .sto

section Located

variable {layouts : Table Layout} {path : List String} {level index next f offset : Nat}
  {area : Area} {areas others : List Area}

/-- The function `level` levels out of a path has an area of this index, which starts at an offset
of its frame. -/
def Located (layouts : Table Layout) (path : List String) (level index : Nat) (area : Area)
    (offset : Nat) : Prop :=
  ∃ name layout, path[level]? = some name ∧ layouts.get? name = some layout ∧
    layout.areas[index]? = some area ∧ layout.offset index = offset

theorem Located.inside (h : Located layouts path level index area offset) (name : String) :
    Located layouts (name :: path) (level + 1) index area offset := by
  simpa [Located] using h

/-- The function of a path has these areas in a row, the first with the index `next` and from the
cell `f` on. -/
def Reserved (layouts : Table Layout) (path : List String) (next f : Nat) (areas : List Area) :
    Prop :=
  ∃ name layout front back, path[0]? = some name ∧ layouts.get? name = some layout ∧
    layout.areas = front ++ areas ++ back ∧ front.length = next ∧
    headerSize + Area.total front = f

theorem Reserved.left (h : Reserved layouts path next f (areas ++ others)) :
    Reserved layouts path next f areas := by
  obtain ⟨name, layout, front, back, hpath, hget, hareas, hnext, hf⟩ := h
  exact ⟨name, layout, front, others ++ back, hpath, hget, by simp [hareas], hnext, hf⟩

theorem Reserved.right (h : Reserved layouts path next f (areas ++ others)) :
    Reserved layouts path (next + areas.length) (f + Area.total areas) others := by
  obtain ⟨name, layout, front, back, hpath, hget, hareas, rfl, rfl⟩ := h
  refine ⟨name, layout, front ++ areas, back, hpath, hget, by simp [hareas], by simp, ?_⟩
  rw [Area.total_append, Nat.add_assoc]

theorem Reserved.last {rest : List Area}
    (h : Reserved layouts path next f (areas ++ others ++ rest)) :
    Reserved layouts path (next + areas.length + others.length)
      (f + Area.total areas + Area.total others) rest := by
  rw [List.append_assoc] at h
  exact h.right.right

theorem Reserved.head (h : Reserved layouts path next f (area :: areas)) :
    Located layouts path 0 next area f := by
  obtain ⟨name, layout, front, back, hpath, hget, hareas, rfl, rfl⟩ := h
  refine ⟨name, layout, hpath, hget, by simp [hareas], ?_⟩
  simp [Layout.offset, hareas]

theorem Reserved.tail (h : Reserved layouts path next f (area :: areas)) :
    Reserved layouts path (next + 1) (f + area.size) areas := by
  have h' : Reserved layouts path next f ([area] ++ areas) := h
  simpa using h'.right

end Located

section Accounts

variable {layouts : Table Layout} {a b : List Line} {xs ys : List Access} {l : Line} {env : Env}
  {level index first size offset start : Nat} {area : Area}

/-- The loads and stores of these lines are those of the accesses, which stay inside their areas. -/
structure Accounts (layouts : Table Layout) (lines : List Line) (accesses : List Access) :
    Prop where
  lines : lines.filter Line.isTransfer = accesses.flatMap (Access.lines layouts)
  fits : ∀ a ∈ accesses, a.Fits layouts

theorem accounts_nil : Accounts layouts [] [] := ⟨rfl, nofun⟩

theorem Accounts.append (ha : Accounts layouts a xs) (hb : Accounts layouts b ys) :
    Accounts layouts (a ++ b) (xs ++ ys) := by
  refine ⟨?_, List.forall_mem_append.mpr ⟨ha.fits, hb.fits⟩⟩
  rw [List.filter_append, List.flatMap_append, ha.lines, hb.lines]

theorem accounts_line (h : l.isTransfer = false) : Accounts layouts [l] [] :=
  ⟨by simp [h], nofun⟩

theorem Accounts.snoc (ha : Accounts layouts a xs) (h : l.isTransfer = false) :
    Accounts layouts (a ++ [l]) xs := by
  simpa using ha.append (accounts_line h)

theorem Accounts.cons (h : l.isTransfer = false) (ha : Accounts layouts a xs) :
    Accounts layouts (l :: a) xs :=
  (accounts_line h).append ha

theorem Accounts.choose (ha : Accounts layouts a xs) (hb : Accounts layouts b ys) :
    Accounts layouts (chooseLines env start a b) (xs ++ ys) :=
  ((ha.cons rfl).snoc rfl).append hb

theorem filter_loads :
    (env.loads level offset size).filter Line.isTransfer = env.loads level offset size := by
  rw [List.filter_eq_self]
  intro l hl
  obtain ⟨cell, -, rfl⟩ := List.mem_map.mp hl
  rfl

theorem filter_stores :
    (env.stores level offset size).filter Line.isTransfer = env.stores level offset size := by
  rw [List.filter_eq_self]
  intro l hl
  obtain ⟨cell, -, rfl⟩ := List.mem_map.mp hl
  rfl

variable (h : Located layouts env.path level index area offset)
include h

theorem Located.fits (store : Bool) (hsize : first + size ≤ area.size) :
    Access.Fits layouts ⟨env.path, store, level, index, area.purpose, first, size⟩ ∧
      Access.cells layouts ⟨env.path, store, level, index, area.purpose, first, size⟩
        = (List.range size).map fun cell => offset + first + cell := by
  obtain ⟨name, layout, hpath, hget, harea, rfl⟩ := h
  have hlayout : Access.layout? layouts
      ⟨env.path, store, level, index, area.purpose, first, size⟩ = some layout := by
    simp [Access.layout?, hpath, hget]
  refine ⟨⟨layout, area, hlayout, harea, rfl, hsize⟩, ?_⟩
  rw [Access.cells, hlayout]

theorem Located.loads (hsize : first + size ≤ area.size) :
    Accounts layouts (env.loads level (offset + first) size)
      [⟨env.path, false, level, index, area.purpose, first, size⟩] := by
  obtain ⟨hfits, hcells⟩ := h.fits false hsize
  refine ⟨?_, List.forall_mem_singleton.mpr hfits⟩
  rw [filter_loads, List.flatMap_singleton, Access.lines, hcells, List.map_map]
  rfl

theorem Located.stores (hsize : first + size ≤ area.size) :
    Accounts layouts (env.stores level (offset + first) size)
      [⟨env.path, true, level, index, area.purpose, first, size⟩] := by
  obtain ⟨hfits, hcells⟩ := h.fits true hsize
  refine ⟨?_, List.forall_mem_singleton.mpr hfits⟩
  rw [filter_stores, List.flatMap_singleton, Access.lines, hcells, ← List.map_reverse, List.map_map]
  rfl

end Accounts

section Laid

variable {layouts : Table Layout} {context : Context} {nesting : Nesting} {env : Env}
  {x : String} {slot : Slot} {first size next f : Nat} {area : Area}

/-- Each variable in scope has the cells of its area. -/
structure Laid (layouts : Table Layout) (context : Context) (nesting : Nesting) (env : Env) :
    Prop where
  context_eq : env.context = context
  path_eq : env.path = nesting.path
  located : ∀ {x slot}, env.vars.get? x = some slot → ∃ index,
    nesting.vars.get? x = some ⟨slot.level, index⟩ ∧ slot.level ≤ nesting.level ∧
      Located layouts nesting.path (nesting.level - slot.level) index ⟨.named x, slot.ty.size⟩
        slot.offset

theorem Laid.level_eq (h : Laid layouts context nesting env) : env.level = nesting.level := by
  rw [Env.level, h.path_eq, Nesting.level]

theorem Laid.hoist (h : Laid layouts context nesting env) (body : List Stmt) :
    Laid layouts context nesting (hoist env body) := by
  refine ⟨by rw [hoist_context, h.context_eq], by rw [hoist_path, h.path_eq], ?_⟩
  rw [hoist_vars]
  exact h.located

theorem Laid.bind (h : Laid layouts context nesting env) {ty : Ty}
    (hx : Located layouts nesting.path 0 next ⟨.named x, ty.size⟩ f) :
    Laid layouts context (nesting.bind x next) (env.bind x f ty) := by
  refine ⟨h.context_eq, h.path_eq, ?_⟩
  intro y slot hy
  rw [Env.bind, Table.get?_insert] at hy
  rw [Nesting.bind, Table.get?_insert]
  by_cases hxy : x = y
  · -- the name hides an older variable, also one of a function around
    rw [if_pos hxy] at hy
    cases hy
    subst hxy
    refine ⟨next, by simp [h.level_eq], Nat.le_of_eq h.level_eq, ?_⟩
    simpa [h.level_eq, Nesting.level] using hx
  · rw [if_neg hxy] at hy ⊢
    exact h.located hy

theorem Laid.inside (h : Laid layouts context nesting env) (name : String) :
    Laid layouts context { nesting with path := name :: nesting.path } (env.inside name) := by
  refine ⟨h.context_eq, by rw [Env.inside, h.path_eq], ?_⟩
  intro x slot hx
  obtain ⟨index, hget, hle, hlocated⟩ := h.located hx
  refine ⟨index, hget, Nat.le_succ_of_le hle, ?_⟩
  -- from inside there is one more level to a variable of a function around
  rw [show Nesting.level { nesting with path := name :: nesting.path } - slot.level
    = nesting.level - slot.level + 1 from Nat.succ_sub hle]
  exact hlocated.inside name

variable (h : Laid layouts context nesting env)
include h

theorem Laid.withParams {params : List String} {types : List Ty}
    (hlen : params.length = types.length)
    (hparams : Reserved layouts nesting.path next f ((params.zip types).map fun (name, ty) =>
      ⟨.named name, ty.size⟩)) :
    Laid layouts context (nesting.bindAll next params) (env.withParams f (params.zip types)) := by
  induction params generalizing types nesting env next f with
  | nil => exact h
  | cons name params ih =>
    cases types with
    | nil => cases hlen
    | cons ty types =>
      rw [List.zip_cons_cons, List.map_cons] at hparams
      exact ih (h.bind hparams.head) (Nat.succ.inj hlen) hparams.tail

theorem Laid.transfer_eq (hx : env.vars.get? x = some slot) :
    ∃ index, Located layouts env.path (env.distance slot) index ⟨.named x, slot.ty.size⟩
        slot.offset ∧
      ∀ store first size, nesting.transfer store x first size
        = [⟨env.path, store, env.distance slot, index, .named x, first, size⟩] := by
  obtain ⟨index, hget, -, hlocated⟩ := h.located hx
  rw [← h.path_eq, ← h.level_eq] at hlocated
  refine ⟨index, hlocated, ?_⟩
  intro store first size
  rw [Nesting.transfer, hget, ← h.path_eq, ← h.level_eq]
  rfl

theorem Laid.loads (hx : env.vars.get? x = some slot) (hsize : first + size ≤ slot.ty.size) :
    Accounts layouts (env.loads (env.distance slot) (slot.offset + first) size)
      (nesting.transfer false x first size) := by
  obtain ⟨index, hlocated, htransfer⟩ := h.transfer_eq hx
  rw [htransfer]
  exact hlocated.loads hsize

theorem Laid.stores (hx : env.vars.get? x = some slot) (hsize : first + size ≤ slot.ty.size) :
    Accounts layouts (env.stores (env.distance slot) (slot.offset + first) size)
      (nesting.transfer true x first size) := by
  obtain ⟨index, hlocated, htransfer⟩ := h.transfer_eq hx
  rw [htransfer]
  exact hlocated.stores hsize

theorem Laid.loadsOwn (harea : Located layouts nesting.path 0 next area f)
    (hsize : first + size ≤ area.size) :
    Accounts layouts (env.loads 0 (f + first) size)
      [nesting.transferOwn false next area.purpose first size] := by
  rw [Nesting.transferOwn, ← h.path_eq]
  rw [← h.path_eq] at harea
  exact harea.loads hsize

theorem Laid.storesOwn (harea : Located layouts nesting.path 0 next area f) :
    Accounts layouts (env.stores 0 f area.size)
      [nesting.transferOwn true next area.purpose 0 area.size] := by
  rw [Nesting.transferOwn, ← h.path_eq]
  rw [← h.path_eq] at harea
  exact harea.stores (Nat.le_of_eq (Nat.zero_add area.size))

end Laid

/-! ### Expressions -/

theorem accesses_of_part? {e : Expr} {x : String} {first : Nat} (h : e.part? = some (x, first))
    (nesting : Nesting) (next : Nat) :
    e.accesses nesting next = nesting.transfer false x first e.ty.size := by
  cases e
  case name => cases h; rfl
  case member => rw [Expr.accesses, h]; rfl
  all_goals cases h

theorem EmitsPlace.accounts {layouts : Table Layout} {context : Context} {nesting : Nesting}
    {env : Env} {e : Expr} {slot : Slot} (h : EmitsPlace env e slot)
    (hlaid : Laid layouts context nesting env) (next : Nat) :
    Accounts layouts (env.loads (env.distance slot) slot.offset slot.ty.size)
      (e.accesses nesting next) := by
  obtain ⟨x, first, home, hpart, hget, hlevel, hoffset, hsize⟩ := h.part?
  have hdistance : env.distance slot = env.distance home := by
    rw [Env.distance, Env.distance, hlevel]
  rw [accesses_of_part? hpart, h.ty, hdistance, hoffset]
  exact hlaid.loads hget hsize

section Expressions

variable {L : Listing} {layouts : Table Layout} {context : Context} {nesting : Nesting} {env : Env}

mutual

theorem EmitsExpr.accounts (hlaid : Laid layouts context nesting env) {start f f' next : Nat}
    {e : Expr} {lines : List Line} : EmitsExpr L env start f e lines f' →
    Reserved layouts nesting.path next f e.areas →
    Accounts layouts lines (e.accesses nesting next)
  | .integer _, _ | .real _, _ | .text _ _, _ | .boolean _, _ => accounts_line rfl
  | .place h, _ => h.accounts hlaid next
  | .plus h _ _, hres => h.accounts hlaid hres
  | .unary h _ _ _, hres => (h.accounts hlaid hres).snoc rfl
  | .binary hl hr _ _ _, hres => by
    rw [Expr.areas] at hres
    rw [Expr.accesses]
    have hright := hres.right
    rw [← hl.cells] at hright
    exact ((hl.accounts hlaid hres.left).append (hr.accounts hlaid hright)).snoc rfl
  | @EmitsExpr.spill _ _ _ _ _ t field k n _ offset h hplace hoffset hle, hres => by
    obtain ⟨hpart, hareas⟩ := @EmitsExpr.areas_member _ _ _ _ _ _ k _ field n h hplace
    rw [hareas] at hres
    rw [Expr.accesses, hpart]
    -- the temporary stands behind those of the value that it keeps
    have htemporary := hres.right.head
    rw [← h.cells] at htemporary
    have hstored := (h.accounts hlaid hres.left).append (hlaid.storesOwn htemporary)
    have hloaded := hstored.append (hlaid.loadsOwn htemporary hle)
    simpa [hoffset] using hloaded
  | @EmitsExpr.assign _ _ _ _ _ x _ e _ _ slot hx h hty _, hres => by
    rw [Expr.areas] at hres
    rw [Expr.accesses, hty]
    have hwhole : 0 + slot.ty.size ≤ slot.ty.size := by omega
    exact ((h.accounts hlaid hres).append (hlaid.stores hx hwhole)).append (hlaid.loads hx hwhole)
  | .cond hc ht he _ _ _, hres => by
    rw [Expr.areas] at hres
    rw [Expr.accesses, List.append_assoc]
    have hthen := hres.left.right
    have helse := hres.last
    rw [← hc.cells] at hthen
    rw [← hc.cells, ← ht.cells] at helse
    exact (hc.accounts hlaid hres.left.left).append
      ((ht.accounts hlaid hthen).choose (he.accounts hlaid helse))
  | .construct _ _ h _, hres => h.accounts hlaid hres
  | .call _ _ (.mk _ _ _ _ h), hres => ((h.accounts hlaid hres).cons rfl).snoc rfl

theorem EmitsExprs.accounts (hlaid : Laid layouts context nesting env) {start f f' next : Nat}
    {es : List Expr} {lines : List Line} : EmitsExprs L env start f es lines f' →
    Reserved layouts nesting.path next f (Expr.areasList es) →
    Accounts layouts lines (Expr.accessesList nesting next es)
  | .nil, _ => accounts_nil
  | .cons h hs, hres => by
    rw [Expr.areasList] at hres
    have hrest := hres.right
    rw [← h.cells] at hrest
    exact (h.accounts hlaid hres.left).append (hs.accounts hlaid hrest)

end

end Expressions

/-! ### Statements and functions -/

section Bindings

variable {L : Listing} {layouts : Table Layout} {context : Context} {nesting : Nesting}
  {env env' : Env} {start f f' next : Nat} {lines : List Line}

theorem EmitsExpr.accounts_binding {x : String} {e : Expr}
    (h : EmitsExpr L env start (f + e.ty.size) e lines f')
    (hlaid : Laid layouts context nesting env)
    (hres : Reserved layouts nesting.path next f (Area.binding x e)) :
    Accounts layouts (lines ++ env.stores 0 f e.ty.size) (nesting.binding next x e) ∧
      Laid layouts context (nesting.bind x next) (env.bind x f e.ty) := by
  rw [Area.binding] at hres
  exact ⟨(h.accounts hlaid hres.tail).append (hlaid.storesOwn hres.head), hlaid.bind hres.head⟩

theorem EmitsBindings.accounts {locals : List (String × Expr)}
    (h : EmitsBindings L env start f locals lines env' f')
    (hlaid : Laid layouts context nesting env)
    (hres : Reserved layouts nesting.path next f (Area.bindings locals)) :
    Accounts layouts lines (nesting.bindings next locals) ∧
      Laid layouts context (nesting.behind next locals) env' := by
  induction h generalizing nesting next with
  | nil => exact ⟨accounts_nil, hlaid⟩
  | @cons env env' start f f₁ f₂ x e es a b h hs ih =>
    rw [Area.bindings, List.flatMap_cons] at hres
    have hcells : f + Area.total (Area.binding x e) = f₁ := by
      rw [Area.binding, Area.total_cons, ← Nat.add_assoc, ← h.cells]
    have hrest := hres.right
    rw [hcells] at hrest
    obtain ⟨hfirst, hlaid⟩ := h.accounts_binding hlaid hres.left
    obtain ⟨hothers, hlaid⟩ := ih hlaid hrest
    exact ⟨hfirst.append hothers, hlaid⟩

end Bindings

/-- The table has the layouts of these functions. -/
def Describes (layouts : Table Layout) (context : Context)
    (definitions : List (String × List String × Body)) : Prop :=
  ∀ name params body, (name, params, body) ∈ definitions →
    layouts.get? name = some (.ofFunction (params.zip (context.parameters name)) body)

theorem Describes.sub {layouts : Table Layout} {context : Context}
    {definitions others : List (String × List String × Body)}
    (h : Describes layouts context definitions) (hsub : others ⊆ definitions) :
    Describes layouts context others :=
  fun name params body hd => h name params body (hsub hd)

theorem accesses_of_definition? {s : Stmt} {name : String} {params : List String} {body : Body}
    (h : s.definition? = some (name, params, body)) (nesting : Nesting) (next : Nat) :
    s.accesses nesting next = body.accesses (nesting.enter name params) params.length := by
  cases s <;> cases h <;> rfl

theorem accesses_expr {e : Expr} (h : ∀ t v vn, e ≠ .assign t v vn) (n : Note)
    (nesting : Nesting) (next : Nat) :
    (Stmt.expr e n).accesses nesting next = e.accesses nesting next := by
  cases e
  case assign t v vn => exact absurd rfl (h t v vn)
  all_goals rfl

@[simp] theorem Nesting.bindAll_path (params : List String) (nesting : Nesting) (next : Nat) :
    (nesting.bindAll next params).path = nesting.path := by
  induction params generalizing nesting next with
  | nil => rfl
  | cons name params ih => exact ih _ _

theorem Nesting.after_path (nesting : Nesting) (next : Nat) (s : Stmt) :
    (nesting.after next s).path = nesting.path := by
  cases s <;> rfl

theorem Nesting.behind_path (locals : List (String × Expr)) (nesting : Nesting) (next : Nat) :
    (nesting.behind next locals).path = nesting.path := by
  induction locals generalizing nesting next with
  | nil => rfl
  | cons binding locals ih => exact ih _ _

section Statements

variable {L : Listing} {layouts : Table Layout} {context : Context}

mutual

theorem EmitsStmt.accounts {ret : Ty} {nesting : Nesting} {env env' : Env}
    {start f f' next : Nat} {s : Stmt} {lines : List Line} {slots : List (Nat × Nat)}
    (hlaid : Laid layouts context nesting env) :
    EmitsStmt L ret env start f s lines env' f' slots →
    Describes layouts context s.definitions → Reserved layouts nesting.path next f s.areas →
    Accounts layouts lines (s.accesses nesting next) ∧
      Laid layouts context (nesting.after next s) env'
  | .expr hassign h, _, hres => by
    rw [accesses_expr hassign]
    refine ⟨?_, hlaid⟩
    split
    · simpa using h.accounts hlaid hres
    · exact (h.accounts hlaid hres).snoc rfl
  | @EmitsStmt.assign _ _ _ _ _ _ x _ e _ _ _ slot hx h hty, _, hres => by
    rw [Stmt.accesses, hty]
    have hwhole : 0 + slot.ty.size ≤ slot.ty.size := by omega
    exact ⟨(h.accounts hlaid hres).append (hlaid.stores hx hwhole), hlaid⟩
  | .declare, _, _ | .record, _, _ | .comment, _, _ => ⟨accounts_nil, hlaid⟩
  | .ret h _, _, hres => ⟨(h.accounts hlaid hres).snoc rfl, hlaid⟩
  | @EmitsStmt.define _ _ _ _ _ s _ _ _ _ hs h, hdefs, _ => by
    rw [accesses_of_definition? hs]
    rw [Stmt.definitions_of_definition? hs] at hdefs
    refine ⟨(h.accounts hlaid hdefs).cons rfl, ?_⟩
    cases s <;> cases hs <;> exact hlaid
  | .loop hc _ hb, hdefs, hres => by
    rw [Stmt.areas] at hres
    have hbody := hres.right
    rw [← hc.cells] at hbody
    exact ⟨(((hc.accounts hlaid hres.left).snoc rfl).append
      (hb.accounts (hlaid.hoist _) hdefs hbody)).snoc rfl, hlaid⟩
  | .branch hc _ ht he, hdefs, hres => by
    rw [Stmt.areas] at hres
    rw [Stmt.accesses, List.append_assoc]
    rw [Stmt.definitions] at hdefs
    have hthen := hres.left.right
    have helse := hres.last
    rw [← hc.cells] at hthen
    rw [← hc.cells, ← ht.cells] at helse
    have hthenCode := ht.accounts (hlaid.hoist _) (hdefs.sub (List.subset_append_left _ _)) hthen
    have helseCode := he.accounts (hlaid.hoist _) (hdefs.sub (List.subset_append_right _ _)) helse
    exact ⟨(hc.accounts hlaid hres.left.left).append (hthenCode.choose helseCode), hlaid⟩
  | .bind h, _, hres => h.accounts_binding hlaid hres
  | .block h, hdefs, hres => ⟨h.accounts (hlaid.hoist _) hdefs hres, hlaid⟩

theorem EmitsStmts.accounts {ret : Ty} {nesting : Nesting} {env env' : Env}
    {start f f' next : Nat} {ss : List Stmt} {lines : List Line} {slots : List (Nat × Nat)}
    (hlaid : Laid layouts context nesting env) :
    EmitsStmts L ret env start f ss lines env' f' slots →
    Describes layouts context (Stmt.definitionsList ss) →
    Reserved layouts nesting.path next f (Stmt.areasList ss) →
    Accounts layouts lines (Stmt.accessesList nesting next ss)
  | .nil, _, _ => accounts_nil
  | .cons (s := s) h hs, hdefs, hres => by
    rw [Stmt.areasList] at hres
    rw [Stmt.definitionsList] at hdefs
    have hrest := hres.right
    rw [← h.cells, ← Nesting.after_path nesting next s] at hrest
    obtain ⟨hfirst, hlaid⟩ := h.accounts hlaid (hdefs.sub (List.subset_append_left _ _)) hres.left
    exact hfirst.append (hs.accounts hlaid (hdefs.sub (List.subset_append_right _ _)) hrest)

theorem EmitsBody.accounts {ret : Ty} {nesting : Nesting} {env : Env} {start f f' next : Nat}
    {body : Body} {lines : List Line} {closing : Bool}
    (hlaid : Laid layouts context nesting env) :
    EmitsBody L ret env start f body lines f' closing →
    Describes layouts context body.definitions →
    Reserved layouts nesting.path next f body.areas →
    Accounts layouts lines (body.accesses nesting next)
  | .value hlocals hvalue _, _, hres => by
    rw [Body.areas] at hres
    obtain ⟨hcode, hlaid'⟩ := hlocals.accounts hlaid hres.left
    have hrest := hres.right
    rw [← hlocals.cells, ← Nesting.behind_path] at hrest
    exact hcode.append (hvalue.accounts hlaid' hrest)
  | .block hlocals h, hdefs, hres => by
    rw [Body.areas] at hres
    obtain ⟨hcode, hlaid'⟩ := hlocals.accounts hlaid hres.left
    have hrest := hres.right
    rw [← hlocals.cells, ← Nesting.behind_path] at hrest
    exact hcode.append (h.accounts (hlaid'.hoist _) hdefs hrest)

theorem EmitsFunction.accounts {nesting : Nesting} {env : Env} {start : Nat} {name : String}
    {params : List String} {body : Body} {lines : List Line}
    (hlaid : Laid layouts context nesting env) :
    EmitsFunction L env start name params body lines →
    Describes layouts context ((name, params, body) :: body.definitions) →
    Accounts layouts lines (body.accesses (nesting.enter name params) params.length)
  | @EmitsFunction.mk _ _ _ _ _ _ types _ _ _ _ _ hf hlen _ h, hdefs => by
    rw [hlaid.context_eq] at hf
    have hget := hdefs name params body List.mem_cons_self
    rw [Context.parameters, hf] at hget
    -- the frame starts anew: its areas do not depend on where the function stands
    have hframe : Reserved layouts (name :: nesting.path) 0 headerSize
        (Layout.ofFunction (params.zip types) body).areas :=
      ⟨name, _, [], [], rfl, hget, by simp, rfl, rfl⟩
    have hinner := (hlaid.inside name).withParams hlen hframe.left
    have hlocals := hframe.right
    rw [Layout.total_params body hlen, Nat.zero_add, Layout.length_params body hlen] at hlocals
    refine ((h.accounts hinner (hdefs.sub (List.subset_cons_self _ _)) ?_).cons rfl).snoc rfl
    rw [Nesting.bindAll_path]
    exact hlocals

end

end Statements

section Programs

variable {L : Listing} {layouts : Table Layout} {context : Context}

theorem EmitsTop.accounts {nesting : Nesting} {env : Env} {start : Nat} {program : List Stmt}
    {lines : List Line} (h : EmitsTop L env start program lines)
    (hlaid : Laid layouts context nesting env)
    (hdefs : Describes layouts context (Stmt.definitionsList program)) (next : Nat) :
    Accounts layouts lines (Stmt.accessesList nesting next program) := by
  induction h generalizing next with
  | nil => exact accounts_nil
  | @skip _ s _ _ hsilent _ ih =>
    have hrest := ih (hdefs.sub (List.subset_append_right _ _)) (next + s.areas.length)
    cases s <;> simp only [Stmt.isSilent, Bool.false_eq_true] at hsilent <;> exact hrest
  | @define _ s _ _ _ _ _ _ hs h _ ih =>
    have hrest := ih (hdefs.sub (List.subset_append_right _ _)) (next + s.areas.length)
    rw [Stmt.definitionsList, Stmt.definitions_of_definition? hs] at hdefs
    have hfirst := h.accounts hlaid (hdefs.sub (List.subset_append_left _ _))
    rw [← accesses_of_definition? hs nesting next] at hfirst
    cases s <;> cases hs <;> exact hfirst.append hrest

theorem EmitsProgram.accounts {program : Program} (h : EmitsProgram L context program)
    (hdefs : Describes layouts context (Stmt.definitionsList program)) :
    Accounts layouts L.lines program.accesses := by
  obtain ⟨rfl, htop, hcall, hlines⟩ := h
  have hlaid : Laid layouts context {} { context } := ⟨rfl, rfl, nofun⟩
  have hfunctions := htop.accounts (hlaid.hoist program) hdefs 0
  cases hcall with
  | mk _ _ _ _ hargs =>
    cases hargs
    rw [hlines, ← List.append_nil program.accesses]
    exact (hfunctions.cons rfl).append ((accounts_nil.cons rfl).snoc rfl)

end Programs

end Codegen

/-! ### Frames of compiled programs -/

namespace Access

variable {layouts : Table Layout} {a : Access}

theorem Fits.covers (h : a.Fits layouts) : ∃ layout area, a.layout? layouts = some layout ∧
    layout.areas[a.area]? = some area ∧ area.purpose = a.purpose ∧
    ∀ cell ∈ a.cells layouts, layout.Covers a.area cell := by
  obtain ⟨layout, area, hlayout, harea, hpurpose, hsize⟩ := h
  refine ⟨layout, area, hlayout, harea, hpurpose, ?_⟩
  intro cell hcell
  rw [cells, hlayout] at hcell
  obtain ⟨i, hi, rfl⟩ := List.mem_map.mp hcell
  rw [List.mem_range] at hi
  refine ⟨area, harea, ?_, ?_⟩ <;> omega

theorem mem_lines {l : Line} (h : l ∈ a.lines layouts) :
    ∃ cell ∈ a.cells layouts, l = a.line cell := by
  rw [lines] at h
  split at h
  · obtain ⟨cell, hcell, rfl⟩ := List.mem_map.mp h
    exact ⟨cell, List.mem_reverse.mp hcell, rfl⟩
  · obtain ⟨cell, hcell, rfl⟩ := List.mem_map.mp h
    exact ⟨cell, hcell, rfl⟩

end Access

theorem Codegen.Accounts.bounds {layouts : Table Layout} {lines : List Line}
    {accesses : List Access} (h : Accounts layouts lines accesses) {l : Line} (hl : l ∈ lines)
    (htransfer : l.isTransfer = true) : ∃ name layout, ∃ cell : Nat,
      l.owner[l.instruction.level]? = some name ∧ layouts.get? name = some layout ∧
      l.instruction.operand = Int64.ofInt cell ∧ headerSize ≤ cell ∧ cell < layout.size ∧
      (layout.size ≤ 2 ^ 63 → l.instruction.operand.toInt = cell) := by
  have hmem : l ∈ accesses.flatMap (Access.lines layouts) := by
    rw [← h.lines]
    exact List.mem_filter.mpr ⟨hl, htransfer⟩
  obtain ⟨a, ha, hla⟩ := List.mem_flatMap.mp hmem
  obtain ⟨cell, hcell, rfl⟩ := Access.mem_lines hla
  obtain ⟨layout, area, hlayout, -, -, hcovers⟩ := (h.fits a ha).covers
  obtain ⟨name, hname, hget⟩ := Option.bind_eq_some_iff.mp hlayout
  obtain ⟨hlow, hhigh⟩ := (hcovers cell hcell).bounds
  refine ⟨name, layout, cell, hname, hget, rfl, hlow, hhigh, ?_⟩
  intro hsize
  exact Cell.toInt_ofInt (by omega) (by omega)

theorem Program.layouts_describes {typed : Program} {Δ : Context}
    (h : (Stmt.definesList typed).Nodup) :
    Describes (typed.layouts Δ) Δ (Stmt.definitionsList typed) := by
  intro name params body hd
  apply Table.get?_of_mem
  · rw [layouts, List.map_map]
    rwa [← Stmt.map_definitionsList] at h
  · exact List.mem_map.mpr ⟨_, hd, rfl⟩

/-- The areas of a function tile its frame between the header and the end of what it makes room
for. The loads and stores of the code are those of the accesses, each inside the area of what it is
for; none is to the header or behind the end of a frame. -/
theorem Program.listing_layouts {program typed : Program} {Δ : Context} {L : Listing}
    (hcheck : program.check .empty = .ok (typed, Δ)) (hlisting : typed.listing Δ = .ok L) :
    (∀ name params body, (name, params, body) ∈ Stmt.definitionsList typed →
      ∃ types variadic ret entry outer, ∃ locals : Nat,
        Δ.function? name = some (.function types variadic ret) ∧ params.length = types.length ∧
        L.functions.get? name = some entry ∧
        L.lines[entry]? = some ⟨name :: outer, ⟨.ini, 0, Int64.ofInt locals⟩, false⟩ ∧
        (typed.layouts Δ).get? name = some (.ofFunction (params.zip types) body) ∧
        ∀ cell, headerSize ≤ cell ∧ cell < headerSize + cellsOf types + locals ↔
          ∃! i, (Layout.ofFunction (params.zip types) body).Covers i cell) ∧
    L.lines.filter Line.isTransfer = typed.accesses.flatMap (Access.lines (typed.layouts Δ)) ∧
    (∀ a ∈ typed.accesses, ∃ layout area, a.layout? (typed.layouts Δ) = some layout ∧
      layout.areas[a.area]? = some area ∧ area.purpose = a.purpose ∧
      ∀ cell ∈ a.cells (typed.layouts Δ), layout.Covers a.area cell) ∧
    ∀ l ∈ L.lines, l.isTransfer = true → ∃ name layout, ∃ cell : Nat,
      l.owner[l.instruction.level]? = some name ∧ (typed.layouts Δ).get? name = some layout ∧
      l.instruction.operand = Int64.ofInt cell ∧ headerSize ≤ cell ∧ cell < layout.size ∧
      (layout.size ≤ 2 ^ 63 → l.instruction.operand.toInt = cell) := by
  have htyped := Program.check_eq_ok_iff.mp hcheck
  have hemits := Program.listing_emits htyped hlisting
  have hdescribes : Describes (typed.layouts Δ) Δ (Stmt.definitionsList typed) :=
    Program.layouts_describes htyped.defines_nodup
  have haccounts := hemits.accounts hdescribes
  refine ⟨?_, haccounts.lines, fun a ha => (haccounts.fits a ha).covers,
    fun l hl htransfer => haccounts.bounds hl htransfer⟩
  intro name params body hd
  obtain ⟨types, variadic, ret, entry, outer, hf, hlen, hentry, hini⟩ := (hemits.defines hd).frame
  have hlayout := hdescribes name params body hd
  rw [Context.parameters, hf] at hlayout
  refine ⟨types, variadic, ret, entry, outer, _, hf, hlen, hentry, hini, hlayout, ?_⟩
  intro cell
  rw [← Layout.size_ofFunction body hlen]
  exact Layout.tiles _ cell

/-- A function inside `main` has a parameter, a binding before its value and a temporary, and reads
a variable of `main`. -/
def pairSource : Program :=
  let note : Note := ⟨.point 0, .unknown⟩
  [.record "pair" [("a", .i64), ("b", .i64)] note,
    .declare "main" (.function [] false .i64) note,
    .defineBlock "main" [] []
      [.bind "x" (.integer 2 note) note,
        .declare "second" (.function [.i64] false .i64) note,
        .define "second" ["n"] [("p", .call "pair" [.name "n" note, .name "x" note] note)]
          (.member
            (.call "pair"
              [.member (.name "p" note) (.name "b" note) none note, .name "x" note] note)
            (.name "b" note) none note) note,
        .ret (.call "second" [.integer 3 note] note) note] note]

theorem pairSource_accesses : (match pairSource.check .empty with
    | .ok (typed, Δ) => match typed.listing Δ with
      | .ok _ =>
        decide (typed.layouts Δ =
          [("main", ⟨[], [⟨.named "x", 1⟩]⟩),
            ("second", ⟨[⟨.named "n", 1⟩], [⟨.named "p", 2⟩, ⟨.temporary, 2⟩]⟩)]) &&
        decide (typed.accesses =
          [⟨["main"], true, 0, 0, .named "x", 0, 1⟩,
            ⟨["second", "main"], false, 0, 0, .named "n", 0, 1⟩,
            ⟨["second", "main"], false, 1, 0, .named "x", 0, 1⟩,
            ⟨["second", "main"], true, 0, 1, .named "p", 0, 2⟩,
            ⟨["second", "main"], false, 0, 1, .named "p", 1, 1⟩,
            ⟨["second", "main"], false, 1, 0, .named "x", 0, 1⟩,
            ⟨["second", "main"], true, 0, 2, .temporary, 0, 2⟩,
            ⟨["second", "main"], false, 0, 2, .temporary, 1, 1⟩])
      | .error _ => false
    | .error _ => false) = true := by
  decide +kernel

theorem Program.listing_layouts_pair : ∃ (typed : Program) (Δ : Context) (L : Listing),
    pairSource.check .empty = .ok (typed, Δ) ∧ typed.listing Δ = .ok L ∧
    (typed.layouts Δ).get? "second"
      = some ⟨[⟨.named "n", 1⟩], [⟨.named "p", 2⟩, ⟨.temporary, 2⟩]⟩ ∧
    (L.lines.filter Line.isTransfer).map Line.instruction =
      [⟨.sto, 0, 3⟩, ⟨.lod, 0, 3⟩, ⟨.lod, 1, 3⟩, ⟨.sto, 0, 5⟩, ⟨.sto, 0, 4⟩, ⟨.lod, 0, 5⟩,
        ⟨.lod, 1, 3⟩, ⟨.sto, 0, 7⟩, ⟨.sto, 0, 6⟩, ⟨.lod, 0, 7⟩] := by
  have h := pairSource_accesses
  split at h
  · rename_i typed Δ hcheck
    split at h
    · rename_i L hlisting
      simp only [Bool.and_eq_true, decide_eq_true_eq] at h
      obtain ⟨hlayouts, haccesses⟩ := h
      obtain ⟨-, hlines, -⟩ := Program.listing_layouts hcheck hlisting
      refine ⟨typed, Δ, L, hcheck, hlisting, by rw [hlayouts]; rfl, ?_⟩
      rw [hlines, hlayouts, haccesses]
      decide
    · cases h
  · cases h

end PCode
