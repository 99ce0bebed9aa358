import PCode.Proofs.Codegen.Owners
import Mathlib.Logic.ExistsUnique

namespace PCode

open Codegen

variable {params : List String}

/-- What an area of a frame is for. -/
inductive Purpose where
  | named (name : String)
  | temporary
deriving DecidableEq

/-- Cells of a frame that belong together. -/
structure Area where
  purpose : Purpose
  size : Nat
deriving DecidableEq

/-- The number of cells of some areas. -/
def Area.total (areas : List Area) : Nat :=
  (areas.map Area.size).sum

/-- The areas of a frame: those of the parameters, which the caller fills, and those of the body,
which the function makes room for. -/
structure Layout where
  params : List Area
  locals : List Area
deriving DecidableEq

namespace Layout

def areas (layout : Layout) : List Area :=
  layout.params ++ layout.locals

/-- The first cell of an area. -/
def offset (layout : Layout) (index : Nat) : Nat :=
  headerSize + Area.total (layout.areas.take index)

/-- The number of cells of a frame with its header. -/
def size (layout : Layout) : Nat :=
  headerSize + Area.total layout.areas

/-- A cell of the frame belongs to the area of an index. -/
def Covers (layout : Layout) (index cell : Nat) : Prop :=
  ∃ area, layout.areas[index]? = some area ∧
    layout.offset index ≤ cell ∧ cell < layout.offset index + area.size

end Layout

/-! ### Areas in a row -/

namespace Area

variable {areas others : List Area} {area : Area} {i j : Nat}

@[simp] theorem total_nil : total [] = 0 := rfl

@[simp] theorem total_cons : total (area :: areas) = area.size + total areas := by
  simp [total]

@[simp] theorem total_append : total (areas ++ others) = total areas + total others := by
  simp [total]

theorem total_take_succ (h : areas[i]? = some area) :
    total (areas.take (i + 1)) = total (areas.take i) + area.size := by
  simp [List.take_add_one, h]

theorem total_take_le (h : i ≤ j) : total (areas.take i) ≤ total (areas.take j) := by
  obtain ⟨rest, hrest⟩ : areas.take i <+: areas.take j :=
    List.take_prefix_take_left h
  rw [← hrest, total_append]
  exact Nat.le_add_right _ _

theorem total_take_add_le (h : areas[i]? = some area) (hlt : i < j) :
    total (areas.take i) + area.size ≤ total (areas.take j) := by
  rw [← total_take_succ h]
  exact total_take_le hlt

theorem exists_of_lt_total {cell : Nat} (h : cell < total areas) :
    ∃ i area, areas[i]? = some area ∧ total (areas.take i) ≤ cell ∧
      cell < total (areas.take i) + area.size := by
  induction areas generalizing cell with
  | nil => exact absurd h (Nat.not_lt_zero _)
  | cons first rest ih =>
    by_cases hcell : cell < first.size
    · exact ⟨0, first, rfl, Nat.zero_le _, by simpa using hcell⟩
    · rw [total_cons] at h
      obtain ⟨i, area, hget, hlow, hhigh⟩ := ih (show cell - first.size < total rest by omega)
      refine ⟨i + 1, area, hget, ?_, ?_⟩ <;> rw [List.take_succ_cons, total_cons] <;> omega

end Area

namespace Layout

variable {layout : Layout} {i j cell : Nat}

theorem Covers.bounds (h : layout.Covers i cell) : headerSize ≤ cell ∧ cell < layout.size := by
  obtain ⟨area, hget, hlow, hhigh⟩ := h
  have hlt := (List.getElem?_eq_some_iff.mp hget).1
  have hend := Area.total_take_add_le hget hlt
  rw [List.take_length] at hend
  rw [offset] at hlow hhigh
  rw [size]
  omega

theorem Covers.unique (hi : layout.Covers i cell) (hj : layout.Covers j cell) : i = j := by
  obtain ⟨area, hgeti, hlowi, hhighi⟩ := hi
  obtain ⟨other, hgetj, hlowj, hhighj⟩ := hj
  rw [offset] at hlowi hhighi hlowj hhighj
  rcases Nat.lt_trichotomy i j with hlt | heq | hlt
  · have := Area.total_take_add_le hgeti hlt
    omega
  · exact heq
  · have := Area.total_take_add_le hgetj hlt
    omega

theorem tiles (layout : Layout) (cell : Nat) :
    headerSize ≤ cell ∧ cell < layout.size ↔ ∃! i, layout.Covers i cell := by
  constructor
  · rintro ⟨hlow, hhigh⟩
    rw [size] at hhigh
    obtain ⟨i, area, hget, hfirst, hlast⟩ :=
      Area.exists_of_lt_total (show cell - headerSize < Area.total layout.areas by omega)
    have hcovers : layout.Covers i cell := by
      refine ⟨area, hget, ?_, ?_⟩ <;> rw [offset] <;> omega
    exact ⟨i, hcovers, fun j hj => hj.unique hcovers⟩
  · rintro ⟨i, hcovers, -⟩
    exact hcovers.bounds

end Layout

/-! ### The areas of a function -/

/-- The variable that an expression is a part of, and the first cell of that part in it. -/
def Expr.part? : Expr → Option (String × Nat)
  | .name x _ => some (x, 0)
  | .member target _ (some ordinal) _ => do
    let (x, first) ← target.part?
    let offset ← target.ty.memberOffset? ordinal
    some (x, first + offset)
  | _ => none

mutual

/-- The temporaries of an expression. A member that is no part of a variable is taken of a value
that is kept in one. -/
def Expr.areas : Expr → List Area
  | .unary _ operand _ => operand.areas
  | .binary _ left right _ => left.areas ++ right.areas
  | .member target field ordinal note =>
    if (Expr.member target field ordinal note).part?.isSome then []
    else target.areas ++ [⟨.temporary, target.ty.size⟩]
  | .assign _ value _ => value.areas
  | .cond test thenValue elseValue _ => test.areas ++ thenValue.areas ++ elseValue.areas
  | .call _ args _ => Expr.areasList args
  | _ => []

def Expr.areasList : List Expr → List Area
  | [] => []
  | e :: es => e.areas ++ Expr.areasList es

end

/-- A variable stands in front of the temporaries of its value. -/
def Area.binding (name : String) (value : Expr) : List Area :=
  ⟨.named name, value.ty.size⟩ :: value.areas

mutual

/-- The areas that a statement needs in the frame of the function around it. A function that it
defines has a frame of its own. -/
def Stmt.areas : Stmt → List Area
  | .expr value _ | .ret value _ => value.areas
  | .loop test body _ => test.areas ++ Stmt.areasList body
  | .branch test thenBody elseBody _ =>
    test.areas ++ Stmt.areasList thenBody ++ Stmt.areasList elseBody
  | .bind name value _ => Area.binding name value
  | .block body _ => Stmt.areasList body
  | _ => []

def Stmt.areasList : List Stmt → List Area
  | [] => []
  | s :: ss => s.areas ++ Stmt.areasList ss

end

/-- The areas that bindings need. -/
def Area.bindings (locals : List (String × Expr)) : List Area :=
  locals.flatMap fun (name, value) => Area.binding name value

def Body.areas : Body → List Area
  | .value locals result => Area.bindings locals ++ result.areas
  | .block locals body => Area.bindings locals ++ Stmt.areasList body

/-- The layout of the frame of a function. -/
def Layout.ofFunction (params : List (String × Ty)) (body : Body) : Layout :=
  ⟨params.map fun (name, ty) => ⟨.named name, ty.size⟩, body.areas⟩

theorem Layout.total_params {types : List Ty} (body : Body) (h : params.length = types.length) :
    Area.total (Layout.ofFunction (params.zip types) body).params = cellsOf types := by
  have hsizes : (params.zip types).map (Ty.size ∘ Prod.snd) = types.map Ty.size := by
    rw [← List.map_map, List.map_snd_zip (Nat.le_of_eq h.symm)]
  simp [Layout.ofFunction, Area.total, cellsOf, ← hsizes, Function.comp_def]

theorem Layout.length_params {types : List Ty} (body : Body) (h : params.length = types.length) :
    (Layout.ofFunction (params.zip types) body).params.length = params.length := by
  simp [Layout.ofFunction, h]

theorem Layout.size_ofFunction {types : List Ty} (body : Body) (h : params.length = types.length) :
    (Layout.ofFunction (params.zip types) body).size
      = headerSize + cellsOf types + Area.total body.areas := by
  rw [Layout.size, Layout.areas, Area.total_append, Layout.total_params body h, Nat.add_assoc]
  rfl

namespace Stmt

mutual

/-- The functions that a statement defines with their parameters and bodies, itself first, at any
depth. -/
def definitions : Stmt → List (String × List String × Body)
  | .define name params locals value _ => [(name, params, .value locals value)]
  | .defineBlock name params locals body _ =>
    (name, params, .block locals body) :: definitionsList body
  | .loop _ body _ => definitionsList body
  | .branch _ t e _ => definitionsList t ++ definitionsList e
  | .block body _ => definitionsList body
  | _ => []

def definitionsList : List Stmt → List (String × List String × Body)
  | [] => []
  | s :: ss => definitions s ++ definitionsList ss

end

mutual

theorem map_definitions : ∀ s : Stmt, s.definitions.map Prod.fst = s.defines
  | .expr .. | .declare .. | .record .. | .comment .. | .ret .. | .define .. | .bind .. => rfl
  | .defineBlock _ _ _ body _ => by
    rw [definitions, List.map_cons, map_definitionsList body, defines]
  | .loop _ body _ => by rw [definitions, map_definitionsList body, defines]
  | .branch _ t e _ => by
    rw [definitions, List.map_append, map_definitionsList t, map_definitionsList e, defines]
  | .block body _ => by rw [definitions, map_definitionsList body, defines]

theorem map_definitionsList : ∀ ss : List Stmt, (definitionsList ss).map Prod.fst = definesList ss
  | [] => rfl
  | s :: ss => by
    rw [definitionsList, List.map_append, map_definitions s, map_definitionsList ss, definesList]

end

end Stmt

/-- The functions that a body defines. -/
def Body.definitions : Body → List (String × List String × Body)
  | .value .. => []
  | .block _ body => Stmt.definitionsList body

theorem Stmt.definitions_of_definition? {s : Stmt} {name : String} {body : Body}
    (h : s.definition? = some (name, params, body)) :
    s.definitions = (name, params, body) :: body.definitions := by
  cases s <;> cases h <;> rfl

theorem Stmt.definitions_of_isSilent {s : Stmt} (h : s.isSilent = true) : s.definitions = [] := by
  cases s <;> simp [isSilent] at h <;> rfl

theorem Stmt.areas_of_definition? {s : Stmt} {name : String} {body : Body}
    (h : s.definition? = some (name, params, body)) : s.areas = [] := by
  cases s <;> cases h <;> rfl

namespace Codegen

variable {L : Listing} {env : Env} {start : Nat} {lines : List Line}

/-! ### The cells that code generation gives out -/

theorem EmitsPlace.place? {env : Env} {e : Expr} {slot : Slot} (h : EmitsPlace env e slot) :
    place? env e = some slot := by
  induction h with
  | name hget _ => exact hget
  | member _ hoffset _ ih => simp [Codegen.place?, ih, hoffset]

theorem EmitsPlace.part? {e : Expr} {slot : Slot} (h : EmitsPlace env e slot) :
    ∃ x first home, e.part? = some (x, first) ∧ env.vars.get? x = some home ∧
      slot.level = home.level ∧ slot.offset = home.offset + first ∧
      first + slot.ty.size ≤ home.ty.size := by
  induction h with
  | @name x n slot hget hty => exact ⟨x, 0, slot, rfl, hget, rfl, rfl, by omega⟩
  | @member t field k n slot offset ht hoffset hle ih =>
    obtain ⟨x, first, home, hpart, hget, hlevel, hslot, hsize⟩ := ih
    rw [ht.ty] at hle
    refine ⟨x, first + offset, home, by simp [Expr.part?, hpart, hoffset], hget, hlevel, ?_, ?_⟩ <;>
      dsimp only <;> omega

theorem EmitsExpr.part?_eq_none {env : Env} {start f f' : Nat} {e : Expr} {lines : List Line}
    (h : EmitsExpr L env start f e lines f') (hplace : place? env e = none) : e.part? = none := by
  cases e
  case name x n =>
    cases h with
    | place h => rw [h.place?] at hplace; cases hplace
  case member t field ordinal n =>
    cases h with
    | place h => rw [h.place?] at hplace; cases hplace
    | spill h hvalue _ _ => simp [Expr.part?, h.part?_eq_none hvalue]
  all_goals rfl

theorem EmitsExpr.areas_member {f f' k : Nat} {t field : Expr} {n : Note}
    (h : EmitsExpr L env start f t lines f') (hplace : place? env t = none) :
    (Expr.member t field (some k) n).part? = none ∧
      (Expr.member t field (some k) n).areas = t.areas ++ [⟨.temporary, t.ty.size⟩] := by
  have hpart : (Expr.member t field (some k) n).part? = none := by
    simp [Expr.part?, h.part?_eq_none hplace]
  exact ⟨hpart, by simp [Expr.areas, hpart]⟩

theorem EmitsPlace.areas {e : Expr} {slot : Slot} (h : EmitsPlace env e slot) : e.areas = [] := by
  obtain ⟨x, first, home, hpart, -⟩ := h.part?
  cases h with
  | name => rfl
  | member => simp [Expr.areas, hpart]

mutual

theorem EmitsExpr.cells {env : Env} {start f f' : Nat} {e : Expr} {lines : List Line} :
    EmitsExpr L env start f e lines f' → f' = f + Area.total e.areas
  | .integer _ | .real _ | .text _ _ | .boolean _ => rfl
  | .place h => by rw [h.areas]; rfl
  | .plus h _ _ | .unary h _ _ _ => h.cells
  | .binary hl hr _ _ _ => by
    rw [hr.cells, hl.cells, Expr.areas, Area.total_append, Nat.add_assoc]
  | .spill h hplace _ _ => by
    rw [(h.areas_member hplace).2, h.cells]
    simp [Nat.add_assoc]
  | .assign _ h _ _ => h.cells
  | .cond hc ht he _ _ _ => by
    rw [he.cells, ht.cells, hc.cells]
    simp [Expr.areas, Nat.add_assoc]
  | .construct _ _ h _ => h.cells
  | .call _ _ (.mk _ _ _ _ h) => h.cells

theorem EmitsExprs.cells {env : Env} {start f f' : Nat} {es : List Expr} {lines : List Line} :
    EmitsExprs L env start f es lines f' → f' = f + Area.total (Expr.areasList es)
  | .nil => rfl
  | .cons h hs => by
    rw [hs.cells, h.cells, Expr.areasList, Area.total_append, Nat.add_assoc]

end

theorem EmitsBindings.cells {env' : Env} {f f' : Nat} {locals : List (String × Expr)}
    (h : EmitsBindings L env start f locals lines env' f') :
    f' = f + Area.total (Area.bindings locals) := by
  induction h with
  | nil => rfl
  | cons h _ ih =>
    rw [ih, h.cells]
    simp [Area.bindings, Area.binding, Nat.add_assoc]

mutual

theorem EmitsStmt.cells {ret : Ty} {env env' : Env} {start f f' : Nat} {s : Stmt}
    {lines : List Line} {slots : List (Nat × Nat)} :
    EmitsStmt L ret env start f s lines env' f' slots → f' = f + Area.total s.areas
  | .expr _ h | .assign _ h _ | .ret h _ => h.cells
  | .declare | .record | .comment => rfl
  | .define hs _ => by rw [Stmt.areas_of_definition? hs]; rfl
  | .loop hc _ hb => by
    rw [hb.cells, hc.cells]
    simp [Stmt.areas, Nat.add_assoc]
  | .branch hc _ ht he => by
    rw [he.cells, ht.cells, hc.cells]
    simp [Stmt.areas, Nat.add_assoc]
  | .bind h => by
    rw [h.cells]
    simp [Stmt.areas, Area.binding, Nat.add_assoc]
  | .block h => h.cells

theorem EmitsStmts.cells {ret : Ty} {env env' : Env} {start f f' : Nat} {ss : List Stmt}
    {lines : List Line} {slots : List (Nat × Nat)} :
    EmitsStmts L ret env start f ss lines env' f' slots → f' = f + Area.total (Stmt.areasList ss)
  | .nil => rfl
  | .cons h hs => by
    rw [hs.cells, h.cells, Stmt.areasList, Area.total_append, Nat.add_assoc]

end

theorem EmitsBody.cells {ret : Ty} {f f' : Nat} {body : Body} {closing : Bool}
    (h : EmitsBody L ret env start f body lines f' closing) : f' = f + Area.total body.areas := by
  cases h with
  | value hlocals hvalue _ =>
    rw [hvalue.cells, hlocals.cells]
    simp [Body.areas, Nat.add_assoc]
  | block hlocals hbody =>
    rw [hbody.cells, hlocals.cells]
    simp [Body.areas, Nat.add_assoc]

/-! ### The functions of a program -/

/-- The listing has the code of a function. -/
def Listing.Defines (L : Listing) (context : Context) (name : String) (params : List String)
    (body : Body) : Prop :=
  ∃ env start lines, env.context = context ∧ EmitsFunction L env start name params body lines ∧
    L.Holds start lines

theorem EmitsStmt.context_eq {ret : Ty} {env' : Env} {f f' : Nat} {s : Stmt}
    {slots : List (Nat × Nat)} (h : EmitsStmt L ret env start f s lines env' f' slots) :
    env'.context = env.context := by
  rcases h.bind_or with ⟨x, e, n, a, -, -, -, rfl, -⟩ | ⟨-, rfl, -⟩ <;> rfl

theorem EmitsBindings.context_eq {env' : Env} {f f' : Nat} {locals : List (String × Expr)}
    (h : EmitsBindings L env start f locals lines env' f') : env'.context = env.context := by
  induction h with
  | nil => rfl
  | cons _ _ ih => exact ih

mutual

theorem EmitsStmt.defines {ret : Ty} {env env' : Env} {start f f' : Nat} {s : Stmt}
    {lines : List Line} {slots : List (Nat × Nat)} {name : String} {params : List String}
    {body : Body} : EmitsStmt L ret env start f s lines env' f' slots → L.Holds start lines →
    (name, params, body) ∈ s.definitions → L.Defines env.context name params body
  | .expr _ _, _, hd | .assign _ _ _, _, hd | .declare, _, hd | .record, _, hd | .comment, _, hd
  | .ret _ _, _, hd | .bind _, _, hd => absurd hd List.not_mem_nil
  | .define hs h, hholds, hd => by
    rw [Stmt.definitions_of_definition? hs] at hd
    exact h.defines (holds_cons.mp hholds).2 hd
  | .loop _ _ h, hholds, hd => by
    simp only [List.append_assoc, holds_append, List.length_singleton] at hholds
    simpa using h.defines hholds.2.2.1 hd
  | .branch _ _ ht he, hholds, hd => by
    rw [holds_append, holds_chooseLines] at hholds
    obtain ⟨-, -, hthen, -, helse⟩ := hholds
    rw [Stmt.definitions, List.mem_append] at hd
    rcases hd with hd | hd
    · simpa using ht.defines hthen hd
    · simpa using he.defines helse hd
  | .block h, hholds, hd => by simpa using h.defines hholds hd

theorem EmitsStmts.defines {ret : Ty} {env env' : Env} {start f f' : Nat} {ss : List Stmt}
    {lines : List Line} {slots : List (Nat × Nat)} {name : String} {params : List String}
    {body : Body} : EmitsStmts L ret env start f ss lines env' f' slots → L.Holds start lines →
    (name, params, body) ∈ Stmt.definitionsList ss → L.Defines env.context name params body
  | .nil, _, hd => absurd hd List.not_mem_nil
  | .cons h hs, hholds, hd => by
    rw [holds_append] at hholds
    rw [Stmt.definitionsList, List.mem_append] at hd
    rcases hd with hd | hd
    · exact h.defines hholds.1 hd
    · rw [← h.context_eq]
      exact hs.defines hholds.2 hd

theorem EmitsBody.defines {ret : Ty} {env : Env} {start f f' : Nat} {inner : Body}
    {lines : List Line} {closing : Bool} {name : String} {params : List String} {body : Body} :
    EmitsBody L ret env start f inner lines f' closing → L.Holds start lines →
    (name, params, body) ∈ inner.definitions → L.Defines env.context name params body
  | .value _ _ _, _, hd => absurd hd List.not_mem_nil
  | .block hlocals h, hholds, hd => by
    rw [holds_append] at hholds
    rw [← hlocals.context_eq]
    simpa using h.defines hholds.2 hd

theorem EmitsFunction.defines {env : Env} {start : Nat} {name outer : String}
    {params outerParams : List String} {body outerBody : Body} {lines : List Line} :
    EmitsFunction L env start outer outerParams outerBody lines → L.Holds start lines →
    (name, params, body) ∈ (outer, outerParams, outerBody) :: outerBody.definitions →
    L.Defines env.context name params body
  | .mk hf hlen hentry h, hholds, hd => by
    rcases List.mem_cons.mp hd with hd | hd
    · cases hd
      exact ⟨env, start, _, rfl, .mk hf hlen hentry h, hholds⟩
    · rw [holds_append, holds_append] at hholds
      simpa [Env.withParams_context, Env.inside] using h.defines hholds.1.2 hd

end

theorem EmitsTop.defines {program : List Stmt} {name : String} {body : Body}
    (h : EmitsTop L env start program lines) (hholds : L.Holds start lines)
    (hd : (name, params, body) ∈ Stmt.definitionsList program) :
    L.Defines env.context name params body := by
  induction h with
  | nil => exact absurd hd List.not_mem_nil
  | @skip _ s _ _ hsilent _ ih =>
    rw [Stmt.definitionsList, Stmt.definitions_of_isSilent hsilent] at hd
    exact ih hholds hd
  | define hs h _ ih =>
    rw [holds_append] at hholds
    rw [Stmt.definitionsList, List.mem_append, Stmt.definitions_of_definition? hs] at hd
    rcases hd with hd | hd
    · exact h.defines hholds.1 hd
    · exact ih hholds.2 hd

theorem EmitsProgram.defines {context : Context} {program : Program} {name : String} {body : Body}
    (h : EmitsProgram L context program)
    (hd : (name, params, body) ∈ Stmt.definitionsList program) :
    L.Defines context name params body := by
  obtain ⟨rfl, htop, -, hlines⟩ := h
  have hholds : L.Holds 0 L.lines := fun i line hi => by simpa using hi
  rw [hlines, holds_append, holds_append] at hholds
  simpa using htop.defines hholds.1.2 hd

theorem Listing.Defines.frame {context : Context} {name : String} {body : Body}
    (h : L.Defines context name params body) :
    ∃ types variadic ret entry outer,
      context.function? name = some (.function types variadic ret) ∧
      params.length = types.length ∧ L.functions.get? name = some entry ∧
      L.lines[entry]?
        = some ⟨name :: outer, ⟨.ini, 0, Int64.ofInt (Area.total body.areas)⟩, false⟩ := by
  obtain ⟨env, start, lines, rfl, h, hholds⟩ := h
  cases h with
  | mk hf hlen hentry h =>
    rw [holds_append, holds_append, holds_singleton, h.cells, Nat.add_sub_cancel_left] at hholds
    exact ⟨_, _, _, start, env.path, hf, hlen, hentry, hholds.1.1⟩

end Codegen

end PCode
