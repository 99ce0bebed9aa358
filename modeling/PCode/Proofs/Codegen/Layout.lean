import PCode.Proofs.Codegen.Emission
import PCode.Proofs.Typing.Tables

namespace PCode.Codegen

section Holds

variable {L : Listing} {start : Nat} {line : Line} {lines others : List Line}

/-- The listing has these lines from an address on. -/
def Listing.Holds (L : Listing) (start : Nat) (lines : List Line) : Prop :=
  ∀ i line, lines[i]? = some line → L.lines[start + i]? = some line

theorem holds_nil : L.Holds start [] := by
  intro i line h
  simp at h

theorem holds_cons : L.Holds start (line :: lines) ↔
    L.lines[start]? = some line ∧ L.Holds (start + 1) lines := by
  constructor
  · intro h
    refine ⟨h 0 line rfl, ?_⟩
    intro i l hl
    rw [show start + 1 + i = start + (i + 1) by omega]
    exact h (i + 1) l (by simpa using hl)
  · rintro ⟨hhead, htail⟩ i l hl
    cases i with
    | zero =>
      obtain rfl : line = l := by simpa using hl
      exact hhead
    | succ i =>
      rw [show start + (i + 1) = start + 1 + i by omega]
      exact htail i l (by simpa using hl)

theorem holds_append : L.Holds start (lines ++ others) ↔
    L.Holds start lines ∧ L.Holds (start + lines.length) others := by
  induction lines generalizing start with
  | nil => simp [holds_nil]
  | cons line lines ih =>
    rw [List.cons_append, holds_cons, holds_cons, ih, List.length_cons, and_assoc,
      show start + 1 + lines.length = start + (lines.length + 1) by omega]

theorem holds_singleton : L.Holds start [line] ↔ L.lines[start]? = some line := by
  rw [holds_cons]
  exact and_iff_left holds_nil

theorem Listing.Holds.le (h : L.Holds start lines) (hne : lines ≠ []) :
    start + lines.length ≤ L.lines.length := by
  have hlast : lines[lines.length - 1]? = some (lines.getLast hne) := by
    rw [← List.getLast?_eq_getElem?, List.getLast?_eq_some_getLast]
  have hlt := (List.getElem?_eq_some_iff.mp (h _ _ hlast)).1
  have := List.length_pos_iff.mpr hne
  omega

theorem Listing.fetch {pc : Nat} (h : L.lines[pc]? = some line) :
    L.image.code[pc]? = some line.instruction := by
  simp [Listing.image, h]

@[simp] theorem Listing.size_code : L.image.code.size = L.lines.length := by
  simp [Listing.image]

end Holds

section Env

variable {env : Env} {level offset size : Nat}

@[simp] theorem length_loads : (env.loads level offset size).length = size := by
  simp [Env.loads]

@[simp] theorem length_stores : (env.stores level offset size).length = size := by
  simp [Env.stores]

theorem loads_succ : env.loads level offset (size + 1)
    = env.line .lod level (Int64.ofInt offset) :: env.loads level (offset + 1) size := by
  simp only [Env.loads, List.range_succ_eq_map, List.map_cons, List.map_map, Nat.add_zero]
  congr 2
  funext cell
  simp only [Function.comp, Nat.succ_eq_add_one,
    show offset + (cell + 1) = offset + 1 + cell by omega]

theorem stores_succ : env.stores level offset (size + 1)
    = env.line .sto level (Int64.ofInt (offset + size : Nat)) :: env.stores level offset size := by
  simp [Env.stores, List.range_succ]

@[simp] theorem length_chooseLines (start : Nat) (a b : List Line) :
    (chooseLines env start a b).length = a.length + b.length + 2 := by
  simp [chooseLines]
  omega

theorem holds_chooseLines {L : Listing} {start : Nat} {a b : List Line} :
    L.Holds start (chooseLines env start a b) ↔
      L.lines[start]? = some (env.line .jpc 0 (Int64.ofInt (start + 1 + a.length + 1 : Nat))) ∧
      L.Holds (start + 1) a ∧
      L.lines[start + 1 + a.length]?
        = some (env.line .jmp 0 (Int64.ofInt (start + 1 + a.length + 1 + b.length : Nat))) ∧
      L.Holds (start + 1 + a.length + 1) b := by
  simp only [chooseLines, List.append_assoc, holds_append, holds_singleton, List.length_singleton]

end Env

section Hoist

variable {env : Env} {body : List Stmt} {name : String}

theorem hoist_eq (env : Env) (body : List Stmt) :
    ∃ funs, hoist env body = { env with funs } := by
  induction body generalizing env with
  | nil => exact ⟨env.funs, rfl⟩
  | cons s ss ih =>
    cases s
    case define name _ _ _ _ => exact ih { env with funs := env.funs.insert name env.level }
    case defineBlock name _ _ _ _ => exact ih { env with funs := env.funs.insert name env.level }
    all_goals exact ih env

@[simp] theorem hoist_context : (hoist env body).context = env.context := by
  obtain ⟨funs, h⟩ := hoist_eq env body
  rw [h]

@[simp] theorem hoist_vars : (hoist env body).vars = env.vars := by
  obtain ⟨funs, h⟩ := hoist_eq env body
  rw [h]

@[simp] theorem hoist_path : (hoist env body).path = env.path := by
  obtain ⟨funs, h⟩ := hoist_eq env body
  rw [h]

@[simp] theorem hoist_level : (hoist env body).level = env.level := by
  rw [Env.level, hoist_path, Env.level]

theorem hoist_cons (s : Stmt) : hoist env (s :: body) = hoist
    (match s.definition? with
    | some (name, _, _) => { env with funs := env.funs.insert name env.level }
    | none => env) body := by
  cases s <;> rfl

theorem hoist_funs : (hoist env body).funs.get? name =
    if Stmt.isDefinedIn name body then some env.level else env.funs.get? name := by
  induction body generalizing env with
  | nil => rfl
  | cons s body ih =>
    rw [hoist_cons, ih, Stmt.isDefinedIn_cons]
    cases s.definition? with
    | none => simp
    | some definition =>
      obtain ⟨other, params, value⟩ := definition
      simp only [Env.level, Table.get?_insert, Option.any_some, Bool.or_eq_true, beq_iff_eq]
      by_cases hname : other = name
      · simp [hname]
      · simp [hname]

end Hoist

section Forms

theorem EmitsPlace.ty {env : Env} {e : Expr} {slot : Slot} (h : EmitsPlace env e slot) :
    e.ty = slot.ty := by
  cases h with
  | name _ hty => exact hty
  | member => rfl

theorem isUnary_unaryOperator? {op : UnaryOp} {ty : Ty} {operator : Operator}
    (h : unaryOperator? op ty = some operator) : operator.isUnary = true := by
  cases op <;> simp only [unaryOperator?, reduceCtorEq, Option.some.injEq] at h
  case neg =>
    subst h
    by_cases hty : ty = .real <;> simp [hty, Operator.isUnary]
  case not =>
    subst h
    rfl

theorem isUnary_binaryOperator (op : BinaryOp) (ty : Ty) :
    (binaryOperator op ty).isUnary = false := by
  cases op <;> cases ty <;> rfl

theorem arity_unaryOperator? {op : UnaryOp} {ty : Ty} {operator : Operator}
    (h : unaryOperator? op ty = some operator) : operator.arity = 1 := by
  rw [Operator.arity, isUnary_unaryOperator? h]
  rfl

theorem arity_binaryOperator (op : BinaryOp) (ty : Ty) : (binaryOperator op ty).arity = 2 := by
  rw [Operator.arity, isUnary_binaryOperator]
  rfl

theorem cellsOf_cons (τ : Ty) (types : List Ty) :
    cellsOf (τ :: types) = τ.size + cellsOf types := by
  simp [cellsOf]

theorem cellsOf_le {types others : List Ty} (h : types <+: others) :
    cellsOf types ≤ cellsOf others := by
  obtain ⟨rest, rfl⟩ := h
  rw [cellsOf, cellsOf, List.map_append, List.sum_append]
  exact Nat.le_add_right _ _

end Forms

section Room

variable {L : Listing} {ret : Ty} {env env' : Env} {start f f' : Nat} {lines : List Line}
  {slots : List (Nat × Nat)}

mutual

theorem EmitsExpr.room {env : Env} {start f f' : Nat} {e : Expr} {lines : List Line} :
    EmitsExpr L env start f e lines f' → f ≤ f' ∧ f' ≤ f + lines.length
  | .integer _ | .real _ | .text _ _ | .boolean _ | .place _ => by simp
  | .plus h _ _ => h.room
  | .unary h _ _ _ => by
    have := h.room
    simp only [List.length_append, List.length_singleton]
    omega
  | .binary hl hr _ _ _ => by
    have := hl.room
    have := hr.room
    simp only [List.length_append, List.length_singleton]
    omega
  | .spill h _ _ _ => by
    have := h.room
    simp only [List.length_append, length_stores, length_loads]
    omega
  | .assign _ h _ _ => by
    have := h.room
    simp only [List.length_append, length_stores, length_loads]
    omega
  | .cond hc ht he _ _ _ => by
    have := hc.room
    have := ht.room
    have := he.room
    simp only [List.length_append, length_chooseLines]
    omega
  | .construct _ _ h _ => h.room
  | .call _ _ h => h.room

theorem EmitsCall.room {env : Env} {start f f' : Nat} {c : String} {args : List Expr} {ret : Ty}
    {lines : List Line} : EmitsCall L env start f c args ret lines f' →
    f ≤ f' ∧ f' ≤ f + lines.length
  | .mk _ _ _ _ h => by
    have := h.room
    simp only [List.length_append, List.length_singleton]
    omega

theorem EmitsExprs.room {env : Env} {start f f' : Nat} {es : List Expr} {lines : List Line} :
    EmitsExprs L env start f es lines f' → f ≤ f' ∧ f' ≤ f + lines.length
  | .nil => by simp
  | .cons h hs => by
    have := h.room
    have := hs.room
    simp only [List.length_append]
    omega

end

theorem EmitsBindings.room {es : List (String × Expr)}
    (h : EmitsBindings L env start f es lines env' f') : f ≤ f' ∧ f' ≤ f + lines.length := by
  induction h with
  | nil => simp
  | cons h _ ih =>
    have := h.room
    simp only [List.length_append, length_stores]
    omega

mutual

theorem EmitsStmt.room {env env' : Env} {start f f' : Nat} {s : Stmt} {lines : List Line}
    {slots : List (Nat × Nat)} : EmitsStmt L ret env start f s lines env' f' slots →
    f ≤ f' ∧ f' ≤ f + lines.length
  | .declare | .record | .comment | .define _ _ => by simp
  | .expr _ h => by
    have := h.room
    simp only [List.length_append]
    omega
  | .assign _ h _ | .ret h _ => by
    have := h.room
    simp only [List.length_append]
    omega
  | .loop hc _ hb => by
    have := hc.room
    have := hb.room
    simp only [List.length_append, List.length_singleton]
    omega
  | .branch hc _ ht he => by
    have := hc.room
    have := ht.room
    have := he.room
    simp only [List.length_append, length_chooseLines]
    omega
  | .bind h => by
    have := h.room
    simp only [List.length_append, length_stores]
    omega
  | .block h => h.room

theorem EmitsStmts.room {env env' : Env} {start f f' : Nat} {ss : List Stmt} {lines : List Line}
    {slots : List (Nat × Nat)} : EmitsStmts L ret env start f ss lines env' f' slots →
    f ≤ f' ∧ f' ≤ f + lines.length
  | .nil => by simp
  | .cons h hs => by
    have := h.room
    have := hs.room
    simp only [List.length_append]
    omega

end

theorem EmitsBody.room {b : Body} {closing : Bool}
    (h : EmitsBody L ret env start f b lines f' closing) : f ≤ f' ∧ f' ≤ f + lines.length := by
  cases h with
  | value hb he =>
    have := hb.room
    have := he.room
    simp only [List.length_append]
    omega
  | block hb h =>
    have := hb.room
    have := h.room
    simp only [List.length_append]
    omega

end Room

/-- Slots lie in order between two offsets. -/
def Within (f' : Nat) : Nat → List (Nat × Nat) → Prop
  | f, [] => f ≤ f'
  | f, (offset, size) :: slots => f ≤ offset ∧ Within f' (offset + size) slots

section Slots

variable {L : Listing} {ret : Ty} {env env' : Env} {start f f₁ f' : Nat} {s : Stmt} {ss : List Stmt}
  {lines : List Line} {slots others : List (Nat × Nat)}

theorem Within.le (h : Within f' f slots) : f ≤ f' := by
  induction slots generalizing f with
  | nil => exact h
  | cons slot slots ih =>
    have := ih h.2
    have := h.1
    omega

theorem Within.widen {g : Nat} (h : Within f' f slots) (hle : g ≤ f) : Within f' g slots := by
  cases slots with
  | nil => exact Nat.le_trans hle h
  | cons slot slots => exact ⟨Nat.le_trans hle h.1, h.2⟩

theorem Within.append (h : Within f₁ f slots) (h' : Within f' f₁ others) :
    Within f' f (slots ++ others) := by
  induction slots generalizing f with
  | nil => exact h'.widen h
  | cons slot slots ih => exact ⟨h.1, ih h.2⟩

theorem EmitsStmt.bind_or (h : EmitsStmt L ret env start f s lines env' f' slots) :
    (∃ x e n a, s = .bind x e n ∧ EmitsExpr L env start (f + e.ty.size) e a f' ∧
      lines = a ++ env.stores 0 f e.ty.size ∧ env' = env.bind x f e.ty ∧
      slots = [(f, e.ty.size)]) ∨
    (∀ x e n, s ≠ .bind x e n) ∧ env' = env ∧ slots = [] := by
  cases h with
  | bind h => exact .inl ⟨_, _, _, _, rfl, h, rfl, rfl, rfl⟩
  | define hs _ =>
    refine .inr ⟨?_, rfl, rfl⟩
    rintro x e n rfl
    cases hs
  | expr | assign | declare | record | comment | ret | loop | branch | block =>
    exact .inr ⟨by simp, rfl, rfl⟩

theorem EmitsStmts.within (h : EmitsStmts L ret env start f ss lines env' f' slots) :
    Within f' f slots := by
  induction ss generalizing env start f lines slots with
  | nil =>
    cases h
    exact Nat.le_refl _
  | cons s ss ih =>
    cases h with
    | cons hs hss =>
      have hroom := hs.room
      refine .append ?_ (ih hss)
      rcases hs.bind_or with ⟨x, e, n, a, -, he, -, -, rfl⟩ | ⟨-, -, rfl⟩
      · exact ⟨Nat.le_refl f, he.room.1⟩
      · exact hroom.1

end Slots

end PCode.Codegen
