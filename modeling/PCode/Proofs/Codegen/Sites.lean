import PCode.Proofs.Codegen.StackMap
import PCode.Proofs.Machine.Memory

namespace PCode.Codegen

section Balanced

variable {L : Listing} {a b : List Line}

theorem Balanced.append (ha : Balanced a) (hb : Balanced b) : Balanced (a ++ b) := by
  induction ha with
  | nil => exact hb
  | line h h' _ ih => exact .line h h' ih
  | call h ha h' _ _ ih =>
    rw [List.append_assoc, List.cons_append]
    exact .call h ha h' ih

theorem Balanced.of_forall
    (h : ∀ l ∈ a, l.instruction.op ≠ .cap ∧ l.instruction.op ≠ .cal) : Balanced a := by
  induction a with
  | nil => exact .nil
  | cons l a ih =>
    have hl := h l List.mem_cons_self
    exact .line hl.1 hl.2 (ih fun l' hl' => h l' (List.mem_cons_of_mem _ hl'))

theorem Balanced.single {l : Line} (h : l.instruction.op ≠ .cap) (h' : l.instruction.op ≠ .cal) :
    Balanced [l] :=
  .line h h' .nil

theorem balanced_loads (env : Env) (level offset size : Nat) :
    Balanced (env.loads level offset size) := by
  refine .of_forall fun l hl => ?_
  obtain ⟨cell, _, rfl⟩ := List.mem_map.mp hl
  exact ⟨by simp [Env.line], by simp [Env.line]⟩

theorem balanced_stores (env : Env) (level offset size : Nat) :
    Balanced (env.stores level offset size) := by
  refine .of_forall fun l hl => ?_
  obtain ⟨cell, _, rfl⟩ := List.mem_map.mp hl
  exact ⟨by simp [Env.line], by simp [Env.line]⟩

mutual

theorem EmitsExpr.balanced {env : Env} {start f f' : Nat} {e : Expr} {lines : List Line} :
    EmitsExpr L env start f e lines f' → Balanced lines
  | .integer _ | .real _ | .text _ _ | .boolean _ =>
    .single (by simp [Env.line]) (by simp [Env.line])
  | .place _ => balanced_loads _ _ _ _
  | .plus h _ _ => h.balanced
  | .unary h _ _ _ => h.balanced.append (.single (by simp [Env.line]) (by simp [Env.line]))
  | .binary hl hr _ _ _ =>
    (hl.balanced.append hr.balanced).append (.single (by simp [Env.line]) (by simp [Env.line]))
  | .spill h _ _ _ => (h.balanced.append (balanced_stores _ _ _ _)).append (balanced_loads _ _ _ _)
  | .assign _ h _ _ => (h.balanced.append (balanced_stores _ _ _ _)).append (balanced_loads _ _ _ _)
  | .cond hc ht he _ _ _ => by
    have hjpc : ∀ c, Balanced [env.line .jpc 0 c] := fun c =>
      .single (by simp [Env.line]) (by simp [Env.line])
    have hjmp : ∀ c, Balanced [env.line .jmp 0 c] := fun c =>
      .single (by simp [Env.line]) (by simp [Env.line])
    exact hc.balanced.append ((((hjpc _).append ht.balanced).append (hjmp _)).append he.balanced)
  | .construct _ _ h _ => h.balanced
  | .call _ _ h => h.balanced

theorem EmitsCall.balanced {env : Env} {start f f' : Nat} {c : String} {args : List Expr} {ret : Ty}
    {lines : List Line} : EmitsCall L env start f c args ret lines f' → Balanced lines
  | .mk _ _ _ _ h => .call rfl h.balanced rfl .nil

theorem EmitsExprs.balanced {env : Env} {start f f' : Nat} {es : List Expr} {lines : List Line} :
    EmitsExprs L env start f es lines f' → Balanced lines
  | .nil => .nil
  | .cons h hs => h.balanced.append hs.balanced

end

end Balanced

/-- What the variables and functions in scope say about frames: variables lie inside those of their
functions. -/
structure Env.Sized (L : Listing) (Δ : Context) (env : Env) : Prop where
  context : env.context = Δ
  vars : ∀ {x slot}, env.vars.get? x = some slot → 0 < slot.level ∧ slot.level ≤ env.level ∧
    headerSize ≤ slot.offset ∧
    slot.offset + slot.ty.size ≤ L.frameSize Δ (env.path.drop (env.level - slot.level))
  funs : ∀ {c level}, env.funs.get? c = some level → level ≤ env.level

/-- The functions in scope. -/
def Env.known (env : Env) : Functions := fun name outer =>
  ∃ level, env.funs.get? name = some level ∧ outer = env.path.drop (env.level - level)

section Rules

variable {L : Listing} {Δ : Context} {known : Functions} {env : Env} {start level offset size : Nat}
  {s : Site}

@[simp] theorem Site.floor_withDepth (s : Site) (depth : Nat) :
    (s.withDepth depth).floor L Δ = s.floor L Δ := rfl

theorem Mapped.loads (hpath : s.path = env.path) (hfloor : s.floor L Δ ≤ s.depth)
    (hlevel : level < s.path.length) (hoffset : headerSize ≤ offset)
    (hend : offset + size ≤ L.frameSize Δ (s.path.drop level)) :
    Mapped L Δ known .none start (env.loads level offset size) s
      (s.withDepth (s.depth + size)) := by
  induction size generalizing start offset s with
  | zero => exact .nil
  | succ size ih =>
    rw [loads_succ]
    refine .cons (fun sites (hnext : _ = some (s.withDepth (s.depth + 1))) _ => ?_) ?_
    · unfold Env.line
      rw [← hpath]
      exact .lod hfloor hlevel hoffset (by omega) hnext
    · have hrest := @ih (start + 1) (offset + 1) (s.withDepth (s.depth + 1)) hpath
        (Nat.le_succ_of_le hfloor) hlevel (by omega) (by
          show offset + 1 + size ≤ L.frameSize Δ (s.path.drop level)
          omega)
      rw [show s.depth + (size + 1) = s.depth + 1 + size by omega]
      exact hrest

theorem Mapped.opr {operator : Operator} {depth n : Nat} (harity : operator.arity = n)
    (hpath : s.path = env.path) (hfloor : s.floor L Δ ≤ depth) :
    Mapped L Δ known .none start [env.line .opr 0 operator.operand] (s.withDepth (depth + n))
      (s.withDepth (depth + 1)) := by
  subst harity
  refine .single fun sites hnext _ => ?_
  unfold Env.line
  rw [← hpath]
  refine .opr (s := s.withDepth (depth + operator.arity)) (Nat.add_le_add_right hfloor _) ?_
  rw [hnext]
  show some (s.withDepth (depth + 1)) =
    some (s.withDepth (depth + operator.arity - operator.arity + 1))
  rw [Nat.add_sub_cancel]

theorem Mapped.stores {depth : Nat} (hpath : s.path = env.path) (hfloor : s.floor L Δ ≤ depth)
    (hlevel : level < s.path.length) (hoffset : headerSize ≤ offset)
    (hend : offset + size ≤ L.frameSize Δ (s.path.drop level)) :
    Mapped L Δ known .none start (env.stores level offset size) (s.withDepth (depth + size))
      (s.withDepth depth) := by
  induction size generalizing start with
  | zero => exact .nil
  | succ size ih =>
    rw [stores_succ]
    refine .cons (fun sites (hnext : _ = some (s.withDepth (depth + size))) _ => ?_) (ih (by omega))
    unfold Env.line
    rw [← hpath]
    exact .sto (s := s.withDepth (depth + (size + 1)))
      (show s.floor L Δ + 1 ≤ depth + (size + 1) by omega) hlevel (by omega)
      (show offset + size < L.frameSize Δ (s.path.drop level) by omega) hnext

theorem Mapped.discard (hpath : s.path = env.path) (hopened : s.opened = [])
    (hfloor : s.floor L Δ ≤ s.depth) (hsize : size ≠ 0) :
    Mapped L Δ known .none start [env.line .ini 0 (Int64.ofInt (-size))]
      (s.withDepth (s.depth + size)) s := by
  refine .single fun sites hnext _ => ?_
  unfold Env.line
  rw [← hpath]
  refine .discard (s := s.withDepth (s.depth + size)) hopened (Nat.pos_of_ne_zero hsize)
    (Nat.add_le_add_right hfloor _) ?_
  rw [hnext]
  show some s = some (s.withDepth (s.depth + size - size))
  rw [Nat.add_sub_cancel]
  rfl

theorem Mapped.call {name : String} {entry n : Nat} {types : List Ty} {variadic : Bool} {ret : Ty}
    {a : List Line} (hpath : s.path = env.path) (hfloor : s.floor L Δ ≤ s.depth)
    (hlevel : level ≤ s.path.length) (hentry : L.functions.get? name = some entry)
    (hf : Δ.function? name = some (.function types variadic ret))
    (hknown : known name (s.path.drop level)) (hsize : cellsOf types ≤ n) (hbalanced : Balanced a)
    (hholds : L.Holds start
      ([env.line .cap level 0] ++ a ++ [env.line .cal level (Int64.ofInt entry)]))
    (hargs : ∀ s' : Site, s'.path = env.path → s'.floor L Δ ≤ s'.depth →
      Mapped L Δ known .none (start + 1) a s' (s'.withDepth (s'.depth + n))) :
    Mapped L Δ known .none start
      ([env.line .cap level 0] ++ a ++ [env.line .cal level (Int64.ofInt entry)]) s
      (s.withDepth (s.depth + ret.size)) := by
  generalize hopening : Opening.mk s.depth (start + 1 + a.length) name (s.path.drop level) = opening
  have hargs := hargs ⟨s.path, s.depth + headerSize, opening :: s.opened⟩ hpath (by
    subst hopening
    exact Nat.le_refl _)
  rw [List.append_assoc, holds_append, holds_singleton, holds_append, holds_singleton] at hholds
  have hmatches : L.Matches start opening.call := by
    subst hopening
    exact ⟨a, _, _, hbalanced, rfl, hholds.2.1, Listing.fetch hholds.2.2⟩
  refine .seq (.cons (fun sites hnext _ => ?_) hargs) (.single fun sites hnext henters => ?_)
  · unfold Env.line
    rw [← hpath]
    subst hopening
    exact .cap hfloor hlevel rfl rfl hmatches hnext
  · have henter := henters name _ hknown entry types variadic ret hentry hf
    unfold Env.line
    rw [← hpath]
    subst hopening
    refine .cal (s := ⟨s.path, s.depth + headerSize + n, _ :: s.opened⟩) rfl ?_ hentry hf
      ?_ ?_ henter hnext
    · show start + 1 + a.length = start + ([env.line .cap level 0] ++ a).length
      rw [List.length_append, List.length_singleton, Nat.add_assoc]
    · show s.depth + headerSize + cellsOf types ≤ s.depth + headerSize + n
      omega
    · exact hfloor

end Rules

/-- A variable and its distance from the current function, in terms of the frame that holds it. -/
def Env.Inside (L : Listing) (Δ : Context) (env : Env) (slot : Slot) : Prop :=
  env.distance slot < env.path.length ∧ headerSize ≤ slot.offset ∧
    slot.offset + slot.ty.size ≤ L.frameSize Δ (env.path.drop (env.distance slot))

section Expressions

variable {L : Listing} {Δ : Context} {env : Env} {slot : Slot} {x : String}

theorem Env.Sized.inside (h : env.Sized L Δ) (hx : env.vars.get? x = some slot) :
    env.Inside L Δ slot := by
  obtain ⟨hpos, hle, hoffset, hend⟩ := h.vars hx
  refine ⟨?_, hoffset, hend⟩
  unfold Env.distance Env.level at *
  omega

theorem EmitsPlace.inside {e : Expr} (hsized : env.Sized L Δ) (h : EmitsPlace env e slot) :
    env.Inside L Δ slot := by
  induction h with
  | name hx _ => exact hsized.inside hx
  | member h hoffset hle ih =>
    obtain ⟨hlevel, hlow, hend⟩ := ih
    rw [h.ty] at hle
    refine ⟨hlevel, Nat.le_trans hlow (Nat.le_add_right _ _), Nat.le_trans ?_ hend⟩
    simp only
    omega

mutual

theorem EmitsExpr.mapped (hfits : L.lines.length < 2 ^ 63) (hsized : env.Sized L Δ)
    (hpath : 0 < env.path.length) {start f f' : Nat} {e : Expr} {lines : List Line} {s : Site} :
    EmitsExpr L env start f e lines f' → L.Holds start lines → headerSize ≤ f →
    f' ≤ L.frameSize Δ env.path → s.path = env.path → s.floor L Δ ≤ s.depth →
    Mapped L Δ env.known .none start lines s (s.withDepth (s.depth + e.ty.size))
  | .integer h, _, _, _, hs, hfloor | .real h, _, _, _, hs, hfloor
  | .text h _, _, _, _, hs, hfloor | .boolean h, _, _, _, hs, hfloor => by
    rw [Expr.ty, Expr.note, h]
    refine .single fun sites hnext _ => ?_
    unfold Env.line
    rw [← hs]
    exact .lit hfloor hnext
  | .place h, _, _, _, hs, hfloor => by
    obtain ⟨hlevel, hoffset, hend⟩ := h.inside hsized
    rw [h.ty]
    rw [← hs] at hlevel hend
    exact .loads hs hfloor hlevel hoffset hend
  | .plus h he hn, hholds, hlow, hhigh, hs, hfloor => by
    have hmapped := h.mapped hfits hsized hpath hholds hlow hhigh hs hfloor
    rw [he] at hmapped
    rw [Expr.ty, Expr.note, hn]
    exact hmapped
  | .unary h hop he hn, hholds, hlow, hhigh, hs, hfloor => by
    rw [holds_append] at hholds
    have hmapped := h.mapped hfits hsized hpath hholds.1 hlow hhigh hs hfloor
    rw [he] at hmapped
    rw [Expr.ty, Expr.note, hn]
    exact hmapped.seq (.opr (arity_unaryOperator? hop) hs hfloor)
  | @EmitsExpr.binary _ _ start f f₁ f₂ op l r note a b hl hr hsl hsr hn, hholds, hlow, hhigh, hs,
      hfloor => by
    have hlroom := hl.room
    have hrroom := hr.room
    rw [List.append_assoc, holds_append, holds_append] at hholds
    have hleft := hl.mapped hfits hsized hpath hholds.1 hlow (by omega) hs hfloor
    have hright := hr.mapped (s := s.withDepth (s.depth + 1)) hfits hsized hpath
      hholds.2.1 (by omega) hhigh hs (Nat.le_succ_of_le hfloor)
    rw [hsl] at hleft
    rw [hsr] at hright
    rw [show (Expr.binary op l r note).ty.size = 1 from hn]
    exact (hleft.seq hright).seq (.opr (arity_binaryOperator op l.ty) hs hfloor)
  | @EmitsExpr.spill _ _ start f f' t field k note a offset h _ hoffset hle, hholds, hlow, hhigh,
      hs, hfloor => by
    have hroom := h.room
    rw [List.append_assoc, holds_append] at hholds
    have hvalue := h.mapped hfits hsized hpath hholds.1 hlow (by omega) hs hfloor
    rw [← hs] at hpath hhigh
    refine (hvalue.seq (.stores hs hfloor hpath (by omega) hhigh)).seq
      (.loads hs hfloor hpath (by omega) ?_)
    show f' + offset + note.ty.size ≤ L.frameSize Δ s.path
    omega
  | @EmitsExpr.assign _ _ start f f' x xn e note a slot hx h he hn, hholds, hlow, hhigh, hs,
      hfloor => by
    rw [List.append_assoc, holds_append] at hholds
    have hvalue := h.mapped hfits hsized hpath hholds.1 hlow hhigh hs hfloor
    obtain ⟨hlevel, hoffset, hend⟩ := hsized.inside hx
    rw [he] at hvalue
    rw [← hs] at hlevel hend
    rw [show (Expr.assign (.name x xn) e note).ty = slot.ty from hn]
    exact (hvalue.seq (.stores hs hfloor hlevel hoffset hend)).seq
      (.loads hs hfloor hlevel hoffset hend)
  | @EmitsExpr.cond _ _ start f f₁ f₂ f₃ c t e note a b d hc ht he hsc hst hse, hholds, hlow, hhigh,
      hs, hfloor => by
    have hcroom := hc.room
    have htroom := ht.room
    have heroom := he.room
    have hlength := hholds.le (by simp [chooseLines])
    simp only [List.length_append, length_chooseLines] at hlength
    rw [holds_append, holds_chooseLines] at hholds
    obtain ⟨hca, -, htb, -, hed⟩ := hholds
    have htest := hc.mapped hfits hsized hpath hca hlow (by omega) hs hfloor
    have hthen := ht.mapped hfits hsized hpath htb (by omega) (by omega) hs hfloor
    have helse := he.mapped hfits hsized hpath hed (by omega) hhigh hs hfloor
    rw [hsc] at htest
    rw [hst] at hthen
    rw [hse] at helse
    exact htest.seq (.choose (s := s.withDepth (s.depth + 1)) hthen helse hs hs
      (Nat.succ_le_succ hfloor) (Nat.le_trans hfloor (Nat.le_add_right _ _)) (by omega))
  | .construct hx hcon h hn, hholds, hlow, hhigh, hs, hfloor => by
    rw [Expr.ty, Expr.note, hn]
    exact h.mapped hfits hsized hpath hholds hlow hhigh hs hfloor
  | .call hx hcon h, hholds, hlow, hhigh, hs, hfloor =>
    h.mapped hfits hsized hpath hholds hlow hhigh hs hfloor

theorem EmitsCall.mapped (hfits : L.lines.length < 2 ^ 63) (hsized : env.Sized L Δ)
    (hpath : 0 < env.path.length) {start f f' : Nat} {c : String} {args : List Expr} {ret : Ty}
    {lines : List Line} {s : Site} : EmitsCall L env start f c args ret lines f' →
    L.Holds start lines → headerSize ≤ f → f' ≤ L.frameSize Δ env.path → s.path = env.path →
    s.floor L Δ ≤ s.depth →
    Mapped L Δ env.known .none start lines s (s.withDepth (s.depth + ret.size))
  | @EmitsCall.mk _ _ start f f' c args ret a level types variadic entry hlevel hf htypes
      hentry hargs, hholds, hlow, hhigh, hs, hfloor => by
    have hholdsArgs := hholds
    rw [List.append_assoc, holds_append, holds_append] at hholdsArgs
    have hle : env.level - level ≤ s.path.length := by
      rw [hs]
      exact Nat.sub_le _ _
    have hknown : env.known c (s.path.drop (env.level - level)) := ⟨level, hlevel, by rw [hs]⟩
    rw [hsized.context] at hf
    exact .call hs hfloor hle hentry hf hknown (cellsOf_le htypes) hargs.balanced hholds
      fun s' hs' hfloor' => hargs.mapped hfits hsized hpath hholdsArgs.2.1 hlow hhigh hs' hfloor'

theorem EmitsExprs.mapped (hfits : L.lines.length < 2 ^ 63) (hsized : env.Sized L Δ)
    (hpath : 0 < env.path.length) {start f f' : Nat} {es : List Expr} {lines : List Line}
    {s : Site} : EmitsExprs L env start f es lines f' → L.Holds start lines → headerSize ≤ f →
    f' ≤ L.frameSize Δ env.path → s.path = env.path → s.floor L Δ ≤ s.depth →
    Mapped L Δ env.known .none start lines s (s.withDepth (s.depth + cellsOf (es.map Expr.ty)))
  | .nil, _, _, _, _, _ => .nil
  | @EmitsExprs.cons _ _ start f f₁ f₂ e es a b h hes, hholds, hlow, hhigh, hs, hfloor => by
    have hroom := h.room
    have hesroom := hes.room
    rw [holds_append] at hholds
    have hfirst := h.mapped hfits hsized hpath hholds.1 hlow (by omega) hs hfloor
    have hrest := hes.mapped (s := s.withDepth (s.depth + e.ty.size)) hfits hsized hpath hholds.2
      (by omega) hhigh hs (Nat.le_trans hfloor (Nat.le_add_right _ _))
    rw [List.map_cons, cellsOf_cons, ← Nat.add_assoc]
    exact hfirst.seq hrest

end

end Expressions

/-- Between statements, a function has nothing but its frame on the stack. -/
def Site.rest (L : Listing) (Δ : Context) (path : List String) : Site :=
  ⟨path, L.frameSize Δ path, []⟩

/-- The functions that statements define. -/
def definedIn (path : List String) (body : List Stmt) : Functions := fun name outer =>
  Stmt.isDefinedIn name body = true ∧ outer = path

section Scopes

variable {L : Listing} {Δ : Context} {env : Env}

theorem Env.Sized.bind (h : env.Sized L Δ) {x : String} {offset : Nat} {ty : Ty}
    (hpath : 0 < env.path.length) (hoffset : headerSize ≤ offset)
    (hend : offset + ty.size ≤ L.frameSize Δ env.path) : (env.bind x offset ty).Sized L Δ := by
  refine ⟨h.context, ?_, h.funs⟩
  intro y slot hy
  rw [Env.bind, Table.get?_insert] at hy
  by_cases hname : x = y
  · rw [if_pos hname] at hy
    cases hy
    refine ⟨hpath, Nat.le_refl _, hoffset, ?_⟩
    show offset + ty.size ≤ L.frameSize Δ (env.path.drop (env.level - env.level))
    rw [Nat.sub_self]
    exact hend
  · rw [if_neg hname] at hy
    exact h.vars hy

theorem Env.Sized.hoist (h : env.Sized L Δ) (body : List Stmt) : (hoist env body).Sized L Δ := by
  refine ⟨by rw [hoist_context, h.context], ?_, ?_⟩
  · intro x slot hx
    rw [hoist_vars] at hx
    rw [hoist_level, hoist_path]
    exact h.vars hx
  · intro c level hc
    rw [hoist_funs] at hc
    rw [hoist_level]
    split at hc
    · cases hc
      exact Nat.le_refl _
    · exact h.funs hc

theorem Env.Sized.inside_function (h : env.Sized L Δ) (name : String) :
    (env.inside name).Sized L Δ := by
  have hlevel : (env.inside name).level = env.level + 1 := rfl
  refine ⟨h.context, ?_, ?_⟩
  · intro x slot hx
    obtain ⟨hpos, hle, hoffset, hend⟩ := h.vars hx
    refine ⟨hpos, by omega, hoffset, ?_⟩
    rw [hlevel, Nat.succ_sub hle]
    exact hend
  · intro c level hc
    have := h.funs hc
    omega

theorem Env.Sized.withParams (h : env.Sized L Δ) (hpath : 0 < env.path.length) :
    ∀ {params : List (String × Ty)} {offset : Nat}, headerSize ≤ offset →
      offset + cellsOf (params.map Prod.snd) ≤ L.frameSize Δ env.path →
      (env.withParams offset params).Sized L Δ := by
  intro params
  induction params generalizing env with
  | nil =>
    intro offset _ _
    exact h
  | cons param params ih =>
    intro offset hoffset hend
    rw [List.map_cons, cellsOf_cons] at hend
    exact ih (h.bind hpath hoffset (by omega)) hpath (by omega) (by
      show offset + param.2.size + cellsOf (params.map Prod.snd) ≤ L.frameSize Δ env.path
      omega)

@[simp] theorem withParams_funs (params : List (String × Ty)) (env : Env) (offset : Nat) :
    (env.withParams offset params).funs = env.funs := by
  induction params generalizing env offset with
  | nil => rfl
  | cons param params ih => exact ih _ _

theorem Env.Sized.known_inside (h : env.Sized L Δ) {name : String} {params : List (String × Ty)}
    {offset : Nat} {callee : String} {outer : List String}
    (hknown : ((env.inside name).withParams offset params).known callee outer) :
    env.known callee outer := by
  obtain ⟨level, hlevel, rfl⟩ := hknown
  rw [withParams_funs] at hlevel
  refine ⟨level, hlevel, ?_⟩
  have hle := h.funs hlevel
  rw [Env.level, withParams_path]
  show (name :: env.path).drop (env.level + 1 - level) = _
  rw [Nat.succ_sub hle]
  rfl

theorem known_hoist {body : List Stmt} {callee : String} {outer : List String}
    (hknown : (hoist env body).known callee outer) :
    env.known callee outer ∨ definedIn env.path body callee outer := by
  obtain ⟨level, hlevel, rfl⟩ := hknown
  rw [hoist_funs] at hlevel
  rw [hoist_level, hoist_path]
  split at hlevel
  case isTrue hdefined =>
    cases hlevel
    refine .inr ⟨hdefined, ?_⟩
    rw [Nat.sub_self]
    rfl
  case isFalse => exact .inl ⟨level, hlevel, rfl⟩

end Scopes

/-- The current function returns this type. -/
def Env.Returns (Δ : Context) (env : Env) (ret : Ty) : Prop :=
  ∃ name outer types variadic, env.path = name :: outer ∧
    Δ.function? name = some (.function types variadic ret)

section Returns

variable {L : Listing} {Δ : Context} {known : Functions} {env : Env} {ret : Ty}

theorem Env.Returns.pos (h : env.Returns Δ ret) : 0 < env.path.length := by
  obtain ⟨name, outer, _, _, hpath, _⟩ := h
  rw [hpath]
  exact Nat.succ_pos _

theorem Env.Returns.of_path {env' : Env} (h : env.Returns Δ ret) (hpath : env'.path = env.path) :
    env'.Returns Δ ret := by
  unfold Env.Returns
  rw [hpath]
  exact h

theorem Mapped.returns {start depth : Nat} {closing : Bool} {s' : Site} (h : env.Returns Δ ret)
    (hdepth : L.frameSize Δ env.path ≤ depth)
    (hvalue : closing = false → L.frameSize Δ env.path + ret.size ≤ depth) :
    Mapped L Δ known .none start [⟨env.path, ⟨.ret, 0, Int64.ofInt ret.size⟩, closing⟩]
      ⟨env.path, depth, []⟩ s' := by
  obtain ⟨name, outer, types, variadic, hpath, hf⟩ := h
  exact .single fun sites _ _ => .ret (s := ⟨env.path, depth, []⟩) hpath rfl hf hdepth hvalue

theorem Mapped.close {body : List Stmt} {start : Nat} {lines : List Line}
    (h : Mapped L Δ (hoist env body).known (definedIn (hoist env body).path body) start lines
      (.rest L Δ (hoist env body).path) (.rest L Δ (hoist env body).path)) :
    Mapped L Δ env.known .none start lines (.rest L Δ env.path) (.rest L Δ env.path) := by
  rw [hoist_path] at h
  exact h.block fun _ _ => known_hoist

theorem definedIn_cons {path outer : List String} {name : String} {st : Stmt} {ss : List Stmt}
    (h : definedIn path (st :: ss) name outer) :
    definedIn path [st] name outer ∨ definedIn path ss name outer := by
  obtain ⟨hname, houter⟩ := h
  rw [Stmt.isDefinedIn_cons, Bool.or_eq_true] at hname
  rcases hname with hname | hname
  · refine .inl ⟨?_, houter⟩
    rw [Stmt.isDefinedIn_cons, hname]
    rfl
  · exact .inr ⟨hname, houter⟩

theorem definedIn_of_definition {path outer : List String} {name name' : String} {st : Stmt}
    {params : List String} {body : Body} (hst : st.definition? = some (name, params, body))
    (h : definedIn path [st] name' outer) : name' = name ∧ outer = path := by
  obtain ⟨hname, houter⟩ := h
  rw [Stmt.isDefinedIn_cons, hst, Stmt.isDefinedIn_nil, Bool.or_false] at hname
  exact ⟨(beq_iff_eq.mp hname).symm, houter⟩

end Returns

section Statements

variable {L : Listing} {Δ : Context}

theorem binding_mapped {env : Env} {e : Expr} {start f f' : Nat} {a : List Line}
    (hfits : L.lines.length < 2 ^ 63) (hsized : env.Sized L Δ) (hpath : 0 < env.path.length)
    (h : EmitsExpr L env start (f + e.ty.size) e a f') (hholds : L.Holds start a)
    (hlow : headerSize ≤ f) (hhigh : f' ≤ L.frameSize Δ env.path) :
    Mapped L Δ env.known .none start (a ++ env.stores 0 f e.ty.size) (.rest L Δ env.path)
      (.rest L Δ env.path) := by
  have hroom := h.room
  have hvalue := h.mapped (s := .rest L Δ env.path) hfits hsized hpath hholds (by omega) hhigh rfl
    (Nat.le_refl _)
  exact hvalue.seq (.stores rfl (Nat.le_refl _) hpath hlow (by
    show f + e.ty.size ≤ L.frameSize Δ env.path
    omega))

theorem EmitsBindings.mapped {env env' : Env} {start f f' : Nat} {es : List (String × Expr)}
    {lines : List Line} (hfits : L.lines.length < 2 ^ 63)
    (h : EmitsBindings L env start f es lines env' f') (hsized : env.Sized L Δ)
    (hpath : 0 < env.path.length) (hholds : L.Holds start lines) (hlow : headerSize ≤ f)
    (hhigh : f' ≤ L.frameSize Δ env.path) :
    Mapped L Δ env.known .none start lines (.rest L Δ env.path) (.rest L Δ env.path) ∧
      env'.Sized L Δ ∧ env'.path = env.path ∧ env'.known = env.known := by
  induction h with
  | nil => exact ⟨.nil, hsized, rfl, rfl⟩
  | @cons env env' start f f₁ f₂ x e es a b he hes ih =>
    have hroom := he.room
    have hesroom := hes.room
    rw [holds_append, holds_append] at hholds
    have hfirst := binding_mapped hfits hsized hpath he hholds.1.1 hlow (by omega)
    obtain ⟨hrest, hsized', hpath', hknown⟩ := ih (hsized.bind hpath hlow (by omega)) hpath hholds.2
      (by omega) hhigh
    exact ⟨hfirst.seq hrest, hsized', hpath', hknown⟩

mutual

theorem EmitsStmt.mapped (hfits : L.lines.length < 2 ^ 63) {ret : Ty} {env env' : Env}
    {start f f' : Nat} {st : Stmt} {lines : List Line} {slots : List (Nat × Nat)} :
    EmitsStmt L ret env start f st lines env' f' slots → env.Sized L Δ → env.Returns Δ ret →
    L.Holds start lines → headerSize ≤ f → f' ≤ L.frameSize Δ env.path →
    Mapped L Δ env.known (definedIn env.path [st]) start lines (.rest L Δ env.path)
      (.rest L Δ env.path)
  | @EmitsStmt.expr _ _ env start f f' e note a _ h, hsized, hret, hholds, hlow, hhigh => by
    rw [holds_append] at hholds
    have hvalue := h.mapped (s := .rest L Δ env.path) hfits hsized hret.pos hholds.1 hlow hhigh rfl
      (Nat.le_refl _)
    refine .weaken (hvalue.seq ?_) fun name outer h => by cases h.1
    by_cases hsize : e.ty.size = 0
    · rw [if_pos hsize, hsize]
      exact .nil
    · rw [if_neg hsize]
      exact .discard rfl rfl (Nat.le_refl _) hsize
  | @EmitsStmt.assign _ _ env start f f' x xn e en note a slot hx h he, hsized, hret, hholds, hlow,
      hhigh => by
    rw [holds_append] at hholds
    have hvalue := h.mapped (s := .rest L Δ env.path) hfits hsized hret.pos hholds.1 hlow hhigh rfl
      (Nat.le_refl _)
    obtain ⟨hlevel, hoffset, hend⟩ := hsized.inside hx
    rw [he] at hvalue
    exact .weaken (hvalue.seq (.stores rfl (Nat.le_refl _) hlevel hoffset hend))
      fun name outer h => by cases h.1
  | .declare, _, _, _, _, _ | .record, _, _, _, _, _ | .comment, _, _, _, _, _ =>
    .weaken .nil fun name outer h => by cases h.1
  | @EmitsStmt.ret _ ret env start f f' e note a h hty, hsized, hret, hholds, hlow, hhigh => by
    rw [holds_append] at hholds
    have hvalue := h.mapped (s := .rest L Δ env.path) hfits hsized hret.pos hholds.1 hlow hhigh rfl
      (Nat.le_refl _)
    rw [hty] at hvalue
    exact .weaken (hvalue.seq (.returns hret (Nat.le_add_right _ _) fun _ => Nat.le_refl _))
      fun name outer h => by cases h.1
  | @EmitsStmt.define _ _ env start f st name params body a hs h, hsized, hret, hholds, hlow,
      hhigh => by
    have hlength := hholds.le (by simp)
    rw [List.length_cons] at hlength
    rw [holds_cons] at hholds
    obtain ⟨types, hfunction⟩ := h.mapped hfits hsized hholds.2
    exact .weaken (.skip (hfunction _) rfl (Nat.le_refl _) (by omega))
      fun name' outer hdefined => definedIn_of_definition hs hdefined
  | @EmitsStmt.loop _ ret env env' start f f₁ f₂ c body note a b slots hc hsize hb, hsized, hret,
      hholds, hlow, hhigh => by
    have hcroom := hc.room
    have hbroom := hb.room
    have hlength := hholds.le (by simp)
    simp only [List.length_append, List.length_singleton] at hlength
    simp only [List.append_assoc, holds_append, List.length_singleton] at hholds
    have htest := hc.mapped (s := .rest L Δ env.path) hfits hsized hret.pos hholds.1 hlow (by omega)
      rfl (Nat.le_refl _)
    have hbody := hb.mapped hfits (hsized.hoist body) (hret.of_path hoist_path)
      hholds.2.2.1 (by omega) (by rw [hoist_path]; exact hhigh)
    rw [hsize] at htest
    exact .weaken (.loop htest (.close hbody) rfl (Nat.le_refl _) (by omega))
      fun name outer h => by cases h.1
  | @EmitsStmt.branch _ ret env env₁ env₂ start f f₁ f₂ f₃ c t e note a b d slots₁
      slots₂ hc hsize ht he, hsized, hret, hholds, hlow, hhigh => by
    have hcroom := hc.room
    have htroom := ht.room
    have heroom := he.room
    have hlength := hholds.le (by simp [chooseLines])
    simp only [List.length_append, length_chooseLines] at hlength
    rw [holds_append, holds_chooseLines] at hholds
    obtain ⟨hca, -, htb, -, hed⟩ := hholds
    have htest := hc.mapped (s := .rest L Δ env.path) hfits hsized hret.pos hca hlow (by omega) rfl
      (Nat.le_refl _)
    have hthen := ht.mapped hfits (hsized.hoist t) (hret.of_path hoist_path) htb (by omega)
      (by rw [hoist_path]; omega)
    have helse := he.mapped hfits (hsized.hoist e) (hret.of_path hoist_path) hed (by omega)
      (by rw [hoist_path]; exact hhigh)
    rw [hsize] at htest
    refine .weaken
      (htest.seq (.choose (s := Site.withDepth _ _) (.close hthen) (.close helse) rfl rfl
        (Nat.le_refl _) (Nat.le_refl _) (by omega))) fun name outer h => by cases h.1
  | .bind h, hsized, hret, hholds, hlow, hhigh => by
    rw [holds_append] at hholds
    exact .weaken (binding_mapped hfits hsized hret.pos h hholds.1 hlow hhigh)
      fun name outer h => by cases h.1
  | @EmitsStmt.block _ ret env env' start f f' body note a slots h, hsized, hret, hholds, hlow,
      hhigh => by
    have hbody := h.mapped hfits (hsized.hoist body) (hret.of_path hoist_path) hholds hlow
      (by rw [hoist_path]; exact hhigh)
    exact .weaken (.close hbody) fun name outer h => by cases h.1

theorem EmitsStmts.mapped (hfits : L.lines.length < 2 ^ 63) {ret : Ty} {env env' : Env}
    {start f f' : Nat} {ss : List Stmt} {lines : List Line} {slots : List (Nat × Nat)} :
    EmitsStmts L ret env start f ss lines env' f' slots → env.Sized L Δ → env.Returns Δ ret →
    L.Holds start lines → headerSize ≤ f → f' ≤ L.frameSize Δ env.path →
    Mapped L Δ env.known (definedIn env.path ss) start lines (.rest L Δ env.path)
      (.rest L Δ env.path)
  | .nil, _, _, _, _, _ => .weaken .nil fun name outer h => by cases h.1
  | @EmitsStmts.cons _ ret env env₁ env₂ start f f₁ f₂ st ss a b slots₁ slots₂ h hs, hsized, hret,
      hholds, hlow, hhigh => by
    have hroom := h.room
    have hsroom := hs.room
    rw [holds_append] at hholds
    have hfirst := h.mapped hfits hsized hret hholds.1 hlow (by omega)
    have hrest := @EmitsStmts.mapped hfits _ _ _ _ _ _ _ _ _ hs
    have hscope : env₁.Sized L Δ ∧ env₁.path = env.path ∧ env₁.known = env.known := by
      rcases h.bind_or with ⟨x, e, _, _, -, he, -, hbind, -⟩ | ⟨-, hsame, -⟩
      · have heroom := he.room
        rw [hbind]
        exact ⟨hsized.bind hret.pos hlow (by omega), rfl, rfl⟩
      · rw [hsame]
        exact ⟨hsized, rfl, rfl⟩
    obtain ⟨hsized₁, hpath₁, hknown₁⟩ := hscope
    rw [hpath₁, hknown₁] at hrest
    exact .weaken (hfirst.append (hrest hsized₁ (hret.of_path hpath₁) hholds.2 (by omega) hhigh))
      fun name outer h => definedIn_cons h

theorem EmitsBody.mapped (hfits : L.lines.length < 2 ^ 63) {ret : Ty} {env : Env}
    {start f f' : Nat} {value : Body} {lines : List Line} {closing : Bool} :
    EmitsBody L ret env start f value lines f' closing → env.Sized L Δ → env.Returns Δ ret →
    L.Holds start lines → headerSize ≤ f → f' ≤ L.frameSize Δ env.path →
    Mapped L Δ env.known .none start lines (.rest L Δ env.path)
      ⟨env.path, L.frameSize Δ env.path + if closing then 0 else ret.size, []⟩
  | @EmitsBody.value _ ret env env' start f f₁ f₂ locals e a b hb he hty, hsized, hret,
      hholds, hlow, hhigh => by
    have hbroom := hb.room
    have heroom := he.room
    rw [holds_append] at hholds
    obtain ⟨hbindings, hsized', hpath', hknown'⟩ := hb.mapped hfits hsized hret.pos hholds.1 hlow
      (by omega)
    have hvalue := he.mapped (s := .rest L Δ env.path) hfits hsized'
      (hret.of_path hpath').pos hholds.2 (by omega) (by rw [hpath']; exact hhigh) hpath'.symm
      (Nat.le_refl _)
    rw [hty, hknown'] at hvalue
    exact hbindings.seq hvalue
  | @EmitsBody.block _ ret env env₁ _ start f f₁ _ locals body a b slots hb h, hsized, hret, hholds,
      hlow, hhigh => by
    have hbroom := hb.room
    have hroom := h.room
    rw [holds_append] at hholds
    obtain ⟨hbindings, hsized', hpath', hknown'⟩ := hb.mapped hfits hsized hret.pos hholds.1 hlow
      (by omega)
    have hbody := h.mapped hfits (hsized'.hoist body) ((hret.of_path hpath').of_path hoist_path)
      hholds.2 (by omega) (by rw [hoist_path, hpath']; exact hhigh)
    have hblock : Mapped L Δ env₁.known .none (start + a.length) b (.rest L Δ env₁.path)
      (.rest L Δ env₁.path) := .close hbody
    rw [hpath', hknown'] at hblock
    exact hbindings.seq hblock

theorem EmitsFunction.mapped (hfits : L.lines.length < 2 ^ 63) {env : Env} {start : Nat}
    {name : String} {params : List String} {value : Body} {lines : List Line} :
    EmitsFunction L env start name params value lines → env.Sized L Δ → L.Holds start lines →
    ∃ types, ∀ s', Mapped L Δ env.known (fun name' outer => name' = name ∧ outer = env.path) start
      lines (.entry name env.path types) s'
  | @EmitsFunction.mk _ env start f' name params types variadic ret body a closing hf hlen hentry h,
      hsized, hholds => by
    have hroom := h.room
    have hlength := hholds.le (by simp)
    simp only [List.length_append, List.length_singleton] at hlength
    rw [List.append_assoc, holds_append, holds_append, holds_singleton] at hholds
    rw [hsized.context] at hf
    have hsmall : f' - (headerSize + cellsOf types) < 2 ^ 63 := by omega
    have hframe : L.frameSize Δ (name :: env.path) = f' := by
      rw [Listing.frameSize, hf, hentry, Option.bind_some, hholds.1]
      show headerSize + cellsOf types
        + (Int64.ofInt (f' - (headerSize + cellsOf types) : Nat)).toInt.toNat = f'
      rw [Cell.toInt_ofInt (by omega) (by omega)]
      omega
    have hret : ((env.inside name).withParams headerSize (params.zip types)).Returns Δ ret :=
      ⟨name, env.path, types, variadic, Env.withParams_path _ _ _, hf⟩
    have hparams : headerSize + cellsOf ((params.zip types).map Prod.snd)
        ≤ L.frameSize Δ (name :: env.path) := by
      rw [List.map_snd_zip (Nat.le_of_eq hlen.symm), hframe]
      exact hroom.1
    have hbody := h.mapped hfits
      ((hsized.inside_function name).withParams (Nat.succ_pos _) (Nat.le_refl _) hparams) hret
      hholds.2.1 (Nat.le_add_right _ _) (by
        rw [Env.withParams_path]
        exact Nat.le_of_eq hframe.symm)
    rw [Env.withParams_path] at hbody
    have hbody := hbody.block fun _ _ hknown => .inl (hsized.known_inside hknown)
    refine ⟨types, fun s' => .function (.seq (.seq (.single fun sites hnext _ => ?_) hbody) ?_)
      hentry hf⟩
    · have hsum : headerSize + cellsOf types + (f' - (headerSize + cellsOf types))
          = L.frameSize Δ (name :: env.path) := by omega
      refine .reserve (s := .entry name env.path types) rfl (Nat.le_add_right _ _) hsum hsmall ?_
      rw [hnext]
      show some (Site.rest L Δ (name :: env.path)) = some ⟨name :: env.path,
        headerSize + cellsOf types + (f' - (headerSize + cellsOf types)), []⟩
      rw [hsum]
      rfl
    · refine Mapped.returns (hret.of_path (Env.withParams_path _ _ _).symm) (Nat.le_add_right _ _)
        fun hclosing => ?_
      rw [hclosing]
      exact Nat.le_refl _

end

theorem EmitsTop.mapped (hfits : L.lines.length < 2 ^ 63) {env : Env} {start : Nat} {ss : List Stmt}
    {lines : List Line} (h : EmitsTop L env start ss lines) (hsized : env.Sized L Δ)
    (hholds : L.Holds start lines) (s' : Site) :
    ∃ s, Mapped L Δ env.known (definedIn env.path ss) start lines s s' := by
  induction h with
  | nil => exact ⟨s', .weaken .nil fun name outer h => by cases h.1⟩
  | skip hsilent _ ih =>
    obtain ⟨s, hrest⟩ := ih hholds
    refine ⟨s, hrest.weaken fun name outer h => (definedIn_cons h).resolve_left ?_⟩
    rintro ⟨hname, -⟩
    rw [Stmt.isDefinedIn_cons, Stmt.definition?_of_isSilent hsilent] at hname
    cases hname
  | define hs h _ ih =>
    rw [holds_append] at hholds
    obtain ⟨s₁, hrest⟩ := ih hholds.2
    obtain ⟨types, hfunction⟩ := h.mapped hfits hsized hholds.1
    refine ⟨_, ((hfunction s₁).append hrest).weaken fun name outer hdefined => ?_⟩
    exact (definedIn_cons hdefined).imp_left (definedIn_of_definition hs)

end Statements

/-- A map for all lines of a listing. -/
structure StackMap (L : Listing) (Δ : Context) (sites : Nat → Option Site) : Prop where
  start : sites 0 = some ⟨[], 0, []⟩
  placed : ∀ {pc line s}, L.lines[pc]? = some line → sites pc = some s → Placed L Δ sites pc line s
  behind : ∀ {pc s}, L.lines[pc]? = none → sites pc = some s → s.path = []

theorem Mapped.stackMap {L : Listing} {Δ : Context} {s' : Site}
    (h : Mapped L Δ .none .none 0 L.lines ⟨[], 0, []⟩ s') (hpath : s'.path = []) :
    ∃ sites, StackMap L Δ sites := by
  obtain ⟨marks, hlen, hhead, hmarks⟩ := h
  refine ⟨fun pc => (marks ++ [s'])[pc]?, by rw [← List.head?_eq_getElem?, hhead], ?_, ?_⟩
  · intro pc line s hline hs
    have hlt := (List.getElem?_eq_some_iff.mp hline).1
    rw [List.getElem?_append_left (by omega)] at hs
    have hplaced := (hmarks (fun pc => (marks ++ [s'])[pc]?) fun i s hi => by simpa using hi).2
      fun _ _ h => h.elim
    simpa using hplaced.getElem hline hs
  · intro pc s hline hs
    rw [List.getElem?_eq_none_iff] at hline
    rw [List.getElem?_append_right (by omega)] at hs
    have hmem := List.mem_of_getElem? hs
    rw [List.mem_singleton] at hmem
    rw [hmem]
    exact hpath

/-- The code of a typed program has a stack map. -/
theorem EmitsProgram.stackMap {L : Listing} {Δ : Context} {program : Program}
    (h : EmitsProgram L Δ program) (hfits : L.lines.length < 2 ^ 63) :
    ∃ sites, StackMap L Δ sites := by
  obtain @⟨env, functions, call, ret, henv, htop, hcall, hlines⟩ := h
  have hsized : env.Sized L Δ := by
    have hempty : Env.Sized L Δ { context := Δ } :=
      ⟨rfl, (fun hx => nomatch hx), (fun hc => nomatch hc)⟩
    rw [henv]
    exact hempty.hoist program
  have hpath : env.path = [] := by rw [henv, hoist_path]
  have hlength := congrArg List.length hlines
  have hholds : L.Holds 0 L.lines := fun i line hi => by simpa using hi
  rw [hlines, List.append_assoc, holds_append, holds_singleton, holds_append] at hholds
  obtain ⟨-, hfunctions, hholdsCall⟩ := hholds
  simp only [List.length_append, List.length_singleton, Nat.zero_add]
    at hlength hfunctions hholdsCall
  obtain ⟨s₁, hfunctions⟩ := htop.mapped hfits hsized hfunctions ⟨[], 0, []⟩
  have hskip := @Mapped.skip _ _ _ _ _ _ _ _ env hfunctions hpath.symm (Nat.le_refl 0) (by omega)
  have hstub : Mapped L Δ env.known .none (1 + functions.length) call ⟨[], 0, []⟩
      ⟨[], 0 + ret.size, []⟩ := by
    obtain @⟨_, _, _, _, _, _, _, level, types, variadic, entry, hlevel, hf, htypes,
      hentry, hargs⟩ := hcall
    cases hargs
    rw [hsized.context] at hf
    refine .call (s := ⟨[], 0, []⟩) hpath.symm (Nat.le_refl 0) ?_ hentry hf ?_
      (cellsOf_le htypes) .nil hholdsCall fun s' _ _ => .nil
    · rw [Env.level, hpath]
      exact Nat.sub_le _ _
    · exact ⟨level, hlevel, by rw [hpath]⟩
  -- the functions of the program are known all over it
  rw [show 1 + functions.length = 0 + (functions.length + 1) by omega] at hstub
  have hcode : (env.line .jmp 0 (Int64.ofInt (0 + 1 + functions.length : Nat)) :: functions) ++ call
      = L.lines := by
    rw [hlines, Nat.zero_add]
    rfl
  have hall : Mapped L Δ .none .none 0 L.lines ⟨[], 0, []⟩ ⟨[], 0 + ret.size, []⟩ := by
    rw [← hcode]
    refine (hskip.append hstub).block fun name outer hknown => ?_
    rw [henv] at hknown ⊢
    rcases known_hoist hknown with ⟨level, hlevel, -⟩ | hdefined
    · cases hlevel
    · rw [hoist_path]
      exact .inr (.inl hdefined)
  exact hall.stackMap rfl

end PCode.Codegen
