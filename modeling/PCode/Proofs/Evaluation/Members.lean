import PCode.Proofs.Codegen.Areas
import PCode.Proofs.Evaluation.Expressions

namespace PCode

/-- A variable, or a chain of members of it. -/
inductive Expr.RootedAt (x : String) : Expr → Prop
  | name {n} : RootedAt x (.name x n)
  | member {t field ordinal n} : RootedAt x t → RootedAt x (.member t field ordinal n)

namespace Codegen

open Evaluation (Ready Running Pushed Value Scoped)

/-- The code of an expression in which the members of a variable are taken by way of temporaries as
well. -/
def spilled (env : Env) (start : Nat) : Expr → Gen (List Item)
  | .member target _ ordinal note =>
    match ordinal.bind target.ty.memberOffset? with
    | none => fail (.noSuchMember target.ty) note.span
    | some offset => do
      let code ← spilled env start target
      let spill ← allocate target.ty.size
      return code ++ env.storeCells 0 spill target.ty.size
        ++ env.loadCells 0 (spill + offset) note.ty.size
  | e => expr env start e

theorem expr_eq_spilled {env : Env} {start : Nat} : ∀ {e : Expr}, place? env e = none →
    expr env start e = spilled env start e
  | .member target field ordinal n, h => by
    rw [spilled]
    simp only [expr, h]
    cases hoffset : ordinal.bind target.ty.memberOffset? with
    | none => rfl
    | some offset =>
      obtain ⟨k, rfl, hk⟩ := Option.bind_eq_some_iff.mp hoffset
      have htarget : place? env target = none := by
        cases hplace : place? env target with
        | none => rfl
        | some slot => simp [place?, hplace, hk] at h
      rw [expr_eq_spilled htarget]
  | .integer .., _ | .real .., _ | .text .., _ | .boolean .., _ | .name .., _ | .unary .., _
  | .binary .., _ | .assign .., _ | .cond .., _ | .lambda .., _ | .call .., _ | .array .., _
  | .index .., _ => rfl

/-- The code of a chain of members of a variable by way of temporaries; the last member starts at a
cell of the variable. -/
inductive EmitsSpilled (env : Env) (v : Slot) (f : Nat) : Expr → Nat → List Line → Nat → Prop
  | name {x n} : env.vars.get? x = some v → n.ty = v.ty →
      EmitsSpilled env v f (.name x n) 0 (env.loads (env.distance v) v.offset v.ty.size) f
  | member {f' t field k n first offset a} : EmitsSpilled env v f t first a f' →
      t.ty.memberOffset? k = some offset → offset + n.ty.size ≤ t.ty.size →
      EmitsSpilled env v f (.member t field (some k) n) (first + offset)
        (a ++ env.stores 0 f' t.ty.size ++ env.loads 0 (f' + offset) n.ty.size) (f' + t.ty.size)

section Generation

variable {Δ : Context} {Γ : Locals} {env : Env} {x : String} {e a : Expr}

theorem spilled_emits (hroot : a.RootedAt x) (hm : env.Matches Δ Γ) (ht : e.Typed Δ Γ a)
    (start : Nat) (frame : Frame) : ∃ v first lines f', env.vars.get? x = some v ∧
      a.part? = some (x, first) ∧ EmitsSpilled env v frame.size a first lines f' ∧
      spilled env start a frame = .ok (lines.map .line, { frame with size := f' }) := by
  induction hroot generalizing e with
  | @name n =>
    cases ht with
    | name hx =>
      rw [hm.vars] at hx
      obtain ⟨v, hv, hty⟩ := Option.map_eq_some_iff.mp hx
      refine ⟨v, 0, _, frame.size, hv, rfl, .name hv hty.symm, ?_⟩
      rw [← loadCells_eq_map]
      simp only [spilled, expr, bind_apply_eq_ok_iff, slot_eq_ok_iff, pure_apply_eq_ok_iff]
      exact ⟨v, frame, ⟨hv, rfl⟩, rfl, rfl⟩
  | @member t field ordinal n _ ih =>
    cases ht with
    | member ht hrecord hget hfirst =>
      obtain ⟨v, first, lines, f', hv, hpart, hemits, hspilled⟩ := ih ht
      obtain ⟨offset, hoffset⟩ := memberOffset?_isSome hrecord hget
      have hle := memberOffset_le hrecord hget hoffset
      refine ⟨v, first + offset, _, _, hv, by simp [Expr.part?, hpart, hoffset],
        .member hemits hoffset hle, ?_⟩
      rw [List.map_append, List.map_append, ← storeCells_eq_map, ← loadCells_eq_map]
      simp only [spilled, Option.bind_some, hoffset, bind_apply_eq_ok_iff, allocate_eq_ok_iff,
        pure_apply_eq_ok_iff]
      exact ⟨_, _, hspilled, _, _, ⟨rfl, rfl⟩, rfl, rfl⟩

end Generation

namespace EmitsSpilled

variable {env : Env} {v : Slot} {f f' first : Nat} {e : Expr} {lines : List Line}

variable (h : EmitsSpilled env v f e first lines f')
include h

theorem le : f ≤ f' := by
  induction h with
  | name => exact Nat.le_refl _
  | member _ _ _ ih => omega

theorem fits : first + e.ty.size ≤ v.ty.size := by
  induction h with
  | @name x n _ hty =>
    rw [show (Expr.name x n).ty = v.ty from hty]
    omega
  | @member _ t field k n _ _ _ _ _ hle ih =>
    rw [show (Expr.member t field (some k) n).ty = n.ty from rfl]
    omega

theorem place : EmitsPlace env e ⟨v.level, v.offset + first, e.ty⟩ := by
  induction h with
  | @name x n hv hty =>
    obtain ⟨level, offset, ty⟩ := v
    obtain rfl : n.ty = ty := hty
    exact .name hv rfl
  | member _ hoffset hle ih =>
    rw [← Nat.add_assoc]
    exact .member ih hoffset hle

theorem leads {L : Listing} {η : List Evaluation.Home} {σ : Evaluation.Store} {bases : List Nat}
    {start base bound : Nat} {m : Machine} (hholds : L.Holds start lines)
    (hready : Ready η σ bases f f' start m) (hbase : bases[env.distance v]? = some base)
    (hbelow : base + v.offset + v.ty.size ≤ m.top) (hbound : m.top + v.ty.size ≤ bound) :
    m.Leads L.image.code bound (Pushed η f f' (start + lines.length) m e.ty.size
      (((m.memory.read (base + v.offset) v.ty.size).drop first).take e.ty.size) σ) := by
  induction h with
  | @name x n _ hty =>
    rw [show (Expr.name x n).ty = v.ty from hty, length_loads, List.drop_zero,
      List.take_of_length_le (Nat.le_of_eq Memory.length_read)]
    exact hready.load hholds hbase (fun _ => hbelow) hbound
  | @member f' t field k n first offset a h _ hle ih =>
    have hlow := h.le
    have hfits := h.fits
    rw [List.append_assoc, holds_append, holds_append, length_stores] at hholds
    rw [show (Expr.member t field (some k) n).ty = n.ty from rfl, List.append_assoc,
      List.length_append, List.length_append, length_stores, length_loads, ← Nat.add_assoc,
      ← Nat.add_assoc]
    refine (ih hholds.1 (hready.part (Nat.le_refl _) (Nat.le_add_right _ _) hlow)).trans
      fun m₁ hrecord => ?_
    have hroom : m.top + n.ty.size ≤ bound := by omega
    have hmember := hrecord.member hready hlow hle hholds.2.1 hholds.2.2 hroom
    rwa [List.drop_take, List.take_take, List.drop_drop, Nat.min_eq_left (by omega)] at hmember

end EmitsSpilled

/-- The frames of a state as generation lays them out: from the frame of the function that runs to
those around it lead static links, and the cells of the variables in scope lie on the stack, each at
its offset in the frame of its function. Of the current frame `used` cells are given out. -/
structure Env.LaidOut (env : Env) (used : Nat) (bases : List Nat) (m : Machine) : Prop where
  base : bases.head? = some m.base
  linked : Evaluation.Linked m.memory m.top bases
  vars : ∀ x v, env.vars.get? x = some v → ∃ base, bases[env.distance v]? = some base ∧
    base + v.offset + v.ty.size ≤ m.top
  header : headerSize ≤ used
  full : m.top ≤ m.memory.capacity
  small : m.memory.capacity < 2 ^ 63
  next : m.next < 2 ^ 63

namespace Env.LaidOut

variable {env : Env} {used : Nat} {bases : List Nat} {m : Machine}

theorem of_ready {L : Listing} {context : Context} {η : List Evaluation.Home}
    {σ : Evaluation.Store} {ρ : Evaluation.Scope} {f' pc : Nat}
    (hscoped : Scoped L context η ρ env bases) (hready : Ready η σ bases used f' pc m) :
    env.LaidOut used bases m := by
  have hrunning := hready.running
  refine ⟨hrunning.base, hrunning.linked, ?_, hready.low, hrunning.full, hrunning.small,
    hrunning.next⟩
  intro x v hv
  obtain ⟨location, base, -, -, hbase, hhome⟩ := hscoped.var?_some hv
  exact ⟨base, hbase, hrunning.below _ hhome⟩

theorem ready (h : env.LaidOut used bases m) {f' : Nat}
    (hreserved : used < f' → m.base + f' ≤ m.top) : Ready [] [] bases used f' m.pc m :=
  ⟨⟨h.base, h.linked, List.forall_mem_nil _, List.forall_mem_nil _, List.forall_mem_nil _,
    List.forall_mem_nil _, h.full, h.small, h.next⟩, List.forall_mem_nil _, hreserved,
    h.header, rfl⟩

end Env.LaidOut

/-- Wherever these lines stand in a listing, a run from their start comes to their end and has
pushed the cells. Below them only cells of the frame between two offsets have changed. -/
def Delivers (lines : List Line) (f f' : Nat) (m : Machine) (cells : Value) : Prop :=
  ∀ L : Listing, L.Holds m.pc lines → ∃ m', m.Reaches L.image.code m' ∧
    Pushed [] f f' (m.pc + lines.length) m cells.length cells [] m'

section Agreement

variable {env : Env} {v : Slot} {f f' first base : Nat} {e : Expr} {lines : List Line}
  {bases : List Nat} {m : Machine}

theorem length_part {memory : Memory} {start size count : Nat} (h : first + count ≤ size) :
    (((memory.read start size).drop first).take count).length = count := by
  rw [List.length_take, List.length_drop, Memory.length_read]
  omega

theorem EmitsSpilled.delivers (h : EmitsSpilled env v f e first lines f')
    (hlaid : env.LaidOut f bases m) (hbase : bases[env.distance v]? = some base)
    (hbelow : base + v.offset + v.ty.size ≤ m.top) (hroom : m.top + v.ty.size ≤ m.memory.capacity)
    (hreserved : m.base + f' ≤ m.top) : Delivers lines f f' m
      (((m.memory.read (base + v.offset) v.ty.size).drop first).take e.ty.size) := by
  intro L hholds
  rw [length_part h.fits]
  exact (h.leads hholds (hlaid.ready fun _ => hreserved) hbase hbelow (Nat.le_refl _)).reaches hroom

theorem EmitsSpilled.delivers_direct (h : EmitsSpilled env v f e first lines f')
    (hlaid : env.LaidOut f bases m) (hbase : bases[env.distance v]? = some base)
    (hbelow : base + v.offset + v.ty.size ≤ m.top) (hroom : m.top + e.ty.size ≤ m.memory.capacity) :
    Delivers (env.loads (env.distance v) (v.offset + first) e.ty.size) f f m
      (((m.memory.read (base + v.offset) v.ty.size).drop first).take e.ty.size) := by
  intro L hholds
  have hfits := h.fits
  have hready : Ready [] [] bases f f m.pc m := hlaid.ready fun hlt => absurd hlt (Nat.lt_irrefl f)
  have hleads := hready.load hholds hbase (fun _ => by omega) (Nat.le_refl _)
  rw [← Nat.add_assoc, Evaluation.read_part rfl hfits] at hleads
  rw [length_part hfits, length_loads]
  exact hleads.reaches hroom

end Agreement

/-- A chain of members of a variable in scope is loaded at once, by code that pushes what the way by
temporaries, which is that of every other value, would push: the cells of the variable from the sum
of the offsets on, as many as the last member has. -/
theorem members_delivered_alike {Δ : Context} {Γ : Locals} {env : Env} {x : String}
    {e t field : Expr} {n : Note} {ordinal : Option Nat} {start : Nat} {frame : Frame}
    (ht : e.Typed Δ Γ (.member t field ordinal n)) (hroot : t.RootedAt x)
    (hm : env.Matches Δ Γ) :
    (∀ other, place? env other = none → expr env start other = spilled env start other) ∧
    ∃ v first direct detour f', env.vars.get? x = some v ∧
      (Expr.member t field ordinal n).part? = some (x, first) ∧
      (place? env (.member t field ordinal n)).isSome ∧
      expr env start (.member t field ordinal n) frame = .ok (direct.map .line, frame) ∧
      (∀ l ∈ direct, l.instruction.op = .lod) ∧
      spilled env start (.member t field ordinal n) frame =
        .ok (detour.map .line, { frame with size := f' }) ∧
      ∀ {bases : List Nat} {m : Machine}, env.LaidOut frame.size bases m → ∃ base cells,
        bases[env.distance v]? = some base ∧
        cells = ((m.memory.read (base + v.offset) v.ty.size).drop first).take n.ty.size ∧
        cells.length = n.ty.size ∧
        (m.top + n.ty.size ≤ m.memory.capacity →
          Delivers direct frame.size frame.size m cells) ∧
        (m.top + v.ty.size ≤ m.memory.capacity → m.base + f' ≤ m.top →
          Delivers detour frame.size f' m cells) := by
  refine ⟨fun _ => expr_eq_spilled, ?_⟩
  obtain ⟨v, first, detour, f', hv, hpart, hemits, hspilled⟩ :=
    spilled_emits (.member hroot) hm ht start frame
  have hplace := hemits.place.place?
  refine ⟨v, first, env.loads (env.distance v) (v.offset + first) n.ty.size, detour, f', hv, hpart,
    Option.isSome_of_eq_some hplace, ?_, ?_, hspilled, ?_⟩
  · simp only [expr, hplace, pure_apply_eq_ok_iff, and_true]
    exact (loadCells_eq_map _ _ _ _).symm
  · intro l hl
    obtain ⟨cell, -, rfl⟩ := List.mem_map.mp hl
    rfl
  · intro bases m hlaid
    obtain ⟨base, hbase, hbelow⟩ := hlaid.vars x v hv
    exact ⟨base, _, hbase, rfl, length_part hemits.fits,
      hemits.delivers_direct hlaid hbase hbelow, hemits.delivers hlaid hbase hbelow⟩

/-- The type of a corner of a box. -/
def pointTy : Ty :=
  .record "point" [("x", .i64), ("y", .i64)]

def boxTy : Ty :=
  .record "box" [("solid", .bool), ("corner", pointTy), ("label", .string)]

/-- Inside a function `draw` that is defined in `main`, where `main` has a variable `b`. -/
def boxEnv : Env :=
  (({ context := .empty, path := ["main"] } : Env).bind "b" headerSize boxTy).inside "draw"

/-- The checked form of `b.corner.y`. -/
def boxMember : Expr :=
  .member
    (.member (.name "b" ⟨⟨0, 1⟩, boxTy⟩) (.name "corner" ⟨⟨2, 6⟩, pointTy⟩) (some 1)
      ⟨⟨0, 8⟩, pointTy⟩)
    (.name "y" ⟨⟨9, 1⟩, .i64⟩) (some 1) ⟨⟨0, 10⟩, .i64⟩

/-- The frame of `main`, whose variable holds 11 to 14, and on top of it that of `draw`. -/
def boxState : Machine where
  memory := ⟨32, #[0, 0, 0, 11, 12, 13, 14]⟩
  base := 7
  top := 16

theorem get?_boxEnv (x : String) :
    boxEnv.vars.get? x = if "b" = x then some ⟨1, headerSize, boxTy⟩ else none :=
  Table.get?_insert [] "b" x _

theorem boxState_laidOut : boxEnv.LaidOut headerSize [7, 0, 0] boxState := by
  refine ⟨rfl, ?_, ?_, Nat.le_refl _, by decide, by decide, by decide⟩
  · exact .frame (by decide) (by decide) rfl (.frame (by decide) (by decide) rfl .ground)
  · intro x v hv
    rw [get?_boxEnv] at hv
    split at hv
    · cases hv
      exact ⟨0, rfl, by decide⟩
    · cases hv

theorem boxMember_spilled : (match spilled boxEnv 0 boxMember {} with
    | .ok (items, frame) => (items.length, frame.size)
    | .error _ => (0, 0)) = (13, 9) := by
  decide +kernel

/-- A member of a member of a variable of the function around the current one. -/
theorem members_delivered_alike_box : ∃ direct detour,
    expr boxEnv 0 boxMember {} = .ok (direct.map .line, {}) ∧
    spilled boxEnv 0 boxMember {} = .ok (detour.map .line, { size := 9 }) ∧
    detour.length = 13 ∧ boxMember.part? = some ("b", 2) ∧
    Delivers direct headerSize headerSize boxState [13] ∧
    Delivers detour headerSize 9 boxState [13] := by
  have hm : boxEnv.Matches .empty (Table.insert [] "b" boxTy) := by
    refine Env.Matches.inside (Env.Matches.bind ?_ _ _ _) _
    exact ⟨fun _ => rfl, .refl _, Context.empty_lawful⟩
  have ht : Expr.Typed .empty (Table.insert [] "b" boxTy)
      (.member (.member (.name "b" ⟨⟨0, 1⟩, .unknown⟩) (.name "corner" ⟨⟨2, 6⟩, .unknown⟩) none
        ⟨⟨0, 8⟩, .unknown⟩) (.name "y" ⟨⟨9, 1⟩, .unknown⟩) none ⟨⟨0, 10⟩, .unknown⟩) boxMember := by
    refine .member (.member (.name ?_) rfl rfl (by decide)) rfl rfl (by decide)
    rw [Table.get?_insert, if_pos rfl]
  obtain ⟨-, v, first, direct, detour, f', hv, hpart, -, hdirect, -, hdetour, hstates⟩ :=
    @members_delivered_alike _ _ _ "b" _ _ _ _ _ 0 {} ht (.member .name) hm
  rw [get?_boxEnv, if_pos rfl] at hv
  cases hv
  have hcounts := boxMember_spilled
  rw [show spilled boxEnv 0 boxMember {} = _ from hdetour] at hcounts
  obtain ⟨hlength, rfl⟩ := Prod.mk.inj hcounts
  obtain ⟨base, cells, hbase, hcells, -, hdirect', hdetour'⟩ := hstates boxState_laidOut
  obtain rfl : 0 = base := Option.some.inj hbase
  obtain rfl : 2 = first := congrArg Prod.snd (Option.some.inj hpart)
  subst hcells
  exact ⟨direct, detour, hdirect, hdetour, by rw [← hlength, List.length_map], hpart,
    hdirect' (by decide), hdetour' (by decide) (by decide)⟩

end Codegen

end PCode
