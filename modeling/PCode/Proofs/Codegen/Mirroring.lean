import PCode.Proofs.Codegen.Assembly
import PCode.Proofs.Codegen.Layout
import PCode.Proofs.Failure
import PCode.Proofs.Typing.Expressions

namespace PCode.Codegen

namespace Assembly

/-- What generation knows of the pass. -/
def frame (s : Assembly) : Frame :=
  ⟨s.image.strings, s.image.functions, s.offset⟩

def code (s : Assembly) : List Instruction :=
  s.image.code.toList

def put (s : Assembly) (i : Instruction) : Assembly :=
  { s with image := s.image.emit i }

def withCode (s : Assembly) (code : List Instruction) : Assembly :=
  { s with image := { s.image with code := code.toArray } }

@[simp] theorem code_put (s : Assembly) (i : Instruction) : (s.put i).code = s.code ++ [i] := by
  simp [code, put, Image.emit]

@[simp] theorem code_withCode (s : Assembly) (is : List Instruction) :
    (s.withCode is).code = is := by
  simp [code, withCode]

theorem length_code (s : Assembly) : s.code.length = s.image.here := by
  simp [code, Image.here]

@[simp] theorem here_put (s : Assembly) (i : Instruction) :
    (s.put i).image.here = s.image.here + 1 := by
  simp [put, Image.emit, Image.here]

@[simp] theorem here_withCode (s : Assembly) (is : List Instruction) :
    (s.withCode is).image.here = is.length := by
  simp [withCode, Image.here]

/-- What every step keeps, whether it fails or not. -/
structure Before (s s' : Assembly) : Prop where
  level : s'.level = s.level
  offset : s.offset ≤ s'.offset
  here : s.image.here ≤ s'.image.here

theorem Before.refl (s : Assembly) : s.Before s :=
  ⟨rfl, Nat.le_refl _, Nat.le_refl _⟩

theorem Before.trans {s s₁ s₂ : Assembly} (h : s.Before s₁) (h' : s₁.Before s₂) : s.Before s₂ :=
  ⟨h'.level.trans h.level, Nat.le_trans h.offset h'.offset, Nat.le_trans h.here h'.here⟩

end Assembly

/-- The calls that items leave open. -/
def opened (start : Nat) : List Item → List Pending
  | [] => []
  | .line _ :: items => opened (start + 1) items
  | .forward _ _ name span :: items => ⟨start, name, span⟩ :: opened (start + 1) items

theorem opened_append (start : Nat) (items others : List Item) :
    opened start (items ++ others) =
      opened start items ++ opened (start + items.length) others := by
  induction items generalizing start with
  | nil => rfl
  | cons item items ih =>
    have hnext : start + 1 + items.length = start + (items.length + 1) := by omega
    cases item <;> simp [opened, ih, hnext]

/-- What a pass has noted beside the code. -/
structure Notes where
  functions : Table Nat
  pending : List Pending
  extents : List Extent
  calls : List (Nat × String)

def Assembly.notes (s : Assembly) : Notes :=
  ⟨s.image.functions, s.pending, s.extents, s.calls⟩

/-- What is noted of items from an address on: the calls that they leave open, and the functions and
calls that make them a fragment. -/
structure Noted (slack start : Nat) (items : List Item) (n n' : Notes) : Prop where
  pending : n'.pending = n.pending ++ opened start items
  fragment : ∃ extents calls, n'.extents = n.extents ++ extents ∧ n'.calls = n.calls ++ calls ∧
    Fragment slack (fun _ => False) start items n.functions n'.functions extents calls

namespace Noted

variable {slack start start₁ start₂ : Nat} {n n₁ n₂ : Notes} {items items₁ items₂ : List Item}
  {env : Env}

theorem combine (h₁ : Noted slack start₁ items₁ n n₁) (h₂ : Noted slack start₂ items₂ n₁ n₂)
    (hopened : opened start items = opened start₁ items₁ ++ opened start₂ items₂)
    (hfragment : ∀ {functions functions₁ functions₂ extents extents' calls calls'},
      Fragment slack (fun _ => False) start₁ items₁ functions functions₁ extents calls →
      Fragment slack (fun _ => False) start₂ items₂ functions₁ functions₂ extents' calls' →
      Fragment slack (fun _ => False) start items functions functions₂ (extents ++ extents')
        (calls ++ calls')) :
    Noted slack start items n n₂ := by
  obtain ⟨extents, calls, hextents, hcalls, hfragment₁⟩ := h₁.fragment
  obtain ⟨extents', calls', hextents', hcalls', hfragment₂⟩ := h₂.fragment
  refine ⟨?_, extents ++ extents', calls ++ calls', ?_, ?_, hfragment hfragment₁ hfragment₂⟩
  · rw [h₂.pending, h₁.pending, hopened, List.append_assoc]
  · rw [hextents', hextents, List.append_assoc]
  · rw [hcalls', hcalls, List.append_assoc]

theorem append (h₁ : Noted slack start items₁ n n₁)
    (h₂ : Noted slack (start + items₁.length) items₂ n₁ n₂) :
    Noted slack start (items₁ ++ items₂) n n₂ :=
  h₁.combine h₂ (opened_append start items₁ items₂) Fragment.append

theorem choose (h₁ : Noted 1 (start + 1) items₁ n n₁)
    (h₂ : Noted 1 (start + 1 + items₁.length + 1) items₂ n₁ n₂) :
    Noted 1 start (choose env start items₁ items₂) n n₂ := by
  apply h₁.combine h₂ _ Fragment.choose
  simp only [Codegen.choose, opened_append, Env.item, Env.emit, opened, List.nil_append,
    List.append_nil, List.length_append, List.length_singleton]
  congr 2
  omega

theorem loop (h₁ : Noted 1 start items₁ n n₁)
    (h₂ : Noted 1 (start + items₁.length + 1) items₂ n₁ n₂) :
    Noted 1 start (items₁ ++ [env.item .jpc 0 (start + items₁.length + 1 + items₂.length + 1 : Nat)]
      ++ items₂ ++ [env.item .jmp 0 start]) n n₂ := by
  apply h₁.combine h₂ _ Fragment.loop
  simp only [opened_append, Env.item, Env.emit, opened, List.append_nil, List.length_append,
    List.length_singleton]
  congr 2

theorem function {name : String} {reserve ret : Line} (hreserve : reserve.instruction.op = .ini)
    (hret : ret.instruction.op = .ret)
    (h : Noted 1 (start + 1) items { n with functions := n.functions.insert name start } n₁) :
    Noted 0 start ([.line reserve] ++ items ++ [.line ret]) n
      { n₁ with extents := n₁.extents ++ [⟨name, start, start + items.length + 2⟩] } := by
  obtain ⟨extents, calls, hextents, hcalls, hfragment⟩ := h.fragment
  refine ⟨?_, extents ++ [⟨name, start, start + items.length + 2⟩], calls, ?_, hcalls,
    hfragment.function hreserve hret⟩
  · rw [opened_append, opened_append, h.pending]
    simp [opened]
  · rw [hextents, List.append_assoc]

theorem skipped (h : Noted 0 (start + 1) items n n₁) :
    Noted 1 start (skipped env start items) n n₁ := by
  obtain ⟨extents, calls, hextents, hcalls, hfragment⟩ := h.fragment
  exact ⟨h.pending, extents, calls, hextents, hcalls, hfragment.skipped⟩

end Noted

/-- A step that writes items. -/
structure Emitted (slack : Nat) (s s' : Assembly) (items : List Item) : Prop where
  code : s'.code = s.code ++ items.map Item.draft
  noted : Noted slack s.image.here items s.notes s'.notes

namespace Emitted

variable {slack : Nat} {s s₁ s₂ : Assembly} {items others : List Item} {env : Env}

theorem here (h : Emitted slack s s₁ items) : s₁.image.here = s.image.here + items.length := by
  rw [← s₁.length_code, ← s.length_code, h.code, List.length_append, List.length_map]

theorem quiet (hcode : s₁.image.code = s.image.code)
    (hfunctions : s₁.image.functions = s.image.functions) (hpending : s₁.pending = s.pending)
    (hextents : s₁.extents = s.extents) (hcalls : s₁.calls = s.calls) : Emitted slack s s₁ [] := by
  have hnotes : s₁.notes = s.notes := by
    simp only [Assembly.notes, hfunctions, hpending, hextents, hcalls]
  refine ⟨by simp [Assembly.code, hcode], ?_⟩
  rw [hnotes]
  exact ⟨by simp [opened], [], [], by simp, by simp, .nil⟩

theorem nil (s : Assembly) : Emitted slack s s [] :=
  quiet rfl rfl rfl rfl rfl

theorem append (h : Emitted slack s s₁ items) (h' : Emitted slack s₁ s₂ others) :
    Emitted slack s s₂ (items ++ others) := by
  have hnoted := h'.noted
  rw [h.here] at hnoted
  refine ⟨?_, h.noted.append hnoted⟩
  rw [h'.code, h.code, List.map_append, List.append_assoc]

theorem line {l : Line}
    (h : Fragment slack (fun _ => False) s.image.here [.line l] s.image.functions s.image.functions
      [] []) :
    Emitted slack s (s.put l.instruction) [.line l] :=
  ⟨s.code_put _, (List.append_nil _).symm, [], [], (List.append_nil _).symm,
    (List.append_nil _).symm, h⟩

theorem emit {op : Opcode} {level : Nat} {operand : Cell}
    (h : op ∈ [.lit, .lod, .sto, .ini, .cap, .ret]) :
    Emitted slack s (s.put ⟨op, level, operand⟩) [env.emit op level operand] :=
  line (l := { owner := env.path, instruction := ⟨op, level, operand⟩ }) (.plain h)

theorem item {op : Opcode} {level : Nat} {operand : Int}
    (h : op ∈ [.lit, .lod, .sto, .ini, .cap, .ret]) :
    Emitted slack s (s.put ⟨op, level, Int64.ofInt operand⟩) [env.item op level operand] :=
  emit h

end Emitted

/-- A step of the pass that generation takes no part in. -/
structure Emit.Writes {β : Type} (s : Assembly) (x : Emit β) (b : β) (s' : Assembly) : Prop where
  runs : x s = some (.ok b, s')
  frame : s'.frame = s.frame
  before : s.Before s'

/-- A step of the pass does what a step of generation does: both give results, and are in the same
frame again, or fail with one error. -/
inductive Mirrors {α β : Type} (s : Assembly) (g : Gen α) (x : Emit β)
    (Q : α → β → Assembly → Prop) : Prop
  | ok {a : α} {b : β} {s' : Assembly} (generates : g s.frame = .ok (a, s'.frame))
    (emits : x s = some (.ok b, s')) (before : s.Before s') (related : Q a b s') : Mirrors s g x Q
  | error {e : CodegenError} {s' : Assembly} (generates : g s.frame = .error e)
    (emits : x s = some (.error e, s')) (before : s.Before s') : Mirrors s g x Q

section Mirrors

variable {α β γ δ : Type} {s s' : Assembly} {g : Gen α} {x : Emit β} {k : α → Gen γ}
  {k' : β → Emit δ} {Q : α → β → Assembly → Prop} {Q' : γ → δ → Assembly → Prop}

theorem Emit.bind_apply (x : Emit β) (k' : β → Emit δ) (s : Assembly) : (x >>= k') s =
    match x s with
    | none => none
    | some (.error e, s) => some (.error e, s)
    | some (.ok a, s) => k' a s := rfl

theorem Emit.bind_apply_ok {b : β} (h : x s = some (.ok b, s')) : (x >>= k') s = k' b s' := by
  rw [Emit.bind_apply, h]

theorem Emit.bind_apply_error {e : CodegenError} (h : x s = some (.error e, s')) :
    (x >>= k') s = some (.error e, s') := by
  rw [Emit.bind_apply, h]

namespace Mirrors

theorem bind (h : Mirrors s g x Q) (hk : ∀ a b s', Q a b s' → s.Before s' →
    Mirrors s' (k a) (k' b) Q') : Mirrors s (g >>= k) (x >>= k') Q' := by
  cases h with
  | error hg hx hbefore =>
    apply Mirrors.error _ (Emit.bind_apply_error hx) hbefore
    rw [PCode.bind_apply, hg]
  | ok hg hx hbefore hQ =>
    cases hk _ _ _ hQ hbefore with
    | error hg' hx' hbefore' =>
      apply Mirrors.error _ ((Emit.bind_apply_ok hx).trans hx') (hbefore.trans hbefore')
      rw [PCode.bind_apply, hg]
      exact hg'
    | ok hg' hx' hbefore' hQ' =>
      apply Mirrors.ok _ ((Emit.bind_apply_ok hx).trans hx') (hbefore.trans hbefore') hQ'
      rw [PCode.bind_apply, hg]
      exact hg'

theorem look {a : α} {b : β} (hg : g s.frame = .ok (a, s.frame)) (h : Emit.Writes s x b s')
    (hQ : Q a b s') : Mirrors s g x Q := by
  apply Mirrors.ok _ h.runs h.before hQ
  rw [hg, h.frame]

theorem pure {a : α} {b : β} (h : Emit.Writes s x b s') (hQ : Q a b s') :
    Mirrors s (Pure.pure a : Gen α) x Q :=
  look rfl h hQ

theorem fail {fault : CodegenFault} {span : Span} :
    Mirrors s (Codegen.fail fault span : Gen α) (Emit.fail fault span : Emit β) Q :=
  .error rfl rfl (.refl s)

theorem step {b : β} {R : α → δ → Assembly → Prop} (h : Emit.Writes s x b s')
    (hk : Mirrors s' g (k' b) R) : Mirrors s g (x >>= k') R := by
  have hpure : Mirrors s (Pure.pure () : Gen Unit) x fun _ b' s₁ => b' = b ∧ s₁ = s' :=
    pure h ⟨rfl, rfl⟩
  refine hpure.bind (k := fun _ => g) ?_
  rintro _ _ _ ⟨rfl, rfl⟩ _
  exact hk

theorem returns {d : δ} {R : α → δ → Assembly → Prop} (h : Mirrors s g x fun a _ s' => R a d s') :
    Mirrors s g (x >>= fun _ => Pure.pure d) R := by
  cases h with
  | ok hg hx hbefore hR => exact .ok hg (Emit.bind_apply_ok hx) hbefore hR
  | error hg hx hbefore => exact .error hg (Emit.bind_apply_error hx) hbefore

theorem weaken {R : α → β → Assembly → Prop} (h : Mirrors s g x Q)
    (hR : ∀ a b s', Q a b s' → R a b s') : Mirrors s g x R := by
  cases h with
  | ok hg hx hbefore hQ => exact .ok hg hx hbefore (hR _ _ _ hQ)
  | error hg hx hbefore => exact .error hg hx hbefore

theorem map {f : α → γ} {R : γ → β → Assembly → Prop} (h : Mirrors s g x Q)
    (hQ : ∀ a b s', Q a b s' → s.Before s' → R (f a) b s') :
    Mirrors s (g >>= fun a => Pure.pure (f a)) x R := by
  have hbind : (x >>= Pure.pure) = x := by
    funext s
    rw [Emit.bind_apply]
    rcases x s with _ | ⟨_ | b, s₁⟩ <;> rfl
  rw [← hbind]
  refine h.bind fun a b s₁ hab hbefore => pure ⟨rfl, rfl, .refl s₁⟩ (hQ a b s₁ hab hbefore)

end Mirrors

end Mirrors

section Writes

variable {slack : Nat} {s s₁ s₂ : Assembly} {op : Opcode} {level : Nat} {operand : Cell} {env : Env}

namespace Emit

theorem Writes.bind {α β : Type} {x : Emit α} {k : α → Emit β} {a : α} {b : β}
    (h : Writes s x a s₁) (hk : Writes s₁ (k a) b s₂) : Writes s (x >>= k) b s₂ :=
  ⟨(bind_apply_ok h.runs).trans hk.runs, hk.frame.trans h.frame, h.before.trans hk.before⟩

theorem pure_writes {α : Type} (a : α) : Writes s (pure a) a s :=
  ⟨rfl, rfl, .refl s⟩

theorem state_writes : Writes s state s s :=
  ⟨rfl, rfl, .refl s⟩

theorem emit_writes : Writes s (emit op level operand) s.image.here (s.put ⟨op, level, operand⟩) :=
  ⟨rfl, rfl, rfl, Nat.le_refl _, by simp⟩

theorem put_writes : Writes s (put op level operand) () (s.put ⟨op, level, operand⟩) :=
  ⟨rfl, rfl, rfl, Nat.le_refl _, by simp⟩

theorem minus_writes {a b : Nat} (h : b ≤ a) : Writes s (minus a b) (a - b) s :=
  ⟨if_pos h, rfl, .refl s⟩

theorem patch_writes {index : Nat} {i : Instruction} {earlier later : List Instruction}
    (hcode : s.code = earlier ++ i :: later) (hindex : index = earlier.length) :
    Writes s (patch index operand) () (s.withCode (earlier ++ { i with operand } :: later)) := by
  subst hindex
  have hget : s.image.code[earlier.length]? = some i := by
    rw [← Array.getElem?_toList]
    simp [show s.image.code.toList = _ from hcode]
  have hset : s.image.code.setIfInBounds earlier.length { i with operand }
      = (earlier ++ { i with operand } :: later).toArray := by
    apply Array.ext'
    rw [Array.toList_setIfInBounds, show s.image.code.toList = _ from hcode]
    simp
  have hsize : s.image.here = (earlier ++ i :: later).length := by
    rw [← hcode, s.length_code]
  refine ⟨?_, rfl, rfl, Nat.le_refl _, ?_⟩
  · simp [patch, Image.patch?, hget, hset, Assembly.withCode]
  · rw [hsize]
    simp

theorem patchHere_writes {index : Nat} {i : Instruction} {earlier later : List Instruction}
    (hcode : s.code = earlier ++ i :: later) (hindex : index = earlier.length) :
    Writes s (patchHere index) ()
      (s.withCode (earlier ++ { i with operand := Int64.ofInt s.image.here } :: later)) :=
  state_writes.bind (patch_writes hcode hindex)

theorem cells_writes {offset : Nat} (hop : op = .lod ∨ op = .sto) (cells : List Nat) :
    ∃ s', Writes s (cells.forM fun cell => put op level (Int64.ofInt (offset + cell : Nat))) () s' ∧
      Emitted slack s s' (cells.map fun cell => env.item op level (offset + cell : Nat)) := by
  induction cells generalizing s with
  | nil => exact ⟨s, pure_writes (), .nil s⟩
  | cons cell cells ih =>
    let i : Instruction := ⟨op, level, Int64.ofInt (offset + cell : Nat)⟩
    obtain ⟨s', hwrites, hemitted⟩ := ih (s := s.put i)
    have hfirst : Emitted slack s (s.put i) [env.item op level (offset + cell : Nat)] := by
      apply Emitted.item
      rcases hop with rfl | rfl <;> simp
    exact ⟨s', put_writes.bind hwrites, hfirst.append hemitted⟩

theorem loadCells_writes (slack : Nat) (env : Env) (level offset size : Nat) : ∃ s',
    Writes s (loadCells level offset size) () s' ∧
      Emitted slack s s' (env.loadCells level offset size) :=
  cells_writes (.inl rfl) _

theorem storeCells_writes (slack : Nat) (env : Env) (level offset size : Nat) : ∃ s',
    Writes s (storeCells level offset size) () s' ∧
      Emitted slack s s' (env.storeCells level offset size) :=
  cells_writes (.inr rfl) _

theorem load_writes {slot : Slot} (hlevel : env.level = s.level) (hslot : slot.level ≤ env.level) :
    ∃ s', Writes s (load slot) () s' ∧ Emitted slack s s' (env.load slot) := by
  rw [hlevel] at hslot
  obtain ⟨s', hwrites, hemitted⟩ :=
    loadCells_writes (s := s) slack env (env.level - slot.level) slot.offset slot.ty.size
  rw [hlevel] at hwrites
  exact ⟨s', state_writes.bind ((minus_writes hslot).bind hwrites), hemitted⟩

theorem store_writes {slot : Slot} (hlevel : env.level = s.level) (hslot : slot.level ≤ env.level) :
    ∃ s', Writes s (store slot) () s' ∧ Emitted slack s s' (env.store slot) := by
  rw [hlevel] at hslot
  obtain ⟨s', hwrites, hemitted⟩ :=
    storeCells_writes (s := s) slack env (env.level - slot.level) slot.offset slot.ty.size
  rw [hlevel] at hwrites
  exact ⟨s', state_writes.bind ((minus_writes hslot).bind hwrites), hemitted⟩

end Emit

end Writes

/-- The levels in a scope are no deeper than the function itself. -/
structure Env.Bounded (env : Env) : Prop where
  vars : ∀ x slot, env.vars.get? x = some slot → slot.level ≤ env.level
  funs : ∀ f level, env.funs.get? f = some level → level ≤ env.level

/-- The pass does not need the names of the functions around. -/
def Env.flat (env : Env) : Env :=
  { env with path := [] }

section Env

variable {env : Env}

theorem Env.Bounded.bind (h : env.Bounded) (x : String) (offset : Nat) (ty : Ty) :
    (env.bind x offset ty).Bounded := by
  refine ⟨?_, h.funs⟩
  intro y slot hslot
  unfold Env.bind at hslot
  rw [Table.get?_insert] at hslot
  by_cases hxy : x = y
  · simp only [hxy, if_true, Option.some.injEq] at hslot
    subst hslot
    exact Nat.le_refl _
  · rw [if_neg hxy] at hslot
    exact h.vars y slot hslot

theorem Env.Bounded.inside (h : env.Bounded) (name : String) : (env.inside name).Bounded :=
  ⟨fun x slot hslot => Nat.le_succ_of_le (h.vars x slot hslot),
    fun f level hlevel => Nat.le_succ_of_le (h.funs f level hlevel)⟩

theorem Env.Bounded.hoist (h : env.Bounded) (body : List Stmt) : (hoist env body).Bounded := by
  induction body generalizing env with
  | nil => exact h
  | cons s ss ih =>
    have henter : ∀ name, Env.Bounded { env with funs := env.funs.insert name env.level } := by
      intro name
      refine ⟨h.vars, ?_⟩
      intro f level hlevel
      rw [Table.get?_insert] at hlevel
      by_cases hf : name = f
      · simp only [hf, if_true, Option.some.injEq] at hlevel
        exact Nat.le_of_eq hlevel.symm
      · rw [if_neg hf] at hlevel
        exact h.funs f level hlevel
    cases s
    case define name _ _ _ _ => exact ih (henter name)
    case defineBlock name _ _ _ _ => exact ih (henter name)
    all_goals exact ih h

theorem place?_level (h : env.Bounded) : ∀ {e : Expr} {slot : Slot},
    place? env e = some slot → slot.level ≤ env.level := by
  intro e slot
  fun_induction place? env e generalizing slot with
  | case1 x note => exact h.vars x slot
  | case2 target field ordinal note ih =>
    intro hslot
    simp only [Option.bind_eq_bind, Option.bind_eq_some_iff, Option.some.injEq] at hslot
    obtain ⟨record, hrecord, offset, -, rfl⟩ := hslot
    have hlevel : record.level ≤ env.level := ih hrecord
    exact hlevel
  | case3 => simp

theorem place?_flat (e : Expr) : place? env.flat e = place? env e := by
  fun_induction place? env e with
  | case1 x note => rfl
  | case2 target field ordinal note ih => simp [place?, ih]
  | case3 e hname hmember => exact place?.eq_3 _ e hname hmember

theorem bind_writes {s : Assembly} (hlevel : env.level = s.level) (x : String) (offset : Nat)
    (ty : Ty) : Emit.Writes s (Emit.bind env.flat x offset ty) (env.bind x offset ty).flat s := by
  rw [Env.bind, hlevel]
  exact ⟨rfl, rfl, .refl s⟩

theorem hoist_writes {s : Assembly} (hlevel : env.level = s.level) (body : List Stmt) :
    Emit.Writes s (Emit.hoist env.flat body) (hoist env body).flat s := by
  induction body generalizing env with
  | nil => exact Emit.pure_writes _
  | cons stmt stmts ih =>
    -- only definitions enter the scope, at the level that the pass has counted
    have henter : ∀ name, Emit.Writes s
        (Emit.hoist { env.flat with funs := env.funs.insert name s.level } stmts)
        (hoist { env with funs := env.funs.insert name env.level } stmts).flat s := by
      intro name
      let entered : Env := { env with funs := env.funs.insert name env.level }
      have h : Emit.Writes s (Emit.hoist entered.flat stmts) (hoist entered stmts).flat s :=
        ih hlevel
      rw [← hlevel]
      exact h
    cases stmt
    case define name _ _ _ _ => exact Emit.state_writes.bind (henter name)
    case defineBlock name _ _ _ _ => exact Emit.state_writes.bind (henter name)
    all_goals exact ih hlevel

end Env

section Expressions

variable {s : Assembly} {env : Env}

theorem slot_mirrors {x : String} {span : Span} (h : env.Bounded) :
    Mirrors s (env.slot x span) (Emit.slot env.flat x span) fun slot slot' s' =>
      slot' = slot ∧ s' = s ∧ env.vars.get? x = some slot ∧ slot.level ≤ env.level := by
  unfold Env.slot Emit.slot
  have hflat : env.flat.vars = env.vars := rfl
  rw [hflat]
  cases hslot : env.vars.get? x with
  | none => exact .fail
  | some slot => exact .pure (Emit.pure_writes slot) ⟨rfl, rfl, rfl, h.vars x slot hslot⟩

/-- The two ends of an assignment: the variable is found before the value is written, and loaded
again behind it. -/
theorem assigned_mirrors {target : Expr} (h : env.Bounded) :
    Mirrors s (assigned env target) (Emit.assigned env.flat target) fun slot slot' s' =>
      slot' = slot ∧ s' = s ∧ slot.level ≤ env.level ∧
        Emit.expr env.flat target = Emit.load slot := by
  unfold assigned Emit.assigned
  cases hname : target.name? with
  | none => exact .fail
  | some x =>
    obtain ⟨note, rfl⟩ := Expr.name?_eq_some_iff.mp hname
    have hslot : Mirrors s (env.slot x note.span) (Emit.slot env.flat x note.span) _ :=
      slot_mirrors h
    apply hslot.weaken
    rintro _ slot _ ⟨rfl, rfl, hget, hle⟩
    refine ⟨rfl, rfl, hle, ?_⟩
    rw [Emit.expr, Emit.slot, show env.flat.vars.get? x = some slot from hget]
    rfl

theorem intern_mirrors {text : String} :
    Mirrors s (intern text) (Emit.intern text) fun index index' s' =>
      index' = index ∧ Emitted 1 s s' [] :=
  .ok rfl rfl ⟨rfl, Nat.le_refl _, Nat.le_refl _⟩ ⟨rfl, .quiet rfl rfl rfl rfl rfl⟩

theorem allocate_mirrors {size : Nat} :
    Mirrors s (allocate size) (Emit.allocate size) fun offset offset' s' =>
      offset' = offset ∧ Emitted 1 s s' [] :=
  .ok rfl rfl ⟨rfl, Nat.le_add_right _ _, Nat.le_refl _⟩ ⟨rfl, .quiet rfl rfl rfl rfl rfl⟩

theorem call_mirrors {delta : Nat} {name : String} {span : Span} :
    Mirrors s (knownEntry name) (Emit.call delta name span) fun known _ s' =>
      Emitted 1 s s' [callItem env delta name span known] := by
  have hbefore : ∀ operand, s.Before (s.put ⟨.cal, delta, operand⟩) := fun _ =>
    Emit.put_writes.before
  cases hentry : s.image.functions.get? name with
  | some entry =>
    have hcalls : (callItem env delta name span (some entry)).Calls s.image.functions name :=
      ⟨rfl, entry, Table.mem_of_get? hentry, rfl⟩
    let s₁ : Assembly := { s.put ⟨.cal, delta, Int64.ofInt entry⟩ with
      calls := s.calls ++ [(s.image.here, name)] }
    have hruns : Emit.call delta name span s = some (.ok (), s₁) := by
      unfold Emit.call
      rw [Emit.bind_apply_ok Emit.state_writes.runs, Image.entry?, hentry]
      rfl
    have hgen : knownEntry name s.frame = .ok (some entry, s.frame) := by
      rw [← hentry]
      rfl
    apply Mirrors.look hgen ⟨hruns, rfl, rfl, Nat.le_refl _, (hbefore _).here⟩
    exact ⟨s.code_put _, (List.append_nil _).symm, [], [(s.image.here, name)],
      (List.append_nil _).symm, rfl, .call hcalls⟩
  | none =>
    have hcalls : (callItem env delta name span none).Calls s.image.functions name := rfl
    let s₁ : Assembly := { s.put ⟨.cal, delta, 0⟩ with
      pending := s.pending ++ [⟨s.image.here, name, span⟩]
      calls := s.calls ++ [(s.image.here, name)] }
    have hruns : Emit.call delta name span s = some (.ok (), s₁) := by
      unfold Emit.call
      rw [Emit.bind_apply_ok Emit.state_writes.runs, Image.entry?, hentry]
      rfl
    have hgen : knownEntry name s.frame = .ok (none, s.frame) := by
      rw [← hentry]
      rfl
    apply Mirrors.look hgen ⟨hruns, rfl, rfl, Nat.le_refl _, (hbefore _).here⟩
    exact ⟨s.code_put _, rfl, [], [(s.image.here, name)], (List.append_nil _).symm, rfl,
      .call hcalls⟩

/-- Both jumps of a choice are written with open operands. The pieces are those of any two steps
that go on from the level of the function. -/
theorem choose_mirrors {α β : Type} (items : α → List Item) (f : List Item → β)
    {A B : Nat → Gen α} {a b : Emit Unit} {Q : β → Unit → Assembly → Prop}
    (hA : ∀ {s : Assembly}, env.level = s.level →
      Mirrors s (A s.image.here) a fun code _ s' => Emitted 1 s s' (items code))
    (hB : ∀ {s : Assembly}, env.level = s.level →
      Mirrors s (B s.image.here) b fun code _ s' => Emitted 1 s s' (items code))
    (hlevel : env.level = s.level)
    (hQ : ∀ code s', Emitted 1 s s' code → Q (f code) () s') :
    Mirrors s
      (do
        let thenCode ← A (s.image.here + 1)
        let elseCode ← B (s.image.here + 1 + (items thenCode).length + 1)
        return f (choose env s.image.here (items thenCode) (items elseCode)))
      (Emit.choose a b) Q := by
  have hstart : (s.put ⟨.jpc, 0, 0⟩).image.here = s.image.here + 1 := s.here_put _
  have hA := hA (s := s.put ⟨.jpc, 0, 0⟩) hlevel
  rw [hstart] at hA
  unfold Emit.choose
  apply Mirrors.step Emit.emit_writes
  apply hA.bind
  intro thenCode _ s₂ hthen hbefore
  have hend : s₂.image.here = s.image.here + 1 + (items thenCode).length := by
    rw [hthen.here, hstart]
  have hwritten : (s₂.put ⟨.jmp, 0, 0⟩).code
      = s.code ++ ⟨.jpc, 0, 0⟩ :: ((items thenCode).map Item.draft ++ [⟨.jmp, 0, 0⟩]) := by
    simp [hthen.code]
  apply Mirrors.step Emit.emit_writes
  apply Mirrors.step (Emit.patchHere_writes hwritten s.length_code.symm)
  -- the first jump now leads to the second piece
  obtain ⟨s₄, hs₄⟩ : ∃ s₄, s₄ = (s₂.put ⟨.jmp, 0, 0⟩).withCode
      (s.code ++ ⟨.jpc, 0, Int64.ofInt (s₂.put ⟨.jmp, 0, 0⟩).image.here⟩
        :: ((items thenCode).map Item.draft ++ [⟨.jmp, 0, 0⟩])) := ⟨_, rfl⟩
  have helseStart : s₄.image.here = s.image.here + 1 + (items thenCode).length + 1 := by
    simp only [hs₄, Assembly.here_withCode, List.length_append, List.length_cons, List.length_map,
      List.length_nil, s.length_code]
    omega
  have hB := hB (s := s₄) (by rw [hs₄]; exact hlevel.trans hbefore.level.symm)
  rw [← hs₄, ← helseStart]
  apply hB.bind
  intro elseCode _ s₅ helse _
  have hcode : s₅.code = (s.code ++ ⟨.jpc, 0, Int64.ofInt s₄.image.here⟩
      :: (items thenCode).map Item.draft) ++ ⟨.jmp, 0, 0⟩ :: (items elseCode).map Item.draft := by
    rw [helse.code, helseStart]
    simp [hs₄, hend]
  apply Mirrors.pure (Emit.patchHere_writes hcode (by simp [s.length_code, hend]; omega))
  apply hQ
  have hthenNoted := hthen.noted
  have helseNoted := helse.noted
  rw [hstart] at hthenNoted
  rw [helseStart, hs₄] at helseNoted
  refine ⟨?_, hthenNoted.choose helseNoted⟩
  rw [Assembly.code_withCode, helse.here, helseStart]
  simp [choose, Item.draft, Env.item, Env.emit]

mutual

theorem expr_mirrors (henv : env.Bounded) : ∀ (e : Expr) {s : Assembly}, env.level = s.level →
    Mirrors s (expr env s.image.here e) (Emit.expr env.flat e) fun items _ s' =>
      Emitted 1 s s' items
  | .integer value note, s, hlevel => by
    simp only [expr, Emit.expr]
    exact .pure Emit.put_writes (.emit (by simp))
  | .real bits note, s, hlevel => by
    simp only [expr, Emit.expr]
    exact .pure Emit.put_writes (.emit (by simp))
  | .text value note, s, hlevel => by
    simp only [expr, Emit.expr]
    apply intern_mirrors.bind
    rintro index _ s₁ ⟨rfl, hquiet⟩ -
    exact .pure Emit.put_writes (hquiet.append (.item (by simp)))
  | .boolean value note, s, hlevel => by
    simp only [expr, Emit.expr]
    exact .pure Emit.put_writes (.item (by simp))
  | .name x note, s, hlevel => by
    simp only [expr, Emit.expr]
    apply (slot_mirrors henv).bind
    rintro slot slot' s' ⟨rfl, rfl, -, hslot⟩ -
    obtain ⟨s', hwrites, hemitted⟩ := Emit.load_writes hlevel hslot
    exact .pure hwrites hemitted
  | .unary op operand note, s, hlevel => by
    simp only [expr, Emit.expr]
    apply (expr_mirrors henv operand hlevel).bind
    intro code _ s₁ hcode _
    cases unaryOperator? op operand.ty with
    | none => exact .pure (Emit.pure_writes ()) hcode
    | some operator => exact .pure Emit.put_writes (hcode.append (.line .operation))
  | .binary op left right note, s, hlevel => by
    simp only [expr, Emit.expr]
    apply (expr_mirrors henv left hlevel).bind
    intro leftCode _ s₁ hleft hbefore
    rw [← hleft.here]
    apply (expr_mirrors henv right (hlevel.trans hbefore.level.symm)).bind
    intro rightCode _ s₂ hright _
    exact .pure Emit.put_writes ((hleft.append hright).append (.line .operation))
  | .member target field ordinal note, s, hlevel => by
    simp only [expr, Emit.expr, place?_flat]
    cases hplace : place? env (.member target field ordinal note) with
    | some slot =>
      obtain ⟨s', hwrites, hemitted⟩ := Emit.load_writes hlevel (place?_level henv hplace)
      exact .pure hwrites hemitted
    | none =>
      cases ordinal.bind target.ty.memberOffset? with
      | none => exact .fail
      | some offset =>
        apply (expr_mirrors henv target hlevel).bind
        intro code _ s₁ hcode _
        apply allocate_mirrors.bind
        rintro _ spill s₂ ⟨rfl, hquiet⟩ -
        obtain ⟨s₃, hstores, hstored⟩ :=
          Emit.storeCells_writes (s := s₂) 1 env 0 spill target.ty.size
        obtain ⟨s₄, hloads, hloaded⟩ :=
          Emit.loadCells_writes (s := s₃) 1 env 0 (spill + offset) note.ty.size
        apply Mirrors.pure (hstores.bind hloads)
        exact (hcode.append (hquiet.append hstored)).append hloaded
  | .assign target value note, s, hlevel => by
    simp only [expr, Emit.expr]
    apply (assigned_mirrors henv).bind
    rintro _ slot _ ⟨rfl, rfl, hslot, hagain⟩ -
    apply (expr_mirrors henv value hlevel).bind
    intro code _ s₁ hcode hbefore
    have hlevel₁ := hlevel.trans hbefore.level.symm
    obtain ⟨s₂, hstores, hstored⟩ := Emit.store_writes hlevel₁ hslot
    have hlevel₂ := hlevel₁.trans hstores.before.level.symm
    obtain ⟨s₃, hloads, hloaded⟩ := Emit.load_writes hlevel₂ hslot
    rw [hagain]
    exact .pure (hstores.bind hloads) ((hcode.append hstored).append hloaded)
  | .cond test thenValue elseValue note, s, hlevel => by
    simp only [expr, Emit.expr]
    apply (expr_mirrors henv test hlevel).bind
    intro testCode _ s₁ htest hbefore
    rw [← htest.here]
    apply choose_mirrors id (testCode ++ ·) (A := fun start => expr env start thenValue)
      (B := fun start => expr env start elseValue) (expr_mirrors henv thenValue)
      (expr_mirrors henv elseValue) (hlevel.trans hbefore.level.symm)
    intro code s' hcode
    exact htest.append hcode
  | .call callee args note, s, hlevel => by
    simp only [expr, Emit.expr]
    show Mirrors s (if env.vars.contains callee then _ else _)
      (if env.vars.contains callee then _ else if env.context.isConstructor callee then _ else
        match env.funs.get? callee with | none => _ | some level => _) _
    by_cases hvar : env.vars.contains callee
    · rw [if_pos hvar, if_pos hvar]
      exact .fail
    rw [if_neg hvar, if_neg hvar]
    by_cases hcons : env.context.isConstructor callee
    · rw [if_pos hcons, if_pos hcons]
      exact exprs_mirrors henv args hlevel
    rw [if_neg hcons, if_neg hcons]
    cases hfun : env.funs.get? callee with
    | none => exact .fail
    | some level =>
      have hle : level ≤ s.level := hlevel ▸ henv.funs callee level hfun
      -- the frame is opened before the arguments, so the distance is taken here
      have hcap : Emitted 1 s (s.put ⟨.cap, s.level - level, Int64.ofInt 0⟩)
          [env.item .cap (s.level - level) 0] := .item (by simp)
      have hargs := exprs_mirrors henv args (s := s.put ⟨.cap, s.level - level, 0⟩) hlevel
      rw [s.here_put] at hargs
      rw [hlevel]
      apply Mirrors.step Emit.state_writes
      apply Mirrors.step (Emit.minus_writes hle)
      apply Mirrors.step Emit.put_writes
      apply hargs.bind
      intro code _ s₂ hcode _
      apply call_mirrors.map
      intro known _ s₃ hcall _
      exact (hcap.append hcode).append hcall
  | .lambda _ _ note, s, hlevel => by
    simp only [expr, Emit.expr]
    exact .fail
  | .array _ note, s, hlevel => by
    simp only [expr, Emit.expr]
    exact .fail
  | .index _ _ note, s, hlevel => by
    simp only [expr, Emit.expr]
    exact .fail

theorem exprs_mirrors (henv : env.Bounded) : ∀ (es : List Expr) {s : Assembly},
    env.level = s.level → Mirrors s (exprs env s.image.here es) (Emit.exprs env.flat es)
      fun items _ s' => Emitted 1 s s' items
  | [], s, hlevel => by
    simp only [exprs, Emit.exprs]
    exact .pure (Emit.pure_writes ()) (.nil s)
  | e :: es, s, hlevel => by
    simp only [exprs, Emit.exprs]
    apply (expr_mirrors henv e hlevel).bind
    intro code _ s₁ hcode hbefore
    rw [← hcode.here]
    apply (exprs_mirrors henv es (hlevel.trans hbefore.level.symm)).map
    intro rest _ s₂ hrest _
    exact hcode.append hrest

end

end Expressions

end PCode.Codegen
