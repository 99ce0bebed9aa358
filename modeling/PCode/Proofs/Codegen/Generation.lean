import PCode.Diagnostic
import PCode.Proofs.Codegen.Linking
import PCode.Proofs.Records.Tiling
import PCode.Proofs.Typing.Statements

namespace PCode

theorem BinaryOp.Takes.sizes {op : BinaryOp} {τ σ : Ty} (h : op.Takes τ σ) :
    τ.size = 1 ∧ σ.size = 1 := by
  cases h with
  | arithmetic _ hτ | order _ hτ =>
    simp only [List.mem_cons, List.not_mem_nil, or_false] at hτ
    rcases hτ with rfl | rfl <;> exact ⟨rfl, rfl⟩
  | equality _ hτ =>
    simp only [List.mem_cons, List.not_mem_nil, or_false] at hτ
    rcases hτ with rfl | rfl | rfl <;> exact ⟨rfl, rfl⟩
  | remainder | logic => exact ⟨rfl, rfl⟩

theorem UnaryOp.Takes.size {op : UnaryOp} {τ : Ty} (h : op.Takes τ) : τ.size = 1 := by
  cases h with
  | sign _ hτ =>
    simp only [List.mem_cons, List.not_mem_nil, or_false] at hτ
    rcases hτ with rfl | rfl <;> rfl
  | not => rfl

namespace Codegen

variable {frame frame' : Frame} {env : Env} {start : Nat}

/-- The scope of generation is that of typing. -/
structure Env.Matches (env : Env) (Δ : Context) (Γ : Locals) : Prop where
  vars : ∀ x, Γ.get? x = (env.vars.get? x).map Slot.ty
  context : Δ.Extends env.context
  lawful : env.context.Lawful

namespace Env.Matches

variable {env : Env} {Δ Δ' : Context} {Γ : Locals}

theorem bind (h : env.Matches Δ Γ) (x : String) (offset : Nat) (ty : Ty) :
    (env.bind x offset ty).Matches Δ (Γ.insert x ty) := by
  refine ⟨?_, h.context, h.lawful⟩
  intro y
  unfold Env.bind
  rw [Table.get?_insert, Table.get?_insert]
  by_cases hxy : x = y
  · simp [hxy]
  · simp [hxy, h.vars y]

theorem earlier (h : env.Matches Δ' Γ) (hΔ : Δ.Extends Δ') : env.Matches Δ Γ :=
  ⟨h.vars, hΔ.trans h.context, h.lawful⟩

theorem inside (h : env.Matches Δ Γ) (name : String) : (env.inside name).Matches Δ Γ :=
  ⟨h.vars, h.context, h.lawful⟩

theorem withParams (params : List (String × Ty)) : ∀ {env : Env} {Γ : Locals} (offset : Nat),
    env.Matches Δ Γ → (env.withParams offset params).Matches Δ (Γ.bindAll params) := by
  induction params with
  | nil => intro env Γ offset h; exact h
  | cons param params ih => intro env Γ offset h; exact ih _ (h.bind param.1 offset param.2)

end Env.Matches

theorem Env.Matches.hoist {env : Env} {Δ : Context} {Γ : Locals} (h : env.Matches Δ Γ)
    (body : List Stmt) : (hoist env body).Matches Δ Γ := by
  obtain ⟨funs, hfuns⟩ := hoist_eq env body
  rw [hfuns]
  exact ⟨h.vars, h.context, h.lawful⟩

theorem sizeMembers_eq (members : List (String × Ty)) :
    Ty.sizeMembers members = cellsOf (members.map Prod.snd) := by
  induction members with
  | nil => rfl
  | cons member members ih => simp [Ty.sizeMembers, cellsOf, ih]

theorem size_record (name : String) (members : List (String × Ty)) :
    (Ty.record name members).size = cellsOf (members.map Prod.snd) := by
  rw [Ty.size, sizeMembers_eq]

section Members

variable {record : Ty} {name field : String} {members : List (String × Ty)} {index offset : Nat}
  {τ : Ty} (h : record = .record name members) (hm : members[index]? = some (field, τ))
include h hm

theorem memberOffset_le (ho : record.memberOffset? index = some offset) :
    offset + τ.size ≤ record.size := by
  subst h
  exact Ty.memberOffset?_add_le ho (Ty.memberTy?_eq_some_iff.mpr ⟨field, hm⟩)

theorem memberOffset?_isSome : ∃ offset, record.memberOffset? index = some offset := by
  obtain ⟨hlt, -⟩ := List.getElem?_eq_some_iff.mp hm
  simp [h, Ty.memberOffset?, hlt]

end Members

theorem typedArgs_types {Δ : Context} {Γ : Locals} {params : List Ty} {args args' : List Expr}
    (h : Expr.TypedArgs Δ Γ params args args') :
    params <+: args'.map Expr.ty ∧ args'.length = args.length := by
  induction args' generalizing params args with
  | nil => cases h; exact ⟨List.prefix_rfl, rfl⟩
  | cons a as ih =>
    cases h with
    | value _ hrest =>
      have hrest := ih hrest
      exact ⟨by simpa using hrest.1, by simpa using hrest.2⟩
    | lambda _ _ _ hrest =>
      have hrest := ih hrest
      exact ⟨by simpa [Expr.ty, Expr.note] using hrest.1, by simpa using hrest.2⟩
    | extra _ hrest => exact ⟨List.nil_prefix, by simpa using (ih hrest).2⟩

theorem place_emits {Δ : Context} {Γ : Locals} {env : Env} (hm : env.Matches Δ Γ) {a e : Expr}
    {slot : Slot} : e.Typed Δ Γ a → place? env a = some slot → EmitsPlace env a slot
  | .name hx, hp => by
    simp only [place?] at hp
    rw [hm.vars, hp] at hx
    exact .name hp (Option.some.inj hx).symm
  | .member ht hrecord hget _, hp => by
    simp only [place?, Option.bind_eq_bind, Option.bind_eq_some_iff, Option.some.injEq] at hp
    obtain ⟨record, hslot, offset, hoffset, rfl⟩ := hp
    exact .member (place_emits hm ht hslot) hoffset (memberOffset_le hrecord hget hoffset)
  | .integer, hp | .real, hp | .text, hp | .boolean, hp | .unary _ _, hp | .binary _ _ _ _, hp
  | .assign _ _, hp | .cond _ _ _ _ _, hp | .call _ _ _, hp | .array _ _, hp
  | .index _ _ _ _, hp => by
    simp [place?] at hp

theorem findIdx?_extend {pool whole : Pool} {text : String} {index : Nat}
    (hp : pool <+: whole) (h : pool.findIdx? (· == text) = some index) :
    whole.findIdx? (· == text) = some index := by
  obtain ⟨rest, rfl⟩ := hp
  rw [List.findIdx?_append, h]
  rfl

theorem intern_grows (pool : Pool) (text : String) : pool <+: (pool.intern text).2 := by
  unfold Pool.intern
  split
  · exact List.prefix_rfl
  · exact List.prefix_append _ _

theorem findIdx?_intern (pool : Pool) (text : String) :
    (pool.intern text).2.findIdx? (· == text) = some (pool.intern text).1 := by
  unfold Pool.intern
  split
  · assumption
  · rename_i h
    rw [List.findIdx?_append, h]
    simp

mutual

theorem expr_generated {Δ : Context} {Γ : Locals} {env : Env} (hm : env.Matches Δ Γ) {e a : Expr}
    {start : Nat} {frame frame' : Frame} {items : List Item} :
    e.Typed Δ Γ a → expr env start a frame = .ok (items, frame') →
      Generated [] frame frame' items fun L lines =>
        EmitsExpr L env start frame.size a lines frame'.size
  | .integer, h => by
    simp only [expr, pure_apply_eq_ok_iff] at h
    obtain ⟨rfl, rfl⟩ := h
    exact .pure link_emit fun _ => .integer rfl
  | .real, h => by
    simp only [expr, pure_apply_eq_ok_iff] at h
    obtain ⟨rfl, rfl⟩ := h
    exact .pure link_emit fun _ => .real rfl
  | .boolean, h => by
    simp only [expr, pure_apply_eq_ok_iff] at h
    obtain ⟨rfl, rfl⟩ := h
    exact .pure link_item fun _ => .boolean rfl
  | .text (v := v), h => by
    simp only [expr, bind_apply_eq_ok_iff, intern_eq_ok_iff, pure_apply_eq_ok_iff] at h
    obtain ⟨_, _, ⟨rfl, rfl⟩, rfl, rfl⟩ := h
    refine ⟨⟨⟨[], rfl, rfl⟩, intern_grows _ _⟩, ?_⟩
    intro L lines hL hlink
    rw [link_item] at hlink
    subst hlink
    exact .text rfl (findIdx?_extend hL.strings (findIdx?_intern _ v))
  | .name hx, h => by
    simp only [expr, bind_apply_eq_ok_iff, slot_eq_ok_iff, pure_apply_eq_ok_iff] at h
    obtain ⟨slot, _, ⟨hslot, rfl⟩, rfl, rfl⟩ := h
    exact .pure link_loadCells fun _ => .place (place_emits hm (.name hx) hslot)
  | @Expr.Typed.unary _ _ op _ o _ ht hop, h => by
    simp only [expr, bind_apply_eq_ok_iff] at h
    obtain ⟨code, mid, ho, h⟩ := h
    have ih := expr_generated hm ht ho
    cases hoperator : unaryOperator? op o.ty with
    | none =>
      simp only [hoperator, pure_apply_eq_ok_iff] at h
      obtain ⟨rfl, rfl⟩ := h
      cases op with
      | plus => exact ih.imp fun _ _ he => .plus he hop.size hop.size
      | neg | not => simp [unaryOperator?] at hoperator
    | some operator =>
      simp only [hoperator, pure_apply_eq_ok_iff] at h
      obtain ⟨rfl, rfl⟩ := h
      refine (ih.followed link_emit).imp ?_
      rintro L _ ⟨la, rfl, -, ha⟩
      exact .unary ha hoperator hop.size hop.size
  | .binary hl hr hsame hop, h => by
    simp only [expr, bind_apply_eq_ok_iff, pure_apply_eq_ok_iff] at h
    obtain ⟨codeL, mid, hcl, codeR, mid', hcr, rfl, rfl⟩ := h
    have ihl := expr_generated hm hl hcl
    have ihr := expr_generated hm hr hcr
    refine ((ihl.append ihr).followed link_emit).imp ?_
    rintro L _ ⟨_, rfl, -, la, lb, rfl, hla, ha, hb⟩
    rw [← hla] at hb
    refine .binary ha hb hop.sizes.1 ?_ hop.sizes.2
    rw [hsame]
    exact hop.sizes.1
  | @Expr.Typed.member _ _ e t _ _ field index τ fn ordinal n ht hrecord hget hfirst, h => by
    have hall : (Expr.member e (.name field fn) ordinal n).Typed Δ Γ _ :=
      .member ht hrecord hget hfirst
    cases hplace : place? env
        (.member t (.name field { fn with ty := τ }) (some index) { n with ty := τ }) with
    | some slot =>
      simp only [expr, hplace, pure_apply_eq_ok_iff] at h
      obtain ⟨rfl, rfl⟩ := h
      exact .pure link_loadCells fun _ => .place (place_emits hm hall hplace)
    | none =>
      obtain ⟨offset, hoffset⟩ := memberOffset?_isSome hrecord hget
      simp only [expr, hplace, Option.bind_some, hoffset, bind_apply_eq_ok_iff, allocate_eq_ok_iff,
        pure_apply_eq_ok_iff] at h
      obtain ⟨code, mid, hc, spill, _, ⟨rfl, rfl⟩, rfl, rfl⟩ := h
      have ih := expr_generated hm ht hc
      refine (((ih.resize _).followed link_storeCells).followed link_loadCells).imp ?_
      rintro L _ ⟨_, rfl, -, la, rfl, -, hla⟩
      have hvalue : place? env t = none := by
        cases ht' : place? env t with
        | none => rfl
        | some slot => simp [place?, ht', hoffset] at hplace
      exact .spill hla hvalue hoffset (memberOffset_le hrecord hget hoffset)
  | .assign hx hv, h => by
    simp only [expr, assigned_name, bind_apply_eq_ok_iff, slot_eq_ok_iff,
      pure_apply_eq_ok_iff] at h
    obtain ⟨slot, _, ⟨hslot, rfl⟩, code, mid, hc, rfl, rfl⟩ := h
    have ih := expr_generated hm hv hc
    rw [hm.vars, hslot] at hx
    have hty := (Option.some.inj hx).symm
    refine ((ih.followed link_storeCells).followed link_loadCells).imp ?_
    rintro L _ ⟨_, rfl, -, la, rfl, -, ha⟩
    exact .assign hslot ha hty hty
  | .cond hc hbool ht he hsame, h => by
    simp only [expr, bind_apply_eq_ok_iff, pure_apply_eq_ok_iff] at h
    obtain ⟨codeC, mid, hcc, codeT, mid', hct, codeE, mid'', hce, rfl, rfl⟩ := h
    have ihc := expr_generated hm hc hcc
    have iht := expr_generated hm ht hct
    have ihe := expr_generated hm he hce
    refine (ihc.append (iht.choose ihe)).imp ?_
    rintro L _ ⟨la, _, rfl, hla, hC, lt, le, rfl, hlt, hT, hE⟩
    rw [← hla] at hT hE ⊢
    rw [← hlt] at hE
    exact .cond hC hT hE (by rw [hbool]; rfl) rfl hsame
  | @Expr.Typed.call _ _ c params variadic ret _ args _ hcallee hcount hargs, h => by
    have htypes := typedArgs_types hargs
    simp only [expr] at h
    split at h
    · simp at h
    rename_i hvar
    have hnone : env.vars.get? c = none := by simpa [Table.contains] using hvar
    have hf : env.context.function? c = some (.function params variadic ret) := by
      cases hcallee with
      | bound hx => simp [hm.vars, hnone] at hx
      | declared _ hf => exact hm.context.functions hf
    split at h
    · rename_i hcon
      refine (exprs_generated hm hargs h).imp fun L lines hall => ?_
      refine .construct hnone hcon hall ?_
      obtain ⟨τ, hτ⟩ := Option.isSome_iff_exists.mp hcon
      obtain ⟨members, rfl, hf'⟩ := hm.lawful c τ hτ
      obtain ⟨rfl, rfl, rfl⟩ : params = members.map Prod.snd ∧ variadic = false
          ∧ ret = .record c members := by
        rw [hf] at hf'
        simpa using hf'
      have hlen : args.length ≤ (members.map Prod.snd).length := by
        rw [htypes.2]
        exact Nat.le_of_not_lt fun hlt => Bool.noConfusion (hcount hlt)
      have hall := htypes.1.eq_of_length_le (by simpa using hlen)
      show (Ty.record c members).size = _
      rw [size_record, hall]
    · rename_i hcon
      cases hlevel : env.funs.get? c with
      | none => simp [hlevel] at h
      | some level =>
        simp only [hlevel] at h
        simp only [bind_apply_eq_ok_iff, knownEntry_eq_ok_iff, pure_apply_eq_ok_iff] at h
        obtain ⟨code, mid, hc, _, _, ⟨rfl, rfl⟩, rfl, rfl⟩ := h
        have ih := exprs_generated hm hargs hc
        refine (((Generated.emit link_item).append ih).append .call).imp ?_
        rintro L _ ⟨_, _, rfl, -, ⟨_, la, rfl, -, rfl, ha⟩, entry, hentry, rfl⟩
        exact .call hnone (by simpa using hcon) (.mk hlevel hf htypes.1 hentry ha)
  | .array _ _, h | .index _ _ _ _, h => by
    simp [expr] at h

theorem exprs_generated {Δ : Context} {Γ : Locals} {env : Env} (hm : env.Matches Δ Γ)
    {es as : List Expr} {params : List Ty} {start : Nat} {frame frame' : Frame}
    {items : List Item} :
    Expr.TypedArgs Δ Γ params es as → exprs env start as frame = .ok (items, frame') →
      Generated [] frame frame' items fun L lines =>
        EmitsExprs L env start frame.size as lines frame'.size
  | .nil, h => by
    simp only [exprs, pure_apply_eq_ok_iff] at h
    obtain ⟨rfl, rfl⟩ := h
    exact .pure link_nil fun _ => .nil
  | .value ha has, h | .extra ha has, h => by
    simp only [exprs, bind_apply_eq_ok_iff, pure_apply_eq_ok_iff] at h
    obtain ⟨code, mid, hc, rest, mid', hr, rfl, rfl⟩ := h
    refine ((expr_generated hm ha hc).append (exprs_generated hm has hr)).imp ?_
    rintro L _ ⟨la, lb, rfl, hla, hA, hB⟩
    rw [← hla] at hB
    exact .cons hA hB
  | .lambda _ _ _ _, h => by
    simp [exprs, expr, bind_apply_eq_ok_iff] at h

end

theorem binding_generated {Δ : Context} {Γ : Locals} {env' : Env} (hm : env.Matches Δ Γ)
    {x : String} {a e : Expr} {items : List Item} (ht : e.Typed Δ Γ a)
    (h : binding env start x a frame = .ok ((items, env'), frame')) :
    env' = env.bind x frame.size a.ty ∧ ∃ code,
      items = code ++ env.storeCells 0 frame.size a.ty.size ∧
      Generated [] frame frame' code fun L lines =>
        EmitsExpr L env start (frame.size + a.ty.size) a lines frame'.size := by
  simp only [binding, bind_apply_eq_ok_iff, allocate_eq_ok_iff, pure_apply_eq_ok_iff,
    Prod.mk.injEq] at h
  obtain ⟨_, _, ⟨rfl, rfl⟩, code, mid, hc, ⟨rfl, rfl⟩, rfl⟩ := h
  have ih := expr_generated hm ht hc
  exact ⟨rfl, code, rfl, ⟨ih.grows.functions, ih.grows.strings⟩, ih.emits⟩

theorem bindings_generated {Δ : Context} {Γ Γ' : Locals} {env env' : Env}
    {es as : List (String × Expr)} {start : Nat} {frame frame' : Frame} {items : List Item}
    (hm : env.Matches Δ Γ) (hes : TypedBindings Δ Γ es as Γ')
    (h : bindings env start as frame = .ok ((items, env'), frame')) :
    env'.Matches Δ Γ' ∧ Generated [] frame frame' items fun L lines =>
      EmitsBindings L env start frame.size as lines env' frame'.size := by
  induction hes generalizing env start frame items with
  | nil =>
    simp only [bindings, pure_apply_eq_ok_iff, Prod.mk.injEq] at h
    obtain ⟨⟨rfl, rfl⟩, rfl⟩ := h
    exact ⟨hm, .pure link_nil fun _ => .nil⟩
  | cons ha _ ih =>
    simp only [bindings, bind_apply_eq_ok_iff, pure_apply_eq_ok_iff, Prod.mk.injEq,
      Prod.exists] at h
    obtain ⟨_, _, mid, hb, rest, _, _, hr, ⟨rfl, rfl⟩, rfl⟩ := h
    obtain ⟨rfl, code, rfl, hcode⟩ := binding_generated hm ha hb
    obtain ⟨hm', hrest⟩ := ih (hm.bind _ _ _) hr
    refine ⟨hm', ((hcode.followed link_storeCells).append hrest).imp ?_⟩
    rintro L _ ⟨_, lr, rfl, hlen, ⟨la, rfl, -, hA⟩, hB⟩
    rw [← hlen] at hB
    exact .cons hA hB

@[simp] theorem parameters_eq_ok_iff {params : List (String × Ty)} {env env' : Env}
    {frame frame' : Frame} : parameters env params frame = .ok (env', frame') ↔
      env' = env.withParams frame.size params ∧
        frame' = { frame with size := frame.size + cellsOf (params.map Prod.snd) } := by
  induction params generalizing env frame with
  | nil => simp [parameters, pure_apply_eq_ok_iff, Env.withParams, cellsOf]
  | cons param params ih =>
    simp only [parameters, bind_apply_eq_ok_iff, allocate_eq_ok_iff]
    constructor
    · rintro ⟨_, _, ⟨rfl, rfl⟩, h⟩
      simpa [Env.withParams, cellsOf, Nat.add_assoc] using ih.mp h
    · rintro ⟨rfl, rfl⟩
      refine ⟨_, _, ⟨rfl, rfl⟩, ih.mpr ?_⟩
      simp [Env.withParams, cellsOf, Nat.add_assoc]

theorem signature_eq_ok_iff {name : String} {span : Span} {types : List Ty} {result : Ty} :
    signature env name span frame = .ok ((types, result), frame') ↔
      (∃ variadic, env.context.function? name = some (.function types variadic result)) ∧
        frame' = frame := by
  unfold signature
  cases env.context.function? name with
  | none => simp
  | some τ =>
    cases τ with
    | function types' variadic' result' =>
      simp only [pure_apply_eq_ok_iff, Prod.mk.injEq, Option.some.injEq, Ty.function.injEq]
      grind
    | _ => simp

section Function

variable {Δ : Context} {Γ : Locals} {env : Env} {start : Nat} {name : String} {params : List String}
  {types : List Ty} {variadic : Bool} {ret : Ty} {names : List String} {B : Body} {closing : Bool}

theorem function_generated {span : Span} {body : Env → Nat → Gen (List Item)}
    (hf : env.context.function? name = some (.function types variadic ret))
    (hlen : params.length = types.length)
    (hbody : ∀ {frame frame' : Frame} {items : List Item},
      frame.size = headerSize + cellsOf types →
      body ((env.inside name).withParams headerSize (params.zip types)) (start + 1) frame
        = .ok (items, frame') →
      Generated names frame frame' items fun L lines =>
        EmitsBody L ret ((env.inside name).withParams headerSize (params.zip types)) (start + 1)
          (headerSize + cellsOf types) B lines frame'.size closing)
    {frame frame' : Frame} {items : List Item}
    (h : function env start name params span closing body frame = .ok (items, frame')) :
    frame'.size = frame.size ∧ Generated (name :: names) frame frame' items fun L lines =>
      EmitsFunction L env start name params B lines := by
  simp only [function, bind_apply_eq_ok_iff, pure_apply_eq_ok_iff, get_eq_ok_iff, set_eq_ok_iff,
    parameters_eq_ok_iff, signature_eq_ok_iff, Prod.exists] at h
  obtain ⟨types', ret', _, ⟨⟨variadic', hf'⟩, rfl⟩, _, outer, ⟨rfl, rfl⟩, _, _, rfl, _, _,
    ⟨rfl, rfl⟩, _, _, ⟨rfl, rfl⟩, code, _, hcode, _, last, ⟨rfl, rfl⟩, _, _, rfl, rfl, rfl⟩ := h
  obtain ⟨rfl, rfl, rfl⟩ : types' = types ∧ variadic' = variadic ∧ ret' = ret := by
    rw [hf] at hf'
    simpa [eq_comm] using hf'
  have hsnd : (params.zip types').map Prod.snd = types' := List.map_snd_zip (by omega)
  have hgen := hbody (by simp [hsnd]) hcode
  refine ⟨rfl, ?_, ?_⟩
  · have hname : Frame.Grows [name] outer
        { outer with
          functions := outer.functions.insert name start
          size := headerSize + cellsOf ((params.zip types').map Prod.snd) } :=
      ⟨⟨[(name, start)], rfl, rfl⟩, List.prefix_rfl⟩
    exact (hname.trans hgen.grows).resize outer.size
  · intro L lines hL hlink
    obtain ⟨_, lr, hic, hlr, rfl⟩ := link_append.mp hlink
    obtain ⟨li, lc, hli, hlc, rfl⟩ := link_append.mp hic
    have hcovers : L.Covers last := ⟨hL.functions, hL.strings, hL.nodup⟩
    have hstart : L.functions.get? name = some start := by
      refine Table.get?_of_suffix (hcovers.earlier hgen.grows).functions hL.nodup ?_
      simp
    rw [link_item] at hli
    rw [link_line] at hlr
    subst hli hlr
    have hall := EmitsFunction.mk hf' hlen hstart (hgen.emits hcovers hlc)
    simpa [Env.line, Env.inside, hsnd] using hall

theorem withBindings_generated {Γ' : Locals} {locals locals' : List (String × Expr)}
    {body : Env → Nat → Gen (List Item)}
    (Q : Listing → Env → Nat → Nat → List Line → Nat → Prop) (hm : env.Matches Δ Γ)
    (hlocals : TypedBindings Δ Γ locals locals' Γ')
    (hbody : ∀ {env' : Env} {start : Nat} {frame frame' : Frame} {items : List Item},
      env'.Matches Δ Γ' → body env' start frame = .ok (items, frame') →
      Generated names frame frame' items fun L lines =>
        Q L env' start frame.size lines frame'.size)
    {frame frame' : Frame} {items : List Item}
    (h : withBindings env start locals' body frame = .ok (items, frame')) :
    Generated names frame frame' items fun L lines => ∃ a b env' f, lines = a ++ b ∧
      EmitsBindings L env start frame.size locals' a env' f ∧
      Q L env' (start + a.length) f b frame'.size := by
  simp only [withBindings, bind_apply_eq_ok_iff, pure_apply_eq_ok_iff, Prod.exists] at h
  obtain ⟨code, env', mid, hcode, rest, _, hrest, rfl, rfl⟩ := h
  obtain ⟨hm', hb⟩ := bindings_generated hm hlocals hcode
  refine (hb.append (hbody hm' hrest)).imp ?_
  rintro L _ ⟨a, b, rfl, hlen, hA, hB⟩
  rw [← hlen] at hB
  exact ⟨a, b, env', mid.size, rfl, hA, hB⟩

theorem equation_generated {span : Span} {locals locals' : List (String × Expr)} {e a : Expr}
    {Γ' : Locals} (hm : env.Matches Δ Γ)
    (hf : env.context.function? name = some (.function types variadic a.ty))
    (hlen : params.length = types.length)
    (hlocals : TypedBindings Δ (Γ.bindAll (params.zip types)) locals locals' Γ')
    (ha : e.Typed Δ Γ' a) {frame frame' : Frame} {items : List Item}
    (h : equation env start name params locals' a span frame = .ok (items, frame')) :
    frame'.size = frame.size ∧ Generated [name] frame frame' items fun L lines =>
      EmitsFunction L env start name params (.value locals' a) lines := by
  refine function_generated hf hlen ?_ h
  intro frame frame' items hsize hbody
  have hinner := (hm.inside name).withParams (params.zip types) headerSize
  refine (withBindings_generated (fun L env start f lines f' => EmitsExpr L env start f a lines f')
    hinner hlocals (fun hm' => expr_generated hm' ha) hbody).imp ?_
  rintro L _ ⟨la, lb, env', f, rfl, hA, hB⟩
  rw [hsize] at hA
  exact .value hA hB rfl

theorem Env.Matches.procedure {Δ' : Context} {Γ₀ Γ₁ Γ₂ : Locals}
    {locals locals' : List (String × Expr)} {body body' : List Stmt} {span : Span}
    {outer : Option Ty} (hm : env.Matches (Δ'.returning outer) Γ)
    (hdef : Δ.Definable name (.function types variadic ret))
    (hlocals : TypedBindings (Δ.withDefinition name span) Γ₀ locals locals' Γ₁)
    (hbody : Stmt.TypedList ((Δ.withDefinition name span).returning (some ret)) Γ₁ body body' Δ'
      Γ₂) :
    env.context.function? name = some (.function types variadic ret) ∧ env.Matches Δ' Γ ∧
      TypedBindings Δ' Γ₀ locals locals' Γ₁ := by
  have hgrowth := ((Stmt.Growth.define hdef _ _).trans hbody.growth).returning none
  exact ⟨hm.context.functions (hgrowth.kept.functions hdef.declared),
    hm.earlier (Context.returning_extends _),
    hlocals.mono ((Context.returning_extends _).trans hbody.growth.kept)⟩

theorem procedure_generated {span : Span} {locals locals' : List (String × Expr)} {Γ' : Locals}
    {body : List Stmt} (hm : env.Matches Δ Γ)
    (hf : env.context.function? name = some (.function types variadic ret))
    (hlen : params.length = types.length)
    (hlocals : TypedBindings Δ (Γ.bindAll (params.zip types)) locals locals' Γ')
    (hbody : ∀ {env₁ env₂ : Env} {start : Nat} {frame frame' : Frame} {items : List Item},
      env₁.Matches Δ Γ' → stmts (hoist env₁ body) start body frame = .ok ((items, env₂), frame') →
      Generated names frame frame' items fun L lines => ∃ slots,
        EmitsStmts L ret (hoist env₁ body) start frame.size body lines env₂ frame'.size slots)
    {frame frame' : Frame} {items : List Item}
    (h : function env start name params span true (fun env start =>
      withBindings env start locals' fun env start => block env start body) frame
        = .ok (items, frame')) :
    frame'.size = frame.size ∧ Generated (name :: names) frame frame' items fun L lines =>
      EmitsFunction L env start name params (.block locals' body) lines := by
  refine function_generated hf hlen ?_ h
  intro frame frame' items hsize hcode
  have hinner := (hm.inside name).withParams (params.zip types) headerSize
  refine (withBindings_generated (fun L env start f lines f' => ∃ env₂ slots,
    EmitsStmts L ret (hoist env body) start f body lines env₂ f' slots) hinner hlocals ?_
    hcode).imp ?_
  · intro env₁ start frame frame' items hm' h
    simp only [block, bind_apply_eq_ok_iff, pure_apply_eq_ok_iff, Prod.exists] at h
    obtain ⟨_, env₂, mid, h, rfl, rfl⟩ := h
    exact (hbody hm' h).imp fun _ _ hlines => ⟨env₂, hlines⟩
  · rintro L _ ⟨la, lb, env', f, rfl, hA, _, slots, hB⟩
    rw [hsize] at hA
    exact .block hA hB

end Function

theorem effect_of_not_assign {a : Expr} (hassign : ¬ ∃ t v vn, a = .assign t v vn) :
    effect env start a = do
      let code ← expr env start a
      return if a.ty.size = 0 then code else code ++ [env.item .ini 0 (-a.ty.size)] := by
  cases a <;> first | rfl | exact absurd ⟨_, _, _, rfl⟩ hassign

theorem effect_generated {Δ : Context} {Γ : Locals} {ret : Ty} {n : Note} (hm : env.Matches Δ Γ)
    {a e : Expr} {items : List Item} (ht : e.Typed Δ Γ a)
    (h : effect env start a frame = .ok (items, frame')) :
    Generated [] frame frame' items fun L lines =>
      ∃ slots, EmitsStmt L ret env start frame.size (.expr a n) lines env frame'.size slots := by
  by_cases hassign : ∃ t v vn, a = .assign t v vn
  · obtain ⟨t, v, vn, rfl⟩ := hassign
    cases ht with
    | assign hx hv =>
      simp only [effect, assigned_name, bind_apply_eq_ok_iff, slot_eq_ok_iff,
        pure_apply_eq_ok_iff] at h
      obtain ⟨slot, _, ⟨hslot, rfl⟩, code, mid, hc, rfl, rfl⟩ := h
      refine ((expr_generated hm hv hc).followed link_storeCells).imp ?_
      rintro L _ ⟨la, rfl, -, ha⟩
      rw [hm.vars, hslot] at hx
      exact ⟨[], .assign hslot ha (Option.some.inj hx).symm⟩
  · simp only [effect_of_not_assign hassign, bind_apply_eq_ok_iff, pure_apply_eq_ok_iff] at h
    obtain ⟨code, mid, hc, rfl, rfl⟩ := h
    have ih := expr_generated hm ht hc
    refine ⟨ih.grows, ?_⟩
    intro L lines hL hlink
    obtain ⟨la, ha, rfl⟩ : ∃ la, link L.functions code = .ok la ∧ lines = la ++
        if a.ty.size = 0 then [] else [env.line .ini 0 (Int64.ofInt (-a.ty.size))] := by
      split at hlink
      · exact ⟨lines, hlink, by simp [*]⟩
      · obtain ⟨la, lb, ha, hb, rfl⟩ := link_append.mp hlink
        rw [link_item] at hb
        exact ⟨la, ha, by simp [*]⟩
    refine ⟨[], .expr ?_ (ih.emits hL ha)⟩
    rintro t v vn rfl
    exact hassign ⟨t, v, vn, rfl⟩

mutual

theorem stmt_generated {s a : Stmt} {Δ Δ' : Context} {Γ Γ' : Locals} {ret : Ty} {env env' : Env}
    {start : Nat} {frame frame' : Frame} {items : List Item} :
    s.Typed Δ Γ a Δ' Γ' → env.Matches Δ' Γ → Δ.current = some ret →
    stmt env start a frame = .ok ((items, env'), frame') →
    (∀ Δ₂, env.Matches Δ₂ Γ → env'.Matches Δ₂ Γ') ∧
      Generated (Stmt.defines a) frame frame' items fun L lines =>
        ∃ slots, EmitsStmt L ret env start frame.size a lines env' frame'.size slots
  | .expr he, hm, hret, h => by
    simp only [stmt, bind_apply_eq_ok_iff, pure_apply_eq_ok_iff, Prod.mk.injEq] at h
    obtain ⟨code, mid, hc, ⟨rfl, rfl⟩, rfl⟩ := h
    exact ⟨fun _ => id, effect_generated hm he hc⟩
  | .declare _ _, hm, hret, h | .record _ _ _ _, hm, hret, h | .comment, hm, hret, h => by
    simp only [stmt, pure_apply_eq_ok_iff, Prod.mk.injEq] at h
    obtain ⟨⟨rfl, rfl⟩, rfl⟩ := h
    exact ⟨fun _ => id, .pure link_nil fun _ => ⟨[], by constructor⟩⟩
  | .ret hcurrent he, hm, hret, h => by
    simp only [stmt, bind_apply_eq_ok_iff, pure_apply_eq_ok_iff, Prod.mk.injEq] at h
    obtain ⟨code, mid, hc, ⟨rfl, rfl⟩, rfl⟩ := h
    refine ⟨fun _ => id, ((expr_generated hm he hc).followed link_item).imp ?_⟩
    rintro L _ ⟨la, rfl, -, ha⟩
    obtain rfl := Option.some.inj (hcurrent.symm.trans hret)
    exact ⟨[], .ret ha rfl⟩
  | .define hdef hlen _ hlocals he, hm, hret, h => by
    simp only [stmt, bind_apply_eq_ok_iff, pure_apply_eq_ok_iff, Prod.mk.injEq] at h
    obtain ⟨code, mid, hc, ⟨rfl, rfl⟩, rfl⟩ := h
    have hf := hm.context.functions hdef.declared
    obtain ⟨hsize, ih⟩ := equation_generated hm hf hlen hlocals he hc
    refine ⟨fun _ => id, ih.skipped.imp ?_⟩
    rintro L _ ⟨la, rfl, ha⟩
    rw [hsize]
    exact ⟨[], .define rfl ha⟩
  | .defineBlock hdef hlen _ hlocals hbody, hm, hret, h => by
    simp only [stmt, bind_apply_eq_ok_iff, pure_apply_eq_ok_iff, Prod.mk.injEq] at h
    obtain ⟨code, mid, hc, ⟨rfl, rfl⟩, rfl⟩ := h
    obtain ⟨hf, hm', hlocals'⟩ := hm.procedure hdef hlocals hbody
    obtain ⟨hsize, ih⟩ := procedure_generated hm' hf hlen hlocals' (fun hm₁ hcode =>
      (stmts_generated hbody (hm₁.hoist _) rfl hcode).2) hc
    refine ⟨fun _ => id, ih.skipped.imp ?_⟩
    rintro L _ ⟨la, rfl, ha⟩
    rw [hsize]
    exact ⟨[], .define rfl ha⟩
  | .loop hc hbool hbody, hm, hret, h => by
    simp only [stmt, bind_apply_eq_ok_iff, pure_apply_eq_ok_iff, Prod.mk.injEq, Prod.exists] at h
    obtain ⟨codeC, mid, hcc, codeB, env', mid', hcb, ⟨rfl, rfl⟩, rfl⟩ := h
    have ihc := expr_generated (hm.earlier hbody.growth.kept) hc hcc
    obtain ⟨-, ihb⟩ := stmts_generated hbody (hm.hoist _) hret hcb
    refine ⟨fun _ => id, (((ihc.followed link_item).append ihb).followed link_item).imp ?_⟩
    rintro L _ ⟨_, rfl, hall, _, lb, rfl, -, ⟨la, rfl, hla, hC⟩, slots, hB⟩
    simp only [List.length_append, hla, List.length_singleton, Nat.add_left_cancel_iff] at hall
    rw [← hla, ← hall]
    rw [← hla] at hB
    exact ⟨[], .loop hC (by rw [hbool]; rfl) hB⟩
  | .branch hc hbool ht he, hm, hret, h => by
    simp only [stmt, bind_apply_eq_ok_iff, pure_apply_eq_ok_iff, Prod.mk.injEq, Prod.exists] at h
    obtain ⟨codeC, mid, hcc, codeT, _, mid₁, hct, codeE, _, mid₂, hce, ⟨rfl, rfl⟩, rfl⟩ := h
    have hmt := hm.earlier he.growth.kept
    have ihc := expr_generated (hmt.earlier ht.growth.kept) hc hcc
    obtain ⟨-, iht⟩ := stmts_generated ht (hmt.hoist _) hret hct
    obtain ⟨-, ihe⟩ := stmts_generated he (hm.hoist _) (ht.current.trans hret) hce
    refine ⟨fun _ => id, (ihc.append (iht.choose ihe)).imp ?_⟩
    rintro L _ ⟨la, _, rfl, hla, hC, lt, le, rfl, hlt, ⟨slots₁, hT⟩, slots₂, hE⟩
    rw [← hla] at hT hE ⊢
    rw [← hlt] at hE
    exact ⟨[], .branch hC (by rw [hbool]; rfl) hT hE⟩
  | .bind he, hm, hret, h => by
    simp only [stmt] at h
    obtain ⟨rfl, code, rfl, ih⟩ := binding_generated hm he h
    refine ⟨fun _ hm => hm.bind _ _ _, (ih.followed link_storeCells).imp ?_⟩
    rintro L _ ⟨la, rfl, -, ha⟩
    exact ⟨_, .bind ha⟩
  | .block hbody, hm, hret, h => by
    simp only [stmt, bind_apply_eq_ok_iff, pure_apply_eq_ok_iff, Prod.mk.injEq, Prod.exists] at h
    obtain ⟨code, env', mid, hc, ⟨rfl, rfl⟩, rfl⟩ := h
    obtain ⟨-, ih⟩ := stmts_generated hbody (hm.hoist _) hret hc
    exact ⟨fun _ => id, ih.imp fun _ _ ⟨_, hB⟩ => ⟨[], .block hB⟩⟩

theorem stmts_generated {ss as : List Stmt} {Δ Δ' : Context} {Γ Γ' : Locals} {ret : Ty}
    {env env' : Env} {start : Nat} {frame frame' : Frame} {items : List Item} :
    Stmt.TypedList Δ Γ ss as Δ' Γ' → env.Matches Δ' Γ → Δ.current = some ret →
    stmts env start as frame = .ok ((items, env'), frame') →
    (∀ Δ₂, env.Matches Δ₂ Γ → env'.Matches Δ₂ Γ') ∧
      Generated (Stmt.definesList as) frame frame' items fun L lines =>
        ∃ slots, EmitsStmts L ret env start frame.size as lines env' frame'.size slots
  | .nil, hm, hret, h => by
    simp only [stmts, pure_apply_eq_ok_iff, Prod.mk.injEq] at h
    obtain ⟨⟨rfl, rfl⟩, rfl⟩ := h
    exact ⟨fun _ => id, .pure link_nil fun _ => ⟨[], .nil⟩⟩
  | .cons ha has, hm, hret, h => by
    simp only [stmts, bind_apply_eq_ok_iff, pure_apply_eq_ok_iff, Prod.mk.injEq, Prod.exists] at h
    obtain ⟨code, env₁, mid, hc, rest, _, _, hr, ⟨rfl, rfl⟩, rfl⟩ := h
    obtain ⟨hm₁, iha⟩ := stmt_generated ha (hm.earlier has.growth.kept) hret hc
    obtain ⟨hm₂, ihas⟩ := stmts_generated has (hm₁ _ hm) (ha.current.trans hret) hr
    refine ⟨fun Δ₂ h => hm₂ Δ₂ (hm₁ Δ₂ h), (iha.append ihas).imp ?_⟩
    rintro L _ ⟨la, lb, rfl, hla, ⟨slots₁, hA⟩, slots₂, hB⟩
    rw [← hla] at hB
    exact ⟨_, .cons hA hB⟩

end

theorem Generated.top {a : Stmt} {as : List Stmt} {name : String} {params : List String}
    {B : Body} {names names' : List String} {mid : Frame} {code rest : List Item}
    (hdef : a.definition? = some (name, params, B))
    (hcode : Generated names frame mid code fun L lines => EmitsFunction L env start name params B
      lines)
    (hrest : Generated names' mid frame' rest fun L lines => EmitsTop L env (start + code.length)
      as lines) :
    Generated (names ++ names') frame frame' (code ++ rest) fun L lines =>
      EmitsTop L env start (a :: as) lines := by
  refine (hcode.append hrest).imp ?_
  rintro L _ ⟨la, lb, rfl, hla, hA, hB⟩
  rw [← hla] at hB
  exact .define hdef hA hB

theorem topLevel_generated {ss as : List Stmt} {Δ Δ' : Context} {Γ Γ' : Locals} {env : Env}
    {start : Nat} {frame frame' : Frame} {items : List Item} :
    Stmt.TypedList Δ Γ ss as Δ' Γ' → env.Matches Δ' Γ →
    topLevel env start as frame = .ok (items, frame') →
    Generated (Stmt.definesList as) frame frame' items fun L lines => EmitsTop L env start as lines
  | .nil, hm, h => by
    simp only [topLevel, pure_apply_eq_ok_iff] at h
    obtain ⟨rfl, rfl⟩ := h
    exact .pure link_nil fun _ => .nil
  | .cons ha has, hm, h => by
    have hm₁ := hm.earlier has.growth.kept
    cases ha with
    | define hdef hlen _ hlocals he =>
      simp only [topLevel, bind_apply_eq_ok_iff, pure_apply_eq_ok_iff] at h
      obtain ⟨code, mid, hc, rest, mid', hr, rfl, rfl⟩ := h
      have hf := hm₁.context.functions hdef.declared
      obtain ⟨-, ih⟩ := equation_generated hm₁ hf hlen hlocals he hc
      exact .top rfl ih (topLevel_generated has hm hr)
    | defineBlock hdef hlen _ hlocals hbody =>
      simp only [topLevel, bind_apply_eq_ok_iff, pure_apply_eq_ok_iff] at h
      obtain ⟨code, mid, hc, rest, mid', hr, rfl, rfl⟩ := h
      obtain ⟨hf, hm', hlocals'⟩ := hm₁.procedure hdef hlocals hbody
      obtain ⟨-, ih⟩ := procedure_generated hm' hf hlen hlocals' (fun hm₁ hcode =>
        (stmts_generated hbody (hm₁.hoist _) rfl hcode).2) hc
      exact .top rfl ih (topLevel_generated has hm hr)
    | declare | record | comment =>
      simp only [topLevel, bind_apply_eq_ok_iff, pure_apply_eq_ok_iff] at h
      obtain ⟨code, mid, ⟨rfl, rfl⟩, rest, mid', hr, rfl, rfl⟩ := h
      exact (topLevel_generated has hm hr).imp fun _ _ hall => .skip rfl hall
    | _ => simp [topLevel, bind_apply_eq_ok_iff] at h

theorem EmitsTop.function {L : Listing} {program : List Stmt} {lines : List Line} {name : String}
    (h : EmitsTop L env start program lines) (hdef : Stmt.isDefinedIn name program = true) :
    ∃ entry params b a, EmitsFunction L env entry name params b a := by
  induction h with
  | nil => simp at hdef
  | skip hsilent _ ih =>
    rw [Stmt.isDefinedIn_cons, Stmt.definition?_of_isSilent hsilent] at hdef
    exact ih (by simpa using hdef)
  | @define _ _ _ other _ _ _ _ hs hfun _ ih =>
    rw [Stmt.isDefinedIn_cons, hs] at hdef
    by_cases hname : other = name
    · subst hname
      exact ⟨_, _, _, _, hfun⟩
    · exact ih (by simpa [hname] using hdef)

theorem mainEntry_eq_ok {fs : Table Nat} {main : Nat} (h : mainEntry env fs = .ok main) :
    fs.get? "main" = some main ∧
      (∃ level, env.funs.get? "main" = some level) ∧
      ∀ types variadic ret, env.context.function? "main" = some (.function types variadic ret) →
        types = [] := by
  unfold mainEntry at h
  cases hmain : fs.get? "main" with
  | none => simp [hmain] at h
  | some entry =>
    simp only [hmain] at h
    split at h
    · rename_i hfun
      obtain ⟨level, hlevel⟩ := Option.isSome_iff_exists.mp hfun
      split at h
      · simp at h
      · rename_i hparams
        cases h
        refine ⟨rfl, ⟨level, hlevel⟩, ?_⟩
        intro types variadic ret hf
        cases types with
        | nil => rfl
        | cons τ types => exact absurd hf (hparams τ types variadic ret)
    · simp at h

end Codegen

open Codegen

/-- The functions of a typed program are generated as the relations say, and each name once. -/
theorem Program.functions_generated {program typed : Program} {Δ : Context} {items : List Item}
    {frame : Frame} (ht : program.Typed .empty typed Δ)
    (h : topLevel (hoist { context := Δ } typed) 1 typed {} = .ok (items, frame)) :
    (frame.functions.map Prod.fst).Nodup ∧
      Generated (Stmt.definesList typed) {} frame items fun L lines =>
        EmitsTop L (hoist { context := Δ } typed) 1 typed lines := by
  have hnodup := ht.defines_nodup
  have hlawful := ht.lawful
  obtain ⟨Γ, ht⟩ := ht
  have hm : (hoist { context := Δ } typed).Matches Δ [] := by
    refine Env.Matches.hoist ⟨?_, .refl Δ, hlawful⟩ typed
    intro x
    rfl
  have hgen := topLevel_generated ht hm h
  obtain ⟨entries, hfunctions, hnames⟩ := hgen.grows.functions
  rw [List.append_nil] at hfunctions
  refine ⟨?_, hgen⟩
  rw [hfunctions, hnames, (List.reverse_perm _).nodup_iff]
  exact hnodup

/-- A typed program that has a listing is compiled as the relations say. -/
theorem Program.listing_emits {program typed : Program} {Δ : Context} {L : Listing}
    (ht : program.Typed .empty typed Δ) (h : typed.listing Δ = .ok L) :
    EmitsProgram L Δ typed := by
  simp only [Program.listing, bind_eq_ok_iff, Prod.exists] at h
  obtain ⟨items, frame, hitems, main, hmain, lines, hlink, hL⟩ := h
  cases hL
  obtain ⟨hnodup, hgen⟩ := Program.functions_generated ht hitems
  have hcovers : Listing.Covers ⟨lines, frame.strings, frame.functions⟩ frame :=
    ⟨List.suffix_rfl, List.prefix_rfl, hnodup⟩
  obtain ⟨hentry, ⟨level, hlevel⟩, hparams⟩ := mainEntry_eq_ok hmain
  obtain ⟨_, ls, hjf, hls, hlines⟩ := link_append.mp hlink
  obtain ⟨lj, lf, hlj, hlf, rfl⟩ := link_append.mp hjf
  rw [link_item] at hlj
  subst hlj
  rw [← List.singleton_append, link_append] at hls
  obtain ⟨lcap, lcal, hcap, hcal, rfl⟩ := hls
  rw [link_item] at hcap hcal
  subst hcap hcal
  have htop := hgen.emits hcovers hlf
  -- `main` is hoisted from the top level, so its signature is known
  have hdef : Stmt.isDefinedIn "main" typed = true := by
    rw [hoist_funs] at hlevel
    by_cases hdef : Stmt.isDefinedIn "main" typed = true
    · exact hdef
    · simp [hdef] at hlevel
  obtain ⟨entry, params, b, a, hfun⟩ := htop.function hdef
  cases hfun with
  | @mk _ _ _ _ _ types variadic ret _ _ _ hf _ _ _ =>
    obtain rfl := hparams types variadic ret hf
    have hlevel0 : (hoist { context := Δ } typed).level = 0 := hoist_level
    refine .mk rfl htop (.mk hlevel hf List.nil_prefix hentry .nil) ?_
    rw [hlines, link_length hlf]
    simp [hlevel0]

section Text

variable {text : String} {typed : Program} {Δ : Context} {image : Image}

theorem checkText_typed (h : checkText text = .ok (typed, Δ)) :
    ∃ program : Program, program.Typed .empty typed Δ := by
  simp only [checkText, bind_eq_ok_iff, mapError_eq_ok_iff] at h
  obtain ⟨program, _, h⟩ := h
  exact ⟨program, Program.check_eq_ok_iff.mp h⟩

/-- The image of a source is that of a listing whose lines are those of the rules of emission. -/
theorem compileText_emits (hcheck : checkText text = .ok (typed, Δ))
    (hcompile : compileText text = .ok image) :
    ∃ L : Listing, L.image = image ∧ EmitsProgram L Δ typed := by
  obtain ⟨program, htyped⟩ := checkText_typed hcheck
  simp only [compileText, hcheck, bind_eq_ok_iff, Except.ok.injEq, exists_eq_left',
    mapError_eq_ok_iff, Program.compile] at hcompile
  obtain ⟨L, hlisting, hL⟩ := hcompile
  cases hL
  exact ⟨L, rfl, Program.listing_emits htyped hlisting⟩

end Text

end PCode
